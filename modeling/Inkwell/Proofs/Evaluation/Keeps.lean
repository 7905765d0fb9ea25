import Inkwell.Evaluation.Run
import Inkwell.Proofs.Evaluation.Region

/-!
# Evaluation keeps to a discipline

Whatever keeps to a discipline evaluates to something that does: a region in order stays so at every
step, and every result is a good value, a fault that may arise, or a good value on its way out of a
function. The argument follows the evaluator; each of its functions has one theorem.
-/

namespace Inkwell

open EvalM

variable {D : Discipline} {R : Region} {α β : Type} {scope : ScopeId} {v : Value}

/-- The value of a program or a call: a good one, or a fault. -/
inductive Value.Ending (D : Discipline) (R : Region) : Value → Prop
  | value {v : Value} : v.Good D R → Ending D R v
  | fault {f : Fault} : D.fault f → Ending D R (.error f.message)

/-- The value of an expression: an ending, or a good value on its way out of a function. -/
inductive Value.Outcome (D : Discipline) (R : Region) : Value → Prop
  | ending {v : Value} : v.Ending D R → Outcome D R v
  | returned {v : Value} : v.Good D R → Outcome D R (.returned v)

/-- A good value is a good outcome. -/
theorem Value.Good.outcome (h : v.Good D R) : v.Outcome D R := .ending (.value h)

/-- A value that does not interrupt evaluation is good. -/
theorem Value.Outcome.good (h : v.Outcome D R) (hi : ¬ v.interrupts = true) : v.Good D R := by
  cases h with
  | returned => exact absurd rfl hi
  | ending h =>
    cases h with
    | value h => exact h
    | fault => exact absurd rfl hi

/-- A good value is not wrapped in a return. -/
theorem Value.Good.unwrap (h : v.Good D R) : v.unwrap = v := by
  cases v with
  | returned inner => exact absurd (D.calm h.value) nofun
  | int => rfl
  | bool => rfl
  | null => rfl
  | error => rfl
  | fn => rfl

/-- Calls and programs take the wrapper off, so that it never gets out of them. -/
theorem Value.Outcome.unwrap (h : v.Outcome D R) : v.unwrap.Ending D R := by
  cases h with
  | returned h => exact .value h
  | ending h =>
    cases h with
    | value h => exact h.unwrap.symm ▸ .value h
    | fault h => exact .fault h

/-- The result of a statement: an outcome, if there is one. -/
def Stmt.Result (D : Discipline) (R : Region) (result : Option Value) : Prop :=
  ∀ v ∈ result, v.Outcome D R

/-- The arguments of a call: one good value for each, or what interrupts the first of them that is
interrupted. -/
def Expr.Arguments (D : Discipline) (R : Region) (es : List Expr) :
    Except Value (List Value) → Prop
  | .ok values => values.length = es.length ∧ ∀ v ∈ values, v.Good D R
  | .error interrupt => interrupt.Outcome D R ∧ interrupt.interrupts = true

/-- No value at all is a good result of a statement. -/
theorem Stmt.result_none : Stmt.Result D R none := fun _ h => nomatch h

/-- A good outcome is a good result of a statement. -/
theorem Stmt.result_some (h : v.Outcome D R) : Stmt.Result D R (some v) := fun w hw => by
  cases hw
  exact h

/-- Steps that keep a region in order, also when the depth is exceeded, and have a result as
described. -/
def Keeps (D : Discipline) (R : Region) (x : EvalM α) (Q : α → Prop) : Prop :=
  ∀ machine, machine.heap.InOrder D R → match x.run machine with
    | .ok a after => after.heap.InOrder D R ∧ Q a
    | .error _ after => after.heap.InOrder D R

namespace EvalM

/-- Steps in sequence run one behind the other, unless the first ones exceed their depth. -/
theorem run_bind (x : EvalM α) (f : α → EvalM β) (machine : Machine) :
    (x >>= f).run machine = match x.run machine with
      | .ok a after => (f a).run after
      | .error e after => .error e after := by
  simp only [EStateM.run, bind, EStateM.bind]
  cases x machine <;> rfl

/-- Looking a name up leaves the machine alone. -/
theorem run_lookup (depth : Nat) (scope : ScopeId) (name : String) (machine : Machine) :
    (lookup depth scope name).run machine = match machine.heap.get? name depth scope with
      | .ok found => .ok found machine
      | .error _ => .error .mk machine := by
  have hget : (get : EvalM Machine).run machine = .ok machine machine := rfl
  unfold lookup
  rw [run_bind, hget]
  dsimp only
  cases machine.heap.get? name depth scope <;> rfl

/-- A call is closed whichever way it ends. -/
theorem run_nested (x : EvalM α) (machine : Machine) :
    (nested x).run machine = match x.run machine.enter with
      | .ok a after => .ok a after.leave
      | .error e after => .error e after.leave := rfl

end EvalM

namespace Keeps

variable {Q : α → Prop} {P : β → Prop}

/-- A result keeps the heap in order if it is as it shall be. -/
theorem pure {a : α} (h : Q a) : Keeps D R (pure a) Q := fun _ hm => ⟨hm, h⟩

/-- Steps in sequence keep the heap in order if each of them does. -/
theorem bind {x : EvalM α} {f : α → EvalM β} (hx : Keeps D R x Q)
    (hf : ∀ a, Q a → Keeps D R (f a) P) : Keeps D R (x >>= f) P := by
  intro machine hm
  have h := hx machine hm
  rw [run_bind]
  cases hr : x.run machine with
  | error => rwa [hr] at h
  | ok a after =>
    rw [hr] at h
    exact hf a h.2 after h.1

/-- So does a choice between steps that do. -/
theorem ite {c : Prop} [Decidable c] {x y : EvalM α} (hx : c → Keeps D R x Q)
    (hy : ¬ c → Keeps D R y Q) : Keeps D R (if c then x else y) Q := by
  split
  · exact hx ‹_›
  · exact hy ‹_›

/-- What is known of a result may be weakened. -/
theorem mono {x : EvalM α} {Q' : α → Prop} (hx : Keeps D R x Q) (h : ∀ a, Q a → Q' a) :
    Keeps D R x Q' := by
  intro machine hm
  have hr := hx machine hm
  split at hr
  · exact ⟨hr.1, h _ hr.2⟩
  · exact hr

/-- Giving up keeps the heap in order, since it leaves it alone. -/
theorem exceed : Keeps D R (EvalM.exceed : EvalM α) Q := fun _ hm => hm

theorem record (message : Message) : Keeps D R (EvalM.record message) fun _ => True :=
  fun _ hm => ⟨hm, trivial⟩

theorem shown (depth : Nat) (value : Value) :
    Keeps D R (EvalM.shown depth value) fun _ => True := by
  unfold EvalM.shown
  split
  · exact .pure trivial
  · exact .exceed

theorem shownExpr (depth : Nat) (e : Expr) :
    Keeps D R (EvalM.shownExpr depth e) fun _ => True := by
  unfold EvalM.shownExpr
  exact .ite (fun _ => .pure trivial) fun _ => .exceed

theorem mapM_shown (depth : Nat) (values : List Value) :
    Keeps D R (values.mapM (EvalM.shown depth)) fun _ => True := by
  induction values with
  | nil => exact .pure trivial
  | cons first rest ih =>
    rw [List.mapM_cons]
    exact (shown depth first).bind fun _ _ => ih.bind fun _ _ => .pure trivial

/-- Raising a fault that may occur gives a good ending. -/
theorem raise {verbosity : Int} {fault : Fault} (h : D.fault fault) :
    Keeps D R (EvalM.raise verbosity fault) (Value.Ending D R) := by
  unfold EvalM.raise
  exact .ite (fun _ => (record _).bind fun _ _ => .pure (.fault h)) fun _ => .pure (.fault h)

/-- A good value may be bound. -/
theorem define {name : String} (hv : v.Good D R) :
    Keeps D R (EvalM.define scope name v) fun _ => True :=
  fun _ hm => ⟨hm.set hv, trivial⟩

/-- What is found from a scope of the region is good. -/
theorem lookup {depth : Nat} {name : String} (hs : R.has scope) :
    Keeps D R (EvalM.lookup depth scope name) fun found => ∀ v ∈ found, v.Good D R := by
  intro machine hm
  rw [run_lookup]
  cases hg : machine.heap.get? name depth scope with
  | error => exact hm
  | ok found =>
    refine ⟨hm, fun v hv => ?_⟩
    rw [Option.mem_def.mp hv] at hg
    exact hm.get? hs hg

/-- A new scope with good bindings, inside one of the region, is in the region. -/
theorem allocate {s : Scope} (hb : s.bindings.Good D R)
    (ho : ∀ {outer}, s.outer = some outer → R.has outer) :
    Keeps D R (EvalM.allocate s) R.has := fun _ hm =>
  ⟨(hm.allocate hb ho).2, (hm.allocate hb ho).1⟩

/-- The steps of a call keep the heap in order if they do so outside of it. -/
theorem nested {x : EvalM α} (hx : Keeps D R x Q) : Keeps D R (EvalM.nested x) Q := by
  intro machine hm
  have h := hx machine.enter hm
  rw [run_nested]
  cases hr : x.run machine.enter with
  | error => rwa [hr] at h
  | ok => rwa [hr] at h

/-- An expression inside another: where it interrupts, its value is handed on. -/
theorem bind_value {x : EvalM Value} {f : Value → EvalM β} {h : Value → β}
    (hx : Keeps D R x (Value.Outcome D R))
    (hh : ∀ v, v.Outcome D R → P (h v)) (hf : ∀ v, v.Good D R → Keeps D R (f v) P) :
    Keeps D R (do let v ← x; if v.interrupts then return h v else f v) P :=
  hx.bind fun v hv => .ite (fun _ => .pure (hh v hv)) fun hi => hf v (hv.good hi)

/-- A choice between two branches. -/
theorem cond {verbosity : Int} {depth : Nat} {e : Expr} {x y z : EvalM Value}
    (hx : Keeps D R x (Value.Outcome D R)) (hy : Keeps D R y (Value.Outcome D R))
    (hz : Keeps D R z (Value.Outcome D R)) : Keeps D R (do
      let value ← x
      if value.interrupts then return value
      if 3 ≤ verbosity then
        let text ← EvalM.shownExpr depth e
        EvalM.record (.tested text (← EvalM.shown depth value) value.isTruthy)
      if value.isTruthy then y else z) (Value.Outcome D R) := by
  refine hx.bind_value (fun _ h => h) fun v _ => ?_
  have hrest : Keeps D R (if v.isTruthy then y else z) (Value.Outcome D R) :=
    .ite (fun _ => hy) fun _ => hz
  refine .ite (fun _ => ?_) fun _ => hrest
  exact (shownExpr depth e).bind fun _ _ => (shown depth v).bind fun _ _ =>
    (record _).bind fun _ _ => hrest

end Keeps

/-- An evaluator of expressions that keeps to a discipline. -/
def Evaluator.Keeps (D : Discipline) (R : Region) (eval : Evaluator) : Prop :=
  ∀ {scope : ScopeId} {e : Expr}, R.has scope → (∀ p ∈ e.parts, D.node p) →
    Inkwell.Keeps D R (eval scope e) (Value.Outcome D R)

section Evaluator

variable {verbosity : Int} {depth : Nat} {eval : Evaluator}

mutual

/-- A statement keeps the heap in order if the expressions in it do. -/
theorem Stmt.keeps_eval (he : eval.Keeps D R) (hs : R.has scope) : ∀ {s : Stmt},
    (∀ p ∈ s.parts, D.node p) →
    Keeps D R (s.eval verbosity depth eval scope) (Stmt.Result D R)
  | .bare _ e, hp => by
    rw [Stmt.eval]
    exact (he hs hp).bind fun v hv => .pure (Stmt.result_some hv)
  | .define _ name e, hp => by
    rw [Stmt.eval]
    have hend : Keeps D R (pure none : EvalM (Option Value)) (Stmt.Result D R) :=
      .pure Stmt.result_none
    refine (he hs hp).bind_value (fun _ => Stmt.result_some) fun v hv => ?_
    refine (Keeps.define hv).bind fun _ _ => .ite (fun _ => ?_) fun _ => hend
    exact (Keeps.shown depth v).bind fun _ _ => (Keeps.record _).bind fun _ _ => hend
  | .ret _ none, _ => by
    rw [Stmt.eval]
    exact .pure (Stmt.result_some (.returned Value.good_null))
  | .ret _ (some e), hp => by
    rw [Stmt.eval]
    refine (he hs hp).bind fun v hv => .pure (Stmt.result_some ?_)
    split
    · exact hv
    · exact .returned (hv.good ‹_›)
  | .block inner, hp => by
    rw [Stmt.eval]
    exact Block.keeps_eval he hs hp

theorem Block.keeps_eval (he : eval.Keeps D R) (hs : R.has scope) : ∀ {b : Block},
    (∀ p ∈ b.parts, D.node p) →
    Keeps D R (b.eval verbosity depth eval scope) (Stmt.Result D R)
  | .mk _ ss, hp => by
    rw [Block.eval]
    exact Stmt.keeps_evalAll he hs Stmt.result_none hp

/-- So do statements in a row, of which the last result is handed on. -/
theorem Stmt.keeps_evalAll (he : eval.Keeps D R) (hs : R.has scope) :
    ∀ {ss : List Stmt} {last : Option Value}, Stmt.Result D R last →
    (∀ p ∈ Stmt.partsAll ss, D.node p) →
    Keeps D R (Stmt.evalAll verbosity depth eval scope last ss) (Stmt.Result D R)
  | [], _, hl, _ => by
    rw [Stmt.evalAll]
    exact .pure hl
  | s :: ss, _, _, hp => by
    rw [Stmt.partsAll, List.forall_mem_append] at hp
    rw [Stmt.evalAll]
    refine (Stmt.keeps_eval he hs hp.1).bind fun result hr => ?_
    cases result with
    | none => exact Stmt.keeps_evalAll he hs hr hp.2
    | some v => exact .ite (fun _ => .pure hr) fun _ => Stmt.keeps_evalAll he hs hr hp.2

end

/-- Arguments are good values, unless one of them interrupts. -/
theorem Expr.keeps_evalArguments (he : eval.Keeps D R) (hs : R.has scope) {es : List Expr}
    (hp : ∀ p ∈ Expr.partsAll es, D.node p) :
    Keeps D R (Expr.evalArguments eval scope es) (Expr.Arguments D R es) := by
  induction es with
  | nil => exact .pure ⟨rfl, fun _ h => nomatch h⟩
  | cons e es ih =>
    rw [Expr.partsAll, List.forall_mem_append] at hp
    rw [Expr.evalArguments]
    refine (he hs hp.1).bind fun v hv => .ite (fun hi => .pure ⟨hv, hi⟩) fun hi => ?_
    refine (ih hp.2).bind fun result hr => ?_
    cases result with
    | error => exact .pure hr
    | ok values =>
      refine .pure ⟨congrArg Nat.succ hr.1, fun w hw => ?_⟩
      rcases List.mem_cons.mp hw with rfl | hw
      · exact hv.good hi
      · exact hr.2 w hw

/-- The bindings of a call are good if its arguments are. -/
theorem argumentBindings_good {parameters : List String} {arguments : List Value}
    (h : ∀ v ∈ arguments, v.Good D R) : (argumentBindings parameters arguments).Good D R := by
  have hgo : ∀ {bindings : Bindings}, bindings.Good D R →
      (argumentBindings.go bindings parameters arguments).Good D R := by
    induction parameters generalizing arguments with
    | nil => exact fun hb => hb
    | cons name names ih =>
      intro bindings hb
      cases arguments with
      | nil => exact ih h (hb.set Value.good_null)
      | cons first rest =>
        rw [List.forall_mem_cons] at h
        exact ih h.2 (hb.set h.1)
  exact hgo .nil

/-- A call gives an ending: it takes the wrapper of a `return` off. -/
theorem Value.keeps_call (he : eval.Keeps D R) (hv : v.Good D R) {arguments : List Value}
    (ha : ∀ v ∈ arguments, v.Good D R) :
    Keeps D R (v.call verbosity depth eval arguments) (Value.Ending D R) := by
  cases v with
  | fn parameters body outer =>
    have hbody : ∀ {inner : ScopeId}, R.has inner →
        Keeps D R (nested (body.eval verbosity depth eval inner)) (Stmt.Result D R) := fun hs =>
      .nested (Block.keeps_eval he hs (D.body hv.value))
    have hrest : ∀ {inner : ScopeId}, R.has inner → Keeps D R (do
        let result ← nested (body.eval verbosity depth eval inner)
        let result := (result.getD .null).unwrap
        if 1 ≤ verbosity then record (.returned (← shown depth result))
        return result) (Value.Ending D R) := by
      intro inner hs
      refine (hbody hs).bind fun result hr => ?_
      have hend : (result.getD .null).unwrap.Ending D R := by
        cases result with
        | none => exact .value Value.good_null
        | some w => exact (hr w rfl).unwrap
      refine .ite (fun _ => ?_) fun _ => .pure hend
      exact (Keeps.shown depth _).bind fun _ _ => (Keeps.record _).bind fun _ _ => .pure hend
    rw [Value.call]
    refine (Keeps.allocate (argumentBindings_good ha) ?_).bind fun inner hs => ?_
    · rintro target heq
      cases heq
      exact hv.inside rfl
    · refine .ite (fun _ => ?_) fun _ => hrest hs
      exact (Keeps.mapM_shown depth arguments).bind fun _ _ =>
        (Keeps.record _).bind fun _ _ => hrest hs
  | int => exact .raise (D.notFunction hv.value nofun)
  | bool => exact .raise (D.notFunction hv.value nofun)
  | null => exact .raise (D.notFunction hv.value nofun)
  | error => exact .raise (D.notFunction hv.value nofun)
  | returned => exact .raise (D.notFunction hv.value nofun)

/-- The value of a branch, null if it has none. -/
theorem Block.keeps_branch (he : eval.Keeps D R) (hs : R.has scope) {b : Block}
    (hp : ∀ p ∈ b.parts, D.node p) :
    Keeps D R (do return (← b.eval verbosity depth eval scope).getD .null) (Value.Outcome D R) := by
  refine (Block.keeps_eval he hs hp).bind fun result hr => .pure ?_
  cases result with
  | none => exact Value.good_null.outcome
  | some v => exact hr v rfl

end Evaluator

/-- What operators give: integers of the language, and truth values. -/
inductive Value.Computed : Value → Prop
  | int (number : Int) : Computed (.int (wrap number))
  | bool (truth : Bool) : Computed (.bool truth)

/-- What an operator computes is good in any discipline. -/
theorem Value.Computed.good (h : v.Computed) : v.Good D R := by
  cases h with
  | int number => exact .of_value (D.wrapped number) nofun
  | bool truth => exact .of_value (D.bool truth) nofun

/-- A prefix operator gives no other value than one that is computed. -/
theorem Value.computed_unary {operator : String} {w : Value} (h : v.unary operator = .ok w) :
    w.Computed := by
  unfold Value.unary at h
  split at h
  · cases h
    exact .bool _
  · cases h
    exact .int _
  · cases h

theorem Value.computed_arithmetic {operator : String} {a b : Int} {w : Value}
    (h : Value.arithmetic operator a b = .ok w) : w.Computed := by
  unfold Value.arithmetic at h
  split at h
  case h_4 =>
    split at h
    · cases h
    · cases h
      exact .int _
  all_goals cases h
  all_goals first
    | exact .int _
    | exact .bool _

/-- Neither does any other operator between operands. -/
theorem Value.computed_binary {operator : String} {u w : Value}
    (h : v.binary operator u = .ok w) : w.Computed := by
  unfold Value.binary at h
  split at h
  · exact Value.computed_arithmetic h
  · split at h
    · cases h
      exact .bool _
    · cases h
      exact .bool _
    · cases h
  · split at h <;> cases h

/-- The value of an operation, or its fault. -/
theorem EvalM.keeps_settle {verbosity : Int} {result : Except Fault Value}
    (hv : ∀ w, result = .ok w → w.Computed) (hf : ∀ f, result = .error f → D.fault f) :
    Keeps D R (settle verbosity result) (Value.Outcome D R) := by
  unfold settle
  cases result with
  | ok w => exact .pure (hv w rfl).good.outcome
  | error f => exact (Keeps.raise (hf f rfl)).mono fun _ => .ending

/-- Evaluation keeps to every discipline that the tree keeps to. -/
theorem Expr.keeps_eval (verbosity : Int) (depth : Nat) :
    Evaluator.Keeps D R (Expr.eval verbosity depth) := by
  induction depth with
  | zero =>
    intro scope e _ _
    rw [Expr.eval]
    exact .exceed
  | succ depth ih =>
    intro scope e hs hp
    have hnode := hp e e.mem_parts_self
    cases e with
    | int token number =>
      rw [Expr.eval]
      exact .pure (Value.Good.of_value (D.int hnode) nofun).outcome
    | bool token truth =>
      rw [Expr.eval]
      exact .pure (Value.Good.of_value (D.bool truth) nofun).outcome
    | ident name =>
      rw [Expr.eval]
      refine (Keeps.lookup hs).bind fun found hf => ?_
      cases found with
      | none => exact (Keeps.raise (D.unbound _)).mono fun _ => .ending
      | some v => exact .pure (hf v rfl).outcome
    | unary token operator operand =>
      rw [Expr.parts, List.forall_mem_cons] at hp
      rw [Expr.eval]
      refine (ih hs hp.2).bind_value (fun _ h => h) fun v hv => ?_
      exact EvalM.keeps_settle (fun _ => Value.computed_unary) fun _ => D.unary hnode hv.value
    | binary token left operator right =>
      rw [Expr.parts, List.forall_mem_cons, List.forall_mem_append] at hp
      rw [Expr.eval]
      refine (ih hs hp.2.1).bind_value (fun _ h => h) fun v hv => ?_
      refine (ih hs hp.2.2).bind_value (fun _ h => h) fun w hw => ?_
      exact EvalM.keeps_settle (fun _ => Value.computed_binary)
        fun _ => D.binary hnode hv.value hw.value
    | cond token condition consequence alternative =>
      rw [Expr.parts, List.forall_mem_cons, List.forall_mem_append, List.forall_mem_append] at hp
      have hbranch : ∀ {b : Block}, (∀ p ∈ b.parts, D.node p) → Keeps D R (do
          return (← b.eval verbosity depth (Expr.eval verbosity depth) scope).getD .null)
          (Value.Outcome D R) := fun hb => Block.keeps_branch ih hs hb
      cases alternative with
      | none =>
        rw [Expr.eval]
        exact .cond (ih hs hp.2.1) (hbranch hp.2.2.1) (.pure Value.good_null.outcome)
      | some block =>
        rw [Expr.eval]
        exact .cond (ih hs hp.2.1) (hbranch hp.2.2.1) (hbranch hp.2.2.2)
    | fn token parameters body =>
      rw [Expr.eval]
      refine .pure (Value.Good.outcome ⟨D.fn scope hnode, fun heq => ?_⟩)
      cases heq
      exact hs
    | call token callee arguments =>
      rw [Expr.parts, List.forall_mem_cons, List.forall_mem_append] at hp
      rw [Expr.eval]
      refine (ih hs hp.2.1).bind_value (fun _ h => h) fun v hv => ?_
      refine (Expr.keeps_evalArguments ih hs hp.2.2).bind fun result hr => ?_
      cases result with
      | error interrupt => exact .pure hr.1
      | ok values => exact (Value.keeps_call ih hv hr.2).mono fun _ => .ending

/-- A program gives nothing, a good value or a fault, and never a wrapper. -/
theorem Program.keeps_eval {verbosity : Int} {depth : Nat} {program : Program}
    (hs : R.has scope) (hp : ∀ p ∈ program.parts, D.node p) :
    Keeps D R (program.eval verbosity depth scope) fun result => ∀ v ∈ result, v.Ending D R := by
  have he : Evaluator.Keeps D R (Expr.eval verbosity depth) := Expr.keeps_eval verbosity depth
  refine (Stmt.keeps_evalAll he hs Stmt.result_none hp).bind fun result hr => .pure ?_
  intro v hv
  obtain ⟨w, hw, rfl⟩ := Option.map_eq_some_iff.mp hv
  exact (hr w hw).unwrap

end Inkwell
