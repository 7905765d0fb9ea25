import Inkwell.Proofs.Evaluation.Points
import Inkwell.Proofs.Tree.Names

/-!
# What evaluation may write

Evaluating in a scope writes to this scope alone, and there only the names that the tree binds
outside of its function literals; calls write to no scope that existed before them. However
evaluation ends, no binding disappears, no scope changes its outer scope, the calls that were opened
are closed again, and the trace is only extended.

`Machine.Confined` says this of the machines before and after, for any set of places that may be
written. Steps compose, and a place in a scope that did not exist before need not be mentioned: this
is how a call hides the writes to its own scope.
-/

namespace Inkwell

open EvalM

variable {α β : Type} {scope : ScopeId} {v : Value}

/-- Bindings of one scope before and after, where only some names may be written. -/
structure Bindings.Grow (writes : String → Prop) (before after : Bindings) : Prop where
  /-- No name loses its binding. -/
  kept {name : String} : before.get? name ≠ none → after.get? name ≠ none
  /-- All other names are bound as before. -/
  others {name : String} : ¬ writes name → after.get? name = before.get? name
  /-- Where no name may be written, nothing changes at all. -/
  same : (∀ name, ¬ writes name) → after = before

/-- Machines before and after some steps that may write some names in some scopes. -/
structure Machine.Confined (writes : ScopeId → String → Prop) (before after : Machine) : Prop where
  /-- Every scope still exists and has the same outer scope. Only names that may be written there
  can have changed. -/
  scope {target : ScopeId} {s : Scope} : before.heap.scopes[target]? = some s →
    ∃ t, after.heap.scopes[target]? = some t ∧ t.outer = s.outer ∧
      s.bindings.Grow (writes target) t.bindings
  /-- As many calls are open. -/
  openCalls : after.openCalls = before.openCalls
  /-- The trace is only extended. -/
  trace : before.trace.toList <+: after.trace.toList

variable {writes : ScopeId → String → Prop}

namespace Bindings.Grow

variable {may : String → Prop} {before middle after : Bindings}

/-- Bindings that stay the same have not grown. -/
theorem refl (bindings : Bindings) : bindings.Grow may bindings := ⟨id, fun _ => rfl, fun _ => rfl⟩

/-- Growing twice by the same names is growing by them. -/
theorem trans (first : before.Grow may middle) (second : middle.Grow may after) :
    before.Grow may after where
  kept h := second.kept (first.kept h)
  others h := (second.others h).trans (first.others h)
  same h := (second.same h).trans (first.same h)

/-- More names may be allowed. -/
theorem mono {more : String → Prop} (h : before.Grow may after)
    (hle : ∀ name, may name → more name) : before.Grow more after where
  kept := h.kept
  others hn := h.others fun hm => hn (hle _ hm)
  same hn := h.same fun name hm => hn name (hle _ hm)

/-- Setting an allowed name is growing by it. -/
theorem set {name : String} (h : may name) : before.Grow may (before.set name v) where
  kept hb := by
    rw [Bindings.get?_set]
    split
    · nofun
    · exact hb
  others hn := by
    rw [Bindings.get?_set, if_neg]
    rintro rfl
    exact hn h
  same hn := absurd h (hn name)

end Bindings.Grow

namespace Machine.Confined

variable {before middle after : Machine}

/-- A machine that stays the same is confined. -/
theorem refl (machine : Machine) : machine.Confined writes machine :=
  ⟨fun hs => ⟨_, hs, rfl, .refl _⟩, rfl, List.prefix_refl _⟩

/-- Confined changes one after the other are confined. -/
theorem trans (first : before.Confined writes middle) (second : middle.Confined writes after) :
    before.Confined writes after where
  scope hs := by
    obtain ⟨t, ht, houter, hgrow⟩ := first.scope hs
    obtain ⟨u, hu, houter', hgrow'⟩ := second.scope ht
    exact ⟨u, hu, houter'.trans houter, hgrow.trans hgrow'⟩
  openCalls := second.openCalls.trans first.openCalls
  trace := first.trace.trans second.trace

/-- Scopes are never removed. -/
theorem size_le (h : before.Confined writes after) :
    before.heap.scopes.size ≤ after.heap.scopes.size := by
  refine Nat.le_of_not_lt fun hlt => ?_
  obtain ⟨t, ht, -⟩ := h.scope (Array.getElem?_eq_getElem hlt)
  rw [Array.getElem?_eq_none (Nat.le_refl _)] at ht
  cases ht

/-- Only writes to scopes that existed before have to be allowed. -/
theorem narrow {fewer : ScopeId → String → Prop} (h : before.Confined writes after)
    (hle : ∀ target name, target < before.heap.scopes.size → writes target name →
      fewer target name) : before.Confined fewer after where
  scope hs := by
    obtain ⟨t, ht, houter, hgrow⟩ := h.scope hs
    have hlt := (Array.getElem?_eq_some_iff.mp hs).1
    exact ⟨t, ht, houter, hgrow.mono fun name => hle _ name hlt⟩
  openCalls := h.openCalls
  trace := h.trace

/-- A scope where nothing may be written is left exactly as it was. -/
theorem getElem?_eq (h : before.Confined writes after) {target : ScopeId}
    (hlt : target < before.heap.scopes.size) (hw : ∀ name, ¬ writes target name) :
    after.heap.scopes[target]? = before.heap.scopes[target]? := by
  have hs := Array.getElem?_eq_getElem hlt
  obtain ⟨t, ht, houter, hgrow⟩ := h.scope hs
  have hsame : t = before.heap.scopes[target] := by
    obtain ⟨bindings, outer⟩ := t
    rw [show bindings = _ from hgrow.same hw, show outer = _ from houter]
  rw [ht, hs, hsame]

/-- Where nothing may be written, the scopes of before come first, and only new ones follow. -/
theorem scopes_extend (h : before.Confined (fun _ _ => False) after) :
    before.heap.scopes.toList <+: after.heap.scopes.toList := by
  rw [List.prefix_iff_getElem?]
  intro target hlt
  have hexists : target < before.heap.scopes.size := by simpa using hlt
  have hsame := h.getElem?_eq hexists fun _ => id
  rw [Array.getElem?_toList, hsame, ← Array.getElem?_toList, List.getElem?_eq_getElem hlt]

/-- A record leaves the heap alone. -/
theorem record (machine : Machine) (message : Message) :
    machine.Confined writes (machine.record message) where
  scope hs := ⟨_, hs, rfl, .refl _⟩
  openCalls := rfl
  trace := by simp [Machine.record]

/-- Setting a name is confined to it. -/
theorem set (machine : Machine) {name : String} (hw : writes scope name) :
    machine.Confined writes (machine.set scope name v) where
  scope {target s} hs := by
    have hget : (machine.set scope name v).heap.scopes[target]? =
        if scope = target then some { s with bindings := s.bindings.set name v } else some s := by
      simp only [Machine.set, Heap.set, Array.getElem?_modify, hs, Option.map_some]
    by_cases heq : scope = target
    · subst heq
      rw [if_pos rfl] at hget
      exact ⟨_, hget, rfl, .set hw⟩
    · rw [if_neg heq] at hget
      exact ⟨_, hget, rfl, .refl _⟩
  openCalls := rfl
  trace := List.prefix_refl _

/-- A new scope is none of those that there were. -/
theorem allocate (machine : Machine) (s : Scope) :
    machine.Confined writes { machine with heap := (machine.heap.allocate s).2 } where
  scope {target t} ht := by
    have hlt := (Array.getElem?_eq_some_iff.mp ht).1
    refine ⟨t, ?_, rfl, .refl _⟩
    rw [← ht]
    exact Array.getElem?_push_lt hlt ▸ (Array.getElem?_eq_getElem hlt).symm
  openCalls := rfl
  trace := List.prefix_refl _

end Machine.Confined

/-- The machine that steps leave behind, also where they exceed the depth. -/
def EvalM.leaves (x : EvalM α) (machine : Machine) : Machine :=
  match x.run machine with
  | .ok _ after => after
  | .error _ after => after

/-- Steps that write no other places, on whatever machine and however they end. -/
def Confines (writes : ScopeId → String → Prop) (x : EvalM α) : Prop :=
  ∀ machine : Machine, machine.Confined writes (x.leaves machine)

namespace Confines

/-- What a run leaves is confined as its steps are. -/
theorem of_run {x : EvalM α} {machine after : Machine} {a : α} (h : Confines writes x)
    (hr : x.run machine = .ok a after) : machine.Confined writes after := by
  have hx := h machine
  rwa [EvalM.leaves, hr] at hx

/-- A result without a step writes nothing. -/
theorem pure (a : α) : Confines writes (pure a) := .refl

/-- What both parts of a sequence write may be written. -/
theorem bind {x : EvalM α} {f : α → EvalM β} (hx : Confines writes x)
    (hf : ∀ a, Confines writes (f a)) : Confines writes (x >>= f) := by
  intro machine
  have h := hx machine
  rw [EvalM.leaves] at h ⊢
  rw [run_bind]
  cases hr : x.run machine with
  | error => rwa [hr] at h
  | ok a after =>
    rw [hr] at h
    exact h.trans (hf a after)

/-- What either branch of a choice writes may be written. -/
theorem ite {c : Prop} [Decidable c] {x y : EvalM α} (hx : Confines writes x)
    (hy : Confines writes y) : Confines writes (if c then x else y) := by
  split
  · exact hx
  · exact hy

/-- The limit writes nothing. -/
theorem exceed : Confines writes (EvalM.exceed : EvalM α) := .refl

/-- Nor does a record. -/
theorem record (message : Message) : Confines writes (EvalM.record message) :=
  fun machine => .record machine message

/-- Nor does showing a value. -/
theorem shown (depth : Nat) (value : Value) : Confines writes (EvalM.shown depth value) := by
  unfold EvalM.shown
  split
  · exact .pure _
  · exact .exceed

/-- Nor does showing an expression. -/
theorem shownExpr (depth : Nat) (e : Expr) : Confines writes (EvalM.shownExpr depth e) := by
  unfold EvalM.shownExpr
  exact .ite (.pure _) .exceed

/-- Nor does showing values in a row. -/
theorem mapM_shown (depth : Nat) (values : List Value) :
    Confines writes (values.mapM (EvalM.shown depth)) := by
  induction values with
  | nil => exact .pure _
  | cons first rest ih =>
    rw [List.mapM_cons]
    exact (shown depth first).bind fun _ => ih.bind fun _ => .pure _

/-- Nor does a fault. -/
theorem raise {verbosity : Int} {fault : Fault} :
    Confines writes (EvalM.raise verbosity fault) := by
  unfold EvalM.raise
  exact .ite ((record _).bind fun _ => .pure _) (.pure _)

/-- Nor does a result that is settled. -/
theorem settle {verbosity : Int} {result : Except Fault Value} :
    Confines writes (EvalM.settle verbosity result) := by
  unfold EvalM.settle
  split
  · exact .pure _
  · exact .raise

/-- A definition writes the name that it binds. -/
theorem define {name : String} (hw : writes scope name) :
    Confines writes (EvalM.define scope name v) := fun machine => .set machine hw

/-- Looking up a name writes nothing. -/
theorem lookup {depth : Nat} {name : String} :
    Confines writes (EvalM.lookup depth scope name) := by
  intro machine
  rw [EvalM.leaves, run_lookup]
  cases machine.heap.get? name depth scope <;> exact .refl _

/-- A call is closed however it ends. -/
theorem nested {x : EvalM α} (hx : Confines writes x) : Confines writes (EvalM.nested x) := by
  intro machine
  have h := hx machine.enter
  have hrun : (EvalM.nested x).leaves machine = (x.leaves machine.enter).leave := by
    rw [EvalM.leaves, EvalM.leaves, run_nested]
    cases x.run machine.enter <;> rfl
  rw [hrun]
  exact ⟨h.scope, by rw [Machine.leave, h.openCalls]; rfl, h.trace⟩

end Confines

/-- An evaluator of expressions that writes only names that expressions bind. -/
def Evaluator.Confines (eval : Evaluator) : Prop :=
  ∀ {writes : ScopeId → String → Prop} {scope : ScopeId} {e : Expr},
    (∀ name ∈ e.lets, writes scope name) → Inkwell.Confines writes (eval scope e)

section Evaluator

variable {verbosity : Int} {depth : Nat} {eval : Evaluator}

mutual

/-- A statement writes the names of its own definitions, in its own scope. -/
theorem Stmt.confines (he : eval.Confines) : ∀ {s : Stmt},
    (∀ name ∈ s.lets, writes scope name) → Confines writes (s.eval verbosity depth eval scope)
  | .bare _ e, hw => by
    rw [Stmt.eval]
    exact (he hw).bind fun _ => .pure _
  | .define _ name e, hw => by
    rw [Stmt.lets, List.forall_mem_cons] at hw
    rw [Stmt.eval]
    refine (he hw.2).bind fun v => .ite (.pure _) ?_
    refine (Confines.define hw.1).bind fun _ => .ite ?_ (.pure _)
    exact (Confines.shown depth v).bind fun _ => (Confines.record _).bind fun _ => .pure _
  | .ret _ none, _ => by
    rw [Stmt.eval]
    exact .pure _
  | .ret _ (some e), hw => by
    rw [Stmt.eval]
    exact (he hw).bind fun _ => .pure _
  | .block inner, hw => by
    rw [Stmt.eval]
    exact Block.confines he hw

/-- So does a block, which has no scope of its own. -/
theorem Block.confines (he : eval.Confines) : ∀ {b : Block},
    (∀ name ∈ b.lets, writes scope name) → Confines writes (b.eval verbosity depth eval scope)
  | .mk _ ss, hw => by
    rw [Block.eval]
    exact Stmt.confines_all he hw

theorem Stmt.confines_all (he : eval.Confines) : ∀ {ss : List Stmt} {last : Option Value},
    (∀ name ∈ Stmt.letsAll ss, writes scope name) →
    Confines writes (Stmt.evalAll verbosity depth eval scope last ss)
  | [], _, _ => by
    rw [Stmt.evalAll]
    exact .pure _
  | s :: ss, _, hw => by
    rw [Stmt.letsAll, List.forall_mem_append] at hw
    rw [Stmt.evalAll]
    refine (Stmt.confines he hw.1).bind fun result => ?_
    cases result with
    | none => exact Stmt.confines_all he hw.2
    | some v => exact .ite (.pure _) (Stmt.confines_all he hw.2)

end

theorem Expr.confines_arguments (he : eval.Confines) {es : List Expr}
    (hw : ∀ name ∈ Expr.letsAll es, writes scope name) :
    Confines writes (Expr.evalArguments eval scope es) := by
  induction es with
  | nil => exact .pure _
  | cons e es ih =>
    rw [Expr.letsAll, List.forall_mem_append] at hw
    rw [Expr.evalArguments]
    refine (he hw.1).bind fun v => .ite (.pure _) ?_
    refine (ih hw.2).bind fun result => ?_
    cases result with
    | error => exact .pure _
    | ok => exact .pure _

/-- A call writes to its own scope, which did not exist before. -/
theorem Value.confines_call (he : eval.Confines) (callee : Value) (arguments : List Value) :
    Confines writes (callee.call verbosity depth eval arguments) := by
  cases callee with
  | fn parameters body outer =>
    intro machine
    have hrest : Confines (fun target _ => target = machine.heap.scopes.size) (do
        if 1 ≤ verbosity then record (.called parameters (← arguments.mapM (shown depth)))
        let result ← nested (body.eval verbosity depth eval machine.heap.scopes.size)
        let result := (result.getD .null).unwrap
        if 1 ≤ verbosity then record (.returned (← shown depth result))
        return result) := by
      have hend : Confines (fun target _ => target = machine.heap.scopes.size) (do
          let result ← nested (body.eval verbosity depth eval machine.heap.scopes.size)
          let result := (result.getD .null).unwrap
          if 1 ≤ verbosity then record (.returned (← shown depth result))
          return result) := by
        refine (Confines.nested (Block.confines he fun _ _ => rfl)).bind fun result => ?_
        exact .ite ((Confines.shown depth _).bind fun _ => (Confines.record _).bind fun _ =>
          .pure _) (.pure _)
      exact .ite ((Confines.mapM_shown depth _).bind fun _ => (Confines.record _).bind fun _ =>
        hend) hend
    -- the scope of the call is the first one that the machine before did not have
    refine ((Machine.Confined.allocate machine _).trans (hrest _)).narrow ?_
    rintro target name hlt rfl
    exact absurd hlt (Nat.lt_irrefl _)
  | int => exact .raise
  | bool => exact .raise
  | null => exact .raise
  | error => exact .raise
  | returned => exact .raise

theorem Block.confines_branch (he : eval.Confines) {b : Block}
    (hw : ∀ name ∈ b.lets, writes scope name) :
    Confines writes (do return (← b.eval verbosity depth eval scope).getD .null) :=
  (Block.confines he hw).bind fun _ => .pure _

end Evaluator

/-- A choice between two branches. -/
theorem Confines.cond {verbosity : Int} {depth : Nat} {e : Expr} {x y z : EvalM Value}
    (hx : Confines writes x) (hy : Confines writes y) (hz : Confines writes z) :
    Confines writes (do
      let value ← x
      if value.interrupts then return value
      if 3 ≤ verbosity then
        let text ← EvalM.shownExpr depth e
        EvalM.record (.tested text (← EvalM.shown depth value) value.isTruthy)
      if value.isTruthy then y else z) := by
  refine hx.bind fun v => .ite (.pure _) ?_
  have hrest : Confines writes (if v.isTruthy then y else z) := .ite hy hz
  refine .ite ?_ hrest
  exact (shownExpr depth e).bind fun _ => (shown depth v).bind fun _ => (record _).bind fun _ =>
    hrest

/-- Evaluating an expression writes only names that it binds, in its scope. -/
theorem Expr.confines (verbosity : Int) (depth : Nat) :
    Evaluator.Confines (Expr.eval verbosity depth) := by
  induction depth with
  | zero =>
    intro writes scope e _
    rw [Expr.eval]
    exact .exceed
  | succ depth ih =>
    intro writes scope e hw
    cases e with
    | int => rw [Expr.eval]; exact .pure _
    | bool => rw [Expr.eval]; exact .pure _
    | fn => rw [Expr.eval]; exact .pure _
    | ident name =>
      rw [Expr.eval]
      refine Confines.lookup.bind fun found => ?_
      cases found with
      | none => exact .raise
      | some => exact .pure _
    | unary token operator operand =>
      rw [Expr.lets] at hw
      rw [Expr.eval]
      exact (ih hw).bind fun _ => .ite (.pure _) .settle
    | binary token left operator right =>
      rw [Expr.lets, List.forall_mem_append] at hw
      rw [Expr.eval]
      refine (ih hw.1).bind fun _ => .ite (.pure _) ?_
      exact (ih hw.2).bind fun _ => .ite (.pure _) .settle
    | cond token condition consequence alternative =>
      rw [Expr.lets, List.forall_mem_append, List.forall_mem_append] at hw
      have hthen : Confines writes (do
          return (← consequence.eval verbosity depth (Expr.eval verbosity depth)
            scope).getD .null) := Block.confines_branch ih hw.2.1
      cases alternative with
      | none =>
        rw [Expr.eval]
        exact .cond (ih hw.1) hthen (.pure _)
      | some block =>
        rw [Expr.eval]
        exact .cond (ih hw.1) hthen (Block.confines_branch ih hw.2.2)
    | call token callee arguments =>
      rw [Expr.lets, List.forall_mem_append] at hw
      rw [Expr.eval]
      refine (ih hw.1).bind fun v => .ite (.pure _) ?_
      refine (Expr.confines_arguments ih hw.2).bind fun result => ?_
      cases result with
      | error => exact .pure _
      | ok values => exact Value.confines_call ih v values

/-- The scope that a task evaluates in. A call evaluates in a scope that it creates itself. -/
def Task.scope? : Task → Option ScopeId
  | statements _ scope _ => some scope
  | statement _ scope _ => some scope
  | expression _ scope _ => some scope
  | call _ _ _ => none

/-- The names that a task may bind in its scope. -/
def Task.lets : Task → List String
  | statements _ _ ss => Stmt.letsAll ss
  | statement _ _ s => s.lets
  | expression _ _ e => e.lets
  | call _ _ _ => []

/-- Every task writes the names that its own text defines in the scope where it runs, and no others.
-/
theorem Task.confines_run (verbosity : Int) (t : Task) :
    Confines (fun target name => t.scope? = some target ∧ name ∈ t.lets) (t.run verbosity) := by
  have he : ∀ depth, Evaluator.Confines (Expr.eval verbosity depth) := Expr.confines verbosity
  cases t with
  | statements depth scope ss => exact Stmt.confines_all (he depth) fun _ h => ⟨rfl, h⟩
  | statement depth scope s => exact Stmt.confines (he depth) fun _ h => ⟨rfl, h⟩
  | expression depth scope e => exact (he depth fun _ h => ⟨rfl, h⟩).bind fun _ => .pure _
  | call depth callee arguments =>
    exact (Value.confines_call (he depth) callee arguments).bind fun _ => .pure _

theorem Program.confines_eval (verbosity : Int) (depth : Nat) (scope : ScopeId)
    (program : Program) : Confines (fun target name => target = scope ∧ name ∈ program.lets)
      (program.eval verbosity depth scope) :=
  (Stmt.confines_all (Expr.confines verbosity depth) fun _ h => ⟨rfl, h⟩).bind fun _ => .pure _

/-- A run leaves the machine that its evaluation leaves. -/
theorem Machine.run_machine (machine : Machine) (verbosity : Int) (depth : Nat) (scope : ScopeId)
    (program : Program) : (machine.run verbosity depth scope program).machine =
      (program.eval verbosity depth scope).leaves machine := by
  unfold Machine.run EvalM.leaves
  cases (program.eval verbosity depth scope).run machine <;> rfl

/-- Whatever is evaluated, on whatever machine and however it ends: scopes other than its own are
left exactly as they were, no scope changes its outer scope, no binding of its own scope disappears,
and only names that it binds outside of its function literals can have changed there. A call leaves
all scopes as they were, those of its caller and those that its function captured included. -/
theorem Task.run_confined (verbosity : Int) :
    (∀ (t : Task) (machine : Machine), machine.Confined
      (fun target name => t.scope? = some target ∧ name ∈ t.lets)
      ((t.run verbosity).leaves machine)) ∧
    (∀ (depth : Nat) (scope : ScopeId) (program : Program) (machine : Machine), machine.Confined
      (fun target name => target = scope ∧ name ∈ program.lets)
      (machine.run verbosity depth scope program).machine) ∧
    ∀ (depth : Nat) (callee : Value) (arguments : List Value) (machine : Machine),
      machine.heap.scopes.toList <+:
        ((callee.call verbosity depth (Expr.eval verbosity depth) arguments).leaves
          machine).heap.scopes.toList := by
  refine ⟨Task.confines_run verbosity, fun depth scope program machine => ?_,
    fun depth callee arguments machine => ?_⟩
  · rw [Machine.run_machine]
    exact Program.confines_eval verbosity depth scope program machine
  · exact (Value.confines_call (Expr.confines verbosity depth) callee arguments
      machine).scopes_extend

end Inkwell
