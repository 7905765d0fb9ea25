import Inkwell.Proofs.Evaluation.Keeps
import Inkwell.Proofs.Evaluation.Reference

/-!
# Interrupting values are exceptions

Evaluation hands on values that interrupt it, where evaluation with exceptions throws them. In a
region where no such value is bound, both do the same: they end in the same machine, and a value
that interrupts is what was thrown. One function of the evaluator after the other mirrors its
counterpart; that the region stays in order on the way is known from the discipline of calm values.
-/

namespace Inkwell

open EvalM

/-- The discipline that asks no more than that values do not interrupt evaluation. -/
def Discipline.calmValues : Discipline where
  node _ := True
  value v := v.interrupts = false
  fault _ := True
  calm h := h
  null := rfl
  bool _ := rfl
  int _ := rfl
  fn _ _ := rfl
  body _ _ _ := trivial
  wrapped _ := rfl
  unary _ _ _ := trivial
  binary _ _ _ _ := trivial
  unbound _ := trivial
  notFunction _ _ := trivial

/-- What is thrown in place of a value, if it interrupts. -/
def Value.outOfBand : Value → Except Signal Value
  | .returned value => .error (.returned value)
  | .error message => .error (.error message)
  | value => .ok value

/-- What is thrown in place of the result of a statement. -/
def Value.outOfBandOption : Option Value → Except Signal (Option Value)
  | none => .ok none
  | some value => some <$> value.outOfBand

/-- What is thrown in place of the arguments of a call. -/
def Value.outOfBandAll : Except Value (List Value) → Except Signal (List Value)
  | .ok values => .ok values
  | .error interrupt => (fun value => [value]) <$> interrupt.outOfBand

/-- A value that does not interrupt is returned, not thrown. -/
theorem Value.outOfBand_of_calm {v : Value} (h : ¬ v.interrupts = true) :
    v.outOfBand = .ok v := by
  cases v with
  | returned => exact absurd rfl h
  | error => exact absurd rfl h
  | int => rfl
  | bool => rfl
  | null => rfl
  | fn => rfl

/-- A value is thrown if and only if it interrupts. -/
theorem Value.interrupts_of_outOfBand {v : Value} {signal : Signal}
    (h : v.outOfBand = .error signal) : v.interrupts = true := by
  cases v with
  | returned => rfl
  | error => rfl
  | int => cases h
  | bool => cases h
  | null => cases h
  | fn => cases h

/-- Only a value that does not interrupt is returned, and it is returned as it is. -/
theorem Value.eq_of_outOfBand {v w : Value} (h : v.outOfBand = .ok w) :
    ¬ v.interrupts = true ∧ w = v := by
  cases v with
  | returned => cases h
  | error => cases h
  | int => cases h; exact ⟨nofun, rfl⟩
  | bool => cases h; exact ⟨nofun, rfl⟩
  | null => cases h; exact ⟨nofun, rfl⟩
  | fn => cases h; exact ⟨nofun, rfl⟩

/-- A result with a value in it is thrown if the value is. -/
theorem Value.outOfBandOption_of_error {v : Value} {signal : Signal}
    (h : v.outOfBand = .error signal) : Value.outOfBandOption (some v) = .error signal := by
  rw [Value.outOfBandOption, h]
  rfl

/-- Only a result that does not interrupt is returned, and it is returned as it is. -/
theorem Value.eq_of_outOfBandOption {result r : Option Value}
    (h : Value.outOfBandOption result = .ok r) :
    r = result ∧ ∀ v ∈ result, ¬ v.interrupts = true := by
  cases result with
  | none =>
    cases h
    exact ⟨rfl, fun _ h => nomatch h⟩
  | some v =>
    cases hv : v.outOfBand with
    | error =>
      rw [Value.outOfBandOption_of_error hv] at h
      cases h
    | ok w =>
      obtain ⟨hi, rfl⟩ := Value.eq_of_outOfBand hv
      rw [Value.outOfBandOption, hv] at h
      cases h
      refine ⟨rfl, fun v hv => ?_⟩
      cases hv
      exact hi

/-- What is thrown for a result comes from a value in it that interrupts. -/
theorem Value.interrupts_of_outOfBandOption {result : Option Value} {signal : Signal}
    (h : Value.outOfBandOption result = .error signal) :
    ∃ v, result = some v ∧ v.interrupts = true := by
  cases result with
  | none => cases h
  | some v =>
    cases hv : v.outOfBand with
    | error => exact ⟨v, rfl, Value.interrupts_of_outOfBand hv⟩
    | ok w =>
      rw [Value.outOfBandOption, hv] at h
      cases h

variable {R : Region} {α β γ δ : Type} {scope : ScopeId}

/-- The values that scopes hold are never thrown. -/
theorem Value.Good.outOfBand {v : Value} (h : v.Good .calmValues R) : v.outOfBand = .ok v := by
  refine Value.outOfBand_of_calm ?_
  rw [Discipline.calm _ h.value]
  nofun

/-- In a region in order, steps with exceptions end like steps that hand values on, with `signalled`
for the result. -/
def Mirrors (R : Region) (x : EvalM α) (y : ThrowM β) (signalled : α → Except Signal β) : Prop :=
  ∀ machine, machine.heap.InOrder .calmValues R → y.run.run machine = match x.run machine with
    | .ok a after => .ok (signalled a) after
    | .error e after => .error e after

namespace Mirrors

variable {s : α → Except Signal β} {t : γ → Except Signal δ} {Q : α → Prop}

/-- Where a step has thrown, those that would follow are left out. -/
theorem run_bind_throws (y : ThrowM β) (g : β → ThrowM δ) (machine : Machine) :
    (y >>= g).run.run machine = match y.run.run machine with
      | .ok (.ok b) after => (g b).run.run after
      | .ok (.error signal) after => .ok (.error signal) after
      | .error e after => .error e after := by
  rw [ExceptT.run_bind, EvalM.run_bind]
  cases y.run.run machine with
  | error => rfl
  | ok result => cases result <;> rfl

/-- Steps in sequence mirror each other if the first ones do, if what follows a value does, and if
what follows a value that is thrown throws the same again. -/
theorem bind {x : EvalM α} {y : ThrowM β} {f : α → EvalM γ} {g : β → ThrowM δ}
    (hk : Keeps .calmValues R x Q) (hx : Mirrors R x y s)
    (hok : ∀ a b, Q a → s a = .ok b → Mirrors R (f a) (g b) t)
    (herror : ∀ a signal, Q a → s a = .error signal →
      Mirrors R (f a) (throw signal : ThrowM δ) t) : Mirrors R (x >>= f) (y >>= g) t := by
  intro machine hm
  have hkeeps := hk machine hm
  rw [run_bind_throws, hx machine hm, EvalM.run_bind]
  cases hr : x.run machine with
  | error => rfl
  | ok a after =>
    rw [hr] at hkeeps
    dsimp only
    cases ho : s a with
    | ok b => exact hok a b hkeeps.2 ho after hkeeps.1
    | error signal => exact herror a signal hkeeps.2 ho after hkeeps.1

/-- A value mirrors what is made of it. -/
theorem pure {a : α} {b : β} (h : s a = .ok b) : Mirrors R (pure a) (pure b) s :=
  fun machine _ => by
    have hx : (Pure.pure a : EvalM α).run machine = .ok a machine := rfl
    rw [hx]
    dsimp only
    rw [h]
    rfl

/-- A value that stands for a signal mirrors the throw of this signal. -/
theorem throw {a : α} {signal : Signal} (h : s a = .error signal) :
    Mirrors R (Pure.pure a) (throw signal : ThrowM β) s :=
  fun machine _ => by
    have hx : (Pure.pure a : EvalM α).run machine = .ok a machine := rfl
    rw [hx]
    dsimp only
    rw [h]
    rfl

/-- A choice between steps that mirror each other does so, too. -/
theorem ite {c : Prop} [Decidable c] {x x' : EvalM α} {y y' : ThrowM β}
    (hx : c → Mirrors R x y s) (hy : ¬ c → Mirrors R x' y' s) :
    Mirrors R (if c then x else x') (if c then y else y') s := by
  by_cases h : c
  · rw [if_pos h, if_pos h]
    exact hx h
  · rw [if_neg h, if_neg h]
    exact hy h

/-- Steps that throw nothing come first on both sides. -/
theorem lift {x : EvalM α} {f : α → EvalM γ} {g : α → ThrowM δ}
    (hk : Keeps .calmValues R x Q) (h : ∀ a, Q a → Mirrors R (f a) (g a) t) :
    Mirrors R (x >>= f) (liftM x >>= g) t := by
  intro machine hm
  have hkeeps := hk machine hm
  have hlift : (liftM x : ThrowM α).run.run machine = match x.run machine with
      | .ok a after => .ok (.ok a) after
      | .error e after => .error e after := by
    have hmap : (liftM x : ThrowM α).run = x >>= fun a => Pure.pure (.ok a) := rfl
    rw [hmap, EvalM.run_bind]
    rfl
  rw [run_bind_throws, hlift, EvalM.run_bind]
  cases hr : x.run machine with
  | error => rfl
  | ok a after =>
    rw [hr] at hkeeps
    exact h a hkeeps.2 after hkeeps.1

/-- An operand: what interrupts evaluation and is handed on is what was thrown. -/
theorem bind_value {x : EvalM Value} {y : ThrowM Value} {f : Value → EvalM γ}
    {g : Value → ThrowM δ} {h : Value → γ}
    (hk : Keeps .calmValues R x (Value.Outcome .calmValues R))
    (hx : Mirrors R x y Value.outOfBand)
    (hh : ∀ v signal, v.outOfBand = .error signal → t (h v) = .error signal)
    (hf : ∀ v, v.Good .calmValues R → Mirrors R (f v) (g v) t) :
    Mirrors R (do let v ← x; if v.interrupts then return h v else f v) (y >>= g) t := by
  refine bind hk hx (fun v w hv hs => ?_) (fun v signal hv hs => ?_)
  · obtain ⟨hi, rfl⟩ := Value.eq_of_outOfBand hs
    rw [if_neg hi]
    exact hf w (hv.good hi)
  · rw [if_pos (Value.interrupts_of_outOfBand hs)]
    exact .throw (hh v signal hs)

/-- An error value mirrors the error that is thrown. -/
theorem raise {verbosity : Int} {fault : Fault} :
    Mirrors R (EvalM.raise verbosity fault) (Reference.raise verbosity fault) Value.outOfBand := by
  unfold EvalM.raise Reference.raise
  have hthrow : Mirrors R (Pure.pure (Value.error fault.message))
      (MonadExcept.throw (.error fault.message)) Value.outOfBand := .throw rfl
  exact .ite (fun _ => .lift (.record _) fun _ _ => hthrow) fun _ => hthrow

/-- So does the result of an operator, whether it is a value or a fault. -/
theorem settle {verbosity : Int} {result : Except Fault Value}
    (h : ∀ w, result = .ok w → w.Computed) :
    Mirrors R (EvalM.settle verbosity result) (Reference.settle verbosity result)
      Value.outOfBand := by
  cases result with
  | error => exact .raise
  | ok w =>
    have hw : w.Good .calmValues R := (h w rfl).good
    exact .pure hw.outOfBand

/-- Steps inside a call mirror each other as they do outside. -/
theorem nested {x : EvalM α} {y : ThrowM β} (h : Mirrors R x y s) :
    Mirrors R (EvalM.nested x) (ExceptT.mk (EvalM.nested y.run)) s := by
  intro machine hm
  rw [ExceptT.run_mk, run_nested, run_nested, h machine.enter hm]
  cases x.run machine.enter <;> rfl

/-- Only a return is caught at the border of a body; an error goes through it. -/
theorem run_catchReturn (y : ThrowM (Option Value)) (machine : Machine) :
    (Reference.catchReturn y).run.run machine = match y.run.run machine with
      | .ok (.ok result) after => .ok (.ok (result.getD .null)) after
      | .ok (.error (.returned value)) after => .ok (.ok value) after
      | .ok (.error (.error message)) after => .ok (.error (.error message)) after
      | .error e after => .error e after := by
  unfold Reference.catchReturn
  rw [ExceptT.run_tryCatch, EvalM.run_bind, run_bind_throws]
  cases y.run.run machine with
  | error => rfl
  | ok ending => cases ending with
    | ok => rfl
    | error signal => cases signal <;> rfl

/-- Taking the wrapper off is catching a `return`. -/
theorem catchReturn {x : EvalM (Option Value)} {y : ThrowM (Option Value)}
    (hk : Keeps .calmValues R x (Stmt.Result .calmValues R))
    (h : Mirrors R x y Value.outOfBandOption) :
    Mirrors R (do return ((← x).getD .null).unwrap) (Reference.catchReturn y) Value.outOfBand := by
  intro machine hm
  have hkeeps := hk machine hm
  rw [run_catchReturn, EvalM.run_bind, h machine hm]
  cases hr : x.run machine with
  | error => rfl
  | ok result after =>
    rw [hr] at hkeeps
    cases result with
    | none => rfl
    | some v =>
      cases hkeeps.2 v rfl with
      | returned hw =>
        exact congrArg (fun ending => EStateM.Result.ok ending after) hw.outOfBand.symm
      | ending hv =>
        cases hv with
        | fault => rfl
        | value hv =>
          have hsome : Value.outOfBandOption (some v) = .ok (some v) := by
            rw [Value.outOfBandOption, hv.outOfBand]
            rfl
          dsimp only
          rw [hsome, Option.getD_some, hv.unwrap]
          exact congrArg (fun ending => EStateM.Result.ok ending after) hv.outOfBand.symm

/-- The end of a call is recorded alike. -/
theorem recordEnding {verbosity : Int} {depth : Nat} {x : EvalM Value} {y : ThrowM Value}
    (h : Mirrors R x y Value.outOfBand) : Mirrors R (do
      let result ← x
      if 1 ≤ verbosity then EvalM.record (.returned (← EvalM.shown depth result))
      return result) (Reference.recordEnding verbosity depth y) Value.outOfBand := by
  intro machine hm
  have hshown : ∀ v : Value, Reference.shownEnding depth v.outOfBand = EvalM.shown depth v := by
    intro v
    cases v <;> rfl
  unfold Reference.recordEnding
  rw [ExceptT.run_mk, EvalM.run_bind, EvalM.run_bind, h machine hm]
  cases x.run machine with
  | error => rfl
  | ok v after =>
    dsimp only
    rw [hshown]
    by_cases hv : 1 ≤ verbosity
    · rw [if_pos hv, if_pos hv, EvalM.run_bind, EvalM.run_bind]
      cases (EvalM.shown depth v).run after <;> rfl
    · rw [if_neg hv, if_neg hv]
      rfl

end Mirrors

/-- An evaluator of expressions that mirrors one with exceptions. -/
structure Evaluator.Mirrors (R : Region) (eval : Evaluator) (reference : Reference.Evaluator) :
    Prop where
  calm {scope : ScopeId} {e : Expr} :
    R.has scope → Inkwell.Keeps .calmValues R (eval scope e) (Value.Outcome .calmValues R)
  mirrors {scope : ScopeId} {e : Expr} :
    R.has scope → Inkwell.Mirrors R (eval scope e) (reference scope e) Value.outOfBand

section Evaluator

variable {verbosity : Int} {depth : Nat} {eval : Evaluator} {reference : Reference.Evaluator}

/-- Where the evaluator mirrors the reference, no value that interrupts gets into a scope. -/
theorem Evaluator.Mirrors.keeps (he : eval.Mirrors R reference) : eval.Keeps .calmValues R :=
  fun hs _ => he.calm hs

mutual

/-- Statements mirror the reference if their expressions do. -/
theorem Stmt.mirrors (he : eval.Mirrors R reference) (hs : R.has scope) : ∀ {s : Stmt},
    Mirrors R (s.eval verbosity depth eval scope)
      (Reference.stmt verbosity depth reference scope s) Value.outOfBandOption
  | .bare _ e => by
    rw [Stmt.eval, Reference.stmt]
    refine .bind (he.calm hs) (he.mirrors hs) (fun v w _ h => .pure ?_) fun v signal _ h => ?_
    · rw [Value.outOfBandOption, h]
      rfl
    · exact .throw (Value.outOfBandOption_of_error h)
  | .define _ name e => by
    rw [Stmt.eval, Reference.stmt]
    have hend : Mirrors R (pure none) (pure none) Value.outOfBandOption := .pure rfl
    refine .bind_value (he.calm hs) (he.mirrors hs) (fun _ _ => Value.outOfBandOption_of_error)
      fun v hv => .lift (.define hv) fun _ _ => .ite (fun _ => ?_) fun _ => hend
    exact .lift (.shown depth v) fun _ _ => .lift (.record _) fun _ _ => hend
  | .ret _ none => by
    rw [Stmt.eval, Reference.stmt]
    exact .throw rfl
  | .ret _ (some e) => by
    rw [Stmt.eval, Reference.stmt]
    refine .bind (he.calm hs) (he.mirrors hs) (fun v w _ h => ?_) fun v signal _ h => ?_
    · obtain ⟨hi, rfl⟩ := Value.eq_of_outOfBand h
      rw [if_neg hi]
      exact .throw rfl
    · rw [if_pos (Value.interrupts_of_outOfBand h)]
      exact .throw (Value.outOfBandOption_of_error h)
  | .block inner => by
    rw [Stmt.eval, Reference.stmt]
    exact Block.mirrors he hs

theorem Block.mirrors (he : eval.Mirrors R reference) (hs : R.has scope) : ∀ {b : Block},
    Mirrors R (b.eval verbosity depth eval scope)
      (Reference.block verbosity depth reference scope b) Value.outOfBandOption
  | .mk _ ss => by
    rw [Block.eval, Reference.block]
    exact Stmt.mirrors_all he hs rfl

/-- So do statements in a row, of which the last value is handed on. -/
theorem Stmt.mirrors_all (he : eval.Mirrors R reference) (hs : R.has scope) :
    ∀ {ss : List Stmt} {last : Option Value}, Value.outOfBandOption last = .ok last →
    Mirrors R (Stmt.evalAll verbosity depth eval scope last ss)
      (Reference.stmts verbosity depth reference scope last ss) Value.outOfBandOption
  | [], last, hl => by
    rw [Stmt.evalAll, Reference.stmts]
    exact .pure hl
  | s :: ss, _, _ => by
    rw [Stmt.evalAll, Reference.stmts]
    have hk : Keeps .calmValues R (s.eval verbosity depth eval scope) (Stmt.Result .calmValues R) :=
      Stmt.keeps_eval he.keeps hs fun _ _ => trivial
    refine .bind hk (Stmt.mirrors he hs) (fun result r _ h => ?_) fun result signal _ h => ?_
    · obtain ⟨rfl, hcalm⟩ := Value.eq_of_outOfBandOption h
      cases r with
      | none => exact Stmt.mirrors_all he hs rfl
      | some v =>
        dsimp only
        rw [if_neg (hcalm v rfl)]
        exact Stmt.mirrors_all he hs h
    · obtain ⟨v, rfl, hi⟩ := Value.interrupts_of_outOfBandOption h
      dsimp only
      rw [if_pos hi]
      exact .throw h

end

/-- Arguments that are returned by the reference are those that were evaluated. -/
theorem Expr.Arguments.eq_of_outOfBandAll {es : List Expr} {result : Except Value (List Value)}
    {values : List Value} (hr : Expr.Arguments .calmValues R es result)
    (h : Value.outOfBandAll result = .ok values) : result = .ok values := by
  cases result with
  | ok =>
    cases h
    rfl
  | error interrupt =>
    cases hi : interrupt.outOfBand with
    | ok => exact absurd hr.2 (Value.eq_of_outOfBand hi).1
    | error =>
      rw [Value.outOfBandAll, hi] at h
      cases h

/-- What is thrown for arguments comes from the one that interrupts. -/
theorem Value.eq_of_outOfBandAll_error {result : Except Value (List Value)} {signal : Signal}
    (h : Value.outOfBandAll result = .error signal) :
    ∃ v, result = .error v ∧ v.outOfBand = .error signal := by
  cases result with
  | ok => cases h
  | error interrupt =>
    refine ⟨interrupt, rfl, ?_⟩
    cases hi : interrupt.outOfBand with
    | ok =>
      rw [Value.outOfBandAll, hi] at h
      cases h
    | error =>
      rw [Value.outOfBandAll, hi] at h
      cases h
      rfl

/-- Arguments are evaluated from left to right up to the first that throws. -/
theorem Expr.mirrors_arguments (he : eval.Mirrors R reference) (hs : R.has scope)
    {es : List Expr} : Mirrors R (Expr.evalArguments eval scope es)
      (es.mapM (reference scope)) Value.outOfBandAll := by
  induction es with
  | nil => exact .pure rfl
  | cons e es ih =>
    have hk : Keeps .calmValues R (Expr.evalArguments eval scope es)
        (Expr.Arguments .calmValues R es) :=
      Expr.keeps_evalArguments he.keeps hs fun _ _ => trivial
    rw [Expr.evalArguments, List.mapM_cons]
    refine .bind_value (he.calm hs) (he.mirrors hs) (fun v signal h => ?_) fun v hv => ?_
    · rw [Value.outOfBandAll, h]
      rfl
    · refine .bind hk ih (fun result values hr h => ?_) fun result signal _ h => ?_
      · obtain rfl := hr.eq_of_outOfBandAll h
        exact .pure rfl
      · obtain ⟨interrupt, rfl, hi⟩ := Value.eq_of_outOfBandAll_error h
        exact .throw h

/-- A call catches a thrown `return` where it takes the wrapper off. -/
theorem Value.mirrors_call (he : eval.Mirrors R reference) {v : Value}
    (hv : v.Good .calmValues R) {arguments : List Value}
    (ha : ∀ v ∈ arguments, v.Good .calmValues R) :
    Mirrors R (v.call verbosity depth eval arguments)
      (Reference.call verbosity depth reference v arguments) Value.outOfBand := by
  cases v with
  | fn parameters body outer =>
    have hbody : ∀ {inner : ScopeId}, R.has inner → Mirrors R (do
        let result ← nested (body.eval verbosity depth eval inner)
        let result := (result.getD .null).unwrap
        if 1 ≤ verbosity then record (.returned (← shown depth result))
        return result)
        (Reference.recordEnding verbosity depth (Reference.catchReturn
          (ExceptT.mk (nested (Reference.block verbosity depth reference inner body).run))))
        Value.outOfBand := by
      intro inner hs
      have hk : Keeps .calmValues R (nested (body.eval verbosity depth eval inner))
          (Stmt.Result .calmValues R) :=
        .nested (Block.keeps_eval he.keeps hs fun _ _ => trivial)
      have hcatch := Mirrors.catchReturn hk (Block.mirrors he hs).nested
      have hrecord : Mirrors R _ (Reference.recordEnding verbosity depth _) _ :=
        .recordEnding hcatch
      simpa only [bind_assoc, pure_bind] using hrecord
    rw [Value.call, Reference.call]
    refine .lift (.allocate (argumentBindings_good ha) ?_) fun inner hs => ?_
    · rintro target heq
      cases heq
      exact hv.inside rfl
    · refine .ite (fun _ => ?_) fun _ => hbody hs
      exact .lift (.mapM_shown depth arguments) fun _ _ => .lift (.record _) fun _ _ => hbody hs
  | int => exact .raise
  | bool => exact .raise
  | null => exact .raise
  | error => exact .raise
  | returned => exact .raise

/-- The value of a branch. -/
theorem Block.mirrors_branch (he : eval.Mirrors R reference) (hs : R.has scope) {b : Block} :
    Mirrors R (do return (← b.eval verbosity depth eval scope).getD .null)
      (do return (← Reference.block verbosity depth reference scope b).getD .null)
      Value.outOfBand := by
  have hk : Keeps .calmValues R (b.eval verbosity depth eval scope) (Stmt.Result .calmValues R) :=
    Block.keeps_eval he.keeps hs fun _ _ => trivial
  refine .bind hk (Block.mirrors he hs) (fun result r _ h => ?_) fun result signal _ h => ?_
  · obtain ⟨rfl, hcalm⟩ := Value.eq_of_outOfBandOption h
    cases r with
    | none => exact .pure rfl
    | some v => exact .pure (Value.outOfBand_of_calm (hcalm v rfl))
  · obtain ⟨v, rfl, -⟩ := Value.interrupts_of_outOfBandOption h
    refine .throw ?_
    cases hv : v.outOfBand with
    | ok =>
      rw [Value.outOfBandOption, hv] at h
      cases h
    | error =>
      rw [Value.outOfBandOption_of_error hv] at h
      exact hv.trans (congrArg _ (Except.error.inj h))

end Evaluator

/-- A choice between two branches. -/
theorem Mirrors.cond {verbosity : Int} {depth : Nat} {e : Expr} {x y z : EvalM Value}
    {x' y' z' : ThrowM Value} (hk : Keeps .calmValues R x (Value.Outcome .calmValues R))
    (hx : Mirrors R x x' Value.outOfBand) (hy : Mirrors R y y' Value.outOfBand)
    (hz : Mirrors R z z' Value.outOfBand) : Mirrors R (do
      let value ← x
      if value.interrupts then return value
      if 3 ≤ verbosity then
        let text ← shownExpr depth e
        record (.tested text (← shown depth value) value.isTruthy)
      if value.isTruthy then y else z) (do
      let value ← x'
      if 3 ≤ verbosity then
        let text ← shownExpr depth e
        record (.tested text (← shown depth value) value.isTruthy)
      if value.isTruthy then y' else z') Value.outOfBand := by
  refine .bind_value hk hx (fun _ _ h => h) fun v _ => ?_
  have hrest : Mirrors R (if v.isTruthy then y else z) (if v.isTruthy then y' else z')
      Value.outOfBand := .ite (fun _ => hy) fun _ => hz
  refine .ite (fun _ => ?_) fun _ => hrest
  exact .lift (.shownExpr depth e) fun _ _ => .lift (.shown depth v) fun _ _ =>
    .lift (.record _) fun _ _ => hrest

/-- In a region of calm values, evaluation mirrors evaluation with exceptions. -/
theorem Expr.mirrors (verbosity : Int) (depth : Nat) :
    Evaluator.Mirrors R (Expr.eval verbosity depth) (Reference.expr verbosity depth) := by
  refine ⟨fun hs => Expr.keeps_eval verbosity depth hs fun _ _ => trivial, ?_⟩
  induction depth with
  | zero =>
    intro scope e _
    rw [Expr.eval, Reference.expr]
    exact fun _ _ => rfl
  | succ depth ih =>
    intro scope e hs
    have he : Evaluator.Mirrors R (Expr.eval verbosity depth) (Reference.expr verbosity depth) :=
      ⟨fun hs => Expr.keeps_eval verbosity depth hs fun _ _ => trivial, ih⟩
    cases e with
    | int =>
      rw [Expr.eval, Reference.expr]
      exact .pure rfl
    | bool =>
      rw [Expr.eval, Reference.expr]
      exact .pure rfl
    | fn =>
      rw [Expr.eval, Reference.expr]
      exact .pure rfl
    | ident name =>
      rw [Expr.eval, Reference.expr]
      refine .lift (.lookup hs) fun found hf => ?_
      cases found with
      | none => exact .raise
      | some v => exact .pure (hf v rfl).outOfBand
    | unary token operator operand =>
      rw [Expr.eval, Reference.expr]
      refine .bind_value (he.calm hs) (ih hs) (fun _ _ h => h) fun v _ => ?_
      exact .settle fun _ => Value.computed_unary
    | binary token left operator right =>
      rw [Expr.eval, Reference.expr]
      refine .bind_value (he.calm hs) (ih hs) (fun _ _ h => h) fun v _ => ?_
      refine .bind_value (he.calm hs) (ih hs) (fun _ _ h => h) fun w _ => ?_
      exact .settle fun _ => Value.computed_binary
    | cond token condition consequence alternative =>
      cases alternative with
      | none =>
        rw [Expr.eval, Reference.expr]
        exact .cond (he.calm hs) (ih hs) (Block.mirrors_branch he hs) (.pure rfl)
      | some block =>
        rw [Expr.eval, Reference.expr]
        exact .cond (he.calm hs) (ih hs) (Block.mirrors_branch he hs) (Block.mirrors_branch he hs)
    | call token callee arguments =>
      have hk : Keeps .calmValues R
          (Expr.evalArguments (Expr.eval verbosity depth) scope arguments)
          (Expr.Arguments .calmValues R arguments) :=
        Expr.keeps_evalArguments he.keeps hs fun _ _ => trivial
      rw [Expr.eval, Reference.expr]
      refine .bind_value (he.calm hs) (ih hs) (fun _ _ h => h) fun v hv => ?_
      refine .bind hk (Expr.mirrors_arguments he hs) (fun result values hr h => ?_)
        fun result signal hr h => ?_
      · obtain rfl := hr.eq_of_outOfBandAll h
        exact Value.mirrors_call he hv hr.2
      · obtain ⟨interrupt, rfl, hi⟩ := Value.eq_of_outOfBandAll_error h
        exact .throw hi

/-- A program catches what its statements throw where it takes the wrapper off. -/
theorem Program.eval_eq_of_inOrder {verbosity : Int} {depth : Nat} {program : Program}
    {machine : Machine} (hs : R.has scope) (hm : machine.heap.InOrder .calmValues R) :
    (program.eval verbosity depth scope).run machine =
      (Reference.program verbosity depth scope program).run machine := by
  have he : Evaluator.Mirrors R (Expr.eval verbosity depth) (Reference.expr verbosity depth) :=
    Expr.mirrors verbosity depth
  have hk : Keeps .calmValues R
      (Stmt.evalAll verbosity depth (Expr.eval verbosity depth) scope none program.statements)
      (Stmt.Result .calmValues R) :=
    Stmt.keeps_evalAll he.keeps hs Stmt.result_none fun _ _ => trivial
  have hkeeps := hk machine hm
  unfold Program.eval Reference.program
  rw [EvalM.run_bind, EvalM.run_bind, Stmt.mirrors_all he hs rfl machine hm]
  cases hr : (Stmt.evalAll verbosity depth (Expr.eval verbosity depth) scope none
      program.statements).run machine with
  | error => rfl
  | ok result after =>
    rw [hr] at hkeeps
    cases result with
    | none => rfl
    | some v =>
      cases hkeeps.2 v rfl with
      | returned => rfl
      | ending hv =>
        cases hv with
        | fault => rfl
        | value hv =>
          have hsome : Value.outOfBandOption (some v) = .ok (some v) := by
            rw [Value.outOfBandOption, hv.outOfBand]
            rfl
          dsimp only
          rw [hsome, Option.map_some, hv.unwrap]

/-- A scope lies in the region that is made of it. -/
theorem Heap.region_has {heap : Heap} : (heap.region (· = scope)).has scope :=
  .inl ⟨scope, rfl, .refl⟩

/-- Where no interrupting value is bound, evaluation does what evaluation with exceptions does: it
ends alike, with the same heap and the same trace, also when the depth is exceeded. Arguments on
the way are one value for each, or what interrupts the first of them that is interrupted. -/
theorem Program.eval_eq_reference {verbosity : Int} {depth : Nat} {program : Program}
    {machine : Machine} {scope : ScopeId}
    (h : machine.heap.BoundFrom scope fun v => v.interrupts = false) :
    (program.eval verbosity depth scope).run machine =
        (Reference.program verbosity depth scope program).run machine ∧
      ∀ {es : List Expr} {result : Except Value (List Value)} {after : Machine},
        (Expr.evalArguments (Expr.eval verbosity depth) scope es).run machine =
          .ok result after →
        (∃ values, result = .ok values ∧ values.length = es.length ∧
          ∀ v ∈ values, v.interrupts = false) ∨
        ∃ interrupt, result = .error interrupt ∧ interrupt.interrupts = true := by
  have hm : machine.heap.InOrder .calmValues (machine.heap.region (· = scope)) := by
    refine Heap.inOrder_region fun {target} ht => ?_
    subst ht
    exact h
  have hs : (machine.heap.region (· = scope)).has scope := Heap.region_has
  refine ⟨Program.eval_eq_of_inOrder hs hm, fun {es result after} hrun => ?_⟩
  have hk := Expr.keeps_evalArguments (Expr.mirrors verbosity depth).keeps hs
    (fun p (_ : p ∈ Expr.partsAll es) => trivial) machine hm
  rw [hrun] at hk
  cases result with
  | ok values => exact .inl ⟨values, rfl, hk.2.1, fun v hv => (hk.2.2 v hv).value⟩
  | error interrupt => exact .inr ⟨interrupt, rfl, hk.2.2⟩

/-- A `return` in a branch that is an operand, in a scope with one binding. -/
theorem Program.eval_eq_reference_operand :
    (Program.eval 3 4 0 ⟨[.bare ⟨.ident, "x"⟩ (.binary ⟨.plus, "+"⟩
        (.ident ⟨⟨.ident, "x"⟩, "x"⟩) "+"
      (.cond ⟨.ifKw, "if"⟩ (.bool ⟨.trueKw, "true"⟩ true)
        (.mk ⟨.lbrace, "\x7b"⟩ [.ret ⟨.returnKw, "return"⟩ none]) none))]⟩).run
          (.ofHeap ⟨#[⟨[("x", .int 5)], none⟩]⟩) =
      (Reference.program 3 4 0 ⟨[.bare ⟨.ident, "x"⟩ (.binary ⟨.plus, "+"⟩
        (.ident ⟨⟨.ident, "x"⟩, "x"⟩) "+" (.cond ⟨.ifKw, "if"⟩ (.bool ⟨.trueKw, "true"⟩ true)
          (.mk ⟨.lbrace, "\x7b"⟩ [.ret ⟨.returnKw, "return"⟩ none]) none))]⟩).run
            (.ofHeap ⟨#[⟨[("x", .int 5)], none⟩]⟩) := by
  refine (Program.eval_eq_reference fun target name value _ hget => ?_).1
  cases target with
  | zero =>
    have hbound : (if "x" = name then some (Value.int 5) else none) = some value := hget
    split at hbound
    · cases hbound
      rfl
    · cases hbound
  | succ => cases hget

end Inkwell
