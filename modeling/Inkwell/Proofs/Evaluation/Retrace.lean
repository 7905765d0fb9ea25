import Inkwell.Evaluation.Run
import Inkwell.Proofs.Evaluation.Keeps

/-!
# Runs behind another trace

Everything that evaluation does is put together from a few steps. A property that these steps have,
and that sequences of steps with the property have too, is therefore a property of all evaluation.

One such property is that a trace is only written and never read. Put other events before those
that were recorded already, and the run is the same: it ends alike, also where it exceeds its
depth, and leaves the same machine with these events before its trace.
-/

namespace Inkwell

open EvalM

variable {α β : Type} {verbosity : Int} {depth : Nat} {scope : ScopeId}

/-- A property of the steps that evaluation is made of, and of sequences of steps that have it. -/
structure EvalM.Composed (p : ∀ {α : Type}, EvalM α → Prop) : Prop where
  pure : ∀ {α : Type} (a : α), p (pure a)
  bind : ∀ {α β : Type} {x : EvalM α} {f : α → EvalM β}, p x → (∀ a, p (f a)) → p (x >>= f)
  exceed : ∀ {α : Type}, p (EvalM.exceed : EvalM α)
  record : ∀ message, p (EvalM.record message)
  define : ∀ scope name value, p (EvalM.define scope name value)
  lookup : ∀ depth scope name, p (EvalM.lookup depth scope name)
  allocate : ∀ scope, p (EvalM.allocate scope)
  nested : ∀ {α : Type} {x : EvalM α}, p x → p (EvalM.nested x)

namespace EvalM.Composed

variable {p : ∀ {α : Type}, EvalM α → Prop}

/-- A property of both of two steps is one of the choice between them. -/
theorem ite {c : Prop} [Decidable c] {x y : EvalM α} (hx : p x) (hy : p y) :
    p (if c then x else y) := by
  split
  · exact hx
  · exact hy

/-- A property that is put together like steps are is one of showing a value. -/
theorem shown (h : Composed p) (depth : Nat) (value : Value) : p (EvalM.shown depth value) := by
  unfold EvalM.shown
  split
  · exact h.pure _
  · exact h.exceed

theorem shownExpr (h : Composed p) (depth : Nat) (e : Expr) : p (EvalM.shownExpr depth e) := by
  unfold EvalM.shownExpr
  exact ite (h.pure _) h.exceed

theorem mapM_shown (h : Composed p) (depth : Nat) (values : List Value) :
    p (values.mapM (EvalM.shown depth)) := by
  induction values with
  | nil => exact h.pure _
  | cons first rest ih =>
    rw [List.mapM_cons]
    exact h.bind (h.shown depth first) fun _ => h.bind ih fun _ => h.pure _

theorem raise (h : Composed p) (verbosity : Int) (fault : Fault) :
    p (EvalM.raise verbosity fault) := by
  unfold EvalM.raise
  exact ite (h.bind (h.record _) fun _ => h.pure _) (h.pure _)

theorem settle (h : Composed p) (verbosity : Int) (result : Except Fault Value) :
    p (EvalM.settle verbosity result) := by
  unfold EvalM.settle
  split
  · exact h.pure _
  · exact h.raise verbosity _

section Evaluator

variable {eval : Evaluator}

mutual

/-- It is one of evaluating a statement, if it is one of evaluating expressions. -/
theorem stmt (h : Composed p) (he : ∀ scope e, p (eval scope e)) :
    ∀ s : Stmt, p (s.eval verbosity depth eval scope)
  | .bare _ e => by
    rw [Stmt.eval]
    exact h.bind (he scope e) fun _ => h.pure _
  | .define _ name e => by
    rw [Stmt.eval]
    refine h.bind (he scope e) fun v => ite (h.pure _) ?_
    refine h.bind (h.define scope name.name v) fun _ => ite ?_ (h.pure _)
    exact h.bind (h.shown depth v) fun _ => h.bind (h.record _) fun _ => h.pure _
  | .ret _ none => by
    rw [Stmt.eval]
    exact h.pure _
  | .ret _ (some e) => by
    rw [Stmt.eval]
    exact h.bind (he scope e) fun _ => h.pure _
  | .block inner => by
    rw [Stmt.eval]
    exact block h he inner

theorem block (h : Composed p) (he : ∀ scope e, p (eval scope e)) :
    ∀ b : Block, p (b.eval verbosity depth eval scope)
  | .mk _ ss => by
    rw [Block.eval]
    exact stmts h he ss none

theorem stmts (h : Composed p) (he : ∀ scope e, p (eval scope e)) :
    ∀ (ss : List Stmt) (last : Option Value), p (Stmt.evalAll verbosity depth eval scope last ss)
  | [], _ => by
    rw [Stmt.evalAll]
    exact h.pure _
  | s :: ss, _ => by
    rw [Stmt.evalAll]
    refine h.bind (stmt h he s) fun result => ?_
    cases result with
    | none => exact stmts h he ss none
    | some v => exact ite (h.pure _) (stmts h he ss (some v))

end

theorem arguments (h : Composed p) (he : ∀ scope e, p (eval scope e)) (es : List Expr) :
    p (Expr.evalArguments eval scope es) := by
  induction es with
  | nil => exact h.pure _
  | cons e es ih =>
    rw [Expr.evalArguments]
    refine h.bind (he scope e) fun v => ite (h.pure _) (h.bind ih fun result => ?_)
    cases result <;> exact h.pure _

/-- So it is for a call, which evaluates the body of the function. -/
theorem call (h : Composed p) (he : ∀ scope e, p (eval scope e)) (callee : Value)
    (values : List Value) : p (callee.call verbosity depth eval values) := by
  cases callee with
  | fn parameters body outer =>
    have hend : ∀ scope, p (do
        let result ← EvalM.nested (body.eval verbosity depth eval scope)
        let result := (result.getD .null).unwrap
        if 1 ≤ verbosity then EvalM.record (.returned (← EvalM.shown depth result))
        return result) := fun scope => by
      refine h.bind (h.nested (h.block he body)) fun _ => ite ?_ (h.pure _)
      exact h.bind (h.shown depth _) fun _ => h.bind (h.record _) fun _ => h.pure _
    refine h.bind (h.allocate _) fun scope => ite ?_ (hend scope)
    exact h.bind (h.mapM_shown depth values) fun _ => h.bind (h.record _) fun _ => hend scope
  | int => exact h.raise verbosity _
  | bool => exact h.raise verbosity _
  | null => exact h.raise verbosity _
  | error => exact h.raise verbosity _
  | returned => exact h.raise verbosity _

end Evaluator

/-- A choice between two branches. -/
theorem cond (h : Composed p) {e : Expr} {x y z : EvalM Value} (hx : p x) (hy : p y) (hz : p z) :
    p (do
      let value ← x
      if value.interrupts then return value
      if 3 ≤ verbosity then
        let text ← EvalM.shownExpr depth e
        EvalM.record (.tested text (← EvalM.shown depth value) value.isTruthy)
      if value.isTruthy then y else z) := by
  refine h.bind hx fun v => ite (h.pure _) ?_
  have hrest : p (if v.isTruthy then y else z) := ite hy hz
  refine ite ?_ hrest
  exact h.bind (h.shownExpr depth e) fun _ => h.bind (h.shown depth v) fun _ =>
    h.bind (h.record _) fun _ => hrest

/-- Hence it is a property of evaluating any expression. -/
theorem expr (h : Composed p) (verbosity : Int) (depth : Nat) (scope : ScopeId) (e : Expr) :
    p (e.eval verbosity depth scope) := by
  induction depth generalizing scope e with
  | zero =>
    rw [Expr.eval]
    exact h.exceed
  | succ depth ih =>
    cases e with
    | int => rw [Expr.eval]; exact h.pure _
    | bool => rw [Expr.eval]; exact h.pure _
    | fn => rw [Expr.eval]; exact h.pure _
    | ident name =>
      rw [Expr.eval]
      refine h.bind (h.lookup depth scope name.name) fun found => ?_
      cases found with
      | none => exact h.raise verbosity _
      | some => exact h.pure _
    | unary token operator operand =>
      rw [Expr.eval]
      exact h.bind (ih scope operand) fun _ => ite (h.pure _) (h.settle verbosity _)
    | binary token left operator right =>
      rw [Expr.eval]
      refine h.bind (ih scope left) fun _ => ite (h.pure _) ?_
      exact h.bind (ih scope right) fun _ => ite (h.pure _) (h.settle verbosity _)
    | cond token condition consequence alternative =>
      have hthen : p (do
          return (← consequence.eval verbosity depth (Expr.eval verbosity depth)
            scope).getD .null) := h.bind (h.block ih consequence) fun _ => h.pure _
      cases alternative with
      | none =>
        rw [Expr.eval]
        exact h.cond (ih scope condition) hthen (h.pure _)
      | some block =>
        rw [Expr.eval]
        exact h.cond (ih scope condition) hthen (h.bind (h.block ih block) fun _ => h.pure _)
    | call token callee arguments =>
      rw [Expr.eval]
      refine h.bind (ih scope callee) fun v => ite (h.pure _) ?_
      refine h.bind (h.arguments ih arguments) fun result => ?_
      cases result with
      | error => exact h.pure _
      | ok values => exact h.call ih v values

/-- Hence it is a property of evaluating a program. -/
theorem program (h : Composed p) (verbosity : Int) (depth : Nat) (scope : ScopeId)
    (program : Program) : p (program.eval verbosity depth scope) :=
  h.bind (h.stmts (h.expr verbosity depth) program.statements none) fun _ => h.pure _

end EvalM.Composed

/-- The machine with other events before those that were recorded. -/
def Machine.behind (start : Array Event) (machine : Machine) : Machine :=
  { machine with trace := start ++ machine.trace }

/-- Without open calls, a machine is its heap and its trace. -/
theorem Machine.behind_ofHeap {machine : Machine} (h : machine.openCalls = 0) :
    (Machine.ofHeap machine.heap).behind machine.trace = machine := by
  obtain ⟨heap, trace, openCalls⟩ := machine
  subst h
  exact congrArg (Machine.mk heap · 0) Array.append_empty

/-- Steps that do behind other events what they do without them. -/
def EvalM.Retraces (x : EvalM α) : Prop :=
  ∀ start machine, x.run (Machine.behind start machine) =
    match x.run machine with
    | .ok a after => .ok a (after.behind start)
    | .error e after => .error e (after.behind start)

/-- Steps put together go the same way again if each of them does. -/
theorem EvalM.composed_retraces : Composed fun x => Retraces x where
  pure _ _ _ := rfl
  bind {α β x f} hx hf := by
    intro start machine
    rw [run_bind, run_bind, hx]
    cases x.run machine with
    | error => rfl
    | ok a after => exact hf a start after
  exceed _ _ := rfl
  record message := by
    intro start machine
    exact congrArg (EStateM.Result.ok ()) (congrArg (Machine.mk _ · _) (Array.append_push.symm))
  define _ _ _ _ _ := rfl
  lookup depth scope name := by
    intro start machine
    rw [run_lookup, run_lookup]
    have hheap : (Machine.behind start machine).heap = machine.heap := rfl
    rw [hheap]
    cases machine.heap.get? name depth scope <;> rfl
  allocate _ _ _ := rfl
  nested {α x} hx := by
    intro start machine
    have henter : (Machine.behind start machine).enter = machine.enter.behind start := rfl
    rw [run_nested, run_nested, henter, hx]
    cases x.run machine.enter <;> rfl

/-- A run behind other events ends alike, and leaves the same machine behind these events. -/
theorem Machine.run_behind (start : Array Event) (machine : Machine) (program : Program) :
    (Machine.behind start machine).run verbosity depth scope program =
      ⟨(machine.run verbosity depth scope program).outcome,
        (machine.run verbosity depth scope program).machine.behind start⟩ := by
  have hretraces := composed_retraces.program verbosity depth scope program start machine
  unfold Machine.run
  rw [hretraces]
  cases (program.eval verbosity depth scope).run machine <;> rfl

end Inkwell
