import Inkwell.Proofs.Evaluation.Confined

/-!
# The bindings that evaluation makes

A `let` statement binds its name in the scope that it is evaluated in, once its expression has ended
with a value that does not interrupt. `Program.makes` lists these bindings in the order in which
they are made: those of the `let` statements that evaluation gets to in the scope of the program,
also inside of other statements and of expressions. The `let` statements in the body of a function
bind in a scope of its call, and are not among them.

However a run ends, its scope has the bindings from before with these put in, and no others.
-/

namespace Inkwell

open EvalM

variable {α β : Type}

/-- The bindings that some steps make in a scope, in order, given the machine that they start on. -/
abbrev Makes := Machine → List (String × Value)

namespace Makes

/-- No bindings. -/
def nothing : Makes := fun _ => []

/-- One binding. -/
def one (name : String) (value : Value) : Makes := fun _ => [(name, value)]

/-- The bindings of steps, and behind them those that are made next, unless the steps exceed their
depth. -/
def andThen (first : Makes) (steps : EvalM α) (next : α → Makes) : Makes := fun machine =>
  first machine ++
    match steps.run machine with
    | .ok result after => next result after
    | .error _ _ => []

/-- The bindings that are made past a value, unless it interrupts. -/
def past (value : Value) (next : Makes) : Makes := if value.interrupts then nothing else next

end Makes

section Evaluator

variable (verbosity : Int) (depth : Nat) (eval : Evaluator) (makes : Expr → Makes) (scope : ScopeId)

mutual

/-- The bindings that a statement makes, given those that expressions make. -/
def Stmt.makes : Stmt → Makes
  | .bare _ e => makes e
  | .define _ name e =>
    (makes e).andThen (eval scope e) fun value => .past value (.one name.name value)
  | .ret _ none => .nothing
  | .ret _ (some e) => makes e
  | .block inner => inner.makes

/-- The bindings that a block makes. -/
def Block.makes : Block → Makes
  | .mk _ statements => Stmt.makesAll statements

/-- The bindings that statements make, up to the first that is interrupted. -/
def Stmt.makesAll : List Stmt → Makes
  | [] => .nothing
  | first :: rest =>
    first.makes.andThen (first.eval verbosity depth eval scope) fun
      | some value => .past value (Stmt.makesAll rest)
      | none => Stmt.makesAll rest

end

/-- The bindings that arguments make, up to the first that is interrupted. -/
def Expr.makesArguments : List Expr → Makes
  | [] => .nothing
  | first :: rest =>
    (makes first).andThen (eval scope first) fun value =>
      .past value (Expr.makesArguments rest)

end Evaluator

/-- The message about a condition, where it is recorded. -/
def Expr.test (verbosity : Int) (depth : Nat) (condition : Expr) (value : Value) : EvalM Unit := do
  if 3 ≤ verbosity then
    let text ← shownExpr depth condition
    record (.tested text (← shown depth value) value.isTruthy)

/-- The bindings that an expression makes in the scope it is evaluated in. A call makes those of its
callee and of its arguments. -/
def Expr.makes (verbosity : Int) : (depth : Nat) → ScopeId → Expr → Makes
  | 0, _, _ => .nothing
  | depth + 1, scope, expression =>
    match expression with
    | .int _ _ => .nothing
    | .bool _ _ => .nothing
    | .ident _ => .nothing
    | .unary _ _ operand => operand.makes verbosity depth scope
    | .binary _ left _ right =>
      (left.makes verbosity depth scope).andThen (left.eval verbosity depth scope) fun value =>
        .past value (right.makes verbosity depth scope)
    | .cond _ condition consequence alternative =>
      let branch := fun block : Block =>
        block.makes verbosity depth (Expr.eval verbosity depth) (Expr.makes verbosity depth scope)
          scope
      (condition.makes verbosity depth scope).andThen (condition.eval verbosity depth scope)
        fun value => .past value <|
          Makes.nothing.andThen (condition.test verbosity depth value) fun _ =>
            if value.isTruthy then branch consequence
            else alternative.elim .nothing branch
    | .fn _ _ _ => .nothing
    | .call _ callee arguments =>
      (callee.makes verbosity depth scope).andThen (callee.eval verbosity depth scope) fun value =>
        .past value <|
          Expr.makesArguments (Expr.eval verbosity depth) (Expr.makes verbosity depth scope) scope
            arguments

/-- The bindings that a program makes in its scope. -/
def Program.makes (verbosity : Int) (depth : Nat) (scope : ScopeId) (program : Program) : Makes :=
  Stmt.makesAll verbosity depth (Expr.eval verbosity depth) (Expr.makes verbosity depth scope) scope
    program.statements

/-- Puts bindings in, one after the other. -/
def Bindings.setAll (bindings : Bindings) (made : List (String × Value)) : Bindings :=
  made.foldl (fun bindings binding => bindings.set binding.1 binding.2) bindings

/-- Bindings are put in one list behind the other. -/
theorem Bindings.setAll_append (bindings : Bindings) (made more : List (String × Value)) :
    bindings.setAll (made ++ more) = (bindings.setAll made).setAll more := List.foldl_append

/-- Steps that leave in a scope, however they end, the bindings from before with those put in that
they make. -/
def Accounts (scope : ScopeId) (x : EvalM α) (makes : Makes) : Prop :=
  ∀ machine : Machine, scope < machine.heap.scopes.size →
    scope < (x.leaves machine).heap.scopes.size ∧
      (x.leaves machine).heap.bindings scope =
        (machine.heap.bindings scope).setAll (makes machine)

variable {verbosity : Int} {depth : Nat} {scope : ScopeId}

namespace Accounts

variable {x : EvalM α} {f : α → EvalM β} {makes : Makes} {next : α → Makes}

/-- Steps that write to no scope of before. -/
theorem quiet (hx : Confines (fun _ _ => False) x) : Accounts scope x .nothing := by
  intro machine hs
  have hsame := (hx machine).getElem?_eq hs fun _ => id
  refine ⟨Nat.lt_of_lt_of_le hs (hx machine).size_le, ?_⟩
  unfold Heap.bindings
  rw [hsame]
  rfl

/-- Steps in sequence make the bindings of the first ones and then those of the next. -/
theorem bind (hx : Accounts scope x makes) (hf : ∀ a, Accounts scope (f a) (next a)) :
    Accounts scope (x >>= f) (makes.andThen x next) := by
  intro machine hs
  have h := hx machine hs
  unfold Makes.andThen
  rw [EvalM.leaves] at h ⊢
  rw [run_bind]
  cases hr : x.run machine with
  | error =>
    rw [hr] at h
    rwa [List.append_nil]
  | ok a after =>
    rw [hr] at h
    rw [Bindings.setAll_append, ← h.2]
    exact hf a after h.1

/-- Steps that are followed by quiet ones. -/
theorem bind_quiet (hx : Accounts scope x makes)
    (hf : ∀ a, Confines (fun _ _ => False) (f a)) : Accounts scope (x >>= f) makes := by
  have hnone : makes.andThen x (fun _ => .nothing) = makes := by
    funext machine
    unfold Makes.andThen
    cases x.run machine <;> exact List.append_nil _
  exact hnone ▸ hx.bind fun a => .quiet (hf a)

/-- A choice makes the bindings of the steps that it picks. -/
theorem ite {c : Prop} [Decidable c] {x y : EvalM α} {makes more : Makes}
    (hx : Accounts scope x makes) (hy : Accounts scope y more) :
    Accounts scope (if c then x else y) (if c then makes else more) := by
  split
  · exact hx
  · exact hy

/-- An expression inside another: where it interrupts, its value is handed on. -/
theorem bind_value {x : EvalM Value} {f : Value → EvalM β} {h : Value → β} {next : Value → Makes}
    (hx : Accounts scope x makes) (hf : ∀ v, Accounts scope (f v) (next v)) :
    Accounts scope (do let v ← x; if v.interrupts then return h v else f v)
      (makes.andThen x fun v => .past v (next v)) :=
  hx.bind fun v => .ite (.quiet (.pure _)) (hf v)

/-- Binding a name makes that binding. -/
theorem define (name : String) (v : Value) :
    Accounts scope (EvalM.define scope name v) (.one name v) := by
  intro machine hs
  obtain ⟨s, hget⟩ := Heap.exists_scope hs
  refine ⟨(Heap.size_set machine.heap scope name v).symm ▸ hs, ?_⟩
  have hset : (machine.heap.set scope name v).scopes[scope]? =
      some { s with bindings := s.bindings.set name v } := by
    unfold Heap.set
    rw [Array.getElem?_modify, if_pos rfl, hget]
    rfl
  have hbefore : machine.heap.bindings scope = s.bindings := Heap.get?_bindings hget
  rw [hbefore]
  exact Heap.get?_bindings hset

end Accounts

section Evaluator

variable {eval : Evaluator} {makes : Expr → Makes}

mutual

/-- A statement makes the bindings that it is said to make, if its expressions do. -/
theorem Stmt.accounts (he : ∀ e, Accounts scope (eval scope e) (makes e)) : ∀ s : Stmt,
    Accounts scope (s.eval verbosity depth eval scope) (s.makes verbosity depth eval makes scope)
  | .bare _ e => by
    rw [Stmt.eval, Stmt.makes]
    exact (he e).bind_quiet fun _ => .pure _
  | .define _ name e => by
    rw [Stmt.eval, Stmt.makes]
    refine (he e).bind_value fun v => (Accounts.define name.name v).bind_quiet fun _ => ?_
    exact .ite ((Confines.shown depth v).bind fun _ => (Confines.record _).bind fun _ => .pure _)
      (.pure _)
  | .ret _ none => by
    rw [Stmt.eval, Stmt.makes]
    exact .quiet (.pure _)
  | .ret _ (some e) => by
    rw [Stmt.eval, Stmt.makes]
    exact (he e).bind_quiet fun _ => .pure _
  | .block inner => by
    rw [Stmt.eval, Stmt.makes]
    exact Block.accounts he inner

theorem Block.accounts (he : ∀ e, Accounts scope (eval scope e) (makes e)) : ∀ b : Block,
    Accounts scope (b.eval verbosity depth eval scope) (b.makes verbosity depth eval makes scope)
  | .mk _ ss => by
    rw [Block.eval, Block.makes]
    exact Stmt.accounts_all he ss none

theorem Stmt.accounts_all (he : ∀ e, Accounts scope (eval scope e) (makes e)) :
    ∀ (ss : List Stmt) (last : Option Value),
    Accounts scope (Stmt.evalAll verbosity depth eval scope last ss)
      (Stmt.makesAll verbosity depth eval makes scope ss)
  | [], _ => by
    rw [Stmt.evalAll, Stmt.makesAll]
    exact .quiet (.pure _)
  | s :: ss, _ => by
    rw [Stmt.evalAll, Stmt.makesAll]
    refine (Stmt.accounts he s).bind fun result => ?_
    cases result with
    | none => exact Stmt.accounts_all he ss none
    | some v => exact .ite (.quiet (.pure _)) (Stmt.accounts_all he ss (some v))

end

theorem Expr.accounts_arguments (he : ∀ e, Accounts scope (eval scope e) (makes e))
    (es : List Expr) : Accounts scope (Expr.evalArguments eval scope es)
      (Expr.makesArguments eval makes scope es) := by
  induction es with
  | nil => exact .quiet (.pure _)
  | cons e es ih =>
    rw [Expr.evalArguments, Expr.makesArguments]
    refine (he e).bind_value fun v => ih.bind_quiet fun result => ?_
    cases result with
    | error => exact .pure _
    | ok => exact .pure _

end Evaluator

/-- The event for a condition binds nothing. -/
theorem Expr.confines_test {writes : ScopeId → String → Prop} (e : Expr) (v : Value) :
    Confines writes (e.test verbosity depth v) := by
  unfold Expr.test
  exact .ite ((Confines.shownExpr depth e).bind fun _ => (Confines.shown depth v).bind fun _ =>
    .record _) (.pure _)

/-- A condition is recorded before what follows it, at a level that asks for it. -/
theorem Expr.test_bind (e : Expr) (v : Value) (x : EvalM α) :
    (e.test verbosity depth v >>= fun _ => x) =
      if 3 ≤ verbosity then do
        let text ← EvalM.shownExpr depth e
        EvalM.record (.tested text (← EvalM.shown depth v) v.isTruthy)
        x
      else x := by
  unfold Expr.test
  split
  · simp only [bind_assoc]
  · rw [pure_bind]

/-- A choice between two branches. -/
theorem Accounts.cond {e : Expr} {x y z : EvalM Value} {makes more others : Makes}
    (hx : Accounts scope x makes) (hy : Accounts scope y more) (hz : Accounts scope z others) :
    Accounts scope (do
      let value ← x
      if value.interrupts then return value
      if 3 ≤ verbosity then
        let text ← EvalM.shownExpr depth e
        EvalM.record (.tested text (← EvalM.shown depth value) value.isTruthy)
      if value.isTruthy then y else z)
    (makes.andThen x fun value => .past value <|
      Makes.nothing.andThen (e.test verbosity depth value) fun _ =>
        if value.isTruthy then more else others) := by
  refine hx.bind_value fun v => ?_
  have hbranch : Accounts scope (if v.isTruthy then y else z)
      (if v.isTruthy then more else others) := .ite hy hz
  have htest : Accounts scope (e.test verbosity depth v) .nothing := .quiet (e.confines_test v)
  exact e.test_bind v _ ▸ htest.bind fun _ => hbranch

/-- Evaluating an expression leaves in its scope the bindings from before with those put in that it
makes. -/
theorem Expr.accounts (verbosity : Int) (depth : Nat) (scope : ScopeId) (e : Expr) :
    Accounts scope (e.eval verbosity depth scope) (e.makes verbosity depth scope) := by
  induction depth generalizing e with
  | zero =>
    rw [Expr.eval, Expr.makes]
    exact .quiet .exceed
  | succ depth ih =>
    cases e with
    | int => rw [Expr.eval, Expr.makes]; exact .quiet (.pure _)
    | bool => rw [Expr.eval, Expr.makes]; exact .quiet (.pure _)
    | fn => rw [Expr.eval, Expr.makes]; exact .quiet (.pure _)
    | ident name =>
      rw [Expr.eval, Expr.makes]
      refine .quiet (Confines.lookup.bind fun found => ?_)
      cases found with
      | none => exact .raise
      | some => exact .pure _
    | unary token operator operand =>
      rw [Expr.eval, Expr.makes]
      exact (ih operand).bind_quiet fun v => .ite (.pure _) .settle
    | binary token left operator right =>
      rw [Expr.eval, Expr.makes]
      exact (ih left).bind_value fun v => (ih right).bind_quiet fun w => .ite (.pure _) .settle
    | cond token condition consequence alternative =>
      have hbranch : ∀ block : Block, Accounts scope (do
          return (← block.eval verbosity depth (Expr.eval verbosity depth) scope).getD .null)
          (block.makes verbosity depth (Expr.eval verbosity depth)
            (Expr.makes verbosity depth scope) scope) := fun block =>
        (Block.accounts ih block).bind_quiet fun _ => .pure _
      cases alternative with
      | none =>
        rw [Expr.eval, Expr.makes]
        exact .cond (ih condition) (hbranch consequence) (.quiet (.pure _))
      | some block =>
        rw [Expr.eval, Expr.makes]
        exact .cond (ih condition) (hbranch consequence) (hbranch block)
    | call token callee arguments =>
      rw [Expr.eval, Expr.makes]
      refine (ih callee).bind_value fun v => ?_
      refine (Expr.accounts_arguments ih arguments).bind_quiet fun result => ?_
      cases result with
      | error => exact .pure _
      | ok values => exact Value.confines_call (Expr.confines verbosity depth) v values

/-- However a program ends, also where it exceeds its depth, its scope has the bindings from before
with those put in that the program makes. -/
theorem Machine.bindings_run {machine : Machine} (hs : scope < machine.heap.scopes.size)
    (program : Program) :
    (machine.run verbosity depth scope program).machine.heap.bindings scope =
      (machine.heap.bindings scope).setAll (program.makes verbosity depth scope machine) := by
  have haccounts : Accounts scope (program.eval verbosity depth scope)
      (program.makes verbosity depth scope) :=
    (Stmt.accounts_all (Expr.accounts verbosity depth scope) program.statements none).bind_quiet
      fun _ => .pure _
  rw [Machine.run_machine]
  exact (haccounts machine hs).2

end Inkwell
