import Inkwell.Evaluation.Machine

/-!
# Evaluation

Programs are evaluated by walking their trees. An explicit `return` and a runtime error are values
that every construct checks its operands for and hands on at once: blocks leave the wrapper of a
`return` on, so that it reaches the enclosing call or program, which take it off. A statement that
binds a name has no value, and neither has an empty block; expressions always have one.

Evaluation recurses on the depth that the caller allows: an expression inside another, and the body
of a function inside the call, have one unit less. The functions on statements, blocks, arguments
and calls take the evaluator of the expressions one level down as an argument, and `Expr.eval` ties
the knot. `verbosity` says which messages are recorded.
-/

namespace Inkwell

open EvalM

/-- An evaluator of expressions in a scope. -/
abbrev Evaluator := ScopeId → Expr → EvalM Value

mutual

/-- Evaluates a statement. Within `depth`, values are shown in the trace. -/
def Stmt.eval (verbosity : Int) (depth : Nat) (eval : Evaluator) (scope : ScopeId) :
    Stmt → EvalM (Option Value)
  | .bare _ expression => return some (← eval scope expression)
  | .define _ name expression => do
    let value ← eval scope expression
    if value.interrupts then return some value
    EvalM.define scope name.name value
    if 2 ≤ verbosity then record (.bound name.name (← shown depth value))
    return none
  | .ret _ none => return some (.returned .null)
  | .ret _ (some expression) => do
    let value ← eval scope expression
    return some (if value.interrupts then value else .returned value)
  | .block inner => inner.eval verbosity depth eval scope

/-- Evaluates the statements of a block, in the scope around it. -/
def Block.eval (verbosity : Int) (depth : Nat) (eval : Evaluator) (scope : ScopeId) :
    Block → EvalM (Option Value)
  | .mk _ statements => Stmt.evalAll verbosity depth eval scope none statements

/-- Evaluates statements one after the other, up to the first that is interrupted. The result is
that of the last one evaluated, and `last` if there are none. -/
def Stmt.evalAll (verbosity : Int) (depth : Nat) (eval : Evaluator) (scope : ScopeId) :
    Option Value → List Stmt → EvalM (Option Value)
  | last, [] => return last
  | _, statement :: rest => do
    match ← statement.eval verbosity depth eval scope with
    | some value =>
      if value.interrupts then return some value
      else Stmt.evalAll verbosity depth eval scope (some value) rest
    | none => Stmt.evalAll verbosity depth eval scope none rest

end

/-- Evaluates arguments from left to right. The first one that is interrupted takes the place of
all. -/
def Expr.evalArguments (eval : Evaluator) (scope : ScopeId) :
    List Expr → EvalM (Except Value (List Value))
  | [] => return .ok []
  | first :: rest => do
    let value ← eval scope first
    if value.interrupts then return .error value
    match ← Expr.evalArguments eval scope rest with
    | .ok values => return .ok (value :: values)
    | .error interrupt => return .error interrupt

/-- The bindings of a call: every parameter has its argument. Missing arguments are null, and
arguments that are left over are ignored. Of equal parameters the last one counts. -/
def argumentBindings (parameters : List String) (arguments : List Value) : Bindings :=
  go [] parameters arguments
where
  /-- Adds bindings to those of the parameters before. -/
  go (bindings : Bindings) : List String → List Value → Bindings
    | [], _ => bindings
    | name :: names, [] => go (bindings.set name .null) names []
    | name :: names, value :: values => go (bindings.set name value) names values

/-- Calls a value: evaluates the body of a function in a new scope inside the one it was created
in. The call takes the wrapper of a `return` off, and a body without a value gives null. -/
def Value.call (verbosity : Int) (depth : Nat) (eval : Evaluator) (callee : Value)
    (arguments : List Value) : EvalM Value :=
  match callee with
  | .fn parameters body outer => do
    let scope ← allocate ⟨argumentBindings parameters arguments, some outer⟩
    if 1 ≤ verbosity then record (.called parameters (← arguments.mapM (shown depth)))
    let result ← nested (body.eval verbosity depth eval scope)
    let result := (result.getD .null).unwrap
    if 1 ≤ verbosity then record (.returned (← shown depth result))
    return result
  | callee => raise verbosity (.notFunction callee.kind)

/-- Evaluates an expression in a scope, within a depth. -/
def Expr.eval (verbosity : Int) : (depth : Nat) → ScopeId → Expr → EvalM Value
  | 0, _, _ => exceed
  | depth + 1, scope, expression =>
    match expression with
    | .int _ number => return .int number
    | .bool _ truth => return .bool truth
    | .ident name => do
      match ← lookup depth scope name.name with
      | some value => return value
      | none => raise verbosity (.unbound name.name)
    | .unary _ operator operand => do
      let value ← operand.eval verbosity depth scope
      if value.interrupts then return value
      settle verbosity (value.unary operator)
    | .binary _ left operator right => do
      let first ← left.eval verbosity depth scope
      if first.interrupts then return first
      let second ← right.eval verbosity depth scope
      if second.interrupts then return second
      settle verbosity (first.binary operator second)
    | .cond _ condition consequence alternative => do
      let value ← condition.eval verbosity depth scope
      if value.interrupts then return value
      if 3 ≤ verbosity then
        let text ← shownExpr depth condition
        record (.tested text (← shown depth value) value.isTruthy)
      if value.isTruthy then
        return (← consequence.eval verbosity depth (Expr.eval verbosity depth) scope).getD .null
      match alternative with
      | some block =>
        return (← block.eval verbosity depth (Expr.eval verbosity depth) scope).getD .null
      | none => return .null
    | .fn _ parameters body => return .fn (parameters.map Ident.name) body scope
    | .call _ callee arguments => do
      let function ← callee.eval verbosity depth scope
      if function.interrupts then return function
      match ← Expr.evalArguments (Expr.eval verbosity depth) scope arguments with
      | .error interrupt => return interrupt
      | .ok values => function.call verbosity depth (Expr.eval verbosity depth) values

/-- Evaluates a program: its statements up to the first that is interrupted, with the wrapper of a
`return` taken off. -/
def Program.eval (verbosity : Int) (depth : Nat) (scope : ScopeId) (program : Program) :
    EvalM (Option Value) := do
  let eval := Expr.eval verbosity depth
  let result ← Stmt.evalAll verbosity depth eval scope none program.statements
  return result.map Value.unwrap

end Inkwell
