import Inkwell.Evaluation.Run

/-!
# Evaluation with exceptions

A second evaluator of the same trees on the same machine, in which `return` and runtime errors are
thrown. Nothing here checks an operand: what is thrown passes every construct that does not catch
it. Calls catch a thrown `return`, and programs catch both. That a call ends is recorded on either
way out of it, with the text of what it ends with.
-/

namespace Inkwell

/-- What is thrown: the operand of a `return`, or the message of a runtime error. -/
inductive Signal where
  /-- By a `return` with this operand. -/
  | returned (value : Value)
  /-- By a runtime error with this message. -/
  | error (message : String)

/-- Steps of a run that may throw. What is thrown leaves the machine as it is. -/
abbrev ThrowM := ExceptT Signal EvalM

namespace Reference

open EvalM

/-- An evaluator of expressions in a scope. -/
abbrev Evaluator := ScopeId → Expr → ThrowM Value

/-- Records a fault and throws its message. -/
def raise {α : Type} (verbosity : Int) (fault : Fault) : ThrowM α := do
  if 2 ≤ verbosity then record (.raised fault.message)
  throw (.error fault.message)

/-- The value of an operation that may have a fault. -/
def settle (verbosity : Int) : Except Fault Value → ThrowM Value
  | .ok value => return value
  | .error fault => raise verbosity fault

mutual

/-- Evaluates a statement. -/
def stmt (verbosity : Int) (depth : Nat) (eval : Evaluator) (scope : ScopeId) :
    Stmt → ThrowM (Option Value)
  | .bare _ expression => return some (← eval scope expression)
  | .define _ name expression => do
    let value ← eval scope expression
    EvalM.define scope name.name value
    if 2 ≤ verbosity then record (.bound name.name (← shown depth value))
    return none
  | .ret _ none => throw (.returned .null)
  | .ret _ (some expression) => do throw (.returned (← eval scope expression))
  | .block inner => block verbosity depth eval scope inner

/-- Evaluates the statements of a block. -/
def block (verbosity : Int) (depth : Nat) (eval : Evaluator) (scope : ScopeId) :
    Block → ThrowM (Option Value)
  | .mk _ statements => stmts verbosity depth eval scope none statements

/-- Evaluates statements one after the other. The result is that of the last one, and `last` if
there are none. -/
def stmts (verbosity : Int) (depth : Nat) (eval : Evaluator) (scope : ScopeId) :
    Option Value → List Stmt → ThrowM (Option Value)
  | last, [] => return last
  | _, statement :: rest => do
    let result ← stmt verbosity depth eval scope statement
    stmts verbosity depth eval scope result rest

end

/-- Runs the body of a call, which catches a thrown `return` and nothing else. -/
def catchReturn (steps : ThrowM (Option Value)) : ThrowM Value :=
  tryCatch (return (← steps).getD .null) fun
    | .returned value => return value
    | .error message => throw (.error message)

/-- The text of how a call ends. -/
def shownEnding (depth : Nat) : Except Signal Value → EvalM String
  | .ok value => shown depth value
  | .error (.returned value) => shown depth value
  | .error (.error message) => shown depth (.error message)

/-- Records how a call ends, and goes on with it. -/
def recordEnding (verbosity : Int) (depth : Nat) (steps : ThrowM Value) : ThrowM Value :=
  ExceptT.mk do
    let ending ← steps.run
    if 1 ≤ verbosity then record (.returned (← shownEnding depth ending))
    return ending

/-- Calls a value. -/
def call (verbosity : Int) (depth : Nat) (eval : Evaluator) (callee : Value)
    (arguments : List Value) : ThrowM Value :=
  match callee with
  | .fn parameters body outer => do
    let scope ← allocate ⟨argumentBindings parameters arguments, some outer⟩
    if 1 ≤ verbosity then
      let texts ← (arguments.mapM (shown depth) : EvalM (List String))
      record (.called parameters texts)
    recordEnding verbosity depth
      (catchReturn (ExceptT.mk (nested (block verbosity depth eval scope body).run)))
  | callee => raise verbosity (.notFunction callee.kind)

/-- Evaluates an expression in a scope, within a depth. Operands and arguments are evaluated from
left to right, the callee before the arguments. -/
def expr (verbosity : Int) : (depth : Nat) → ScopeId → Expr → ThrowM Value
  | 0, _, _ => liftM (exceed : EvalM Value)
  | depth + 1, scope, expression =>
    match expression with
    | .int _ number => return .int number
    | .bool _ truth => return .bool truth
    | .ident name => do
      match ← lookup depth scope name.name with
      | some value => return value
      | none => raise verbosity (.unbound name.name)
    | .unary _ operator operand => do
      let value ← expr verbosity depth scope operand
      settle verbosity (value.unary operator)
    | .binary _ left operator right => do
      let first ← expr verbosity depth scope left
      let second ← expr verbosity depth scope right
      settle verbosity (first.binary operator second)
    | .cond _ condition consequence alternative => do
      let value ← expr verbosity depth scope condition
      if 3 ≤ verbosity then
        let text ← shownExpr depth condition
        record (.tested text (← shown depth value) value.isTruthy)
      if value.isTruthy then
        return (← block verbosity depth (expr verbosity depth) scope consequence).getD .null
      match alternative with
      | some other => return (← block verbosity depth (expr verbosity depth) scope other).getD .null
      | none => return .null
    | .fn _ parameters body => return .fn (parameters.map Ident.name) body scope
    | .call _ callee arguments => do
      let function ← expr verbosity depth scope callee
      let values ← arguments.mapM (expr verbosity depth scope)
      call verbosity depth (expr verbosity depth) function values

/-- Evaluates a program, which catches everything that is thrown. -/
def program (verbosity : Int) (depth : Nat) (scope : ScopeId) (program : Program) :
    EvalM (Option Value) := do
  match ← (stmts verbosity depth (expr verbosity depth) scope none program.statements).run with
  | .ok result => return result
  | .error (.returned value) => return some value
  | .error (.error message) => return some (.error message)

end Reference

end Inkwell
