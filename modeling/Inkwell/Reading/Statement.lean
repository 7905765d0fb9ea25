import Inkwell.Reading.Cursor
import Inkwell.Reading.Precedence
import Inkwell.Tree.Basic

/-!
# Reading statements and blocks

Statements contain expressions and expressions contain blocks. The knot is tied in
`Inkwell.Reading.Expression`: here every reader takes the reader of expressions as an argument,
which expects the precedence that the expression has to exceed.

A statement that is given up leaves the cursor wherever it stood. The loop around it advances by
one token and starts the next statement there, so one mistake may be reported several times, and
no mistake ends a loop early.
-/

namespace Inkwell.Reading

/-- The name at the cursor. -/
def identifier : ReadM Ident := do
  let token ← current
  return ⟨token, token.literal⟩

/-- A `let` with the cursor at its keyword. -/
def letStatement (expression : Int → ParseM Expr) : ParseM Stmt := do
  let token ← current
  expect .ident
  let name ← identifier
  expect .assign
  advance
  let value ← terminated (expression Precedence.lowest)
  return .define token name value

/-- A `return` with the cursor at its keyword. It has no operand before a semicolon, before a
closing brace and at the end of the input. -/
def returnStatement (expression : Int → ParseM Expr) : ParseM Stmt := do
  let token ← current
  match (← upcoming).kind with
  | .semicolon =>
    advance
    return .ret token none
  | .rbrace | .eof => return .ret token none
  | _ =>
    advance
    let value ← terminated (expression Precedence.lowest)
    return .ret token (some value)

/-- An expression as a statement. -/
def bareStatement (expression : Int → ParseM Expr) : ParseM Stmt := do
  let token ← current
  let value ← terminated (expression Precedence.lowest)
  return .bare token value

/-- The statement at the cursor. Afterwards the cursor is at its last token. -/
def statement (expression : Int → ParseM Expr) : ParseM Stmt := do
  match (← current).kind with
  | .letKw => letStatement expression
  | .returnKw => returnStatement expression
  | _ => bareStatement expression

/-- Statements up to a token at which the loop ends, or up to the end of the input. Statements
that are given up are left out. Each round advances, so there are at most as many rounds as
tokens. -/
def statementsUntil (ends : Token.Kind → Bool) (expression : Int → ParseM Expr) :
    List Token → Array Stmt → ReadM (List Stmt)
  | [], kept => return kept.toList
  | _ :: rounds, kept => do
    let kind := (← current).kind
    if kind = .eof ∨ ends kind then return kept.toList
    let result ← (statement expression).run
    advance
    statementsUntil ends expression rounds (kept ++ result.toArray)

/-- A block with the cursor at its opening brace. Afterwards the cursor is at the closing brace, or
at the end of the input if there is none. -/
def block (expression : Int → ParseM Expr) : ReadM Block := do
  let token ← current
  advance
  let statements ← statementsUntil (· == .rbrace) expression (← remaining) #[]
  return .mk token statements

/-- All statements up to the end of the input. -/
def program (expression : Int → ParseM Expr) : ReadM Program := do
  return ⟨← statementsUntil (fun _ => false) expression (← remaining) #[]⟩

end Inkwell.Reading
