import Inkwell.Reading.Statement
import Inkwell.Text.Decimal

/-!
# Reading expressions

An expression is an operand followed by operators and calls, as long as these bind more tightly
than the level asked for. `operand` reads the former and `extend` one of the latter; both take the
reader of nested expressions as an argument, and `expression` ties the knot. Every nested
expression takes one unit of a depth that the caller supplies, and reading stops when none is left.
-/

namespace Inkwell.Reading

/-- The integer literal at the cursor. -/
def integerLiteral : ParseM Expr := do
  let token ← current
  match Text.Decimal.digits? token.literal.toList with
  | none => stop (.notNumeral token.literal)
  | some digits =>
    if maxNumeralLength < digits.length then stop (.numeralTooLong digits.length)
    else
      let value := Text.Decimal.value digits
      if maxInteger < value then reject (.outOfRange token.literal)
      else return .int token value

/-- The truth value at the cursor. -/
def booleanLiteral : ReadM Expr := do
  let token ← current
  return .bool token (token.kind == .trueKw)

/-- An operator before its operand, with the cursor at the operator. -/
def unaryExpression (expression : Int → ParseM Expr) : ParseM Expr := do
  let token ← current
  advance
  let right ← expression Precedence.unary
  return .unary token token.literal right

/-- An expression in parentheses, with the cursor at the opening one. -/
def groupedExpression (expression : Int → ParseM Expr) : ParseM Expr := do
  advance
  let inner ← expression Precedence.lowest
  expect .rparen
  return inner

/-- A choice with the cursor at its keyword. -/
def ifExpression (expression : Int → ParseM Expr) : ParseM Expr := do
  let token ← current
  expect .lparen
  advance
  let condition ← expression Precedence.lowest
  expect .rparen
  expect .lbrace
  let consequence ← block expression
  if (← upcoming).kind = .elseKw then
    advance
    expect .lbrace
    let alternative ← block expression
    return .cond token condition consequence (some alternative)
  else
    return .cond token condition consequence none

/-- The parameters that follow the first one. Each round advances. -/
def moreParameters : List Token → Array Ident → ParseM (List Ident)
  | [], found => return found.toList
  | _ :: rounds, found => do
    if (← upcoming).kind = .comma then
      advance
      expect .ident
      moreParameters rounds (found.push (← identifier))
    else return found.toList

/-- A list of parameters with the cursor at the opening parenthesis. Afterwards the cursor is at
the closing one. -/
def functionParameters : ParseM (List Ident) := do
  if (← upcoming).kind = .rparen then
    advance
    return []
  else
    expect .ident
    let first ← identifier
    let parameters ← moreParameters (← remaining) #[first]
    expect .rparen
    return parameters

/-- A function literal with the cursor at its keyword. -/
def functionLiteral (expression : Int → ParseM Expr) : ParseM Expr := do
  let token ← current
  expect .lparen
  let parameters ← functionParameters
  expect .lbrace
  let body ← block expression
  return .fn token parameters body

/-- The operand at the cursor: what an expression may start with. -/
def operand (expression : Int → ParseM Expr) : ParseM Expr := do
  match (← current).kind with
  | .ident => return .ident (← identifier)
  | .int => integerLiteral
  | .trueKw | .falseKw => booleanLiteral
  | .bang | .minus => unaryExpression expression
  | .lparen => groupedExpression expression
  | .ifKw => ifExpression expression
  | .fnKw => functionLiteral expression
  | kind => reject (.noOperand kind)

/-- The expressions that follow the first one in a list. Each round advances. -/
def moreExpressions (expression : Int → ParseM Expr) :
    List Token → Array Expr → ParseM (List Expr)
  | [], found => return found.toList
  | _ :: rounds, found => do
    if (← upcoming).kind = .comma then
      advance
      advance
      moreExpressions expression rounds (found.push (← expression Precedence.lowest))
    else return found.toList

/-- Expressions between commas up to a closing token, with the cursor before the first of them.
Afterwards the cursor is at the closing token. -/
def expressionList (expression : Int → ParseM Expr) (close : Token.Kind) :
    ParseM (List Expr) := do
  if (← upcoming).kind = close then
    advance
    return []
  else
    advance
    let first ← expression Precedence.lowest
    let expressions ← moreExpressions expression (← remaining) #[first]
    expect close
    return expressions

/-- A call of the expression on the left, with the cursor at the opening parenthesis. -/
def callExpression (expression : Int → ParseM Expr) (left : Expr) : ParseM Expr := do
  let token ← current
  return .call token left (← expressionList expression .rparen)

/-- An operator behind its left operand, with the cursor at the operator. The right operand binds
more tightly than the operator itself, so equal operators group to the left. -/
def binaryExpression (expression : Int → ParseM Expr) (left : Expr) : ParseM Expr := do
  let token ← current
  advance
  let right ← expression token.kind.precedence
  return .binary token left token.literal right

/-- Continues an expression by the operator or the call at the cursor. -/
def extend (expression : Int → ParseM Expr) (left : Expr) : ParseM Expr := do
  if (← current).kind = .lparen then callExpression expression left
  else binaryExpression expression left

/-- Continues an expression as long as the upcoming token binds it more tightly than `level`. Each
round advances. -/
def extendAll (expression : Int → ParseM Expr) (level : Int) :
    List Token → Expr → ParseM Expr
  | [], left => return left
  | _ :: rounds, left => do
    let kind := (← upcoming).kind
    if kind ≠ .semicolon ∧ level < kind.precedence ∧ kind.isInfix then
      advance
      extendAll expression level rounds (← extend expression left)
    else return left

/-- The expression at the cursor that binds more tightly than a level, with at most `depth`
expressions nested in one another. Afterwards the cursor is at its last token. -/
def expression : (depth : Nat) → (level : Int) → ParseM Expr
  | 0, _ => stop .tooDeep
  | depth + 1, level => do
    let left ← operand (expression depth)
    extendAll (expression depth) level (← remaining) left

end Inkwell.Reading
