import Inkwell.Value.Basic

/-!
# Faults and operators

What the operators of the language do to values, and the faults of running programs. Integers are
signed with 64 bits: sums, differences, products, quotients and negations wrap around. Division
rounds toward negative infinity. Operands of different types never agree, and only integers and
truth values can be compared. Operators are told apart by their text; text that names no operator
is a fault of its own.
-/

namespace Inkwell

/-- What goes wrong while a program runs. -/
inductive Fault where
  /-- No scope on the chain binds the name. -/
  | unbound (name : String)
  /-- The callee is no function. -/
  | notFunction (found : Value.Kind)
  /-- The operands have different types. -/
  | mismatch (operator : String) (left right : Value.Kind)
  /-- The operator does not apply to such an operand. -/
  | unknownUnary (operator : String) (operand : Value.Kind)
  /-- The operator does not apply to such operands. -/
  | unknownBinary (operator : String) (left right : Value.Kind)
  /-- The divisor is zero. -/
  | divisionByZero
  deriving DecidableEq, Repr

/-- The text of a fault. -/
def Fault.message : Fault → String
  | unbound name => "identifier not found: " ++ name
  | notFunction found => "not a function: " ++ found.name
  | mismatch operator left right =>
    "type mismatch: " ++ left.name ++ " " ++ operator ++ " " ++ right.name
  | unknownUnary operator operand => "unknown operator: " ++ operator ++ operand.name
  | unknownBinary operator left right =>
    "unknown operator: " ++ left.name ++ " " ++ operator ++ " " ++ right.name
  | divisionByZero => "division by zero: INTEGER / INTEGER"

/-- Reduces an integer to the signed range of 64 bits, modulo two to the power of 64. -/
def wrap (number : Int) : Int := number.bmod 0x10000000000000000

namespace Value

/-- An operator before its operand. -/
def unary (operator : String) (operand : Value) : Except Fault Value :=
  match operator, operand with
  | "!", operand => .ok (bool !operand.isTruthy)
  | "-", int number => .ok (int (wrap (-number)))
  | operator, operand => .error (.unknownUnary operator operand.kind)

/-- An operator between integers. -/
def arithmetic (operator : String) (a b : Int) : Except Fault Value :=
  match operator with
  | "+" => .ok (int (wrap (a + b)))
  | "-" => .ok (int (wrap (a - b)))
  | "*" => .ok (int (wrap (a * b)))
  | "/" => if b = 0 then .error .divisionByZero else .ok (int (wrap (a.fdiv b)))
  | "<" => .ok (bool (a < b))
  | ">" => .ok (bool (b < a))
  | "==" => .ok (bool (a = b))
  | "!=" => .ok (bool (a ≠ b))
  | operator => .error (.unknownBinary operator .integer .integer)

/-- An operator between two operands. -/
def binary (operator : String) (left right : Value) : Except Fault Value :=
  match left, right with
  | int a, int b => arithmetic operator a b
  | bool a, bool b =>
    match operator with
    | "==" => .ok (bool (a == b))
    | "!=" => .ok (bool (a != b))
    | operator => .error (.unknownBinary operator .boolean .boolean)
  | left, right =>
    if left.kind = right.kind then .error (.unknownBinary operator left.kind right.kind)
    else .error (.mismatch operator left.kind right.kind)

end Value

end Inkwell
