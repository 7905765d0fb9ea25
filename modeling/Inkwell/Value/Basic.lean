import Inkwell.Text.Decimal
import Inkwell.Tree.Canonical
import Inkwell.Tree.Equality

/-!
# Runtime values

The values of the language form a closed set: integers, truth values, null, errors, functions, and
the wrapper that carries the operand of an explicit `return` out of nested blocks. Errors and
wrapped values are values like any other; what makes them special is that evaluation hands them on
unexamined, which `Value.interrupts` says.

A function remembers the scope in which its literal was evaluated by the number of that scope, so
everything that shares a scope sees the same bindings.
-/

namespace Inkwell

/-- The number of a scope in the heap. -/
abbrev ScopeId := Nat

/-- A runtime value. -/
inductive Value where
  /-- An integer. -/
  | int (number : Int)
  /-- A truth value. -/
  | bool (truth : Bool)
  /-- The value of a missing result. -/
  | null
  /-- A runtime error with its message. -/
  | error (message : String)
  /-- The operand of a `return` on its way out. -/
  | returned (value : Value)
  /-- A function: the names of its parameters, its body and the scope it was created in. -/
  | fn (parameters : List String) (body : Block) (scope : ScopeId)
  deriving DecidableEq, Inhabited

/-- The type of a value. -/
inductive Value.Kind where
  | integer | boolean | null | returned | error | function
  deriving DecidableEq, Repr

/-- The name of a type, as messages show it. -/
def Value.Kind.name : Value.Kind → String
  | integer => "INTEGER"
  | boolean => "BOOLEAN"
  | null => "NULL"
  | returned => "RETURN_VALUE"
  | error => "ERROR"
  | function => "FUNCTION"

namespace Value

/-- The type of a value. -/
def kind : Value → Kind
  | int _ => .integer
  | bool _ => .boolean
  | null => .null
  | error _ => .error
  | returned _ => .returned
  | fn _ _ _ => .function

/-- Null and false are not truthy; every other value is, zero included. -/
def isTruthy : Value → Bool
  | null => false
  | bool truth => truth
  | _ => true

/-- Whether a value is a runtime error. -/
def isError : Value → Bool
  | error _ => true
  | _ => false

/-- Whether a value stops evaluation and travels up unexamined. -/
def interrupts : Value → Bool
  | error _ => true
  | returned _ => true
  | _ => false

/-- Takes the wrapper off a value that is on its way out. -/
def unwrap : Value → Value
  | returned value => value
  | value => value

/-- The text that shows a value. -/
def text : Value → String
  | int number => Text.Decimal.ofInt number
  | bool true => "true"
  | bool false => "false"
  | null => "null"
  | error message => "ERROR: " ++ message
  | returned value => value.text
  | fn parameters body _ =>
    "fn(" ++ ", ".intercalate parameters ++ ") \x7b\n" ++ body.text ++ "\n\x7d"

/-- Whether a value can be shown within a given depth: of all values only functions have a text
that takes any depth, namely that of their body. -/
def fits (depth : Nat) : Value → Bool
  | returned value => value.fits depth
  | fn _ body _ => body.fits depth
  | _ => true

/-- The text that shows a value, if it can be shown within a given depth. -/
def text? (depth : Nat) (value : Value) : Option String :=
  if value.fits depth then some value.text else none

end Value

end Inkwell
