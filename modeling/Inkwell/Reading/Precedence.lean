import Inkwell.Token.Basic

/-!
# How tightly operators bind

Nine kinds of token continue an expression that stands to their left: the eight binary operators
and the parenthesis that opens the arguments of a call. A larger number binds more tightly.
-/

namespace Inkwell

namespace Precedence

/-- The level at which a whole expression is read; nothing binds as loosely. -/
def lowest : Int := 1

/-- Equality and its negation. -/
def equality : Int := 2

/-- Order. -/
def comparison : Int := 3

/-- Sums and differences. -/
def sum : Int := 4

/-- Products and quotients. -/
def product : Int := 5

/-- Operators before their operand. -/
def unary : Int := 6

/-- Calls. -/
def call : Int := 7

end Precedence

/-- How tightly a token binds the expression on its left. -/
def Token.Kind.precedence : Token.Kind → Int
  | .eq | .notEq => Precedence.equality
  | .lt | .gt => Precedence.comparison
  | .plus | .minus => Precedence.sum
  | .slash | .asterisk => Precedence.product
  | .lparen => Precedence.call
  | _ => Precedence.lowest

/-- Whether a token can continue an expression on its left. -/
def Token.Kind.isInfix : Token.Kind → Bool
  | .eq | .notEq | .lt | .gt | .plus | .minus | .slash | .asterisk | .lparen => true
  | _ => false

end Inkwell
