import Inkwell.Tree.Basic

/-!
# Canonical text

Trees are printed fully parenthesised: every operator expression has its own parentheses, so the
text shows how operators were grouped. Integers, truth values and the leading words of `let`,
`return` and `fn` are printed from their tokens, operators from the node. Blocks print their
statements one after the other, without braces or separators.

Printing recurses on the tree, and a caller with a bounded depth must first ask `fits`: whether a
tree has at most the given number of levels. The question itself never looks deeper than the bound.
-/

namespace Inkwell

mutual

/-- The canonical text of an expression. -/
def Expr.text : Expr → String
  | .ident name => name.name
  | .int token _ => token.literal
  | .bool token _ => token.literal
  | .unary _ operator operand => "(" ++ operator ++ operand.text ++ ")"
  | .binary _ left operator right =>
    "(" ++ left.text ++ " " ++ operator ++ " " ++ right.text ++ ")"
  | .cond _ condition consequence alternative =>
    "if " ++ condition.text ++ " " ++ consequence.text ++ Block.elseText alternative
  | .fn token parameters body =>
    token.literal ++ "(" ++ ", ".intercalate (parameters.map Ident.name) ++ ") " ++ body.text
  | .call _ callee arguments =>
    callee.text ++ "(" ++ ", ".intercalate (Expr.texts arguments) ++ ")"

/-- The canonical texts of the members of a list of expressions. -/
def Expr.texts : List Expr → List String
  | [] => []
  | first :: rest => first.text :: Expr.texts rest

/-- The canonical text of a block: its statements, with nothing between them. -/
def Block.text : Block → String
  | .mk _ statements => String.join (Stmt.texts statements)

/-- The text that a second branch adds to a choice. -/
def Block.elseText : Option Block → String
  | none => ""
  | some block => " else " ++ block.text

/-- The canonical text of a statement. -/
def Stmt.text : Stmt → String
  | .define token name value => token.literal ++ " " ++ name.name ++ " = " ++ value.text ++ ";"
  | .ret token operand => token.literal ++ Expr.operandText operand ++ ";"
  | .bare _ expression => expression.text
  | .block inner => inner.text

/-- The text that an operand adds to a `return`. -/
def Expr.operandText : Option Expr → String
  | none => ""
  | some operand => " " ++ operand.text

/-- The canonical texts of the members of a list of statements. -/
def Stmt.texts : List Stmt → List String
  | [] => []
  | first :: rest => first.text :: Stmt.texts rest

end

/-- The canonical text of a program: its statements, with nothing between them. -/
def Program.text (program : Program) : String := String.join (Stmt.texts program.statements)

mutual

/-- Whether an expression has at most `depth` levels. -/
def Expr.fits : Nat → Expr → Bool
  | 0, _ => false
  | _ + 1, .ident _ => true
  | _ + 1, .int _ _ => true
  | _ + 1, .bool _ _ => true
  | depth + 1, .unary _ _ operand => operand.fits depth
  | depth + 1, .binary _ left _ right => left.fits depth && right.fits depth
  | depth + 1, .cond _ condition consequence alternative =>
    condition.fits depth && consequence.fits depth && Block.fitsOption depth alternative
  | depth + 1, .fn _ _ body => body.fits depth
  | depth + 1, .call _ callee arguments => callee.fits depth && Expr.fitsAll depth arguments

/-- Whether every member of a list of expressions has at most `depth` levels. -/
def Expr.fitsAll : Nat → List Expr → Bool
  | _, [] => true
  | depth, first :: rest => first.fits depth && Expr.fitsAll depth rest

/-- Whether an expression, if there is one, has at most `depth` levels. -/
def Expr.fitsOption : Nat → Option Expr → Bool
  | _, none => true
  | depth, some expression => expression.fits depth

/-- Whether a block has at most `depth` levels. -/
def Block.fits : Nat → Block → Bool
  | 0, _ => false
  | depth + 1, .mk _ statements => Stmt.fitsAll depth statements

/-- Whether a block, if there is one, has at most `depth` levels. -/
def Block.fitsOption : Nat → Option Block → Bool
  | _, none => true
  | depth, some block => block.fits depth

/-- Whether a statement has at most `depth` levels. -/
def Stmt.fits : Nat → Stmt → Bool
  | 0, _ => false
  | depth + 1, .define _ _ value => value.fits depth
  | depth + 1, .ret _ operand => Expr.fitsOption depth operand
  | depth + 1, .bare _ expression => expression.fits depth
  | depth + 1, .block inner => inner.fits depth

/-- Whether every member of a list of statements has at most `depth` levels. -/
def Stmt.fitsAll : Nat → List Stmt → Bool
  | _, [] => true
  | depth, first :: rest => first.fits depth && Stmt.fitsAll depth rest

end

/-- Whether a program has at most `depth` levels. -/
def Program.fits : Nat → Program → Bool
  | 0, _ => false
  | depth + 1, program => Stmt.fitsAll depth program.statements

end Inkwell
