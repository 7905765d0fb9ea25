import Inkwell.Tree.Basic

/-!
# The names in a tree

All names that occur in a tree, and the names that evaluating it may bind in the scope around it:
those of the `let` statements that stand outside of all function literals. Blocks have no scope of
their own, so what an `if` binds in a branch belongs to the scope around it, while the body of a
function binds in the scope of a call.
-/

namespace Inkwell

mutual

/-- The names that an expression binds outside of its function literals. -/
def Expr.lets : Expr → List String
  | .ident _ => []
  | .int _ _ => []
  | .bool _ _ => []
  | .unary _ _ operand => operand.lets
  | .binary _ left _ right => left.lets ++ right.lets
  | .cond _ condition consequence alternative =>
    condition.lets ++ (consequence.lets ++ Block.letsOption alternative)
  | .fn _ _ _ => []
  | .call _ callee arguments => callee.lets ++ Expr.letsAll arguments

/-- The names that the members of a list of expressions bind. -/
def Expr.letsAll : List Expr → List String
  | [] => []
  | first :: rest => first.lets ++ Expr.letsAll rest

/-- The names that a block binds. -/
def Block.lets : Block → List String
  | .mk _ statements => Stmt.letsAll statements

/-- The names that a second branch binds. -/
def Block.letsOption : Option Block → List String
  | none => []
  | some block => block.lets

/-- The names that a statement binds. -/
def Stmt.lets : Stmt → List String
  | .define _ name value => name.name :: value.lets
  | .ret _ operand => Expr.letsOption operand
  | .bare _ expression => expression.lets
  | .block inner => inner.lets

/-- The names that an operand of a `return` binds. -/
def Expr.letsOption : Option Expr → List String
  | none => []
  | some operand => operand.lets

/-- The names that the members of a list of statements bind. -/
def Stmt.letsAll : List Stmt → List String
  | [] => []
  | first :: rest => first.lets ++ Stmt.letsAll rest

end

/-- The names that a program binds. -/
def Program.lets (program : Program) : List String := Stmt.letsAll program.statements

mutual

/-- The names that occur in an expression: used, bound, or as parameters. -/
def Expr.names : Expr → List String
  | .ident name => [name.name]
  | .int _ _ => []
  | .bool _ _ => []
  | .unary _ _ operand => operand.names
  | .binary _ left _ right => left.names ++ right.names
  | .cond _ condition consequence alternative =>
    condition.names ++ (consequence.names ++ Block.namesOption alternative)
  | .fn _ parameters body => parameters.map Ident.name ++ body.names
  | .call _ callee arguments => callee.names ++ Expr.namesAll arguments

/-- The names that occur in the members of a list of expressions. -/
def Expr.namesAll : List Expr → List String
  | [] => []
  | first :: rest => first.names ++ Expr.namesAll rest

/-- The names that occur in a block. -/
def Block.names : Block → List String
  | .mk _ statements => Stmt.namesAll statements

/-- The names that occur in a second branch. -/
def Block.namesOption : Option Block → List String
  | none => []
  | some block => block.names

/-- The names that occur in a statement. -/
def Stmt.names : Stmt → List String
  | .define _ name value => name.name :: value.names
  | .ret _ operand => Expr.namesOption operand
  | .bare _ expression => expression.names
  | .block inner => inner.names

/-- The names that occur in an operand of a `return`. -/
def Expr.namesOption : Option Expr → List String
  | none => []
  | some operand => operand.names

/-- The names that occur in the members of a list of statements. -/
def Stmt.namesAll : List Stmt → List String
  | [] => []
  | first :: rest => first.names ++ Stmt.namesAll rest

end

end Inkwell
