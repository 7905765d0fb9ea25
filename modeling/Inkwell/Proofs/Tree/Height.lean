import Inkwell.Proofs.Tree.Parts

/-!
# The height of a tree

The height counts the expressions, blocks and statements that are nested in one another, those
inside functions too. A tree without calls is one none of whose parts is a call.
-/

namespace Inkwell

mutual

/-- The levels of an expression. -/
def Expr.height : Expr → Nat
  | .ident _ => 1
  | .int _ _ => 1
  | .bool _ _ => 1
  | .unary _ _ operand => operand.height + 1
  | .binary _ left _ right => max left.height right.height + 1
  | .cond _ condition consequence alternative =>
    max condition.height (max consequence.height (Block.heightOption alternative)) + 1
  | .fn _ _ body => body.height + 1
  | .call _ callee arguments => max callee.height (Expr.heightAll arguments) + 1

/-- The levels of the highest member of a list of expressions. -/
def Expr.heightAll : List Expr → Nat
  | [] => 0
  | first :: rest => max first.height (Expr.heightAll rest)

/-- The levels of a block. -/
def Block.height : Block → Nat
  | .mk _ statements => Stmt.heightAll statements + 1

/-- The levels of a second branch. -/
def Block.heightOption : Option Block → Nat
  | none => 0
  | some block => block.height

/-- The levels of a statement. -/
def Stmt.height : Stmt → Nat
  | .define _ _ value => value.height + 1
  | .ret _ none => 1
  | .ret _ (some operand) => operand.height + 1
  | .bare _ expression => expression.height + 1
  | .block inner => inner.height + 1

/-- The levels of the highest member of a list of statements. -/
def Stmt.heightAll : List Stmt → Nat
  | [] => 0
  | first :: rest => max first.height (Stmt.heightAll rest)

end

/-- The levels of a program. -/
def Program.height (program : Program) : Nat := Stmt.heightAll program.statements + 1

/-- Whether an expression is a call itself. -/
def Expr.isCall : Expr → Bool
  | .call _ _ _ => true
  | _ => false

/-- A program that contains no call, not in a function either. -/
def Program.CallFree (program : Program) : Prop := ∀ e ∈ program.parts, ¬ e.isCall = true

instance (program : Program) : Decidable program.CallFree :=
  inferInstanceAs (Decidable (∀ e ∈ program.parts, ¬ e.isCall = true))

end Inkwell
