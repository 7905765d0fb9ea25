import Inkwell.Token.Basic

/-!
# Syntax trees

Expressions, statements, blocks and whole programs. Every node keeps the token it was read from,
so that a tree remembers its source text, and it stores what evaluation needs beside the token:
a tree built by hand may let the two disagree. Operators are kept as text for the same reason.
Parentheses leave no node.

Trees nest through lists; that equality of trees is decidable is in `Inkwell.Tree.Equality`.
-/

namespace Inkwell

/-- An occurrence of a name: its token and the name it stands for. -/
structure Ident where
  /-- The token of the occurrence. -/
  token : Token
  /-- The name looked up or bound. -/
  name : String
  deriving DecidableEq, Repr, Inhabited

mutual

/-- An expression. -/
inductive Expr where
  /-- A name. -/
  | ident (name : Ident)
  /-- An integer literal and its value. -/
  | int (token : Token) (value : Int)
  /-- A truth value. -/
  | bool (token : Token) (value : Bool)
  /-- An operator before its operand. -/
  | unary (token : Token) (operator : String) (operand : Expr)
  /-- An operator between two operands. -/
  | binary (token : Token) (left : Expr) (operator : String) (right : Expr)
  /-- A choice between two blocks, the second of which may be absent. -/
  | cond (token : Token) (condition : Expr) (consequence : Block) (alternative : Option Block)
  /-- A function literal. -/
  | fn (token : Token) (parameters : List Ident) (body : Block)
  /-- A call. -/
  | call (token : Token) (callee : Expr) (arguments : List Expr)

/-- Statements between braces. -/
inductive Block where
  /-- The opening brace and the statements behind it. -/
  | mk (token : Token) (statements : List Stmt)

/-- A statement. -/
inductive Stmt where
  /-- Binds the value of an expression to a name. -/
  | define (token : Token) (name : Ident) (value : Expr)
  /-- Leaves the enclosing function or program, with an operand or with none. -/
  | ret (token : Token) (operand : Option Expr)
  /-- Evaluates an expression. The token is the first one of the statement. -/
  | bare (token : Token) (expression : Expr)
  /-- Evaluates a block. No program text reads as this statement: it stands only in trees that
  were built by hand. -/
  | block (inner : Block)

end

/-- A whole program: statements without braces. -/
structure Program where
  /-- The statements, in order. -/
  statements : List Stmt

instance : Inhabited Expr := ⟨.bool default false⟩

instance : Inhabited Block := ⟨.mk default []⟩

instance : Inhabited Stmt := ⟨.ret default none⟩

instance : Inhabited Program := ⟨⟨[]⟩⟩

/-- The statements of a block. -/
def Block.statements : Block → List Stmt
  | .mk _ statements => statements

/-- The opening brace of a block. -/
def Block.token : Block → Token
  | .mk token _ => token

/-- The token that an expression was read from. -/
def Expr.token : Expr → Token
  | .ident name => name.token
  | .int token _ => token
  | .bool token _ => token
  | .unary token _ _ => token
  | .binary token _ _ _ => token
  | .cond token _ _ _ => token
  | .fn token _ _ => token
  | .call token _ _ => token

/-- The token that a statement was read from. -/
def Stmt.token : Stmt → Token
  | .define token _ _ => token
  | .ret token _ => token
  | .bare token _ => token
  | .block inner => inner.token

/-- The text of a program's first token, empty for the empty program. -/
def Program.literal (program : Program) : String :=
  match program.statements with
  | [] => ""
  | first :: _ => first.token.literal

end Inkwell
