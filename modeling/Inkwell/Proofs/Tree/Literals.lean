import Inkwell.Tree.Basic

/-!
# The function literals in a tree

All function literals that a tree contains, each with the number of function literals around it. The
body of a literal is one level further in than the literal itself. The nesting of a program is the
greatest number of function literals that stand inside each other.
-/

namespace Inkwell

/-- A function literal and its place: how many function literals there are around it. -/
structure Literal where
  /-- The number of function literals around this one. -/
  level : Nat
  /-- The names of its parameters. -/
  parameters : List String
  /-- Its body. -/
  body : Block

mutual

/-- The function literals in an expression that stands inside `level` others. -/
def Expr.literals (level : Nat) : Expr → List Literal
  | .ident _ => []
  | .int _ _ => []
  | .bool _ _ => []
  | .unary _ _ operand => operand.literals level
  | .binary _ left _ right => left.literals level ++ right.literals level
  | .cond _ condition consequence alternative =>
    condition.literals level ++
      (consequence.literals level ++ Block.literalsOption level alternative)
  | .fn _ parameters body =>
    ⟨level, parameters.map Ident.name, body⟩ :: body.literals (level + 1)
  | .call _ callee arguments => callee.literals level ++ Expr.literalsAll level arguments

/-- The function literals in the members of a list of expressions. -/
def Expr.literalsAll (level : Nat) : List Expr → List Literal
  | [] => []
  | first :: rest => first.literals level ++ Expr.literalsAll level rest

/-- The function literals in a block. -/
def Block.literals (level : Nat) : Block → List Literal
  | .mk _ statements => Stmt.literalsAll level statements

/-- The function literals in a second branch. -/
def Block.literalsOption (level : Nat) : Option Block → List Literal
  | none => []
  | some block => block.literals level

/-- The function literals in a statement. -/
def Stmt.literals (level : Nat) : Stmt → List Literal
  | .define _ _ value => value.literals level
  | .ret _ operand => Expr.literalsOption level operand
  | .bare _ expression => expression.literals level
  | .block inner => inner.literals level

/-- The function literals in an operand of a `return`. -/
def Expr.literalsOption (level : Nat) : Option Expr → List Literal
  | none => []
  | some operand => operand.literals level

/-- The function literals in the members of a list of statements. -/
def Stmt.literalsAll (level : Nat) : List Stmt → List Literal
  | [] => []
  | first :: rest => first.literals level ++ Stmt.literalsAll level rest

end

/-- The function literals in a program. -/
def Program.literals (program : Program) : List Literal := Stmt.literalsAll 0 program.statements

/-- How deeply function literals nest in a program: the greatest number of them inside each
other. -/
def Program.nesting (program : Program) : Nat :=
  program.literals.foldr (fun l n => max (l.level + 1) n) 0

variable {level : Nat} {l inner : Literal}

/-- The literals of two rows of statements are those of the one and those of the other. -/
theorem Stmt.literalsAll_append (level : Nat) (before after : List Stmt) :
    Stmt.literalsAll level (before ++ after) =
      Stmt.literalsAll level before ++ Stmt.literalsAll level after := by
  induction before with
  | nil => rfl
  | cons first rest ih =>
    rw [List.cons_append, Stmt.literalsAll, Stmt.literalsAll, ih, List.append_assoc]

/-- So are those of two rows of expressions. -/
theorem Expr.literalsAll_append (level : Nat) (before after : List Expr) :
    Expr.literalsAll level (before ++ after) =
      Expr.literalsAll level before ++ Expr.literalsAll level after := by
  induction before with
  | nil => rfl
  | cons first rest ih =>
    rw [List.cons_append, Expr.literalsAll, Expr.literalsAll, ih, List.append_assoc]

mutual

/-- The function literals in the body of a function literal are among those around it. -/
theorem Expr.mem_literals_of_body : ∀ {level : Nat} {e : Expr}, l ∈ e.literals level →
    inner ∈ l.body.literals (l.level + 1) → inner ∈ e.literals level
  | _, .unary _ _ e, h, hi => by
    rw [Expr.literals] at h ⊢
    exact Expr.mem_literals_of_body h hi
  | _, .binary _ a _ b, h, hi => by
    rw [Expr.literals, List.mem_append] at h ⊢
    exact h.imp (Expr.mem_literals_of_body · hi) (Expr.mem_literals_of_body · hi)
  | _, .cond _ e b alternative, h, hi => by
    rw [Expr.literals, List.mem_append, List.mem_append] at h ⊢
    exact h.imp (Expr.mem_literals_of_body · hi)
      (Or.imp (Block.mem_literals_of_body · hi) (Block.mem_literalsOption_of_body · hi))
  | _, .fn _ ps b, h, hi => by
    rw [Expr.literals] at h ⊢
    rcases List.mem_cons.mp h with rfl | h
    · exact List.mem_cons_of_mem _ hi
    · exact List.mem_cons_of_mem _ (Block.mem_literals_of_body h hi)
  | _, .call _ f es, h, hi => by
    rw [Expr.literals, List.mem_append] at h ⊢
    exact h.imp (Expr.mem_literals_of_body · hi) (Expr.mem_literalsAll_of_body · hi)

/-- A literal in the body of one of the literals in a row of expressions is one of them as well. -/
theorem Expr.mem_literalsAll_of_body : ∀ {level : Nat} {es : List Expr},
    l ∈ Expr.literalsAll level es → inner ∈ l.body.literals (l.level + 1) →
    inner ∈ Expr.literalsAll level es
  | _, e :: es, h, hi => by
    rw [Expr.literalsAll, List.mem_append] at h ⊢
    exact h.imp (Expr.mem_literals_of_body · hi) (Expr.mem_literalsAll_of_body · hi)

theorem Block.mem_literals_of_body : ∀ {level : Nat} {b : Block}, l ∈ b.literals level →
    inner ∈ l.body.literals (l.level + 1) → inner ∈ b.literals level
  | _, .mk _ ss, h, hi => by
    rw [Block.literals] at h ⊢
    exact Stmt.mem_literalsAll_of_body h hi

theorem Block.mem_literalsOption_of_body : ∀ {level : Nat} {b : Option Block},
    l ∈ Block.literalsOption level b → inner ∈ l.body.literals (l.level + 1) →
    inner ∈ Block.literalsOption level b
  | _, some b, h, hi => by
    rw [Block.literalsOption] at h ⊢
    exact Block.mem_literals_of_body h hi

theorem Stmt.mem_literals_of_body : ∀ {level : Nat} {a : Stmt}, l ∈ a.literals level →
    inner ∈ l.body.literals (l.level + 1) → inner ∈ a.literals level
  | _, .define _ _ e, h, hi => by
    rw [Stmt.literals] at h ⊢
    exact Expr.mem_literals_of_body h hi
  | _, .ret _ e, h, hi => by
    rw [Stmt.literals] at h ⊢
    exact Expr.mem_literalsOption_of_body h hi
  | _, .bare _ e, h, hi => by
    rw [Stmt.literals] at h ⊢
    exact Expr.mem_literals_of_body h hi
  | _, .block b, h, hi => by
    rw [Stmt.literals] at h ⊢
    exact Block.mem_literals_of_body h hi

theorem Expr.mem_literalsOption_of_body : ∀ {level : Nat} {e : Option Expr},
    l ∈ Expr.literalsOption level e → inner ∈ l.body.literals (l.level + 1) →
    inner ∈ Expr.literalsOption level e
  | _, some e, h, hi => by
    rw [Expr.literalsOption] at h ⊢
    exact Expr.mem_literals_of_body h hi

theorem Stmt.mem_literalsAll_of_body : ∀ {level : Nat} {ss : List Stmt},
    l ∈ Stmt.literalsAll level ss → inner ∈ l.body.literals (l.level + 1) →
    inner ∈ Stmt.literalsAll level ss
  | _, a :: ss, h, hi => by
    rw [Stmt.literalsAll, List.mem_append] at h ⊢
    exact h.imp (Stmt.mem_literals_of_body · hi) (Stmt.mem_literalsAll_of_body · hi)

end

/-- Fewer literals stand around a literal than are nested in the program. -/
theorem Program.lt_nesting {program : Program} (h : l ∈ program.literals) :
    l.level < program.nesting := by
  unfold Program.nesting
  generalize program.literals = literals at h ⊢
  induction literals with
  | nil => cases h
  | cons first rest ih =>
    rw [List.foldr_cons]
    rcases List.mem_cons.mp h with rfl | h
    · exact Nat.lt_of_succ_le (Nat.le_max_left ..)
    · exact Nat.lt_of_lt_of_le (ih h) (Nat.le_max_right ..)

end Inkwell
