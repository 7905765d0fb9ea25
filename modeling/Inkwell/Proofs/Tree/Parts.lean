import Inkwell.Tree.Basic

/-!
# The parts of a tree

All expressions that a tree contains, at any depth and inside functions too. A property of trees
that every expression has to have by itself is a property of the parts.
-/

namespace Inkwell

mutual

/-- The expressions that an expression contains, itself included. -/
def Expr.parts : Expr → List Expr
  | .ident name => [.ident name]
  | .int token value => [.int token value]
  | .bool token value => [.bool token value]
  | .unary token operator operand => .unary token operator operand :: operand.parts
  | .binary token left operator right =>
    .binary token left operator right :: (left.parts ++ right.parts)
  | .cond token condition consequence alternative =>
    .cond token condition consequence alternative ::
      (condition.parts ++ (consequence.parts ++ Block.partsOption alternative))
  | .fn token parameters body => .fn token parameters body :: body.parts
  | .call token callee arguments =>
    .call token callee arguments :: (callee.parts ++ Expr.partsAll arguments)

/-- The expressions that the members of a list contain. -/
def Expr.partsAll : List Expr → List Expr
  | [] => []
  | first :: rest => first.parts ++ Expr.partsAll rest

/-- The expressions that a block contains. -/
def Block.parts : Block → List Expr
  | .mk _ statements => Stmt.partsAll statements

/-- The expressions that a second branch contains. -/
def Block.partsOption : Option Block → List Expr
  | none => []
  | some block => block.parts

/-- The expressions that a statement contains. -/
def Stmt.parts : Stmt → List Expr
  | .define _ _ value => value.parts
  | .ret _ operand => Expr.partsOption operand
  | .bare _ expression => expression.parts
  | .block inner => inner.parts

/-- The expressions that an operand of a `return` contains. -/
def Expr.partsOption : Option Expr → List Expr
  | none => []
  | some operand => operand.parts

/-- The expressions that the members of a list of statements contain. -/
def Stmt.partsAll : List Stmt → List Expr
  | [] => []
  | first :: rest => first.parts ++ Stmt.partsAll rest

end

/-- The expressions that a program contains. -/
def Program.parts (program : Program) : List Expr := Stmt.partsAll program.statements

/-- An expression is a part of itself. -/
theorem Expr.mem_parts_self (e : Expr) : e ∈ e.parts := by
  cases e <;> simp [Expr.parts]

/-- A part of a part is one of the whole, if it is so for the parts below the first one. -/
theorem Expr.mem_parts_of_mem {first : Expr} {rest : List Expr} {f g : Expr} (hg : g ∈ f.parts)
    (h : f ∈ first :: rest) (hself : first.parts = first :: rest)
    (hrest : f ∈ rest → g ∈ rest) : g ∈ first :: rest := by
  rcases List.mem_cons.mp h with rfl | h
  · rwa [hself] at hg
  · exact List.mem_cons_of_mem _ (hrest h)

/-- What leads from one row to itself, and in another as well, does so in both together. -/
theorem mem_append_imp {f g : Expr} {xs ys : List Expr} (hx : f ∈ xs → g ∈ xs)
    (hy : f ∈ ys → g ∈ ys) (h : f ∈ xs ++ ys) : g ∈ xs ++ ys := by
  rw [List.mem_append] at h ⊢
  exact h.imp hx hy

mutual

/-- The parts of a part are parts. -/
theorem Expr.mem_parts_trans {f g : Expr} (hg : g ∈ f.parts) :
    ∀ {e : Expr}, f ∈ e.parts → g ∈ e.parts
  | .ident _, h => Expr.mem_parts_of_mem hg h rfl nofun
  | .int _ _, h => Expr.mem_parts_of_mem hg h rfl nofun
  | .bool _ _, h => Expr.mem_parts_of_mem hg h rfl nofun
  | .unary _ _ _, h => Expr.mem_parts_of_mem hg h rfl (Expr.mem_parts_trans hg)
  | .binary _ _ _ _, h => Expr.mem_parts_of_mem hg h rfl
    (mem_append_imp (Expr.mem_parts_trans hg) (Expr.mem_parts_trans hg))
  | .cond _ _ _ _, h => Expr.mem_parts_of_mem hg h rfl
    (mem_append_imp (Expr.mem_parts_trans hg)
      (mem_append_imp (Block.mem_parts_trans hg) (Block.mem_partsOption_trans hg)))
  | .fn _ _ _, h => Expr.mem_parts_of_mem hg h rfl (Block.mem_parts_trans hg)
  | .call _ _ _, h => Expr.mem_parts_of_mem hg h rfl
    (mem_append_imp (Expr.mem_parts_trans hg) (Expr.mem_partsAll_trans hg))

/-- A part of a part of a row of expressions is one of its parts. -/
theorem Expr.mem_partsAll_trans {f g : Expr} (hg : g ∈ f.parts) :
    ∀ {es : List Expr}, f ∈ Expr.partsAll es → g ∈ Expr.partsAll es
  | [], h => nomatch h
  | _ :: _, h => mem_append_imp (Expr.mem_parts_trans hg) (Expr.mem_partsAll_trans hg) h

theorem Block.mem_parts_trans {f g : Expr} (hg : g ∈ f.parts) :
    ∀ {b : Block}, f ∈ b.parts → g ∈ b.parts
  | .mk _ _, h => Stmt.mem_partsAll_trans hg h

theorem Block.mem_partsOption_trans {f g : Expr} (hg : g ∈ f.parts) :
    ∀ {b : Option Block}, f ∈ Block.partsOption b → g ∈ Block.partsOption b
  | none, h => nomatch h
  | some _, h => Block.mem_parts_trans hg h

theorem Stmt.mem_parts_trans {f g : Expr} (hg : g ∈ f.parts) :
    ∀ {s : Stmt}, f ∈ s.parts → g ∈ s.parts
  | .define _ _ _, h => Expr.mem_parts_trans hg h
  | .ret _ none, h => nomatch h
  | .ret _ (some _), h => Expr.mem_parts_trans hg h
  | .bare _ _, h => Expr.mem_parts_trans hg h
  | .block _, h => Block.mem_parts_trans hg h

theorem Stmt.mem_partsAll_trans {f g : Expr} (hg : g ∈ f.parts) :
    ∀ {ss : List Stmt}, f ∈ Stmt.partsAll ss → g ∈ Stmt.partsAll ss
  | [], h => nomatch h
  | _ :: _, h => mem_append_imp (Stmt.mem_parts_trans hg) (Stmt.mem_partsAll_trans hg) h

end

/-- What the body of a function contains, the tree around it contains too. -/
theorem Program.mem_parts_of_body {program : Program} {token : Token} {parameters : List Ident}
    {body : Block} {e : Expr} (h : .fn token parameters body ∈ program.parts)
    (he : e ∈ body.parts) : e ∈ program.parts :=
  Stmt.mem_partsAll_trans (List.mem_cons_of_mem _ he) h

end Inkwell
