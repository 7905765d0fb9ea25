import Inkwell.Proofs.Tree.Literals
import Inkwell.Tree.Canonical

/-!
# Function literals with marks

Trees do not tell where they stand: the same function literal can occur inside more literals and
inside fewer. A mark tells such occurrences apart. It is put on the brace in front of the body,
which nothing that is done with trees ever looks at. In a marked program the brace is repeated for
every function literal that it is in, its own included; in a plain one all these braces are the
same.
-/

namespace Inkwell

mutual

/-- The expression with other braces in its function literals: `brace n` for those that stand inside
`n` others. -/
def Expr.rebrace (brace : Nat → Token) : Expr → Expr
  | .ident name => .ident name
  | .int token value => .int token value
  | .bool token value => .bool token value
  | .unary token operator operand => .unary token operator (operand.rebrace brace)
  | .binary token left operator right =>
    .binary token (left.rebrace brace) operator (right.rebrace brace)
  | .cond token condition consequence alternative =>
    .cond token (condition.rebrace brace) (consequence.rebrace brace)
      (Block.rebraceOption brace alternative)
  | .fn token parameters (.mk _ statements) =>
    .fn token parameters (.mk (brace 0) (Stmt.rebraceAll (fun n => brace (n + 1)) statements))
  | .call token callee arguments =>
    .call token (callee.rebrace brace) (Expr.rebraceAll brace arguments)

/-- The same, for a list of expressions. -/
def Expr.rebraceAll (brace : Nat → Token) : List Expr → List Expr
  | [] => []
  | first :: rest => first.rebrace brace :: Expr.rebraceAll brace rest

/-- The same, for the statements of a block, whose own brace stays. -/
def Block.rebrace (brace : Nat → Token) : Block → Block
  | .mk token statements => .mk token (Stmt.rebraceAll brace statements)

/-- The same, for a second branch. -/
def Block.rebraceOption (brace : Nat → Token) : Option Block → Option Block
  | none => none
  | some block => some (block.rebrace brace)

/-- The same, for a statement. -/
def Stmt.rebrace (brace : Nat → Token) : Stmt → Stmt
  | .define token name value => .define token name (value.rebrace brace)
  | .ret token operand => .ret token (Expr.rebraceOption brace operand)
  | .bare token expression => .bare token (expression.rebrace brace)
  | .block inner => .block (inner.rebrace brace)

/-- The same, for an operand of a `return`. -/
def Expr.rebraceOption (brace : Nat → Token) : Option Expr → Option Expr
  | none => none
  | some operand => some (operand.rebrace brace)

/-- The same, for a list of statements. -/
def Stmt.rebraceAll (brace : Nat → Token) : List Stmt → List Stmt
  | [] => []
  | first :: rest => first.rebrace brace :: Stmt.rebraceAll brace rest

end

/-- The program with other braces in its function literals. -/
def Program.rebrace (brace : Nat → Token) (program : Program) : Program :=
  ⟨Stmt.rebraceAll brace program.statements⟩

mutual

/-- The braces of the bodies are not taken from their tokens when an expression is printed. -/
theorem Expr.text_rebrace : ∀ {brace : Nat → Token} (e : Expr), (e.rebrace brace).text = e.text
  | _, .ident _ => by rw [Expr.rebrace]
  | _, .int _ _ => by rw [Expr.rebrace]
  | _, .bool _ _ => by rw [Expr.rebrace]
  | _, .unary _ _ e => by rw [Expr.rebrace, Expr.text, Expr.text, Expr.text_rebrace e]
  | _, .binary _ e _ f => by
    rw [Expr.rebrace, Expr.text, Expr.text, Expr.text_rebrace e, Expr.text_rebrace f]
  | _, .cond _ e b c => by
    rw [Expr.rebrace, Expr.text, Expr.text, Expr.text_rebrace e, Block.text_rebrace b,
      Block.elseText_rebrace c]
  | _, .fn _ _ (.mk _ ss) => by
    rw [Expr.rebrace, Expr.text, Expr.text, Block.text, Block.text, Stmt.texts_rebrace ss]
  | _, .call _ f es => by
    rw [Expr.rebrace, Expr.text, Expr.text, Expr.text_rebrace f, Expr.texts_rebrace es]

theorem Expr.texts_rebrace : ∀ {brace : Nat → Token} (es : List Expr),
    Expr.texts (Expr.rebraceAll brace es) = Expr.texts es
  | _, [] => by rw [Expr.rebraceAll]
  | _, e :: es => by
    rw [Expr.rebraceAll, Expr.texts, Expr.texts, Expr.text_rebrace e, Expr.texts_rebrace es]

theorem Block.text_rebrace : ∀ {brace : Nat → Token} (b : Block), (b.rebrace brace).text = b.text
  | _, .mk _ ss => by rw [Block.rebrace, Block.text, Block.text, Stmt.texts_rebrace ss]

theorem Block.elseText_rebrace : ∀ {brace : Nat → Token} (b : Option Block),
    Block.elseText (Block.rebraceOption brace b) = Block.elseText b
  | _, none => by rw [Block.rebraceOption]
  | _, some b => by
    rw [Block.rebraceOption, Block.elseText, Block.elseText, Block.text_rebrace b]

theorem Stmt.text_rebrace : ∀ {brace : Nat → Token} (a : Stmt), (a.rebrace brace).text = a.text
  | _, .define _ _ e => by rw [Stmt.rebrace, Stmt.text, Stmt.text, Expr.text_rebrace e]
  | _, .ret _ e => by rw [Stmt.rebrace, Stmt.text, Stmt.text, Expr.operandText_rebrace e]
  | _, .bare _ e => by rw [Stmt.rebrace, Stmt.text, Stmt.text, Expr.text_rebrace e]
  | _, .block b => by rw [Stmt.rebrace, Stmt.text, Stmt.text, Block.text_rebrace b]

theorem Expr.operandText_rebrace : ∀ {brace : Nat → Token} (e : Option Expr),
    Expr.operandText (Expr.rebraceOption brace e) = Expr.operandText e
  | _, none => by rw [Expr.rebraceOption]
  | _, some e => by
    rw [Expr.rebraceOption, Expr.operandText, Expr.operandText, Expr.text_rebrace e]

theorem Stmt.texts_rebrace : ∀ {brace : Nat → Token} (ss : List Stmt),
    Stmt.texts (Stmt.rebraceAll brace ss) = Stmt.texts ss
  | _, [] => by rw [Stmt.rebraceAll]
  | _, a :: ss => by
    rw [Stmt.rebraceAll, Stmt.texts, Stmt.texts, Stmt.text_rebrace a, Stmt.texts_rebrace ss]

end

mutual

/-- The tokens of the braces need no depth. -/
theorem Expr.fits_rebrace : ∀ {depth : Nat} {brace : Nat → Token} (e : Expr),
    (e.rebrace brace).fits depth = e.fits depth
  | 0, _, _ => by rw [Expr.fits, Expr.fits]
  | _ + 1, _, .ident _ => by rw [Expr.rebrace]
  | _ + 1, _, .int _ _ => by rw [Expr.rebrace]
  | _ + 1, _, .bool _ _ => by rw [Expr.rebrace]
  | _ + 1, _, .unary _ _ e => by rw [Expr.rebrace, Expr.fits, Expr.fits, Expr.fits_rebrace e]
  | _ + 1, _, .binary _ e _ f => by
    rw [Expr.rebrace, Expr.fits, Expr.fits, Expr.fits_rebrace e, Expr.fits_rebrace f]
  | _ + 1, _, .cond _ e b c => by
    rw [Expr.rebrace, Expr.fits, Expr.fits, Expr.fits_rebrace e, Block.fits_rebrace b,
      Block.fitsOption_rebrace c]
  | 1, _, .fn _ _ (.mk _ ss) => by rw [Expr.rebrace, Expr.fits, Expr.fits, Block.fits, Block.fits]
  | _ + 2, _, .fn _ _ (.mk _ ss) => by
    rw [Expr.rebrace, Expr.fits, Expr.fits, Block.fits, Block.fits, Stmt.fitsAll_rebrace ss]
  | _ + 1, _, .call _ f es => by
    rw [Expr.rebrace, Expr.fits, Expr.fits, Expr.fits_rebrace f, Expr.fitsAll_rebrace es]

theorem Expr.fitsAll_rebrace : ∀ {depth : Nat} {brace : Nat → Token} (es : List Expr),
    Expr.fitsAll depth (Expr.rebraceAll brace es) = Expr.fitsAll depth es
  | _, _, [] => by rw [Expr.rebraceAll]
  | _, _, e :: es => by
    rw [Expr.rebraceAll, Expr.fitsAll, Expr.fitsAll, Expr.fits_rebrace e, Expr.fitsAll_rebrace es]

theorem Block.fits_rebrace : ∀ {depth : Nat} {brace : Nat → Token} (b : Block),
    (b.rebrace brace).fits depth = b.fits depth
  | 0, _, _ => by rw [Block.fits, Block.fits]
  | _ + 1, _, .mk _ ss => by rw [Block.rebrace, Block.fits, Block.fits, Stmt.fitsAll_rebrace ss]

theorem Block.fitsOption_rebrace : ∀ {depth : Nat} {brace : Nat → Token} (b : Option Block),
    Block.fitsOption depth (Block.rebraceOption brace b) = Block.fitsOption depth b
  | _, _, none => by rw [Block.rebraceOption]
  | _, _, some b => by
    rw [Block.rebraceOption, Block.fitsOption, Block.fitsOption, Block.fits_rebrace b]

theorem Stmt.fits_rebrace : ∀ {depth : Nat} {brace : Nat → Token} (a : Stmt),
    (a.rebrace brace).fits depth = a.fits depth
  | 0, _, _ => by rw [Stmt.fits, Stmt.fits]
  | _ + 1, _, .define _ _ e => by rw [Stmt.rebrace, Stmt.fits, Stmt.fits, Expr.fits_rebrace e]
  | _ + 1, _, .ret _ e => by rw [Stmt.rebrace, Stmt.fits, Stmt.fits, Expr.fitsOption_rebrace e]
  | _ + 1, _, .bare _ e => by rw [Stmt.rebrace, Stmt.fits, Stmt.fits, Expr.fits_rebrace e]
  | _ + 1, _, .block b => by rw [Stmt.rebrace, Stmt.fits, Stmt.fits, Block.fits_rebrace b]

theorem Expr.fitsOption_rebrace : ∀ {depth : Nat} {brace : Nat → Token} (e : Option Expr),
    Expr.fitsOption depth (Expr.rebraceOption brace e) = Expr.fitsOption depth e
  | _, _, none => by rw [Expr.rebraceOption]
  | _, _, some e => by
    rw [Expr.rebraceOption, Expr.fitsOption, Expr.fitsOption, Expr.fits_rebrace e]

theorem Stmt.fitsAll_rebrace : ∀ {depth : Nat} {brace : Nat → Token} (ss : List Stmt),
    Stmt.fitsAll depth (Stmt.rebraceAll brace ss) = Stmt.fitsAll depth ss
  | _, _, [] => by rw [Stmt.rebraceAll]
  | _, _, a :: ss => by
    rw [Stmt.rebraceAll, Stmt.fitsAll, Stmt.fitsAll, Stmt.fits_rebrace a, Stmt.fitsAll_rebrace ss]

end

mutual

/-- Only the braces that were put in last are left. -/
theorem Expr.rebrace_rebrace : ∀ {f g : Nat → Token} (e : Expr),
    (e.rebrace g).rebrace f = e.rebrace f
  | _, _, .ident _ => by rw [Expr.rebrace]
  | _, _, .int _ _ => by rw [Expr.rebrace]
  | _, _, .bool _ _ => by rw [Expr.rebrace]
  | _, _, .unary _ _ e => by
    rw [Expr.rebrace, Expr.rebrace, Expr.rebrace, Expr.rebrace_rebrace e]
  | _, _, .binary _ a _ b => by
    rw [Expr.rebrace, Expr.rebrace, Expr.rebrace, Expr.rebrace_rebrace a, Expr.rebrace_rebrace b]
  | _, _, .cond _ e b c => by
    rw [Expr.rebrace, Expr.rebrace, Expr.rebrace, Expr.rebrace_rebrace e, Block.rebrace_rebrace b,
      Block.rebraceOption_rebrace c]
  | _, _, .fn _ _ (.mk _ ss) => by
    rw [Expr.rebrace, Expr.rebrace, Expr.rebrace, Stmt.rebraceAll_rebrace ss]
  | _, _, .call _ e es => by
    rw [Expr.rebrace, Expr.rebrace, Expr.rebrace, Expr.rebrace_rebrace e,
      Expr.rebraceAll_rebrace es]

/-- Of two replacements of the braces, only the last one counts. -/
theorem Expr.rebraceAll_rebrace : ∀ {f g : Nat → Token} (es : List Expr),
    Expr.rebraceAll f (Expr.rebraceAll g es) = Expr.rebraceAll f es
  | _, _, [] => by rw [Expr.rebraceAll]
  | _, _, e :: es => by
    rw [Expr.rebraceAll, Expr.rebraceAll, Expr.rebraceAll, Expr.rebrace_rebrace e,
      Expr.rebraceAll_rebrace es]

theorem Block.rebrace_rebrace : ∀ {f g : Nat → Token} (b : Block),
    (b.rebrace g).rebrace f = b.rebrace f
  | _, _, .mk _ ss => by
    rw [Block.rebrace, Block.rebrace, Block.rebrace, Stmt.rebraceAll_rebrace ss]

theorem Block.rebraceOption_rebrace : ∀ {f g : Nat → Token} (b : Option Block),
    Block.rebraceOption f (Block.rebraceOption g b) = Block.rebraceOption f b
  | _, _, none => by rw [Block.rebraceOption]
  | _, _, some b => by
    rw [Block.rebraceOption, Block.rebraceOption, Block.rebraceOption, Block.rebrace_rebrace b]

theorem Stmt.rebrace_rebrace : ∀ {f g : Nat → Token} (a : Stmt),
    (a.rebrace g).rebrace f = a.rebrace f
  | _, _, .define _ _ e => by
    rw [Stmt.rebrace, Stmt.rebrace, Stmt.rebrace, Expr.rebrace_rebrace e]
  | _, _, .ret _ e => by
    rw [Stmt.rebrace, Stmt.rebrace, Stmt.rebrace, Expr.rebraceOption_rebrace e]
  | _, _, .bare _ e => by
    rw [Stmt.rebrace, Stmt.rebrace, Stmt.rebrace, Expr.rebrace_rebrace e]
  | _, _, .block b => by
    rw [Stmt.rebrace, Stmt.rebrace, Stmt.rebrace, Block.rebrace_rebrace b]

theorem Expr.rebraceOption_rebrace : ∀ {f g : Nat → Token} (e : Option Expr),
    Expr.rebraceOption f (Expr.rebraceOption g e) = Expr.rebraceOption f e
  | _, _, none => by rw [Expr.rebraceOption]
  | _, _, some e => by
    rw [Expr.rebraceOption, Expr.rebraceOption, Expr.rebraceOption, Expr.rebrace_rebrace e]

theorem Stmt.rebraceAll_rebrace : ∀ {f g : Nat → Token} (ss : List Stmt),
    Stmt.rebraceAll f (Stmt.rebraceAll g ss) = Stmt.rebraceAll f ss
  | _, _, [] => by rw [Stmt.rebraceAll]
  | _, _, a :: ss => by
    rw [Stmt.rebraceAll, Stmt.rebraceAll, Stmt.rebraceAll, Stmt.rebrace_rebrace a,
      Stmt.rebraceAll_rebrace ss]

end

section Mem

variable {mark brace : Nat → Token} {l : Literal} {level : Nat}

mutual

/-- Every function literal has the brace for its place. -/
theorem Expr.brace_of_mem : ∀ {brace : Nat → Token} {level : Nat} {e : Expr},
    (∀ n, brace n = mark (level + n)) → l ∈ (e.rebrace brace).literals level →
    l.body.token = mark l.level
  | _, _, .unary _ _ e, hb, h => by
    rw [Expr.rebrace, Expr.literals] at h
    exact Expr.brace_of_mem hb h
  | _, _, .binary _ a _ b, hb, h => by
    rw [Expr.rebrace, Expr.literals, List.mem_append] at h
    exact h.elim (Expr.brace_of_mem hb) (Expr.brace_of_mem hb)
  | _, _, .cond _ e b c, hb, h => by
    rw [Expr.rebrace, Expr.literals, List.mem_append, List.mem_append] at h
    exact h.elim (Expr.brace_of_mem hb)
      (Or.elim · (Block.brace_of_mem hb) (Block.brace_of_mem_option hb))
  | brace, level, .fn _ ps (.mk _ ss), hb, h => by
    rw [Expr.rebrace, Expr.literals, Block.literals] at h
    rcases List.mem_cons.mp h with rfl | h
    · exact hb 0
    · have hinner : ∀ n, brace (n + 1) = mark (level + 1 + n) := by
        intro n
        rw [hb, Nat.add_assoc, Nat.add_comm 1 n]
      exact Stmt.brace_of_mem_all hinner h
  | _, _, .call _ f es, hb, h => by
    rw [Expr.rebrace, Expr.literals, List.mem_append] at h
    exact h.elim (Expr.brace_of_mem hb) (Expr.brace_of_mem_all hb)

/-- Where the braces are the marks of their levels, each body has the mark of its literal. -/
theorem Expr.brace_of_mem_all : ∀ {brace : Nat → Token} {level : Nat} {es : List Expr},
    (∀ n, brace n = mark (level + n)) → l ∈ Expr.literalsAll level (Expr.rebraceAll brace es) →
    l.body.token = mark l.level
  | _, _, e :: es, hb, h => by
    rw [Expr.rebraceAll, Expr.literalsAll, List.mem_append] at h
    exact h.elim (Expr.brace_of_mem hb) (Expr.brace_of_mem_all hb)

theorem Block.brace_of_mem : ∀ {brace : Nat → Token} {level : Nat} {b : Block},
    (∀ n, brace n = mark (level + n)) → l ∈ (b.rebrace brace).literals level →
    l.body.token = mark l.level
  | _, _, .mk _ ss, hb, h => by
    rw [Block.rebrace, Block.literals] at h
    exact Stmt.brace_of_mem_all hb h

theorem Block.brace_of_mem_option : ∀ {brace : Nat → Token} {level : Nat} {b : Option Block},
    (∀ n, brace n = mark (level + n)) →
    l ∈ Block.literalsOption level (Block.rebraceOption brace b) → l.body.token = mark l.level
  | _, _, some b, hb, h => by
    rw [Block.rebraceOption, Block.literalsOption] at h
    exact Block.brace_of_mem hb h

theorem Stmt.brace_of_mem : ∀ {brace : Nat → Token} {level : Nat} {a : Stmt},
    (∀ n, brace n = mark (level + n)) → l ∈ (a.rebrace brace).literals level →
    l.body.token = mark l.level
  | _, _, .define _ _ e, hb, h => by
    rw [Stmt.rebrace, Stmt.literals] at h
    exact Expr.brace_of_mem hb h
  | _, _, .ret _ e, hb, h => by
    rw [Stmt.rebrace, Stmt.literals] at h
    exact Expr.brace_of_mem_option hb h
  | _, _, .bare _ e, hb, h => by
    rw [Stmt.rebrace, Stmt.literals] at h
    exact Expr.brace_of_mem hb h
  | _, _, .block b, hb, h => by
    rw [Stmt.rebrace, Stmt.literals] at h
    exact Block.brace_of_mem hb h

theorem Expr.brace_of_mem_option : ∀ {brace : Nat → Token} {level : Nat} {e : Option Expr},
    (∀ n, brace n = mark (level + n)) →
    l ∈ Expr.literalsOption level (Expr.rebraceOption brace e) → l.body.token = mark l.level
  | _, _, some e, hb, h => by
    rw [Expr.rebraceOption, Expr.literalsOption] at h
    exact Expr.brace_of_mem hb h

theorem Stmt.brace_of_mem_all : ∀ {brace : Nat → Token} {level : Nat} {ss : List Stmt},
    (∀ n, brace n = mark (level + n)) → l ∈ Stmt.literalsAll level (Stmt.rebraceAll brace ss) →
    l.body.token = mark l.level
  | _, _, a :: ss, hb, h => by
    rw [Stmt.rebraceAll, Stmt.literalsAll, List.mem_append] at h
    exact h.elim (Stmt.brace_of_mem hb) (Stmt.brace_of_mem_all hb)

end

end Mem

/-- The brace that stands for a number of function literals around it. -/
def Token.brace (level : Nat) : Token :=
  ⟨.lbrace, String.ofList (List.replicate (level + 1) '\x7b')⟩

/-- Different levels have different marks. -/
theorem Token.brace_injective {level other : Nat} (h : brace level = brace other) :
    level = other := by
  have hliteral := congrArg (fun token => token.literal.length) h
  simpa [brace] using hliteral

/-- The program in which every function literal shows how many others it stands in. -/
def Program.marked (program : Program) : Program := program.rebrace Token.brace

/-- The program in which all function literals have the same brace. -/
def Program.plain (program : Program) : Program := program.rebrace fun _ => Token.brace 0

/-- Taking the marks off undoes putting them on. -/
theorem Program.plain_marked (program : Program) : program.marked.plain = program.plain := by
  unfold Program.plain Program.marked Program.rebrace
  rw [Stmt.rebraceAll_rebrace]

/-- In a marked program the body of a function literal tells where it stands. -/
theorem Program.token_of_mem_marked {program : Program} {l : Literal}
    (h : l ∈ program.marked.literals) : l.body.token = Token.brace l.level :=
  Stmt.brace_of_mem_all (fun n => congrArg Token.brace (Nat.zero_add n).symm) h

end Inkwell
