import Inkwell.Proofs.Grammar.Exact
import Inkwell.Proofs.Tree.Parts

/-!
# What trees of the grammar contain

The tokens of a text are spelled as their kinds say. So in a tree that the grammar derives from them
every integer is one of the language, and every operator is one of those that there are.
-/

namespace Inkwell

/-- The operators that stand before their operand. -/
def Expr.unaryOperators : List String := ["!", "-"]

/-- The operators that stand between two operands. -/
def Expr.binaryOperators : List String := ["==", "!=", "<", ">", "+", "-", "*", "/"]

/-- An integer that the language has a literal for, or an operator that it has. -/
def Expr.Lawful : Expr → Prop
  | .int _ number => 0 ≤ number ∧ number ≤ maxInteger
  | .unary _ operator _ => operator ∈ Expr.unaryOperators
  | .binary _ _ operator _ => operator ∈ Expr.binaryOperators
  | _ => True

namespace Grammar

/-- Every token is spelled as its kind says. -/
def AllSpelled (tokens : List Token) : Prop := ∀ token ∈ tokens, token.Spelled

/-- Tokens that are spelled as their kinds say stay so while some are passed. -/
theorem AllSpelled.of_suffix {tokens rest : List Token} (h : AllSpelled tokens)
    (hs : rest <:+ tokens) : AllSpelled rest := fun token ht => h token (hs.subset ht)

theorem AllSpelled.tail {token : Token} {tokens : List Token} (h : AllSpelled (token :: tokens)) :
    AllSpelled tokens := h.of_suffix (List.suffix_cons _ _)

/-- A token that is an operator before an operand is spelled as one. -/
theorem unary_mem {op : Token} (h : op.kind = .bang ∨ op.kind = .minus) (hs : op.Spelled) :
    op.literal ∈ Expr.unaryOperators := by
  rcases h with h | h <;> rw [hs.literal_eq (by rw [h]; decide), h] <;> decide

/-- A token that is an operator of a stratum is spelled as one between operands. -/
theorem binary_mem {s : Stratum} {op : Token} (h : op.kind ∈ s.operators) (hs : op.Spelled) :
    op.literal ∈ Expr.binaryOperators := by
  have hk : op.kind ∈ Token.Kind.operators ∧ op.kind.display ∈ Expr.binaryOperators := by
    revert h
    generalize op.kind = kind
    cases s <;> cases kind <;> decide
  rw [hs.literal_eq hk.1]
  exact hk.2

/-- The parts of a tree are lawful. -/
def AllLawful (parts : List Expr) : Prop := ∀ e ∈ parts, e.Lawful

/-- A lawful tree before lawful parts. -/
theorem AllLawful.cons {e : Expr} {parts : List Expr} (h : e.Lawful) (hp : AllLawful parts) :
    AllLawful (e :: parts) := List.forall_mem_cons.mpr ⟨h, hp⟩

/-- The parts of two trees together. -/
theorem AllLawful.append {parts more : List Expr} (h : AllLawful parts) (hm : AllLawful more) :
    AllLawful (parts ++ more) := List.forall_mem_append.mpr ⟨h, hm⟩

/-- A tree without parts. -/
theorem AllLawful.nil : AllLawful [] := List.forall_mem_nil _

mutual

/-- A derived expression has lawful parts only: operators that the language has, and integers that
it has literals for. -/
theorem IsExpr.lawful : ∀ {s : Stratum} {tokens rest : List Token} {e : Expr},
    IsExpr s tokens rest e → AllSpelled tokens → AllLawful e.parts
  | _, _, _, _, .tighter h, hs => h.lawful hs
  | _, _, _, _, .binary hop ha hb, hs => by
    have hright := hs.of_suffix ha.suffix
    exact .cons (binary_mem hop (hright _ List.mem_cons_self))
      ((ha.lawful hs).append (hb.lawful hright.tail))
  | _, _, _, _, .unary hop h, hs =>
    .cons (unary_mem hop (hs _ List.mem_cons_self)) (h.lawful hs.tail)
  | _, _, _, _, .call hf _ ha, hs =>
    .cons trivial ((hf.lawful hs).append (ha.lawful (hs.of_suffix hf.suffix).tail))
  | _, _, _, _, .ident _, _ => .cons trivial .nil
  | _, _, _, _, .int _ _ hval, _ =>
    .cons ⟨Int.natCast_nonneg _, Int.ofNat_le.mpr hval⟩ .nil
  | _, _, _, _, .true _, _ => .cons trivial .nil
  | _, _, _, _, .false _, _ => .cons trivial .nil
  | _, _, _, _, .group _ h _, hs => h.lawful hs.tail
  | _, _, _, _, .when _ _ hc _ hb, hs => by
    have hinner := (hs.tail.tail.of_suffix hc.suffix).tail
    exact .cons trivial ((hc.lawful hs.tail.tail).append ((hb.lawful hinner).append .nil))
  | _, _, _, _, .choice _ _ hc _ hb _ hd, hs => by
    have hinner := (hs.tail.tail.of_suffix hc.suffix).tail
    have hbehind := (hinner.of_suffix hb.suffix).tail
    exact .cons trivial ((hc.lawful hs.tail.tail).append
      ((hb.lawful hinner).append (hd.lawful hbehind)))
  | _, _, _, _, .fn _ _ hp hb, hs =>
    .cons trivial (hb.lawful (hs.tail.tail.of_suffix hp.suffix))

theorem AreArguments.lawful : ∀ {tokens rest : List Token} {es : List Expr},
    AreArguments tokens rest es → AllSpelled tokens → AllLawful (Expr.partsAll es)
  | _, _, _, .none _, _ => .nil
  | _, _, _, .some h, hs => h.lawful hs

theorem AreExprs.lawful : ∀ {tokens rest : List Token} {es : List Expr},
    AreExprs tokens rest es → AllSpelled tokens → AllLawful (Expr.partsAll es)
  | _, _, _, .last h _, hs => (h.lawful hs).append .nil
  | _, _, _, .more h _ hes, hs => (h.lawful hs).append (hes.lawful (hs.of_suffix h.suffix).tail)

theorem IsBlock.lawful : ∀ {tokens rest : List Token} {b : Block},
    IsBlock tokens rest b → AllSpelled tokens → AllLawful b.parts
  | _, _, _, .closed _ h _, hs => h.lawful hs.tail
  | _, _, _, .unclosed _ h, hs => h.lawful hs.tail

theorem IsStmt.lawful : ∀ {tokens rest : List Token} {s : Stmt},
    IsStmt tokens rest s → AllSpelled tokens → AllLawful s.parts
  | _, _, _, .define _ _ _ h _, hs => h.lawful hs.tail.tail.tail
  | _, _, _, .ret _ h _, hs => h.lawful hs.tail
  | _, _, _, .leave _ _, _ => .nil
  | _, _, _, .leaveLast _ _, _ => .nil
  | _, _, _, .bare h _, hs => h.lawful hs

/-- So have statements one after the other. -/
theorem AreStmts.lawful : ∀ {tokens rest : List Token} {ss : List Stmt},
    AreStmts tokens rest ss → AllSpelled tokens → AllLawful (Stmt.partsAll ss)
  | _, _, _, .nil, _ => .nil
  | _, _, _, .cons h hss, hs => (h.lawful hs).append (hss.lawful (hs.of_suffix h.suffix))

end

end Grammar

/-- What is accepted as a program is lawful in all its parts. -/
theorem Program.lawful_of_ofSource {depth : Nat} {source : String} {program : Program}
    (h : Program.ofSource depth source = .ok program) : ∀ e ∈ program.parts, e.Lawful :=
  (Grammar.isProgram_of_ofSource h).lawful fun _ => Token.spelled_of_mem_scan

end Inkwell
