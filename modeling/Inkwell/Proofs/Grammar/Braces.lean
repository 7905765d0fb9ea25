import Inkwell.Proofs.Grammar.Complete

/-!
# Braces in the grammar

Opening braces that have no closing counterpart are found only at the end of the input, where the
grammar lets closing ones be missing. Everything else is balanced: what stands between the tokens
and the rest of a derivation has as many opening as closing braces. Moreover no expression ends in a
semicolon, unless a block that is still open does.
-/

namespace Inkwell.Grammar

/-- The number of tokens of a kind. -/
def count (kind : Token.Kind) (tokens : List Token) : Nat :=
  tokens.countP fun token => token.kind == kind

/-- As many opening as closing braces. -/
def Even (tokens : List Token) : Prop := count .lbrace tokens = count .rbrace tokens

/-- The tokens before the rest have as many opening as closing braces. -/
def Balanced (tokens rest : List Token) : Prop := ∃ used, tokens = used ++ rest ∧ Even used

/-- The tokens before the rest have as many opening as closing braces, and the last one of them is
no semicolon. -/
def Firm (tokens rest : List Token) : Prop :=
  ∃ used last, tokens = used ++ last :: rest ∧ last.kind ≠ .semicolon ∧ Even (used ++ [last])

/-- A brace is not closed before the end. -/
def Unclosed (tokens rest : List Token) : Prop :=
  rest = [] ∧ count .rbrace tokens < count .lbrace tokens

variable {tokens middle rest : List Token} {token : Token}

/-- The tokens of a kind in two lists add up. -/
theorem count_append (kind : Token.Kind) (front back : List Token) :
    count kind (front ++ back) = count kind front + count kind back := List.countP_append

/-- One more token counts if it is of the kind. -/
theorem count_cons (kind : Token.Kind) (token : Token) (tokens : List Token) :
    count kind (token :: tokens) = count kind tokens + if token.kind = kind then 1 else 0 := by
  unfold count
  rw [List.countP_cons]
  simp only [beq_iff_eq]

/-- A token that is no brace. -/
def Plain (token : Token) : Prop := token.kind ≠ .lbrace ∧ token.kind ≠ .rbrace

instance (token : Token) : Decidable (Plain token) :=
  inferInstanceAs (Decidable (token.kind ≠ .lbrace ∧ token.kind ≠ .rbrace))

/-- Whether a token is a brace is told by its kind. -/
theorem plain_of_kind {kind : Token.Kind} (h : token.kind = kind)
    (hk : kind ≠ .lbrace ∧ kind ≠ .rbrace) : Plain token := by
  rwa [Plain, h]

/-- Two lists with even braces make one with even braces. -/
theorem Even.append {front back : List Token} (hf : Even front) (hb : Even back) :
    Even (front ++ back) := by
  unfold Even at *
  rw [count_append, count_append, hf, hb]

/-- A single token that is no brace leaves the braces even. -/
theorem Plain.even (h : Plain token) : Even [token] := by
  unfold Even
  rw [count_cons, count_cons, if_neg h.1, if_neg h.2]
  rfl

/-- No tokens are balanced. -/
theorem Balanced.refl (tokens : List Token) : Balanced tokens tokens := ⟨[], rfl, rfl⟩

/-- Balanced tokens behind balanced ones are balanced. -/
theorem Balanced.trans (first : Balanced tokens middle) (second : Balanced middle rest) :
    Balanced tokens rest := by
  obtain ⟨used, rfl, heven⟩ := first
  obtain ⟨more, rfl, heven'⟩ := second
  exact ⟨used ++ more, (List.append_assoc _ _ _).symm, heven.append heven'⟩

/-- Whether tokens end firmly is decided by the last of them. -/
theorem Balanced.firm (first : Balanced tokens middle) (second : Firm middle rest) :
    Firm tokens rest := by
  obtain ⟨used, rfl, heven⟩ := first
  obtain ⟨more, last, rfl, hlast, heven'⟩ := second
  refine ⟨used ++ more, last, (List.append_assoc _ _ _).symm, hlast, ?_⟩
  rw [List.append_assoc]
  exact heven.append heven'

/-- Firm tokens are balanced in particular. -/
theorem Firm.balanced (h : Firm tokens rest) : Balanced tokens rest := by
  obtain ⟨used, last, rfl, -, heven⟩ := h
  exact ⟨used ++ [last], by rw [List.append_assoc, List.singleton_append], heven⟩

/-- A brace that stays open behind balanced tokens stays open. -/
theorem Balanced.unclosed (first : Balanced tokens middle) (second : Unclosed middle rest) :
    Unclosed tokens rest := by
  obtain ⟨used, rfl, heven⟩ := first
  have heven' : count .lbrace used = count .rbrace used := heven
  refine ⟨second.1, ?_⟩
  rw [count_append, count_append]
  have hlt := second.2
  omega

/-- A token that is no brace is balanced. -/
theorem Plain.balanced (h : Plain token) : Balanced (token :: rest) rest :=
  ⟨[token], rfl, h.even⟩

/-- A token that is neither a brace nor a semicolon is firm. -/
theorem Plain.firm (h : Plain token) (hs : token.kind ≠ .semicolon) : Firm (token :: rest) rest :=
  ⟨[], token, rfl, hs, h.even⟩

/-- What ends before a token is closed. -/
theorem firm_of_cons (h : Firm tokens (token :: rest) ∨ Unclosed tokens (token :: rest)) :
    Firm tokens (token :: rest) := h.resolve_right fun hu => nomatch hu.1

/-- Where a token is left, no brace was open to the end. -/
theorem balanced_of_cons
    (h : Balanced tokens (token :: rest) ∨ Unclosed tokens (token :: rest)) :
    Balanced tokens (token :: rest) := h.resolve_right fun hu => nomatch hu.1

/-- Behind balanced tokens, what is firm or not closed is so together with them. -/
theorem Balanced.firm_or (first : Balanced tokens middle)
    (second : Firm middle rest ∨ Unclosed middle rest) : Firm tokens rest ∨ Unclosed tokens rest :=
  second.imp first.firm first.unclosed

/-- Behind balanced tokens it depends on the others whether a brace stays open. -/
theorem Balanced.balanced_or (first : Balanced tokens middle)
    (second : Balanced middle rest ∨ Unclosed middle rest) :
    Balanced tokens rest ∨ Unclosed tokens rest := second.imp first.trans first.unclosed

/-- A pair of braces around balanced tokens. -/
theorem firm_of_braces {opening closing : Token} (ho : opening.kind = .lbrace)
    (hc : closing.kind = .rbrace) (h : Balanced tokens (closing :: rest)) :
    Firm (opening :: tokens) rest := by
  obtain ⟨used, rfl, heven⟩ := h
  have heven' : count .lbrace used = count .rbrace used := heven
  refine ⟨opening :: used, closing, rfl, by rw [hc]; decide, ?_⟩
  have hl : count .lbrace [closing] = 0 := by simp [count, hc]
  have hr : count .rbrace [closing] = 1 := by simp [count, hc]
  unfold Even
  rw [List.cons_append, count_cons, count_cons, count_append, count_append, hl, hr, ho, if_pos rfl,
    if_neg (by decide)]
  omega

/-- An opening brace before tokens that do not close it. -/
theorem unclosed_of_brace {opening : Token} (ho : opening.kind = .lbrace)
    (h : Balanced tokens [] ∨ Unclosed tokens []) : Unclosed (opening :: tokens) [] := by
  have hle : count .rbrace tokens ≤ count .lbrace tokens := by
    rcases h with ⟨used, rfl, heven⟩ | hu
    · rw [List.append_nil]
      exact Nat.le_of_eq heven.symm
    · exact Nat.le_of_lt hu.2
  refine ⟨rfl, ?_⟩
  rw [count_cons, count_cons, ho, if_pos rfl, if_neg (by decide)]
  omega

/-- The end of a statement takes only a semicolon. -/
theorem EndsStmt.balanced (h : EndsStmt tokens rest) : Balanced tokens rest := by
  cases h with
  | semicolon h => exact (plain_of_kind h (by decide)).balanced
  | missing => exact .refl _

/-- A statement is closed before its end if its expression is. -/
theorem EndsStmt.balanced_or (h : EndsStmt middle rest)
    (first : Firm tokens middle ∨ Unclosed tokens middle) :
    Balanced tokens rest ∨ Unclosed tokens rest := by
  rcases first with hf | hu
  · exact .inl (hf.balanced.trans h.balanced)
  · obtain ⟨rfl, hlt⟩ := hu
    exact .inr ⟨List.suffix_nil.mp h.suffix, hlt⟩

/-- The operators and brackets of expressions are no braces. -/
theorem plain_of_operator {s : Stratum} (h : token.kind ∈ s.operators) : Plain token := by
  constructor <;> intro hk <;> rw [hk] at h <;> cases s <;> exact absurd h (by decide)

/-- A token of a kind that may end an expression. -/
theorem firm_of_kind {kind : Token.Kind} (h : token.kind = kind)
    (hk : (kind ≠ .lbrace ∧ kind ≠ .rbrace) ∧ kind ≠ .semicolon) :
    Firm (token :: rest) rest := (plain_of_kind h hk.1).firm (h ▸ hk.2)

/-- Names between commas end with a parenthesis. -/
theorem AreNames.firm {names : List Ident} (h : AreNames tokens rest names) : Firm tokens rest := by
  induction h with
  | last hn hc =>
    have hname := plain_of_kind hn (by decide)
    exact hname.balanced.firm (firm_of_kind hc (by decide))
  | more hn hc _ ih =>
    have hname := plain_of_kind hn (by decide)
    have hcomma := plain_of_kind hc (by decide)
    exact hname.balanced.firm (hcomma.balanced.firm ih)

theorem AreParameters.firm {names : List Ident} (h : AreParameters tokens rest names) :
    Firm tokens rest := by
  cases h with
  | none hc => exact firm_of_kind hc (by decide)
  | some h => exact h.firm

/-- The condition of a choice, in its parentheses. -/
theorem balanced_condition {word opening closing : Token} (hw : word.kind = .ifKw)
    (ho : opening.kind = .lparen)
    (h : Firm tokens (closing :: rest) ∨ Unclosed tokens (closing :: rest))
    (hc : closing.kind = .rparen) : Balanced (word :: opening :: tokens) rest := by
  have hword := plain_of_kind hw (by decide)
  have hopening := plain_of_kind ho (by decide)
  have hclosing := plain_of_kind hc (by decide)
  have hcondition := (firm_of_cons h).balanced
  exact (hword.balanced.trans hopening.balanced).trans (hcondition.trans hclosing.balanced)

mutual

/-- An expression is balanced and does not end in a semicolon, unless a block in it is not
closed. -/
theorem IsExpr.firm_or : ∀ {s : Stratum} {tokens rest : List Token} {e : Expr},
    IsExpr s tokens rest e → Firm tokens rest ∨ Unclosed tokens rest
  | _, _, _, _, .tighter h => h.firm_or
  | _, _, _, _, .binary ho ha hb =>
    ((firm_of_cons ha.firm_or).balanced.trans (plain_of_operator ho).balanced).firm_or hb.firm_or
  | _, _, _, _, .unary ho h => by
    rcases ho with ho | ho
    · exact (plain_of_kind ho (by decide)).balanced.firm_or h.firm_or
    · exact (plain_of_kind ho (by decide)).balanced.firm_or h.firm_or
  | _, _, _, _, .call hf ho ha =>
    ((firm_of_cons hf.firm_or).balanced.trans
      (plain_of_kind ho (by decide)).balanced).firm_or ha.firm_or
  | _, _, _, _, .ident h => .inl (firm_of_kind h (by decide))
  | _, _, _, _, .int h _ _ => .inl (firm_of_kind h (by decide))
  | _, _, _, _, .true h => .inl (firm_of_kind h (by decide))
  | _, _, _, _, .false h => .inl (firm_of_kind h (by decide))
  | _, _, _, _, .group ho h hc => by
    have hopening := plain_of_kind ho (by decide)
    have hinner := (firm_of_cons h.firm_or).balanced
    exact .inl ((hopening.balanced.trans hinner).firm (firm_of_kind hc (by decide)))
  | _, _, _, _, .when hw ho hcond hc hb => by
    have hhead := balanced_condition hw ho hcond.firm_or hc
    exact hhead.firm_or hb.firm_or
  | _, _, _, _, .choice hw ho hcond hc hb he hd => by
    have hhead := balanced_condition hw ho hcond.firm_or hc
    have helse := plain_of_kind he (by decide)
    have hfirst := (firm_of_cons hb.firm_or).balanced
    exact (hhead.trans (hfirst.trans helse.balanced)).firm_or hd.firm_or
  | _, _, _, _, .fn hw ho hp hb => by
    have hword := plain_of_kind hw (by decide)
    have hopening := plain_of_kind ho (by decide)
    exact ((hword.balanced.trans hopening.balanced).trans hp.firm.balanced).firm_or hb.firm_or

/-- So do the arguments of a call, unless a block stays open in them. -/
theorem AreArguments.firm_or : ∀ {tokens rest : List Token} {es : List Expr},
    AreArguments tokens rest es → Firm tokens rest ∨ Unclosed tokens rest
  | _, _, _, .none hc => .inl (firm_of_kind hc (by decide))
  | _, _, _, .some h => h.firm_or

theorem AreExprs.firm_or : ∀ {tokens rest : List Token} {es : List Expr},
    AreExprs tokens rest es → Firm tokens rest ∨ Unclosed tokens rest
  | _, _, _, .last h hc =>
    .inl ((firm_of_cons h.firm_or).balanced.firm (firm_of_kind hc (by decide)))
  | _, _, _, .more h hc hs => by
    have hcomma := plain_of_kind hc (by decide)
    exact ((firm_of_cons h.firm_or).balanced.trans hcomma.balanced).firm_or hs.firm_or

/-- A block ends with its brace, or stays open. -/
theorem IsBlock.firm_or : ∀ {tokens rest : List Token} {b : Block},
    IsBlock tokens rest b → Firm tokens rest ∨ Unclosed tokens rest
  | _, _, _, .closed ho h hc => .inl (firm_of_braces ho hc (balanced_of_cons h.balanced_or))
  | _, _, _, .unclosed ho h => .inr (unclosed_of_brace ho h.balanced_or)

/-- A statement is balanced, unless a block in it is not closed. -/
theorem IsStmt.balanced_or : ∀ {tokens rest : List Token} {s : Stmt},
    IsStmt tokens rest s → Balanced tokens rest ∨ Unclosed tokens rest
  | _, _, _, .define hw hn hq h hend => by
    have hword := plain_of_kind hw (by decide)
    have hname := plain_of_kind hn (by decide)
    have hequals := plain_of_kind hq (by decide)
    exact ((hword.balanced.trans hname.balanced).trans hequals.balanced).balanced_or
      (hend.balanced_or h.firm_or)
  | _, _, _, .ret hw h hend =>
    (plain_of_kind hw (by decide)).balanced.balanced_or (hend.balanced_or h.firm_or)
  | _, _, _, .leave hw hs => by
    have hword := plain_of_kind hw (by decide)
    have hsemicolon := plain_of_kind hs (by decide)
    exact .inl (hword.balanced.trans hsemicolon.balanced)
  | _, _, _, .leaveLast hw _ => .inl (plain_of_kind hw (by decide)).balanced
  | _, _, _, .bare h hend => hend.balanced_or h.firm_or

/-- Statements are balanced, unless a block in the last of them is not closed. -/
theorem AreStmts.balanced_or : ∀ {tokens rest : List Token} {ss : List Stmt},
    AreStmts tokens rest ss → Balanced tokens rest ∨ Unclosed tokens rest
  | _, _, _, .nil => .inl (.refl _)
  | _, _, _, .cons h hs => by
    rcases h.balanced_or with hb | ⟨rfl, hlt⟩
    · exact hb.balanced_or hs.balanced_or
    · exact .inr ⟨List.suffix_nil.mp hs.suffix, hlt⟩

end

/-- Tokens with as many opening as closing braces are closed. -/
theorem Even.not_unclosed (h : Even tokens) : ¬ Unclosed tokens rest := by
  rintro ⟨-, hlt⟩
  have heven : count .lbrace tokens = count .rbrace tokens := h
  omega

/-- What is balanced takes as many opening as closing braces away. -/
theorem Balanced.even_iff (h : Balanced tokens rest) : Even tokens ↔ Even rest := by
  obtain ⟨used, rfl, heven⟩ := h
  have heven' : count .lbrace used = count .rbrace used := heven
  unfold Even
  rw [count_append, count_append]
  omega

end Inkwell.Grammar
