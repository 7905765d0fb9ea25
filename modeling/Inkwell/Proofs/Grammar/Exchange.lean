import Inkwell.Proofs.Grammar.Complete

/-!
# What may follow a derivation

What the grammar derives does not depend on what stands behind it, but for three places: a block
that is not closed at the end of the input has to be closed before anything else can follow, a
statement without a semicolon must not be continued, and a `return` alone needs a closing brace or
the end of the input behind it. So what stands behind a derivation can be exchanged: behind an
expression for anything, and behind a statement for tokens that start alike, that start with a
closing brace, or that are not there at all.
-/

namespace Inkwell.Grammar

/-- An expression of a stratum, whatever its tree. -/
def SomeExpr (s : Stratum) (tokens rest : List Token) : Prop := ∃ e, IsExpr s tokens rest e

/-- The arguments of a call and the closing parenthesis. -/
def SomeArguments (tokens rest : List Token) : Prop := ∃ es, AreArguments tokens rest es

/-- Expressions between commas and the closing parenthesis. -/
def SomeExprs (tokens rest : List Token) : Prop := ∃ es, AreExprs tokens rest es

/-- Names between commas and the closing parenthesis. -/
def SomeNames (tokens rest : List Token) : Prop := ∃ names, AreNames tokens rest names

/-- The parameters of a function and the closing parenthesis. -/
def SomeParameters (tokens rest : List Token) : Prop := ∃ names, AreParameters tokens rest names

/-- A block, whatever its tree. -/
def SomeBlock (tokens rest : List Token) : Prop := ∃ b, IsBlock tokens rest b

/-- A statement, whatever its tree. -/
def SomeStmt (tokens rest : List Token) : Prop := ∃ s, IsStmt tokens rest s

/-- Statements one after the other. -/
def SomeStmts (tokens rest : List Token) : Prop := ∃ ss, AreStmts tokens rest ss

/-- A number of closing braces. -/
def closers (n : Nat) : List Token := List.replicate n ⟨.rbrace, "\x7d"⟩

/-- A closing brace behind others is one more of them. -/
theorem closers_succ_append (n : Nat) (others : List Token) :
    closers n ++ ⟨.rbrace, "\x7d"⟩ :: others = closers (n + 1) ++ others := by
  unfold closers
  rw [List.replicate_succ', List.append_assoc, List.singleton_append]

/-- The tokens behind a derivation may be exchanged for others, if those are admitted. Behind the
last token, blocks that were left open are closed first. -/
def Exchanges (admitted : List Token → Prop) (derives : List Token → List Token → Prop)
    (tokens rest : List Token) : Prop :=
  ∃ used n, tokens = used ++ rest ∧ (rest ≠ [] → n = 0) ∧
    ∀ others, admitted others → derives (used ++ (closers n ++ others)) others

/-- Anything may follow. -/
abbrev Anything (_ : List Token) : Prop := True

/-- What is still to be derived behind a token of a kind. -/
def Behind (kind : Token.Kind) (derives : List Token → List Token → Prop)
    (tokens rest : List Token) : Prop :=
  ∀ token : Token, token.kind = kind → derives (token :: tokens) rest

/-- What is still to be derived behind a first part. -/
def After (first derives : List Token → List Token → Prop) (tokens rest : List Token) : Prop :=
  ∀ start, first start tokens → derives start rest

namespace Exchanges

variable {admitted : List Token → Prop} {derives derives' first : List Token → List Token → Prop}
  {tokens middle rest : List Token}

/-- Fewer tokens may be admitted behind a derivation, and more derived with those. -/
theorem imp (h : Exchanges admitted derives tokens rest) {admitted' : List Token → Prop}
    (hadmitted : ∀ others, admitted' others → admitted others)
    (hderives : ∀ tokens others, admitted' others → derives tokens others →
      derives' tokens others) : Exchanges admitted' derives' tokens rest := by
  obtain ⟨used, n, htokens, hn, h⟩ := h
  exact ⟨used, n, htokens, hn, fun others ho =>
    hderives _ _ ho (h others (hadmitted _ ho))⟩

/-- What follows from the derived is derived as well. -/
theorem mono (h : Exchanges admitted derives tokens rest)
    (hderives : ∀ tokens others, derives tokens others → derives' tokens others) :
    Exchanges admitted derives' tokens rest :=
  h.imp (fun _ h => h) fun _ _ _ => hderives _ _

/-- A derivation of a fixed number of tokens. -/
theorem of_used (used : List Token) (h : ∀ others, derives (used ++ others) others) :
    Exchanges admitted derives (used ++ rest) rest :=
  ⟨used, 0, rfl, fun _ => rfl, fun others _ => h others⟩

/-- A token before what is derived behind it. -/
theorem cons {token : Token} {kind : Token.Kind} (hk : token.kind = kind)
    (h : Exchanges admitted (Behind kind derives) tokens rest) :
    Exchanges admitted derives (token :: tokens) rest := by
  obtain ⟨used, n, rfl, hn, h⟩ := h
  exact ⟨token :: used, n, rfl, hn, fun others ho => h others ho _ hk⟩

/-- A token behind a derivation. -/
theorem concat {token : Token} (h : Exchanges admitted derives tokens (token :: rest))
    (hadmitted : ∀ others, admitted (token :: others))
    (hderives : ∀ tokens others, derives tokens (token :: others) → derives' tokens others) :
    Exchanges Anything derives' tokens rest := by
  obtain ⟨used, n, rfl, hn, h⟩ := h
  obtain rfl := hn (List.cons_ne_nil _ _)
  refine ⟨used ++ [token], 0, by rw [List.append_assoc, List.singleton_append], fun _ => rfl,
    fun others _ => hderives _ _ ?_⟩
  rw [List.append_assoc]
  exact h _ (hadmitted others)

/-- A first part before what is derived behind it, if that is not the end of the input. -/
theorem seq (hfirst : Exchanges Anything first tokens middle) (hne : middle ≠ [])
    (h : Exchanges admitted (After first derives) middle rest) :
    Exchanges admitted derives tokens rest := by
  obtain ⟨used, n, rfl, hn, hfirst⟩ := hfirst
  obtain ⟨used', n', rfl, hn', h⟩ := h
  obtain rfl := hn hne
  refine ⟨used ++ used', n', by rw [List.append_assoc], hn', fun others ho => ?_⟩
  rw [List.append_assoc]
  exact h others ho _ (hfirst _ trivial)

end Exchanges

/-- What may stand behind a statement in the place of the tokens that do: others that start alike, a
closing brace, or none. -/
def Replaces (rest others : List Token) : Prop :=
  others = [] ∨ nextKind others = .rbrace ∨ rest ≠ [] ∧ nextKind others = nextKind rest

/-- What replaces tokens that continue no expression continues none. -/
theorem Replaces.not_continuing {rest others : List Token} (h : Replaces rest others)
    (hc : nextKind rest ∉ continuing) : nextKind others ∉ continuing := by
  rcases h with rfl | h | ⟨-, h⟩
  · decide
  · rw [h]
    decide
  · rwa [h]

/-- Behind names and their parenthesis anything may follow. -/
theorem AreNames.exchanges {tokens rest : List Token} {names : List Ident}
    (h : AreNames tokens rest names) : Exchanges Anything SomeNames tokens rest := by
  induction h with
  | last hn hc => exact .of_used [_, _] fun _ => ⟨_, .last hn hc⟩
  | more hn hc _ ih =>
    refine .cons hn (.cons hc (ih.mono ?_))
    rintro _ _ ⟨_, h⟩ _ hc _ hn
    exact ⟨_, .more hn hc h⟩

theorem AreParameters.exchanges {tokens rest : List Token} {names : List Ident}
    (h : AreParameters tokens rest names) : Exchanges Anything SomeParameters tokens rest := by
  cases h with
  | none hc => exact .of_used [_] fun _ => ⟨_, .none hc⟩
  | some h => exact h.exchanges.mono fun _ _ ⟨_, h⟩ => ⟨_, .some h⟩

/-- An expression and the end of its statement. -/
def SomeValue (tokens rest : List Token) : Prop :=
  ∃ behind, SomeExpr .equality tokens behind ∧ EndsStmt behind rest

/-- An expression that ends its statement is a statement. -/
theorem SomeValue.someStmt {tokens rest : List Token} (h : SomeValue tokens rest) :
    SomeStmt tokens rest := by
  obtain ⟨behind, ⟨e, he⟩, hend⟩ := h
  cases tokens with
  | nil => exact absurd he.nextKind_mem (by decide)
  | cons first tokens => exact ⟨_, .bare he hend⟩

/-- Behind an expression the end of its statement may be exchanged for another one. -/
theorem Exchanges.someValue {tokens behind rest : List Token}
    (h : Exchanges Anything (SomeExpr .equality) tokens behind) (hend : EndsStmt behind rest) :
    Exchanges (Replaces rest) SomeValue tokens rest := by
  cases hend with
  | semicolon hs =>
    exact (h.concat (fun _ => trivial) fun _ _ h => ⟨_, h, .semicolon hs⟩).imp
      (fun _ _ => trivial) fun _ _ _ h => h
  | missing hc =>
    exact h.imp (fun _ _ => trivial) fun _ _ ho h => ⟨_, h, .missing (ho.not_continuing hc)⟩

/-- A statement before others. What replaces the rest of them replaces what is behind the statement,
too: if there are others, then by what they start with. -/
theorem Exchanges.someStmts {tokens behind rest : List Token}
    (h : Exchanges (Replaces behind) SomeStmt tokens behind)
    (hs : Exchanges (Replaces rest) SomeStmts behind rest) (hsuffix : rest <:+ behind) :
    Exchanges (Replaces rest) SomeStmts tokens rest := by
  by_cases hbehind : behind = []
  · subst hbehind
    obtain rfl : rest = [] := List.suffix_nil.mp hsuffix
    exact h.imp (fun _ h => h) fun _ _ _ ⟨_, h⟩ => ⟨_, .cons h .nil⟩
  · obtain ⟨used, n, htokens, hn, h⟩ := h
    obtain rfl := hn hbehind
    obtain ⟨used', n', hbehind', hn', hs⟩ := hs
    refine ⟨used ++ used', n', by rw [htokens, hbehind', List.append_assoc], hn',
      fun others ho => ?_⟩
    have hreplaces : Replaces behind (used' ++ (closers n' ++ others)) := by
      cases used' with
      | nil =>
        obtain rfl : behind = rest := hbehind'
        obtain rfl := hn' hbehind
        exact ho
      | cons token used' =>
        rw [hbehind']
        exact .inr (.inr ⟨List.cons_ne_nil _ _, rfl⟩)
    obtain ⟨_, h⟩ := h _ hreplaces
    obtain ⟨_, hs⟩ := hs others ho
    rw [List.append_assoc]
    exact ⟨_, .cons h hs⟩

/-- A block has a brace at least. -/
theorem IsBlock.ne_nil {tokens rest : List Token} {b : Block} (h : IsBlock tokens rest b) :
    tokens ≠ [] := by
  cases h <;> exact List.cons_ne_nil _ _

mutual

/-- Anything may follow an expression. -/
theorem IsExpr.exchanges : ∀ {s : Stratum} {tokens rest : List Token} {e : Expr},
    IsExpr s tokens rest e → Exchanges Anything (SomeExpr s) tokens rest
  | _, _, _, _, .tighter h => h.exchanges.mono fun _ _ ⟨_, h⟩ => ⟨_, .tighter h⟩
  | _, _, _, _, .binary ho ha hb => by
    refine ha.exchanges.seq (List.cons_ne_nil _ _) (.cons rfl (hb.exchanges.mono ?_))
    rintro _ _ ⟨_, hb⟩ _ hop _ ⟨_, ha⟩
    exact ⟨_, .binary (hop ▸ ho) ha hb⟩
  | _, _, _, _, .unary ho h => by
    refine .cons rfl (h.exchanges.mono ?_)
    rintro _ _ ⟨_, h⟩ _ hop
    exact ⟨_, .unary (hop ▸ ho) h⟩
  | _, _, _, _, .call hf ho ha => by
    refine hf.exchanges.seq (List.cons_ne_nil _ _) (.cons ho (ha.exchanges.mono ?_))
    rintro _ _ ⟨_, ha⟩ _ ho _ ⟨_, hf⟩
    exact ⟨_, .call hf ho ha⟩
  | _, _, _, _, .ident h => .of_used [_] fun _ => ⟨_, .ident h⟩
  | _, _, _, _, .int h hd hv => .of_used [_] fun _ => ⟨_, .int h hd hv⟩
  | _, _, _, _, .true h => .of_used [_] fun _ => ⟨_, .true h⟩
  | _, _, _, _, .false h => .of_used [_] fun _ => ⟨_, .false h⟩
  | _, _, _, _, .group ho h hc => by
    refine .cons ho (h.exchanges.concat (fun _ => trivial) ?_)
    rintro _ _ ⟨_, h⟩ _ ho
    exact ⟨_, .group ho h hc⟩
  | _, _, _, _, .when hw ho hcond hc hb => by
    refine .cons hw (.cons ho ?_)
    refine hcond.exchanges.seq (List.cons_ne_nil _ _) (.cons hc (hb.exchanges.mono ?_))
    rintro _ _ ⟨_, hb⟩ _ hc _ ⟨_, hcond⟩ _ ho _ hw
    exact ⟨_, .when hw ho hcond hc hb⟩
  | _, _, _, _, .choice hw ho hcond hc hb he hd => by
    refine .cons hw (.cons ho ?_)
    refine hcond.exchanges.seq (List.cons_ne_nil _ _) (.cons hc ?_)
    refine hb.exchanges.seq (List.cons_ne_nil _ _) (.cons he (hd.exchanges.mono ?_))
    rintro _ _ ⟨_, hd⟩ _ he _ ⟨_, hb⟩ _ hc _ ⟨_, hcond⟩ _ ho _ hw
    exact ⟨_, .choice hw ho hcond hc hb he hd⟩
  | _, _, _, _, .fn hw ho hp hb => by
    refine .cons hw (.cons ho ?_)
    refine hp.exchanges.seq hb.ne_nil (hb.exchanges.mono ?_)
    rintro _ _ ⟨_, hb⟩ _ ⟨_, hp⟩ _ ho _ hw
    exact ⟨_, .fn hw ho hp hb⟩

/-- Behind the arguments of a call anything may follow. -/
theorem AreArguments.exchanges : ∀ {tokens rest : List Token} {es : List Expr},
    AreArguments tokens rest es → Exchanges Anything SomeArguments tokens rest
  | _, _, _, .none hc => .of_used [_] fun _ => ⟨_, .none hc⟩
  | _, _, _, .some h => h.exchanges.mono fun _ _ ⟨_, h⟩ => ⟨_, .some h⟩

/-- So it may behind expressions and their parenthesis. -/
theorem AreExprs.exchanges : ∀ {tokens rest : List Token} {es : List Expr},
    AreExprs tokens rest es → Exchanges Anything SomeExprs tokens rest
  | _, _, _, .last h hc =>
    h.exchanges.concat (fun _ => trivial) fun _ _ ⟨_, h⟩ => ⟨_, .last h hc⟩
  | _, _, _, .more h hc hs => by
    refine h.exchanges.seq (List.cons_ne_nil _ _) (.cons hc (hs.exchanges.mono ?_))
    rintro _ _ ⟨_, hs⟩ _ hc _ ⟨_, h⟩
    exact ⟨_, .more h hc hs⟩

/-- Anything may follow a block. If it was left open, it is closed first. -/
theorem IsBlock.exchanges : ∀ {tokens rest : List Token} {b : Block},
    IsBlock tokens rest b → Exchanges Anything SomeBlock tokens rest
  | _, _, _, .closed ho h hc => by
    refine .cons ho (h.exchanges.concat (fun _ => .inr (.inl hc)) ?_)
    rintro _ _ ⟨_, h⟩ _ ho
    exact ⟨_, .closed ho h hc⟩
  | _, _, _, .unclosed ho h => by
    obtain ⟨used, n, htokens, -, h⟩ := h.exchanges
    refine .cons ho ⟨used, n + 1, htokens, fun hne => absurd rfl hne, fun others _ _ ho => ?_⟩
    obtain ⟨ss, h⟩ := h (⟨.rbrace, "\x7d"⟩ :: others) (.inr (.inl rfl))
    rw [closers_succ_append] at h
    exact ⟨_, .closed ho h rfl⟩

/-- Behind a statement others may follow that start alike, or a closing brace, or none. -/
theorem IsStmt.exchanges : ∀ {tokens rest : List Token} {s : Stmt},
    IsStmt tokens rest s → Exchanges (Replaces rest) SomeStmt tokens rest
  | _, _, _, .define hw hn hq h hend => by
    refine .cons hw (.cons hn (.cons hq ((h.exchanges.someValue hend).mono ?_)))
    rintro _ _ ⟨_, ⟨_, h⟩, hend⟩ _ hq _ hn _ hw
    exact ⟨_, .define hw hn hq h hend⟩
  | _, _, _, .ret hw h hend => by
    refine .cons hw ((h.exchanges.someValue hend).mono ?_)
    rintro _ _ ⟨_, ⟨_, h⟩, hend⟩ _ hw
    exact ⟨_, .ret hw h hend⟩
  | _, _, _, .leave hw hs => .of_used [_, _] fun _ => ⟨_, .leave hw hs⟩
  | _, _, _, .leaveLast hw hlast => by
    refine .cons hw ⟨[], 0, rfl, fun _ => rfl, fun others ho _ hw => ⟨_, .leaveLast hw ?_⟩⟩
    rcases ho with rfl | ho | ⟨hne, ho⟩
    · exact .inr rfl
    · exact .inl ho
    · exact .inl (ho.trans (hlast.resolve_right hne))
  | _, _, _, .bare h hend => (h.exchanges.someValue hend).mono fun _ _ h => h.someStmt

theorem AreStmts.exchanges : ∀ {tokens rest : List Token} {ss : List Stmt},
    AreStmts tokens rest ss → Exchanges (Replaces rest) SomeStmts tokens rest
  | _, _, _, .nil => .of_used [] fun _ => ⟨_, .nil⟩
  | _, _, _, .cons h hs => h.exchanges.someStmts hs.exchanges hs.suffix

end

end Inkwell.Grammar
