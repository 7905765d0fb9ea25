import Inkwell.Proofs.Grammar.Basic
import Inkwell.Proofs.Reading.Clean

/-!
# What is read follows the grammar

A reading without diagnostics builds a tree that the grammar derives from the tokens it went over.
The argument follows the readers. Behind an expression that was read at some level stands a token
that does not bind more tightly than this level, which `Settled` says; this is why an operator finds
on its left an operand of its own stratum, and on its right one of the next.
-/

namespace Inkwell

open Reading

/-- The kind of the current token is that of the first one left. -/
theorem Cursor.current_kind (cursor : Cursor) :
    cursor.current.kind = Grammar.nextKind cursor.tokens := by
  unfold Cursor.current
  cases cursor.tokens <;> rfl

/-- The kind of the upcoming token is that of the first one behind a move. -/
theorem Cursor.upcoming_kind (cursor : Cursor) :
    cursor.upcoming.kind = Grammar.nextKind cursor.advance.tokens := by
  unfold Cursor.upcoming Cursor.advance
  rcases cursor.tokens with _ | ⟨_, _ | _⟩ <;> rfl

namespace Grammar

/-- No token stands for the end of the input. -/
def Unended (tokens : List Token) : Prop := ∀ token ∈ tokens, token.kind ≠ .eof

/-- The end of the input does not come up while tokens are passed. -/
theorem Unended.of_suffix {tokens rest : List Token} (h : Unended tokens) (hs : rest <:+ tokens) :
    Unended rest := fun token ht => h token (hs.subset ht)

/-- Nor does it behind a move. -/
theorem Unended.advance {cursor : Cursor} (h : Unended cursor.tokens) :
    Unended cursor.advance.tokens := h.of_suffix (List.tail_suffix _)

/-- Where it shows, no tokens are left. -/
theorem Unended.eq_nil {tokens : List Token} (h : Unended tokens) (he : nextKind tokens = .eof) :
    tokens = [] := by
  cases tokens with
  | nil => rfl
  | cons token rest => exact absurd he (h token List.mem_cons_self)

/-- The next token does not continue an expression that binds more tightly than a level. -/
def Settled (level : Int) (rest : List Token) : Prop :=
  nextKind rest ∈ continuing → (nextKind rest).precedence ≤ level

/-- The tokens that continue an expression are those that stand behind a left operand. -/
theorem mem_continuing_iff {kind : Token.Kind} : kind ∈ continuing ↔ kind.isInfix = true := by
  cases kind <;> decide

/-- Every token that continues an expression binds more tightly than nothing at all, and none more
tightly than a call. -/
theorem precedence_of_continuing {kind : Token.Kind} (h : kind ∈ continuing) :
    Precedence.lowest < kind.precedence ∧ kind.precedence ≤ Precedence.call := by
  cases kind <;> first | exact absurd h (by decide) | decide

/-- Every binary operator has a stratum. -/
theorem exists_stratum {kind : Token.Kind} (h : kind ∈ continuing) (hp : kind ≠ .lparen) :
    ∃ s : Stratum, kind ∈ s.operators ∧ s.rank = kind.precedence ∧
      s.rank < Precedence.unary := by
  cases kind <;> first
    | exact absurd h (by decide)
    | exact absurd rfl hp
    | exact ⟨.equality, by decide⟩
    | exact ⟨.comparison, by decide⟩
    | exact ⟨.sum, by decide⟩
    | exact ⟨.product, by decide⟩

end Grammar

namespace Reading

variable {α : Type} {before after : Cursor}

/-- A clean reading has moved forward. -/
theorem Clean.suffix {x : ReadM α} {a : α} (hx : Steady x) (h : Clean x before a after) :
    after.tokens <:+ before.tokens := by
  have hp := hx before
  rw [h.1] at hp
  exact hp.tokens

theorem Accepts.suffix {x : ParseM α} {a : α} (hx : Accounted x) (h : Accepts x before a after) :
    after.tokens <:+ before.tokens := by
  have hp := hx before
  rw [h.1] at hp
  exact Cursor.Progress.tokens hp

end Reading

namespace Grammar

variable {before after : Cursor} {e : Int → ParseM Expr}

/-- What a reader of expressions accepts at a level is an expression of a stratum above it, or one
that needs no level because it starts with an operator or an operand of its own. -/
def SoundReader (e : Int → ParseM Expr) : Prop :=
  ∀ {level : Int} {before after : Cursor} {r : Expr}, Precedence.lowest ≤ level →
    Unended before.tokens → Accepts (e level) before r after →
    ∃ s : Stratum, (level < s.rank ∨ Precedence.unary ≤ s.rank) ∧
      IsExpr s before.tokens after.advance.tokens r ∧ Settled level after.advance.tokens

/-- Expressions that are read at the lowest level are expressions of the loosest stratum. -/
theorem SoundReader.lowest (hs : SoundReader e) {r : Expr} (hu : Unended before.tokens)
    (h : Accepts (e Precedence.lowest) before r after) :
    IsExpr .equality before.tokens after.advance.tokens r ∧
      nextKind after.advance.tokens ∉ continuing := by
  obtain ⟨s, hr, he, hset⟩ := hs (Int.le_refl _) hu h
  refine ⟨he.of_rank_le ?_, fun hc => ?_⟩
  · have hlow : Stratum.equality.rank = Precedence.lowest + 1 := rfl
    have hhigh : Precedence.unary = Precedence.lowest + 5 := rfl
    omega
  · have hlow := (precedence_of_continuing hc).1
    have hle := hset hc
    omega

/-- The semicolon behind an expression, or its absence, ends the statement. -/
theorem endsStmt_skipSemicolon (hset : nextKind before.advance.tokens ∉ continuing) :
    EndsStmt before.advance.tokens before.skipSemicolon.advance.tokens := by
  unfold Cursor.skipSemicolon
  split
  · rename_i h
    rw [Cursor.tokens_advance_eq h (by decide)]
    exact .semicolon h
  · exact .missing hset

/-- A statement that is accepted is derived. -/
theorem isStmt_of_accepts (he : ∀ level, Accounted (e level)) (hs : SoundReader e) {s : Stmt}
    (hc : before.current.kind ≠ .eof) (hu : Unended before.tokens)
    (h : Accepts (statement e) before s after) :
    IsStmt before.tokens after.advance.tokens s := by
  rcases accepts_statement.mp h with ⟨hk, hl⟩ | ⟨hk, hr⟩ | ⟨-, -, hb⟩
  · obtain ⟨value, middle, hi, ha, hval, rfl, rfl⟩ := (accepts_letStatement he).mp hl
    obtain ⟨hexpr, hset⟩ := hs.lowest hu.advance.advance.advance hval
    rw [Cursor.tokens_eq rfl hc, Cursor.tokens_advance_eq hi (by decide),
      Cursor.tokens_advance_eq ha (by decide), Cursor.current_advance]
    exact .define hk hi ha hexpr (endsStmt_skipSemicolon hset)
  · rcases (accepts_returnStatement he).mp hr with ⟨hsemi, rfl, rfl⟩ | ⟨hlast, rfl, rfl⟩ |
      ⟨-, -, -, value, middle, hval, rfl, rfl⟩
    · rw [Cursor.tokens_eq rfl hc, Cursor.tokens_advance_eq hsemi (by decide)]
      exact .leave hk hsemi
    · rw [Cursor.tokens_eq rfl hc]
      refine .leaveLast hk ?_
      rw [Cursor.upcoming_kind] at hlast
      exact hlast.imp_right hu.advance.eq_nil
    · obtain ⟨hexpr, hset⟩ := hs.lowest hu.advance hval
      rw [Cursor.tokens_eq rfl hc]
      exact .ret hk hexpr (endsStmt_skipSemicolon hset)
  · obtain ⟨value, middle, hval, rfl, rfl⟩ := (accepts_bareStatement he).mp hb
    obtain ⟨hexpr, hset⟩ := hs.lowest hu hval
    rw [Cursor.tokens_eq rfl hc] at hexpr ⊢
    exact .bare hexpr (endsStmt_skipSemicolon hset)

/-- A loop over statements, given as many rounds as there are tokens, ends at the end of the input
or at a token that ends it. -/
theorem areStmts_of_clean (he : ∀ level, Accounted (e level)) (hs : SoundReader e)
    {ends : Token.Kind → Bool} {rounds : List Token} {kept : Array Stmt} {ss : List Stmt}
    (hlen : before.tokens.length ≤ rounds.length) (hu : Unended before.tokens)
    (h : Clean (statementsUntil ends e rounds kept) before ss after) :
    ∃ more, ss = kept.toList ++ more ∧ AreStmts before.tokens after.tokens more ∧
      (after.tokens = [] ∨ ends (nextKind after.tokens) = true) := by
  induction rounds generalizing before kept with
  | nil =>
    obtain ⟨rfl, rfl⟩ := clean_statementsUntil_nil.mp h
    have hnil : after.tokens = [] := List.eq_nil_of_length_eq_zero (by simpa using hlen)
    exact ⟨[], by simp, .nil, .inl hnil⟩
  | cons round rounds ih =>
    rw [clean_statementsUntil_cons he] at h
    split at h
    · rename_i hend
      obtain ⟨rfl, rfl⟩ := h
      rw [Cursor.current_kind] at hend
      exact ⟨[], by simp, .nil, hend.imp_left hu.eq_nil⟩
    · rename_i hend
      obtain ⟨s, middle, hstmt, h⟩ := h
      have hc : before.current.kind ≠ .eof := fun hk => hend (.inl hk)
      have hsuffix := hstmt.suffix (respectedProgress.statement (f := e) he)
      have hrest : middle.advance.tokens <:+ before.tokens :=
        (List.tail_suffix _).trans hsuffix
      have hshort : middle.advance.tokens.length ≤ rounds.length := by
        have hm := hsuffix.length_le
        have ht : middle.advance.tokens.length = middle.tokens.length - 1 := List.length_tail
        simp only [List.length_cons] at hlen
        omega
      obtain ⟨more, hss, hmore, hstop⟩ := ih hshort (hu.of_suffix hrest) h
      refine ⟨s :: more, by simpa using hss, ?_, hstop⟩
      exact .cons (isStmt_of_accepts he hs hc hu hstmt) hmore

theorem isBlock_of_clean (he : ∀ level, Accounted (e level)) (hs : SoundReader e) {b : Block}
    (hk : before.current.kind = .lbrace) (hu : Unended before.tokens)
    (h : Clean (block e) before b after) : IsBlock before.tokens after.advance.tokens b := by
  obtain ⟨ss, hloop, rfl⟩ := (clean_block he).mp h
  obtain ⟨more, hmore, hss, hstop⟩ := areStmts_of_clean he hs (Nat.le_refl _) hu.advance hloop
  obtain rfl : ss = more := by simpa using hmore
  rw [Cursor.tokens_eq hk (by decide)]
  rcases hstop with hnil | hclose
  · have hrest : after.advance.tokens = [] := by rw [Cursor.advance, hnil, List.tail_nil]
    rw [hrest]
    rw [hnil] at hss
    exact .unclosed hk hss
  · rw [← Cursor.current_kind, beq_iff_eq] at hclose
    rw [Cursor.tokens_eq hclose (by decide)] at hss
    exact .closed hk hss hclose

/-- The last expression before the parenthesis. -/
theorem areExprs_last {tokens : List Token} {r : Expr}
    (h : IsExpr .equality tokens before.advance.tokens r) (hk : before.upcoming.kind = .rparen) :
    AreExprs tokens before.advance.advance.tokens [r] := by
  rw [Cursor.tokens_advance_eq hk (by decide)] at h
  exact .last h hk

/-- A loop over further arguments, behind a first one, up to the closing parenthesis. -/
theorem areExprs_of_accepts (he : ∀ level, Accounted (e level)) (hs : SoundReader e)
    {rounds tokens : List Token} (found : Array Expr) {first : Expr} {es : List Expr}
    (hfirst : IsExpr .equality tokens before.advance.tokens first) (hu : Unended before.tokens)
    (h : Accepts (moreExpressions e rounds (found.push first)) before es after)
    (hclose : after.upcoming.kind = .rparen) :
    ∃ more, es = found.toList ++ more ∧
      AreExprs tokens after.advance.advance.tokens more := by
  induction rounds generalizing before tokens found first with
  | nil =>
    obtain ⟨rfl, rfl⟩ := accepts_moreExpressions_nil.mp h
    exact ⟨[first], by simp, areExprs_last hfirst hclose⟩
  | cons round rounds ih =>
    rw [accepts_moreExpressions_cons he] at h
    split at h
    · rename_i hcomma
      obtain ⟨next, middle, hnext, hmore⟩ := h
      obtain ⟨hexpr, -⟩ := hs.lowest hu.advance.advance hnext
      have hum := hu.advance.advance.of_suffix (hnext.suffix (he _))
      obtain ⟨more, hes, hall⟩ := ih _ hexpr hum hmore
      rw [Cursor.tokens_advance_eq hcomma (by decide)] at hfirst
      exact ⟨first :: more, by simpa using hes, .more hfirst hcomma hall⟩
    · obtain ⟨rfl, rfl⟩ := h
      exact ⟨[first], by simp, areExprs_last hfirst hclose⟩

/-- The arguments of a call that are accepted are derived. -/
theorem areArguments_of_accepts (he : ∀ level, Accounted (e level)) (hs : SoundReader e)
    {es : List Expr} (hu : Unended before.tokens)
    (h : Accepts (expressionList e .rparen) before es after) :
    AreArguments before.advance.tokens after.advance.tokens es := by
  rw [accepts_expressionList he] at h
  split at h
  · rename_i hk
    obtain ⟨rfl, rfl⟩ := h
    rw [Cursor.tokens_advance_eq hk (by decide)]
    exact .none hk
  · obtain ⟨first, middle, last, hfirst, hmore, hclose, rfl⟩ := h
    obtain ⟨hexpr, -⟩ := hs.lowest hu.advance hfirst
    have hum := hu.advance.of_suffix (hfirst.suffix (he _))
    obtain ⟨more, hes, hall⟩ := areExprs_of_accepts he hs #[] hexpr hum hmore hclose
    obtain rfl : es = more := by simpa using hes
    exact .some hall

/-- A loop over further names, behind a first one, up to the closing parenthesis. -/
theorem areNames_of_accepts {rounds : List Token} (found : Array Ident) {ps : List Ident}
    (hfirst : before.current.kind = .ident)
    (h : Accepts (moreParameters rounds
      (found.push ⟨before.current, before.current.literal⟩)) before ps after)
    (hclose : after.upcoming.kind = .rparen) :
    ∃ more, ps = found.toList ++ more ∧
      AreNames before.tokens after.advance.advance.tokens more := by
  have hlast : ∀ {cursor : Cursor}, cursor.current.kind = .ident →
      cursor.upcoming.kind = .rparen →
      AreNames cursor.tokens cursor.advance.advance.tokens
        [⟨cursor.current, cursor.current.literal⟩] := by
    intro cursor hi hk
    rw [Cursor.tokens_eq hi (by decide), Cursor.tokens_advance_eq hk (by decide)]
    exact .last hi hk
  induction rounds generalizing before found with
  | nil =>
    obtain ⟨rfl, rfl⟩ := accepts_moreParameters_nil.mp h
    exact ⟨[_], by simp, hlast hfirst hclose⟩
  | cons round rounds ih =>
    rw [accepts_moreParameters_cons] at h
    split at h
    · rename_i hcomma
      obtain ⟨hi, hmore⟩ := h
      rw [← Cursor.current_advance] at hi
      obtain ⟨more, hps, hall⟩ := ih _ hi hmore
      rw [Cursor.tokens_eq hfirst (by decide),
        Cursor.tokens_advance_eq hcomma (by decide)]
      exact ⟨_ :: more, by simpa using hps, .more hfirst hcomma hall⟩
    · obtain ⟨rfl, rfl⟩ := h
      exact ⟨[_], by simp, hlast hfirst hclose⟩

theorem areParameters_of_accepts {ps : List Ident}
    (h : Accepts functionParameters before ps after) :
    AreParameters before.advance.tokens after.advance.tokens ps := by
  rw [accepts_functionParameters] at h
  split at h
  · rename_i hk
    obtain ⟨rfl, rfl⟩ := h
    rw [Cursor.tokens_advance_eq hk (by decide)]
    exact .none hk
  · obtain ⟨hi, middle, hmore, hclose, rfl⟩ := h
    rw [← Cursor.current_advance] at hi
    obtain ⟨more, hps, hall⟩ := areNames_of_accepts #[] hi hmore hclose
    obtain rfl : ps = more := by simpa using hps
    exact .some hall

/-- A choice that is accepted is derived, with a second branch or without one. -/
theorem isExpr_of_ifExpression (he : ∀ level, Accounted (e level)) (hs : SoundReader e)
    {r : Expr} (hk : before.current.kind = .ifKw) (hu : Unended before.tokens)
    (h : Accepts (ifExpression e) before r after) :
    IsExpr .atom before.tokens after.advance.tokens r := by
  have hblock := respectedProgress.block (f := e) he
  obtain ⟨hopen, condition, first, hcondition, hclose, hbrace, consequence, second, hfirst, h⟩ :=
    (accepts_ifExpression he).mp h
  have huf := hu.advance.advance.of_suffix (hcondition.suffix (he _))
  obtain ⟨hexpr, -⟩ := hs.lowest hu.advance.advance hcondition
  rw [Cursor.tokens_advance_eq hclose (by decide)] at hexpr
  rw [← Cursor.current_advance] at hbrace
  have hb := isBlock_of_clean he hs hbrace huf.advance.advance hfirst
  rw [Cursor.tokens_eq hk (by decide), Cursor.tokens_advance_eq hopen (by decide)]
  split at h
  · rename_i helse
    obtain ⟨hbrace', alternative, hsecond, rfl⟩ := h
    have hus := huf.advance.advance.of_suffix (hfirst.suffix hblock)
    rw [← Cursor.current_advance] at hbrace'
    have hd := isBlock_of_clean he hs hbrace' hus.advance.advance hsecond
    rw [Cursor.tokens_advance_eq helse (by decide)] at hb
    exact .choice hk hopen hexpr hclose hb helse hd
  · obtain ⟨rfl, rfl⟩ := h
    exact .when hk hopen hexpr hclose hb

theorem isExpr_of_functionLiteral (he : ∀ level, Accounted (e level)) (hs : SoundReader e)
    {r : Expr} (hk : before.current.kind = .fnKw) (hu : Unended before.tokens)
    (h : Accepts (functionLiteral e) before r after) :
    IsExpr .atom before.tokens after.advance.tokens r := by
  obtain ⟨hopen, parameters, middle, body, hparams, hbrace, hbody, rfl⟩ :=
    (accepts_functionLiteral he).mp h
  have hum := hu.advance.of_suffix (hparams.suffix respectedProgress.functionParameters)
  rw [← Cursor.current_advance] at hbrace
  have hb := isBlock_of_clean he hs hbrace hum.advance hbody
  rw [Cursor.tokens_eq hk (by decide), Cursor.tokens_advance_eq hopen (by decide)]
  exact .fn hk hopen (areParameters_of_accepts hparams) hb

/-- So is an operator before its operand, behind which no operator of a tighter stratum stands. -/
theorem isExpr_of_unaryExpression (he : ∀ level, Accounted (e level)) (hs : SoundReader e)
    {r : Expr} (hk : before.current.kind = .bang ∨ before.current.kind = .minus)
    (hu : Unended before.tokens) (h : Accepts (unaryExpression e) before r after) :
    IsExpr .unary before.tokens after.advance.tokens r ∧
      Settled Stratum.unary.rank after.advance.tokens := by
  obtain ⟨inner, hinner, rfl⟩ := (accepts_unaryExpression he).mp h
  obtain ⟨s, hrank, hexpr, hset⟩ := hs (by decide) hu.advance hinner
  have hunary : Stratum.unary.rank = Precedence.unary := rfl
  have hne : before.current.kind ≠ .eof := by rcases hk with hk | hk <;> rw [hk] <;> decide
  rw [Cursor.tokens_eq rfl hne]
  exact ⟨.unary hk (hexpr.of_rank_le (by omega)), hset⟩

/-- What an expression starts with belongs to a stratum that the token behind it does not bind
more tightly than. -/
theorem isExpr_of_operand (he : ∀ level, Accounted (e level)) (hs : SoundReader e) {r : Expr}
    (hu : Unended before.tokens) (h : Accepts (operand e) before r after) :
    ∃ s : Stratum, Precedence.unary ≤ s.rank ∧ IsExpr s before.tokens after.advance.tokens r ∧
      Settled s.rank after.advance.tokens := by
  have hatom : IsExpr .atom before.tokens after.advance.tokens r →
      ∃ s : Stratum, Precedence.unary ≤ s.rank ∧
        IsExpr s before.tokens after.advance.tokens r ∧ Settled s.rank after.advance.tokens :=
    fun hexpr => ⟨.atom, by decide, hexpr, fun hc =>
      Int.le_trans (precedence_of_continuing hc).2 (by decide)⟩
  rw [accepts_operand] at h
  split at h
  all_goals rename_i hk
  · obtain ⟨rfl, rfl⟩ := h
    refine hatom ?_
    rw [Cursor.tokens_eq hk (by decide)]
    exact .ident hk
  · obtain ⟨digits, hd, -, hv, rfl, rfl⟩ := accepts_integerLiteral.mp h
    refine hatom ?_
    rw [Cursor.tokens_eq hk (by decide)]
    exact .int hk hd hv
  · obtain ⟨rfl, rfl⟩ := h
    refine hatom ?_
    rw [Cursor.tokens_eq hk (by decide)]
    exact .true hk
  · obtain ⟨rfl, rfl⟩ := h
    refine hatom ?_
    rw [Cursor.tokens_eq hk (by decide)]
    exact .false hk
  · exact ⟨.unary, Int.le_refl _, isExpr_of_unaryExpression he hs (.inl hk) hu h⟩
  · exact ⟨.unary, Int.le_refl _, isExpr_of_unaryExpression he hs (.inr hk) hu h⟩
  · obtain ⟨middle, hinner, hclose, rfl⟩ := (accepts_groupedExpression he).mp h
    obtain ⟨hexpr, -⟩ := hs.lowest hu.advance hinner
    rw [Cursor.tokens_advance_eq hclose (by decide)] at hexpr
    refine hatom ?_
    rw [Cursor.tokens_eq hk (by decide)]
    exact .group hk hexpr hclose
  · exact hatom (isExpr_of_ifExpression he hs hk hu h)
  · exact hatom (isExpr_of_functionLiteral he hs hk hu h)
  · exact h.elim

/-- One operator or call behind an expression to which it binds at least as tightly as that
expression allows. -/
theorem isExpr_of_extend (he : ∀ level, Accounted (e level)) (hs : SoundReader e)
    {s : Stratum} {tokens : List Token} {left r : Expr} (hu : Unended before.tokens)
    (hleft : IsExpr s tokens before.tokens left) (hset : Settled s.rank before.tokens)
    (hk : before.current.kind ∈ continuing) (h : Accepts (extend e left) before r after) :
    ∃ t : Stratum, t.rank = before.current.kind.precedence ∧
      IsExpr t tokens after.advance.tokens r ∧ Settled t.rank after.advance.tokens := by
  have hne : before.current.kind ≠ .eof := fun h => absurd (h ▸ hk) (by decide)
  have hle : before.current.kind.precedence ≤ s.rank := by
    rw [Cursor.current_kind] at hk ⊢
    exact hset hk
  rw [Cursor.tokens_eq rfl hne] at hleft
  rw [accepts_extend he] at h
  split at h
  · rename_i hp
    obtain ⟨arguments, hargs, rfl⟩ := h
    have hrank : Stratum.call.rank = before.current.kind.precedence := by rw [hp]; rfl
    refine ⟨.call, hrank, ?_, fun hc => (precedence_of_continuing hc).2⟩
    exact .call (hleft.of_rank_le (by omega)) hp (areArguments_of_accepts he hs hu hargs)
  · rename_i hp
    obtain ⟨right, hright, rfl⟩ := h
    obtain ⟨t, hop, hrank, htop⟩ := exists_stratum hk hp
    have hlow := (precedence_of_continuing hk).1
    obtain ⟨u, hurank, hexpr, hset⟩ := hs (by omega) hu.advance hright
    have hu8 := u.rank_le
    have htight : t.tighter.rank = t.rank + 1 := Stratum.rank_tighter (by omega)
    refine ⟨t, hrank, ?_, hrank ▸ hset⟩
    exact .binary hop (hleft.of_rank_le (by omega)) (hexpr.of_rank_le (by omega))

/-- The loop that continues an expression, given as many rounds as there are tokens, goes on until
the next token does not bind more tightly than the level. -/
theorem isExpr_of_extendAll (he : ∀ level, Accounted (e level)) (hs : SoundReader e)
    {level : Int} {rounds tokens : List Token} {left r : Expr} {s : Stratum}
    (hlen : before.tokens.length ≤ rounds.length)
    (hu : Unended before.tokens) (hrank : level < s.rank ∨ Precedence.unary ≤ s.rank)
    (hleft : IsExpr s tokens before.advance.tokens left)
    (hset : Settled s.rank before.advance.tokens)
    (h : Accepts (extendAll e level rounds left) before r after) :
    ∃ t : Stratum, (level < t.rank ∨ Precedence.unary ≤ t.rank) ∧
      IsExpr t tokens after.advance.tokens r ∧ Settled level after.advance.tokens := by
  induction rounds generalizing before left s with
  | nil =>
    obtain ⟨rfl, rfl⟩ := accepts_extendAll_nil.mp h
    have hnil : after.tokens = [] := List.eq_nil_of_length_eq_zero (by simpa using hlen)
    have hrest : after.advance.tokens = [] := by rw [Cursor.advance, hnil, List.tail_nil]
    refine ⟨s, hrank, hleft, fun hc => absurd hc ?_⟩
    rw [hrest]
    decide
  | cons round rounds ih =>
    rw [accepts_extendAll_cons he] at h
    split at h
    · rename_i hgo
      obtain ⟨next, middle, hextend, h⟩ := h
      have hk : before.advance.current.kind ∈ continuing := by
        rw [Cursor.current_advance, mem_continuing_iff]
        exact hgo.2.2
      obtain ⟨t, htrank, hexpr, htset⟩ :=
        isExpr_of_extend he hs hu.advance hleft hset hk hextend
      have hsuffix := hextend.suffix (respectedProgress.extend (f := e) he left)
      have hshort : middle.tokens.length ≤ rounds.length := by
        have hm := hsuffix.length_le
        have ht : before.advance.tokens.length = before.tokens.length - 1 := List.length_tail
        simp only [List.length_cons] at hlen
        omega
      rw [Cursor.current_advance] at htrank
      exact ih hshort (hu.advance.of_suffix hsuffix) (.inl (htrank ▸ hgo.2.1)) hexpr htset h
    · rename_i hgo
      obtain ⟨rfl, rfl⟩ := h
      refine ⟨s, hrank, hleft, fun hc => ?_⟩
      rw [← Cursor.upcoming_kind] at hc ⊢
      refine Int.not_lt.mp fun hlt => hgo ⟨fun hsemi => ?_, hlt, mem_continuing_iff.mp hc⟩
      rw [hsemi] at hc
      exact absurd hc (by decide)

/-- Expressions are read as the grammar says, within any depth. -/
theorem soundReader_expression (depth : Nat) : SoundReader (expression depth) := by
  induction depth with
  | zero => exact fun _ _ h => (accepts_stop h).elim
  | succ depth ih =>
    intro level before after r hlevel hu h
    have he := expression_accounted depth
    obtain ⟨left, middle, hoperand, hloop⟩ := accepts_expression_succ.mp h
    obtain ⟨s, hrank, hleft, hset⟩ := isExpr_of_operand he ih hu hoperand
    have hum := hu.of_suffix
      (hoperand.suffix (respectedProgress.operand (f := expression depth) he))
    exact isExpr_of_extendAll he ih (Nat.le_refl _) hum (.inr hrank) hleft hset hloop

/-- A reading has no diagnostics if and only if it is clean from the first token on. -/
theorem read_eq_ok_iff {depth : Nat} {tokens : List Token} {program : Program} :
    Program.read depth tokens = .ok ⟨program, []⟩ ↔
      ∃ after, Clean (Reading.program (expression depth)) (.ofTokens tokens) program after := by
  unfold Program.read Clean
  cases (Reading.program (expression depth)).run (.ofTokens tokens) with
  | error => simp
  | ok p after =>
    have hd : after.diagnostics.toList = [] ↔
        after.diagnostics = (Cursor.ofTokens tokens).diagnostics := by
      rw [Array.toList_eq_nil_iff]
      rfl
    simp only [Except.ok.injEq, Parsed.mk.injEq, EStateM.Result.ok.injEq, hd]
    constructor
    · rintro ⟨rfl, h⟩
      exact ⟨after, ⟨rfl, rfl⟩, h⟩
    · rintro ⟨_, ⟨rfl, rfl⟩, h⟩
      exact ⟨rfl, h⟩

/-- A reading without diagnostics gives a program of the grammar. -/
theorem isProgram_of_read {depth : Nat} {tokens : List Token} {program : Program}
    (hu : Unended tokens) (h : Program.read depth tokens = .ok ⟨program, []⟩) :
    IsProgram tokens program := by
  have he := expression_accounted depth
  obtain ⟨after, hclean⟩ := read_eq_ok_iff.mp h
  obtain ⟨more, hmore, hss, hstop⟩ := areStmts_of_clean he (soundReader_expression depth)
    (Nat.le_refl _) hu ((clean_program he).mp hclean)
  obtain rfl : program.statements = more := by simpa using hmore
  have hnil : after.tokens = [] := by simpa using hstop
  rw [hnil] at hss
  exact hss

end Grammar

end Inkwell
