import Inkwell.Proofs.Grammar.Braces
import Inkwell.Proofs.Reading.Local

/-!
# Reading one text behind another

A text is sealed if its last token is a semicolon and it has as many closing as opening braces.
Nothing that follows a sealed text can be drawn into it: every expression in it ends before the
last token, so that no reader ever sees where the text ends, except for the loop over its
statements. That loop goes on with the text behind.
-/

namespace Inkwell

open Reading

namespace Grammar

/-- Tokens that end in a semicolon, if there are any, and that close as many braces as they open. -/
structure Sealed (tokens : List Token) : Prop where
  even : Even tokens
  last : ∀ token ∈ tokens.getLast?, token.kind = .semicolon

variable {tokens rest : List Token} {token : Token}

namespace Sealed

/-- What is left behind balanced tokens is sealed, too. -/
theorem of_balanced (h : Sealed tokens) (hb : Balanced tokens rest) : Sealed rest where
  even := hb.even_iff.mp h.even
  last := by
    obtain ⟨used, rfl, -⟩ := hb
    intro token ht
    refine h.last token ?_
    rw [Option.mem_def] at ht ⊢
    rw [List.getLast?_append, ht, Option.some_or]

/-- A token that is no brace can be taken from the front of sealed tokens. -/
theorem of_cons (h : Sealed (token :: rest)) (hp : Plain token) : Sealed rest :=
  h.of_balanced hp.balanced

/-- Sealed tokens do not end firmly, since the last of them is a semicolon. -/
theorem not_firm (h : Sealed tokens) : ¬ Firm tokens [] := by
  rintro ⟨used, last, rfl, hlast, -⟩
  exact hlast (h.last last (by simp))

/-- No expression goes up to the end of sealed tokens. -/
theorem ne_nil_of_isExpr {s : Stratum} {e : Expr} (h : Sealed tokens)
    (he : IsExpr s tokens rest e) : rest ≠ [] := by
  rintro rfl
  rcases he.firm_or with hf | hu
  · exact h.not_firm hf
  · exact h.even.not_unclosed hu

/-- Behind a statement, sealed tokens go on as sealed tokens. -/
theorem of_isStmt {s : Stmt} (h : Sealed tokens) (hs : IsStmt tokens rest s) : Sealed rest :=
  h.of_balanced (hs.balanced_or.resolve_right h.even.not_unclosed)

end Sealed

end Grammar

namespace Reading

open Grammar

variable {before after last : Cursor} {depth : Nat} {s : Stmt} {e : Expr} {ss rs : List Stmt}

/-- The rest of a statement in sealed tokens, an expression and its semicolon, is read before the
last token, and with more tokens behind it is the same. -/
theorem accepts_append_value (more : List Token) (hu : Unended before.tokens)
    (hsealed : Sealed before.tokens)
    (h : Accepts (expression depth Precedence.lowest) before e after) :
    Accepts (expression depth Precedence.lowest) (before.append more) e (after.append more) ∧
      (after.append more).skipSemicolon = after.skipSemicolon.append more ∧
      before.Full ∧ after.skipSemicolon.tokens ≠ [] := by
  have hlocal := expression_local depth Precedence.lowest
  have hexpr := (SoundReader.lowest (soundReader_expression depth) hu h).1
  have hfull : after.Full := Cursor.full_iff.mpr (hsealed.ne_nil_of_isExpr hexpr)
  exact ⟨hlocal.append h hfull, hfull.skipSemicolon_append,
    hfull.of_suffix (h.suffix hlocal.accounted), hfull.skipSemicolon_ne_nil⟩

/-- A `let` in sealed tokens ends before the last semicolon, whatever stands behind that. -/
theorem accepts_append_letStatement (more : List Token) (hu : Unended before.tokens)
    (hsealed : Sealed before.tokens) (hk : before.current.kind = .letKw)
    (h : Accepts (letStatement (expression depth)) before s after) :
    Accepts (letStatement (expression depth)) (before.append more) s (after.append more) ∧
      after.tokens ≠ [] := by
  have he := expression_accounted depth
  obtain ⟨value, middle, hi, ha, hval, rfl, rfl⟩ := (accepts_letStatement he).mp h
  have hbefore : before.Full := Cursor.full_of_upcoming hi (by decide)
  have hname : before.advance.Full := Cursor.full_of_upcoming ha (by decide)
  have hequals : before.advance.advance.tokens ≠ [] := Cursor.full_iff.mp hname
  have hrest : Sealed before.advance.advance.advance.tokens := by
    rw [Cursor.tokens_eq hk (by decide), Cursor.tokens_advance_eq hi (by decide),
      Cursor.tokens_advance_eq ha (by decide)] at hsealed
    have hbehind := hsealed.of_cons (plain_of_kind hk (by decide))
    have hvalue := hbehind.of_cons (plain_of_kind hi (by decide))
    exact hvalue.of_cons (plain_of_kind ha (by decide))
  obtain ⟨hval', hskip, -, hnil⟩ :=
    accepts_append_value more hu.advance.advance.advance hrest hval
  refine ⟨(accepts_letStatement he).mpr ⟨value, middle.append more, ?_, ?_, ?_, ?_, hskip.symm⟩,
    hnil⟩
  · rw [hbefore.upcoming_append, hi]
  · rw [Cursor.advance_append hbefore.ne_nil, hname.upcoming_append, ha]
  · rwa [Cursor.advance_append hbefore.ne_nil, Cursor.advance_append hname.ne_nil,
      Cursor.advance_append hequals]
  · rw [Cursor.current_append hbefore.ne_nil, Cursor.advance_append hbefore.ne_nil,
      Cursor.current_append hname.ne_nil]

theorem accepts_append_returnStatement (more : List Token) (hu : Unended before.tokens)
    (hsealed : Sealed before.tokens) (hk : before.current.kind = .returnKw)
    (h : Accepts (returnStatement (expression depth)) before s after) :
    Accepts (returnStatement (expression depth)) (before.append more) s (after.append more) ∧
      after.tokens ≠ [] := by
  have he := expression_accounted depth
  have hplain : Plain before.current := plain_of_kind hk (by decide)
  have htokens := Cursor.tokens_eq hk (by decide)
  -- the word itself is no semicolon, so it is not the last token
  have hfull : before.Full := by
    refine Cursor.full_iff.mpr fun hnil => ?_
    rw [htokens, hnil] at hsealed
    exact hsealed.not_firm (hplain.firm (by rw [hk]; decide))
  rw [accepts_returnStatement he] at h ⊢
  rw [hfull.upcoming_append, Cursor.current_append hfull.ne_nil,
    Cursor.advance_append hfull.ne_nil]
  rcases h with ⟨hsemi, rfl, rfl⟩ | ⟨hlast, rfl, rfl⟩ | ⟨hs, hr, hf, value, middle, hval, rfl, rfl⟩
  · exact ⟨.inl ⟨hsemi, rfl, rfl⟩, Cursor.full_iff.mp hfull⟩
  · exact ⟨.inr (.inl ⟨hlast, rfl, rfl⟩), hfull.ne_nil⟩
  · rw [htokens] at hsealed
    obtain ⟨hval', hskip, -, hnil⟩ :=
      accepts_append_value more hu.advance (hsealed.of_cons hplain) hval
    exact ⟨.inr (.inr ⟨hs, hr, hf, value, middle.append more, hval', rfl, hskip.symm⟩), hnil⟩

theorem accepts_append_bareStatement (more : List Token) (hu : Unended before.tokens)
    (hsealed : Sealed before.tokens)
    (h : Accepts (bareStatement (expression depth)) before s after) :
    Accepts (bareStatement (expression depth)) (before.append more) s (after.append more) ∧
      after.tokens ≠ [] := by
  have he := expression_accounted depth
  obtain ⟨value, middle, hval, rfl, rfl⟩ := (accepts_bareStatement he).mp h
  obtain ⟨hval', hskip, hfull, hnil⟩ := accepts_append_value more hu hsealed hval
  refine ⟨(accepts_bareStatement he).mpr ⟨value, middle.append more, hval', ?_, hskip.symm⟩, hnil⟩
  rw [Cursor.current_append hfull.ne_nil]

/-- A statement in sealed tokens is the same with more tokens behind, and they are not touched. -/
theorem accepts_append_statement (more : List Token) (hu : Unended before.tokens)
    (hsealed : Sealed before.tokens) (hc : before.current.kind ≠ .eof)
    (h : Accepts (statement (expression depth)) before s after) :
    Accepts (statement (expression depth)) (before.append more) s (after.append more) ∧
      after.tokens ≠ [] := by
  have hbefore : before.tokens ≠ [] := by
    rw [Cursor.tokens_eq rfl hc]
    exact List.cons_ne_nil _ _
  rw [accepts_statement] at h ⊢
  rw [Cursor.current_append hbefore]
  rcases h with ⟨hk, hlet⟩ | ⟨hk, hret⟩ | ⟨hl, hr, hbare⟩
  · obtain ⟨hlet', hnil⟩ := accepts_append_letStatement more hu hsealed hk hlet
    exact ⟨.inl ⟨hk, hlet'⟩, hnil⟩
  · obtain ⟨hret', hnil⟩ := accepts_append_returnStatement more hu hsealed hk hret
    exact ⟨.inr (.inl ⟨hk, hret'⟩), hnil⟩
  · obtain ⟨hbare', hnil⟩ := accepts_append_bareStatement more hu hsealed hbare
    exact ⟨.inr (.inr ⟨hl, hr, hbare'⟩), hnil⟩

/-- Statements are read one after the other up to the end of the input. -/
inductive Series (depth : Nat) : Cursor → List Stmt → Cursor → Prop
  | nil {cursor : Cursor} : cursor.current.kind = .eof → Series depth cursor [] cursor
  | cons {before middle after : Cursor} {s : Stmt} {ss : List Stmt} :
    before.current.kind ≠ .eof → Accepts (statement (expression depth)) before s middle →
    Series depth middle.advance ss after → Series depth before (s :: ss) after

/-- A series ends where the input does. -/
theorem series_iff_of_eof (h : before.current.kind = .eof) :
    Series depth before ss after ↔ ss = [] ∧ after = before := by
  constructor
  · intro hseries
    cases hseries with
    | nil => exact ⟨rfl, rfl⟩
    | cons hc => exact absurd h hc
  · rintro ⟨rfl, rfl⟩
    exact .nil h

/-- A series goes on while the input does. -/
theorem series_iff_of_ne_eof (h : before.current.kind ≠ .eof) :
    Series depth before ss after ↔ ∃ s rest middle, ss = s :: rest ∧
      Accepts (statement (expression depth)) before s middle ∧
      Series depth middle.advance rest after := by
  constructor
  · intro hseries
    cases hseries with
    | nil hend => exact absurd hend h
    | cons _ hstmt hrest => exact ⟨_, _, _, rfl, hstmt, hrest⟩
  · rintro ⟨s, rest, middle, rfl, hstmt, hrest⟩
    exact .cons h hstmt hrest

/-- A loop that may take as many rounds as there are tokens reads a series of statements. -/
theorem clean_statementsUntil_iff {rounds : List Token} {kept : Array Stmt}
    (hlen : before.tokens.length ≤ rounds.length) :
    Clean (statementsUntil (fun _ => false) (expression depth) rounds kept) before ss after ↔
      ∃ found, ss = kept.toList ++ found ∧ Series depth before found after := by
  have he := expression_accounted depth
  induction rounds generalizing before kept with
  | nil =>
    have htokens : before.tokens = [] := List.eq_nil_of_length_eq_zero (Nat.le_zero.mp hlen)
    have hend : before.current.kind = .eof := by
      rw [Cursor.current_kind, htokens]
      rfl
    simp [clean_statementsUntil_nil, series_iff_of_eof hend]
  | cons round rounds ih =>
    rw [clean_statementsUntil_cons he]
    by_cases hend : before.current.kind = .eof
    · simp [hend, series_iff_of_eof hend]
    · have hshort : ∀ {s : Stmt} {middle : Cursor},
          Accepts (statement (expression depth)) before s middle →
          middle.advance.tokens.length ≤ rounds.length := by
        intro s middle hstmt
        have hle :=
          (hstmt.suffix (respectedProgress.statement (f := expression depth) he)).length_le
        have htail := length_advance middle
        rw [List.length_cons] at hlen
        omega
      rw [if_neg (by simpa using hend)]
      constructor
      · rintro ⟨s, middle, hstmt, h⟩
        obtain ⟨found, rfl, hfound⟩ := (ih (hshort hstmt)).mp h
        refine ⟨s :: found, by simp, (series_iff_of_ne_eof hend).mpr ?_⟩
        exact ⟨s, found, middle, rfl, hstmt, hfound⟩
      · rintro ⟨_, rfl, hfound⟩
        obtain ⟨s, found, middle, rfl, hstmt, hrest⟩ := (series_iff_of_ne_eof hend).mp hfound
        exact ⟨s, middle, hstmt, (ih (hshort hstmt)).mpr ⟨found, by simp, hrest⟩⟩

/-- A program is read cleanly if and only if its statements are, one after the other. -/
theorem clean_program_iff {p : Program} :
    Clean (program (expression depth)) before p after ↔
      Series depth before p.statements after := by
  rw [clean_program (expression_accounted depth), clean_statementsUntil_iff (Nat.le_refl _)]
  simp

/-- Behind sealed tokens a series goes on with the series of the tokens behind. -/
theorem Series.append {more : List Token} (hu : Unended before.tokens)
    (hsealed : Sealed before.tokens) (h : Series depth before ss after)
    (hrest : Series depth (after.append more) rs last) :
    Series depth (before.append more) (ss ++ rs) last := by
  induction h with
  | nil => exact hrest
  | @cons before middle after s ss hc hstmt h ih =>
    have he := expression_accounted depth
    obtain ⟨hstmt', hnil⟩ := accepts_append_statement more hu hsealed hc hstmt
    have hbefore : before.tokens ≠ [] := by
      rw [Cursor.tokens_eq rfl hc]
      exact List.cons_ne_nil _ _
    have hsuffix : middle.advance.tokens <:+ before.tokens :=
      (List.tail_suffix _).trans
        (hstmt.suffix (respectedProgress.statement (f := expression depth) he))
    have hseries : Series depth (middle.advance.append more) (ss ++ rs) last :=
      ih (hu.of_suffix hsuffix)
        (hsealed.of_isStmt (isStmt_of_accepts he (soundReader_expression depth) hc hu hstmt)) hrest
    refine .cons ?_ hstmt' ?_
    · rwa [Cursor.current_append hbefore]
    · rwa [Cursor.advance_append hnil]

/-- A series ends at the end of the input. -/
theorem Series.current_eq (h : Series depth before ss after) : after.current.kind = .eof := by
  induction h with
  | nil hend => exact hend
  | cons _ _ _ ih => exact ih

end Reading

/-- Behind sealed tokens that are read without diagnostics, other tokens are read as if they stood
alone. -/
theorem Program.read_append {depth : Nat} {tokens more : List Token} {first second : Program}
    (hu : Grammar.Unended tokens) (hsealed : Grammar.Sealed tokens)
    (hfirst : Program.read depth tokens = .ok ⟨first, []⟩)
    (hsecond : Program.read depth more = .ok ⟨second, []⟩) :
    Program.read depth (tokens ++ more) = .ok ⟨⟨first.statements ++ second.statements⟩, []⟩ := by
  obtain ⟨after, hclean⟩ := Grammar.read_eq_ok_iff.mp hfirst
  obtain ⟨last, hrest⟩ := Grammar.read_eq_ok_iff.mp hsecond
  have hsteady : Steady (program (expression depth)) :=
    respectedProgress.program (f := expression depth) (expression_accounted depth)
  have hseries := clean_program_iff.mp hclean
  have hnil : after.tokens = [] := by
    refine (hu.of_suffix (hclean.suffix hsteady)).eq_nil ?_
    rw [← Cursor.current_kind, hseries.current_eq]
  -- nothing was reported, so that the second reading starts as if from the beginning
  have hstart : after.append more = .ofTokens more := by
    have hdiagnostics : after.diagnostics = #[] := hclean.2
    unfold Cursor.append
    rw [hnil, hdiagnostics]
    rfl
  refine Grammar.read_eq_ok_iff.mpr ⟨last, clean_program_iff.mpr ?_⟩
  exact hseries.append hu hsealed (hstart ▸ clean_program_iff.mp hrest)

end Inkwell
