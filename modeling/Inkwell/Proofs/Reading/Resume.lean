import Inkwell.Proofs.Grammar.Braces
import Inkwell.Proofs.Reading.Frame
import Inkwell.Proofs.Reading.Local

/-!
# Reading on behind the last semicolon

Where the last token is a semicolon, a reader that ends before the end of the input has not looked
behind it, except to see that no second semicolon follows: no expression goes on behind a semicolon,
and one that fails there gives up its statement. The only reader that goes on up to the end of the
input is a block whose closing brace does not come.

Whether there is such a block can be told from the braces. Each opening brace opens a block or is
reported, since no expression starts with it, and each closing brace closes one or is reported. So
the `tally` of the braces to come and those reported never grows, and it stays the same if and only
if every block is closed. In this count a token belongs to those to come until a reader has used it.
The tokens of a cursor that a reader starts at may include the current one or not; which of the two
it is, the cursor `ahead` says.
-/

namespace Inkwell

open Grammar

/-- Opening braces less closing ones, those to come together with those reported. -/
def Cursor.tally (cursor : Cursor) : Int :=
  (count .lbrace cursor.tokens + cursor.diagnostics.count (.noOperand .lbrace) : Nat) -
    (count .rbrace cursor.tokens + cursor.diagnostics.count (.noOperand .rbrace) : Nat)

namespace Cursor

variable {cursor : Cursor}

/-- Moving over a token that is no brace does not change the tally. -/
theorem tally_advance (hplain : Plain cursor.current) : cursor.advance.tally = cursor.tally := by
  unfold tally advance
  unfold current at hplain
  cases ht : cursor.tokens with
  | nil => rfl
  | cons token tokens =>
    rw [ht] at hplain
    rw [List.tail_cons, count_cons, count_cons, if_neg hplain.1, if_neg hplain.2]
    rfl

/-- Moving over an opening brace lowers the tally by one. -/
theorem tally_advance_lbrace (h : cursor.current.kind = .lbrace) :
    cursor.advance.tally = cursor.tally - 1 := by
  have htokens := cursor.tokens_eq h (by decide)
  have hl : count .lbrace cursor.tokens = count .lbrace cursor.advance.tokens + 1 := by
    rw [htokens, count_cons, if_pos h]
  have hr : count .rbrace cursor.tokens = count .rbrace cursor.advance.tokens := by
    rw [htokens, count_cons, if_neg (by rw [h]; decide)]
    rfl
  have hd : cursor.advance.diagnostics = cursor.diagnostics := rfl
  unfold tally
  rw [hl, hr, hd]
  omega

/-- Moving over a closing brace raises the tally by one. -/
theorem tally_advance_rbrace (h : cursor.current.kind = .rbrace) :
    cursor.advance.tally = cursor.tally + 1 := by
  have htokens := cursor.tokens_eq h (by decide)
  have hl : count .lbrace cursor.tokens = count .lbrace cursor.advance.tokens := by
    rw [htokens, count_cons, if_neg (by rw [h]; decide)]
    rfl
  have hr : count .rbrace cursor.tokens = count .rbrace cursor.advance.tokens + 1 := by
    rw [htokens, count_cons, if_pos h]
  have hd : cursor.advance.diagnostics = cursor.diagnostics := rfl
  unfold tally
  rw [hl, hr, hd]
  omega

/-- Only reports of braces count. -/
theorem tally_report {diagnostic : Diagnostic} (hl : diagnostic ≠ .noOperand .lbrace)
    (hr : diagnostic ≠ .noOperand .rbrace) : (cursor.report diagnostic).tally = cursor.tally := by
  unfold tally report
  dsimp only
  rw [Array.count_push, Array.count_push, if_neg (by simpa using hl), if_neg (by simpa using hr)]
  rfl

/-- A token that is reported since no expression starts with it is counted before and after. -/
theorem tally_report_current :
    (cursor.report (.noOperand cursor.current.kind)).advance.tally = cursor.tally := by
  have hreport : ∀ kind : Token.Kind, (cursor.report (.noOperand kind)).advance.tally =
      cursor.advance.tally + (if kind = .lbrace then 1 else 0) -
        if kind = .rbrace then 1 else 0 := by
    intro kind
    unfold tally report advance
    dsimp only
    rw [Array.count_push, Array.count_push]
    simp only [beq_iff_eq, Diagnostic.noOperand.injEq]
    split <;> split <;> omega
  rw [hreport]
  by_cases hl : cursor.current.kind = .lbrace
  · rw [tally_advance_lbrace hl, hl, if_pos rfl, if_neg (by decide)]
    omega
  · by_cases hr : cursor.current.kind = .rbrace
    · rw [tally_advance_rbrace hr, hr, if_pos rfl, if_neg (by decide)]
      omega
    · rw [tally_advance ⟨hl, hr⟩, if_neg hl, if_neg hr]
      omega

end Cursor

/-- The last token, if there is one, is a semicolon. -/
def Capped (tokens : List Token) : Prop := ∀ token ∈ tokens.getLast?, token.kind = .semicolon

/-- The last of the tokens stays the last one while reading moves on. -/
theorem Capped.of_suffix {tokens rest : List Token} (h : Capped tokens) (hs : rest <:+ tokens) :
    Capped rest := by
  obtain ⟨used, rfl⟩ := hs
  intro token ht
  refine h token ?_
  rw [Option.mem_def] at ht ⊢
  rw [List.getLast?_append, ht, Option.some_or]

/-- A token that is no semicolon is not the last one. -/
theorem Capped.advance_ne_nil {cursor : Cursor} (h : Capped cursor.tokens)
    (hne : cursor.tokens ≠ []) (hk : cursor.current.kind ≠ .semicolon) :
    cursor.advance.tokens ≠ [] := by
  unfold Cursor.advance
  unfold Cursor.current at hk
  rcases ht : cursor.tokens with _ | ⟨token, _ | ⟨next, rest⟩⟩
  · exact absurd ht hne
  · rw [ht] at h hk
    exact absurd (h token rfl) hk
  · exact List.cons_ne_nil _ _

namespace Reading

variable {α β γ : Type} {more : List Token} {full : Prop} {before middle ahead after : Cursor}

/-- There are tokens to come, a semicolon is the last of them, and no block is left open: no brace
opens one, or the count of the braces has not changed. -/
structure Intact (before ahead after : Cursor) : Prop where
  capped : Capped before.tokens
  ne_nil : before.tokens ≠ []
  ahead_ne_nil : ahead.tokens ≠ []
  closed : count .lbrace before.tokens = 0 ∨ ahead.tally ≤ after.advance.tally

/-- An end of a reader at which nothing behind the last token matters. `full` says whether a reader
that succeeds leaves something behind the current token. -/
structure Resumption (more : List Token) (full : Prop) (x : ParseM α) (before ahead : Cursor)
    (result : Option α) (after : Cursor) : Prop where
  tokens : after.tokens <:+ before.tokens
  tally : after.advance.tally ≤ ahead.tally
  same : Intact before ahead after →
    x.run.run (before.append more) = .ok result (after.append more)
  ne_nil : Intact before ahead after → after.tokens ≠ []
  full : full → Intact before ahead after → result.isSome → after.advance.tokens ≠ []

/-- A reader does the same with more tokens behind the last semicolon, unless it leaves a block
open. -/
structure Resumes (more : List Token) (full : Prop) (x : ParseM α) (before ahead : Cursor) :
    Prop where
  resumption : ∀ {result : Option α} {after : Cursor}, x.run.run before = .ok result after →
    Resumption more full x before ahead result after

/-- A kind of token that does not occur does not occur later on. -/
theorem count_eq_zero_of_suffix {kind : Token.Kind} {tokens rest : List Token}
    (h : count kind tokens = 0) (hs : rest <:+ tokens) : count kind rest = 0 := by
  obtain ⟨used, rfl⟩ := hs
  rw [count_append] at h
  omega

namespace Resumes

/-- A result without a step uses the current token. -/
theorem pure (a : α) : Resumes more full (pure a) before before.advance := by
  refine ⟨fun {result after} h => ?_⟩
  cases h
  exact ⟨List.suffix_refl _, Int.le_refl _, fun _ => rfl, (·.ne_nil), fun _ h _ => h.ahead_ne_nil⟩

/-- The end of a statement at a token that is no brace. -/
theorem stay (hplain : Plain before.current) (a : α) :
    Resumes more False (Pure.pure a) before before := by
  refine ⟨fun {result after} h => ?_⟩
  cases h
  exact ⟨List.suffix_refl _, Int.le_of_eq (Cursor.tally_advance hplain), fun _ => rfl, (·.ne_nil),
    False.elim⟩

/-- Giving up. -/
theorem reject {diagnostic : Diagnostic}
    (htally : (before.report diagnostic).advance.tally ≤ ahead.tally) :
    Resumes more full (reject diagnostic : ParseM α) before ahead := by
  refine ⟨fun {result after} h => ?_⟩
  rw [run_reject] at h
  cases h
  exact ⟨List.suffix_refl _, htally, fun _ => rfl, (·.ne_nil), fun _ _ h => by cases h⟩

/-- A step that asks a question or advances, and what follows it. -/
theorem step (middle : Cursor) {x : ReadM γ} {f : γ → ParseM β} {a : γ}
    (h : x.run before = .ok a middle) (hmiddle : middle.tokens <:+ before.tokens)
    (hsame : before.tokens ≠ [] → ahead.tokens ≠ [] →
      x.run (before.append more) = .ok a (middle.append more) ∧ middle.tokens ≠ [])
    (hf : Resumes more full (f a) middle ahead) :
    Resumes more full (liftM x >>= f) before ahead := by
  have hrun : ∀ {start next : Cursor}, x.run start = .ok a next →
      (liftM x >>= f).run.run start = (f a).run.run next := fun h => by
    rw [run_bind_parses, run_lift, h]
  refine ⟨fun {result after} hr => ?_⟩
  rw [hrun h] at hr
  have hend := hf.resumption hr
  have hintact : Intact before ahead after → Intact middle ahead after := fun hi =>
    ⟨hi.capped.of_suffix hmiddle, (hsame hi.ne_nil hi.ahead_ne_nil).2, hi.ahead_ne_nil,
      hi.closed.imp_left (count_eq_zero_of_suffix · hmiddle)⟩
  refine ⟨hend.tokens.trans hmiddle, hend.tally, fun hi => ?_, fun hi => hend.ne_nil (hintact hi),
    fun hfull hi => hend.full hfull (hintact hi)⟩
  rw [hrun (hsame hi.ne_nil hi.ahead_ne_nil).1]
  exact hend.same (hintact hi)

/-- Asking for the current token, which is there. -/
theorem current {f : Token → ParseM β} (hf : Resumes more full (f before.current) before ahead) :
    Resumes more full (liftM current >>= f) before ahead := by
  refine .step before rfl (List.suffix_refl _) (fun hne _ => ⟨?_, hne⟩) hf
  have hcurrent : (before.append more).current = before.current := Cursor.current_append hne
  rw [← hcurrent]
  rfl

/-- Taking a name from the current token, which is there. -/
theorem identifier {f : Ident → ParseM β}
    (hf : Resumes more full (f ⟨before.current, before.current.literal⟩) before ahead) :
    Resumes more full (liftM identifier >>= f) before ahead := by
  refine .step before rfl (List.suffix_refl _) (fun hne _ => ⟨?_, hne⟩) hf
  have hcurrent : (before.append more).current = before.current := Cursor.current_append hne
  rw [← hcurrent]
  rfl

/-- Asking for the upcoming token, which is there too if the current one is used. -/
theorem upcoming {f : Token → ParseM β}
    (hf : Resumes more full (f before.upcoming) before before.advance) :
    Resumes more full (liftM upcoming >>= f) before before.advance := by
  refine .step before rfl (List.suffix_refl _) (fun hne hahead => ⟨?_, hne⟩) hf
  have hupcoming : (before.append more).upcoming = before.upcoming :=
    (Cursor.full_iff.mpr hahead).upcoming_append
  rw [← hupcoming]
  rfl

/-- A move to the upcoming token. -/
theorem advance {f : Unit → ParseM β}
    (hf : Resumes more full (f ()) before.advance before.advance) :
    Resumes more full (liftM advance >>= f) before before.advance := by
  refine .step before.advance rfl (List.tail_suffix _) (fun hne hahead => ⟨?_, hahead⟩) hf
  have hadvance : (before.append more).advance = before.advance.append more :=
    Cursor.advance_append hne
  rw [← hadvance]
  rfl

/-- A sequence: the second reader has to deal with everything that the first one leaves. -/
theorem bind {x : ParseM α} {f : α → ParseM β} (hx : Resumes more True x before ahead)
    (hf : ∀ {a : α} {middle : Cursor}, x.run.run before = .ok (some a) middle →
      Resumes more full (f a) middle middle.advance) :
    Resumes more full (x >>= f) before ahead := by
  refine ⟨fun {result after} h => ?_⟩
  rw [run_bind_parses] at h
  cases hr : x.run.run before with
  | error => rw [hr] at h; cases h
  | ok found middle =>
    rw [hr] at h
    have hfirst := hx.resumption hr
    cases found with
    | none =>
      cases h
      refine ⟨hfirst.tokens, hfirst.tally, fun hi => ?_, hfirst.ne_nil, fun _ _ h => by cases h⟩
      rw [run_bind_parses, hfirst.same hi]
    | some a =>
      have hsecond := (hf hr).resumption h
      have hi₁ : Intact before ahead after → Intact before ahead middle := fun hi =>
        ⟨hi.capped, hi.ne_nil, hi.ahead_ne_nil,
          hi.closed.imp_right fun hle => Int.le_trans hle hsecond.tally⟩
      have hi₂ : Intact before ahead after → Intact middle middle.advance after := fun hi =>
        ⟨hi.capped.of_suffix hfirst.tokens, hfirst.ne_nil (hi₁ hi),
          hfirst.full trivial (hi₁ hi) rfl,
          hi.closed.imp (count_eq_zero_of_suffix · hfirst.tokens)
            fun hle => Int.le_trans hfirst.tally hle⟩
      refine ⟨hsecond.tokens.trans hfirst.tokens, Int.le_trans hsecond.tally hfirst.tally,
        fun hi => ?_, fun hi => hsecond.ne_nil (hi₂ hi),
        fun hfull hi => hsecond.full hfull (hi₂ hi)⟩
      rw [run_bind_parses, hfirst.same (hi₁ hi)]
      exact hsecond.same (hi₂ hi)

/-- Something made of what a reader gives. -/
theorem map {x : ParseM α} {g : α → β} (hx : Resumes more full x before ahead) :
    Resumes more full (do let a ← x; return g a) before ahead := by
  refine ⟨fun {result after} h => ?_⟩
  rw [run_bind_parses] at h
  cases hr : x.run.run before with
  | error => rw [hr] at h; cases h
  | ok found middle =>
    rw [hr] at h
    have hend := hx.resumption hr
    cases found with
    | none =>
      cases h
      refine ⟨hend.tokens, hend.tally, fun hi => ?_, hend.ne_nil, fun _ _ h => by cases h⟩
      rw [run_bind_parses, hend.same hi]
    | some a =>
      cases h
      refine ⟨hend.tokens, hend.tally, fun hi => ?_, hend.ne_nil,
        fun hfull hi _ => hend.full hfull hi rfl⟩
      rw [run_bind_parses, hend.same hi]
      rfl

/-- The token that is wanted, and what follows it. -/
theorem expect {wanted : Token.Kind} {f : Unit → ParseM β}
    (hf : before.upcoming.kind = wanted →
      Resumes more full (f ()) before.advance before.advance) :
    Resumes more full (expect wanted >>= f) before before.advance := by
  by_cases h : before.upcoming.kind = wanted
  · have hrun : ∀ {start : Cursor}, start.upcoming.kind = wanted →
        (Reading.expect wanted >>= f).run.run start =
          (liftM Reading.advance >>= f).run.run start := fun h => by
      rw [run_bind_parses, run_expect, if_pos h]
      rfl
    refine ⟨fun {result after} hr => ?_⟩
    rw [hrun h] at hr
    have hend := (advance (hf h)).resumption hr
    refine ⟨hend.tokens, hend.tally, fun hi => ?_, hend.ne_nil, hend.full⟩
    rw [hrun]
    · exact hend.same hi
    · rwa [(Cursor.full_iff.mpr hi.ahead_ne_nil).upcoming_append]
  · have hrun : ∀ {start : Cursor}, ¬ start.upcoming.kind = wanted →
        (Reading.expect wanted >>= f).run.run start =
          .ok none (start.report (.expected wanted start.upcoming.kind)) := fun h => by
      rw [run_bind_parses, run_expect, if_neg h]
    refine ⟨fun {result after} hr => ?_⟩
    rw [hrun h] at hr
    cases hr
    refine ⟨List.suffix_refl _, ?_, fun hi => ?_, (·.ne_nil), fun _ _ h => by cases h⟩
    · have htally : (before.advance.report (.expected wanted before.upcoming.kind)).tally =
          before.advance.tally := Cursor.tally_report (by simp) (by simp)
      exact Int.le_of_eq htally
    · have hupcoming : (before.append more).upcoming = before.upcoming :=
        (Cursor.full_iff.mpr hi.ahead_ne_nil).upcoming_append
      rw [hrun (by rwa [hupcoming]), hupcoming]
      rfl

/-- A token that is no brace and no semicolon may be left out of those to come. -/
theorem of_behind {kind : Token.Kind} {x : ParseM α} (hk : before.current.kind = kind)
    (hplain : (kind ≠ .lbrace ∧ kind ≠ .rbrace) ∧ kind ≠ .semicolon)
    (hx : Resumes more full x before before.advance) : Resumes more full x before before := by
  refine ⟨fun {result after} h => ?_⟩
  have hend := hx.resumption h
  have htally := Cursor.tally_advance (plain_of_kind hk hplain.1)
  have hi : Intact before before after → Intact before before.advance after := fun hi =>
    ⟨hi.capped, hi.ne_nil, hi.capped.advance_ne_nil hi.ne_nil (hk ▸ hplain.2), htally ▸ hi.closed⟩
  exact ⟨hend.tokens, htally ▸ hend.tally, hend.same ∘ hi, hend.ne_nil ∘ hi,
    fun hfull => hend.full hfull ∘ hi⟩

/-- A token that is wanted and is no brace and no semicolon, and what follows it. -/
theorem expect_plain {wanted : Token.Kind} {f : Unit → ParseM β}
    (hw : (wanted ≠ .lbrace ∧ wanted ≠ .rbrace) ∧ wanted ≠ .semicolon)
    (hf : Resumes more full (f ()) before.advance before.advance.advance) :
    Resumes more full (Reading.expect wanted >>= f) before before.advance := by
  refine .expect fun h => ?_
  have hcurrent : before.advance.current.kind = wanted := by rw [Cursor.current_advance, h]
  exact .of_behind hcurrent hw hf

/-- The same for a token that is known to follow. -/
theorem skip {kind : Token.Kind} {f : Unit → ParseM β} (h : before.upcoming.kind = kind)
    (hk : (kind ≠ .lbrace ∧ kind ≠ .rbrace) ∧ kind ≠ .semicolon)
    (hf : Resumes more full (f ()) before.advance before.advance.advance) :
    Resumes more full (liftM Reading.advance >>= f) before before.advance := by
  have hcurrent : before.advance.current.kind = kind := by rw [Cursor.current_advance, h]
  exact .advance (.of_behind hcurrent hk hf)

/-- The optional semicolon. No second one follows the last one of them. -/
theorem terminated {x : ParseM α} (hmore : nextKind more ≠ .semicolon)
    (hx : Resumes more full x before ahead) :
    Resumes more False (terminated x) before ahead := by
  refine ⟨fun {result after} h => ?_⟩
  rw [run_terminated] at h
  cases hr : x.run.run before with
  | error => rw [hr] at h; cases h
  | ok found middle =>
    rw [hr] at h
    have hend := hx.resumption hr
    by_cases hsemi : middle.upcoming.kind = .semicolon
    · -- the semicolon is there, so that its successor does not matter
      have hfull : middle.Full := Cursor.full_of_upcoming hsemi (by decide)
      have htally : middle.advance.advance.tally = middle.advance.tally := by
        have hk : middle.advance.current.kind = .semicolon := by
          rw [Cursor.current_advance, hsemi]
        exact Cursor.tally_advance (plain_of_kind hk (by decide))
      simp only [if_pos hsemi] at h
      cases h
      have hi : Intact before ahead middle.advance → Intact before ahead middle := fun hi =>
        ⟨hi.capped, hi.ne_nil, hi.ahead_ne_nil, htally ▸ hi.closed⟩
      refine ⟨(List.tail_suffix _).trans hend.tokens, htally ▸ hend.tally, fun h => ?_,
        fun _ => Cursor.full_iff.mp hfull, False.elim⟩
      rw [run_terminated, hend.same (hi h)]
      dsimp only
      rw [hfull.upcoming_append, if_pos hsemi, Cursor.advance_append hfull.ne_nil]
    · simp only [if_neg hsemi] at h
      cases h
      refine ⟨hend.tokens, hend.tally, fun hi => ?_, hend.ne_nil, False.elim⟩
      have hne := hend.ne_nil hi
      have hsemi' : ¬ (after.append more).upcoming.kind = .semicolon := by
        rw [Cursor.upcoming_kind] at hsemi ⊢
        rw [Cursor.advance_append hne]
        unfold Cursor.append
        cases hrest : after.advance.tokens with
        | nil => exact hmore
        | cons => rwa [hrest] at hsemi
      rw [run_terminated, hend.same hi]
      dsimp only
      rw [if_neg hsemi']

end Resumes

section Readers

variable {e : Int → ParseM Expr}

/-- An integer literal is read from the current token alone. -/
theorem resumes_integerLiteral :
    Resumes more full integerLiteral before before.advance := by
  unfold integerLiteral
  refine .current ?_
  split
  · exact ⟨fun h => by cases h⟩
  · split
    · exact ⟨fun h => by cases h⟩
    · dsimp only
      split
      · have htally : (before.advance.report (.outOfRange before.current.literal)).tally =
            before.advance.tally := Cursor.tally_report (by simp) (by simp)
        exact .reject (Int.le_of_eq htally)
      · exact .pure _

/-- The parameters behind the first one, and the closing parenthesis. -/
theorem resumes_parametersBehind {found : Array Ident} :
    Resumes more True (parametersBehind found) before before.advance := by
  induction hn : before.tokens.length using Nat.strong_induction_on generalizing before found with
  | h n ih =>
    rw [parametersBehind_eq]
    refine .upcoming ?_
    split
    · rename_i hcomma
      have hlen : before.advance.tokens.length < n := by
        have hfull : 2 ≤ before.tokens.length := Cursor.full_of_upcoming hcomma (by decide)
        rw [length_advance]
        omega
      refine .skip hcomma (by decide) (.expect_plain (by decide) (.identifier (ih _ ?_ rfl)))
      rw [length_advance]
      omega
    · exact .pure _

/-- The parameters of a function end with a parenthesis, which is not the last token. -/
theorem resumes_functionParameters :
    Resumes more True functionParameters before before.advance := by
  rw [functionParameters_eq]
  refine .upcoming ?_
  split
  · rename_i hclose
    exact .skip hclose (by decide) (.pure _)
  · refine .expect_plain (by decide) (.identifier (.bind resumes_parametersBehind fun _ => ?_))
    exact .expect_plain (by decide) (.pure _)

variable (he : ∀ level cursor, Resumes more True (e level) cursor cursor)

include he

/-- An operator is not the last token, and its operand comes behind it. -/
theorem resumes_unaryExpression :
    Resumes more True (unaryExpression e) before before.advance :=
  .current (.advance (he _ _).map)

/-- An expression in parentheses ends with the closing one. -/
theorem resumes_groupedExpression :
    Resumes more True (groupedExpression e) before before.advance :=
  .advance (.bind (he _ _) fun _ => .expect_plain (by decide) (.pure _))

/-- A `let` ends with the last semicolon, or before it. -/
theorem resumes_letStatement (hmore : nextKind more ≠ .semicolon) :
    Resumes more False (letStatement e) before before.advance := by
  refine .current (.expect_plain (by decide) (.identifier (.expect_plain (by decide) ?_)))
  exact .advance (.map (.terminated hmore (he _ _)))

/-- So does a `return`, with an operand or without one. -/
theorem resumes_returnStatement (hmore : nextKind more ≠ .semicolon) :
    Resumes more False (returnStatement e) before before.advance := by
  refine .current (.upcoming ?_)
  split
  · rename_i hsemi
    have hcurrent : before.advance.current.kind = .semicolon := by
      rw [Cursor.current_advance, hsemi]
    exact .advance (.stay (plain_of_kind hcurrent (by decide)) _)
  · exact .pure _
  · exact .pure _
  · exact .advance (.map (.terminated hmore (he _ _)))

theorem resumes_statement (hmore : nextKind more ≠ .semicolon) :
    Resumes more False (statement e) before before := by
  refine .current ?_
  split
  · rename_i hk
    exact .of_behind hk (by decide) (resumes_letStatement he hmore)
  · rename_i hk
    exact .of_behind hk (by decide) (resumes_returnStatement he hmore)
  · exact .current (.map (.terminated hmore (he _ _)))

end Readers

section Statements

variable {e : Int → ParseM Expr} (hacc : ∀ level, Accounted (e level))
  (he : ∀ level cursor, Resumes more True (e level) cursor cursor)
  (hmore : nextKind more ≠ .semicolon) {ends : Token.Kind → Bool}

include hacc he hmore

/-- A loop over statements that leaves no block open goes on behind the last token from where it
was. -/
theorem resumes_statements {kept : Array Stmt} {ss : List Stmt}
    (h : (statements ends e kept).run before = .ok ss after) :
    after.tokens <:+ before.tokens ∧ after.tally ≤ before.tally ∧
      (after.current.kind = .eof ∨ ends after.current.kind) ∧
      (Capped before.tokens → count .lbrace before.tokens = 0 ∨ before.tally ≤ after.tally →
        (statements ends e kept).run (before.append more) =
          (statements ends e ss.toArray).run (after.append more)) := by
  induction hn : before.tokens.length using Nat.strong_induction_on generalizing before kept with
  | h n ih =>
    by_cases hend : before.current.kind = .eof ∨ ends before.current.kind
    · rw [run_statements_of_end hacc hend] at h
      cases h
      exact ⟨List.suffix_refl _, Int.le_refl _, hend, fun _ _ => by simp⟩
    · rw [run_statements hacc hend] at h
      cases hr : (statement e).run.run before with
      | error => rw [hr] at h; cases h
      | ok result middle =>
        rw [hr] at h
        have hne : before.tokens ≠ [] := by
          rw [Cursor.tokens_eq rfl fun heof => hend (.inl heof)]
          exact List.cons_ne_nil _ _
        obtain ⟨htokens, htally, hsame, hne'⟩ := (resumes_statement he hmore).resumption hr
        have hsuffix : middle.advance.tokens <:+ before.tokens :=
          (List.tail_suffix _).trans htokens
        have hlen : middle.advance.tokens.length < n := by
          have hle := htokens.length_le
          have hpos := List.length_pos_iff.mpr hne
          rw [length_advance]
          omega
        obtain ⟨htokens', htally', hstop, hrest⟩ := ih _ hlen h rfl
        refine ⟨htokens'.trans hsuffix, Int.le_trans htally' htally, hstop, fun hcap hclosed => ?_⟩
        have hintact : Intact before before middle :=
          ⟨hcap, hne, hne, hclosed.imp_right fun hle => Int.le_trans hle htally'⟩
        rw [run_statements hacc (by rwa [Cursor.current_append hne]), hsame hintact]
        dsimp only
        rw [Cursor.advance_append (hne' hintact)]
        exact hrest (hcap.of_suffix hsuffix)
          (hclosed.imp (count_eq_zero_of_suffix · hsuffix) fun hle => Int.le_trans htally hle)

/-- A block, with the cursor at its opening brace. If its closing brace does not come, the opening
one remains uncounted. -/
theorem resumes_block (hk : before.current.kind = .lbrace) :
    Resumes more True (liftM (block e)) before before := by
  refine ⟨fun {result after} h => ?_⟩
  rw [run_lift, run_block] at h
  cases hr : (statements (· == .rbrace) e #[]).run before.advance with
  | error => rw [hr] at h; cases h
  | ok ss middle =>
    rw [hr] at h
    cases h
    obtain ⟨htokens, htally, hstop, hrest⟩ := resumes_statements hacc he hmore hr
    have hopening := Cursor.tally_advance_lbrace hk
    have hsuffix : after.tokens <:+ before.tokens := htokens.trans (List.tail_suffix _)
    have hbrace : count .lbrace before.tokens ≠ 0 := by
      rw [Cursor.tokens_eq hk (by decide), count_cons, if_pos hk]
      exact Nat.succ_ne_zero _
    have hclosed : Intact before before after → before.tally ≤ after.advance.tally := fun hi =>
      hi.closed.resolve_left hbrace
    by_cases hclose : after.current.kind = .rbrace
    · have hclosing := Cursor.tally_advance_rbrace hclose
      have hne : after.tokens ≠ [] := by
        rw [Cursor.tokens_eq hclose (by decide)]
        exact List.cons_ne_nil _ _
      refine ⟨hsuffix, by omega, fun hi => ?_, fun _ => hne, fun _ hi _ => ?_⟩
      · have hloop := hrest (hi.capped.of_suffix (List.tail_suffix _))
          (.inr (by have hle := hclosed hi; omega))
        have hend : (after.append more).current.kind = .rbrace := by
          rwa [Cursor.current_append hne]
        rw [run_lift, run_block, Cursor.advance_append hi.ne_nil, hloop,
          run_statements_of_end hacc (.inr (by rw [hend]; rfl)), Cursor.current_append hi.ne_nil]
      · exact (hi.capped.of_suffix hsuffix).advance_ne_nil hne (by rw [hclose]; decide)
    · have heof : after.current.kind = .eof :=
        hstop.resolve_right fun h => hclose (beq_iff_eq.mp h)
      have hlast : after.advance.tally = after.tally :=
        Cursor.tally_advance (plain_of_kind heof (by decide))
      have hopen : ¬ Intact before before after := fun hi => by
        have hle := hclosed hi
        omega
      exact ⟨hsuffix, by omega, fun hi => absurd hi hopen, fun hi => absurd hi hopen,
        fun _ hi => absurd hi hopen⟩

end Statements

section Expressions

variable {e : Int → ParseM Expr} (hacc : ∀ level, Accounted (e level))
  (he : ∀ level cursor, Resumes more True (e level) cursor cursor)

section Blocks

variable (hmore : nextKind more ≠ .semicolon)

include hacc he hmore

/-- A block behind a token that it needs. -/
theorem resumes_expect_block {f : Block → ParseM α}
    (hf : ∀ b middle, Resumes more full (f b) middle middle.advance) :
    Resumes more full (do expect .lbrace; let b ← block e; f b) before before.advance := by
  refine .expect fun h => .bind (resumes_block hacc he hmore ?_) fun _ => hf _ _
  rw [Cursor.current_advance, h]

/-- A choice ends with a closing brace, if its blocks do. -/
theorem resumes_ifExpression : Resumes more True (ifExpression e) before before.advance := by
  refine .current (.expect_plain (by decide) (.advance ?_))
  refine .bind (he _ _) fun _ => .expect_plain (by decide) ?_
  refine resumes_expect_block hacc he hmore fun consequence middle => ?_
  refine .upcoming ?_
  split
  · rename_i helse
    exact .skip helse (by decide) (resumes_expect_block hacc he hmore fun _ _ => .pure _)
  · exact .pure _

theorem resumes_functionLiteral :
    Resumes more True (functionLiteral e) before before.advance := by
  refine .current (.expect_plain (by decide) (.bind resumes_functionParameters fun _ => ?_))
  exact resumes_expect_block hacc he hmore fun _ _ => .pure _

/-- An operand of any kind ends before the last semicolon. -/
theorem resumes_operand : Resumes more True (operand e) before before := by
  have hbool : Resumes more True (liftM booleanLiteral) before before.advance :=
    .current (f := fun token => pure (Expr.bool token (token.kind == .trueKw))) (.pure _)
  refine .current ?_
  split
  all_goals rename_i hk
  · exact .of_behind hk (by decide) (.identifier (.pure _))
  · exact .of_behind hk (by decide) resumes_integerLiteral
  · exact .of_behind hk (by decide) hbool
  · exact .of_behind hk (by decide) hbool
  · exact .of_behind hk (by decide) (resumes_unaryExpression he)
  · exact .of_behind hk (by decide) (resumes_unaryExpression he)
  · exact .of_behind hk (by decide) (resumes_groupedExpression he)
  · exact .of_behind hk (by decide) (resumes_ifExpression hacc he hmore)
  · exact .of_behind hk (by decide) (resumes_functionLiteral hacc he hmore)
  · exact .reject (Int.le_of_eq Cursor.tally_report_current)

end Blocks

include hacc he

/-- The expressions behind the first one, and the closing parenthesis. -/
theorem resumes_expressionsBehind {found : Array Expr} :
    Resumes more True (expressionsBehind e found) before before.advance := by
  induction hn : before.tokens.length using Nat.strong_induction_on generalizing before found with
  | h n ih =>
    rw [expressionsBehind_eq hacc]
    refine .upcoming ?_
    split
    · rename_i hcomma
      have hfull : 2 ≤ before.tokens.length := Cursor.full_of_upcoming hcomma (by decide)
      refine .skip hcomma (by decide) (.advance (.bind (he _ _) fun hr => ih _ ?_ rfl))
      have hle := length_le_of_run (hacc _) hr
      rw [length_advance, length_advance] at hle
      omega
    · exact .pure _

/-- The arguments of a call end with a parenthesis. -/
theorem resumes_expressionList :
    Resumes more True (expressionList e .rparen) before before.advance := by
  rw [expressionList_eq]
  refine .upcoming ?_
  split
  · rename_i hclose
    exact .skip hclose (by decide) (.pure _)
  · refine .advance (.bind (he _ _) fun _ => .bind (resumes_expressionsBehind hacc he) fun _ => ?_)
    exact .expect_plain (by decide) (.pure _)

/-- The continuation of an expression by an operator or a call ends before the last semicolon. -/
theorem resumes_extend (left : Expr) :
    Resumes more True (extend e left) before before.advance := by
  refine .current ?_
  split
  · exact .current (resumes_expressionList hacc he).map
  · exact .current (.advance (he _ _).map)

/-- So does the continuation by any number of them. -/
theorem resumes_extended (level : Int) (left : Expr) :
    Resumes more True (extended e level left) before before.advance := by
  induction hn : before.tokens.length using Nat.strong_induction_on generalizing before left with
  | h n ih =>
    rw [extended_eq hacc]
    refine .upcoming ?_
    dsimp only
    split
    · rename_i hgo
      have hcontinuing : before.upcoming.kind ∈ continuing := mem_continuing_iff.mpr hgo.2.2
      have hfull : 2 ≤ before.tokens.length :=
        Cursor.full_of_upcoming rfl fun heof => absurd (heof ▸ hgo.2.2) (by decide)
      have hplain : before.upcoming.kind ≠ .lbrace ∧ before.upcoming.kind ≠ .rbrace := by
        constructor <;> intro h <;> rw [h] at hcontinuing <;> exact absurd hcontinuing (by decide)
      refine .skip rfl ⟨hplain, hgo.1⟩ (.bind (resumes_extend hacc he left) fun hr => ih _ ?_ _ rfl)
      · have hle := length_le_of_run (respectedProgress.extend (f := e) hacc left) hr
        rw [length_advance] at hle
        omega
    · exact .pure _

end Expressions

/-- So does an expression, at every depth and level. -/
theorem resumes_expression (hmore : nextKind more ≠ .semicolon) (depth : Nat) (level : Int)
    (cursor : Cursor) : Resumes more True (expression depth level) cursor cursor := by
  induction depth generalizing level cursor with
  | zero => exact ⟨fun h => by cases h⟩
  | succ depth ih =>
    have hacc := expression_accounted depth
    rw [expression_succ_eq]
    exact .bind (resumes_operand hacc ih hmore) fun _ => resumes_extended hacc ih level _

end Reading

end Inkwell
