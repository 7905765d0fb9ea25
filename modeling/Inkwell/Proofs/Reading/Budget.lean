import Inkwell.Proofs.Reading.Clean
import Inkwell.Proofs.Reading.Depth
import Inkwell.Proofs.Reading.Stops

/-!
# How much depth reading takes

Between the beginning of an expression and that of another one inside it stands at least one token:
the operator, the parenthesis or the keyword that makes room for it. A reader that stops for want of
depth has therefore passed as many tokens as it was given levels, and a depth beyond the number of
tokens is always enough.
-/

namespace Inkwell

namespace Reading

variable {α β : Type} {levels depth : Nat} {e : Int → ParseM Expr}

/-- Behind a move from before the end of the input there are fewer tokens. -/
theorem length_advance_of_current {cursor : Cursor} {kind : Token.Kind}
    (h : cursor.current.kind = kind) (hk : kind ≠ .eof) :
    cursor.advance.tokens.length + 1 = cursor.tokens.length := by
  rw [Cursor.tokens_eq h hk, List.length_cons]

/-- A move to a token that is not the end of the input passes one token. -/
theorem length_advance_of_upcoming {cursor : Cursor} {kind : Token.Kind}
    (h : cursor.upcoming.kind = kind) (hk : kind ≠ .eof) :
    cursor.advance.tokens.length + 1 ≤ cursor.tokens.length := by
  have hlen : cursor.advance.tokens.length = cursor.tokens.length - 1 := List.length_tail
  have hpos := congrArg List.length (Cursor.tokens_advance_eq h hk)
  rw [List.length_cons] at hpos
  omega

/-- A reader that asks for the current token goes on with it from the same cursor. -/
theorem run_current_bind {cursor : Cursor} (f : Token → ParseM β) :
    (liftM current >>= f).run.run cursor = (f cursor.current).run.run cursor := rfl

/-- Where a reader stops for want of depth, a token was passed for every level. -/
def Spends (levels : Nat) (x : ReadM α) : Prop :=
  ∀ cursor after, x.run cursor = .error .tooDeep after →
    after.tokens.length + levels ≤ cursor.tokens.length

namespace Spends

/-- A step that is never stopped. -/
theorem of_run {x : ReadM α} {a : Cursor → α} {after : Cursor → Cursor}
    (h : ∀ cursor, x.run cursor = .ok (a cursor) (after cursor)) : Spends levels x := by
  intro cursor last hstop
  rw [h] at hstop
  cases hstop

/-- What the first step passes is passed when the second one stops. -/
theorem bind_steps {x : ReadM α} {f : α → ReadM β} (hsteady : Steady x) (hx : Spends levels x)
    (hf : ∀ a, Spends levels (f a)) : Spends levels (x >>= f) := by
  intro cursor after hstop
  have hprogress := hsteady cursor
  rw [run_bind_steps] at hstop
  cases hr : x.run cursor with
  | error cause middle =>
    rw [hr] at hstop
    cases hstop
    exact hx _ _ hr
  | ok a middle =>
    rw [hr] at hstop hprogress
    exact Nat.le_trans (hf a _ _ hstop) hprogress.tokens.length_le

/-- So it is among readers that may give up, of which the second one starts behind a result only. -/
theorem bind_parses {x : ParseM α} {f : α → ParseM β} (haccounted : Accounted x)
    (hx : Spends levels x.run) (hf : ∀ a, Spends levels (f a).run) :
    Spends levels (x >>= f).run := by
  intro cursor after hstop
  have hprogress := haccounted cursor
  rw [run_bind_parses] at hstop
  cases hr : x.run.run cursor with
  | error cause middle =>
    rw [hr] at hstop
    cases hstop
    exact hx _ _ hr
  | ok result middle =>
    rw [hr] at hstop hprogress
    cases result with
    | none => cases hstop
    | some a => exact Nat.le_trans (hf a _ _ hstop) hprogress.tokens.length_le

/-- A step that always succeeds stops alike among readers that may give up. -/
theorem lift {x : ReadM α} (hx : Spends levels x) : Spends levels (liftM x : ParseM α).run := by
  intro cursor after hstop
  rw [run_lift] at hstop
  cases hr : x.run cursor with
  | error cause middle =>
    rw [hr] at hstop
    cases hstop
    exact hx _ _ hr
  | ok a middle =>
    rw [hr] at hstop
    cases hstop

/-- The numeral of an integer literal may end the reading, but not for want of depth. -/
theorem integerLiteral : Spends levels integerLiteral.run := by
  intro cursor after hstop
  rw [Reading.integerLiteral, run_current_bind] at hstop
  split at hstop
  · cases hstop
  · split at hstop
    · cases hstop
    · dsimp only at hstop
      split at hstop <;> cases hstop

/-- Nor may an operand that is expected to be one. -/
theorem integerOperand : Spends levels integerOperand.run := by
  intro cursor after hstop
  rw [Reading.integerOperand, run_current_bind] at hstop
  split at hstop
  · exact integerLiteral _ _ hstop
  · cases hstop

/-- The semicolon behind a statement does not stop reading. -/
theorem terminated {x : ParseM α} (hx : Spends levels x.run) :
    Spends levels (terminated x).run := by
  intro cursor after hstop
  rw [run_terminated] at hstop
  cases hr : x.run.run cursor with
  | error cause middle =>
    rw [hr] at hstop
    cases hstop
    exact hx _ _ hr
  | ok result middle =>
    rw [hr] at hstop
    cases hstop

end Spends

/-- A reader that always succeeds makes progress, and spends its levels. It is compared with
itself. -/
def StepsSpend (levels : Nat) (x _y : ReadM α) : Prop := Steady x ∧ Spends levels x

/-- A reader that may give up makes progress, and spends its levels. It is compared with itself. -/
def ParsesSpend (levels : Nat) (x _y : ParseM α) : Prop := Accounted x ∧ Spends levels x.run

/-- Spending is respected by all readers, beside progress. -/
def respectedSpends (levels : Nat) : Respected (StepsSpend levels) (ParsesSpend levels) where
  pure_steps a := ⟨respectedProgress.pure_steps a, .of_run fun _ => rfl⟩
  bind_steps hx hf := ⟨hx.1.bind fun a => (hf a).1, .bind_steps hx.1 hx.2 fun a => (hf a).2⟩
  current := ⟨respectedProgress.current, .of_run fun _ => rfl⟩
  upcoming := ⟨respectedProgress.upcoming, .of_run fun _ => rfl⟩
  remaining := ⟨respectedProgress.remaining, .of_run fun _ => rfl⟩
  advance := ⟨respectedProgress.advance, .of_run fun _ => rfl⟩
  pure_parses a := ⟨respectedProgress.pure_parses a, .of_run (a := fun _ => some a) fun _ => rfl⟩
  bind_parses hx hf := ⟨hx.1.bind fun a => (hf a).1, .bind_parses hx.1 hx.2 fun a => (hf a).2⟩
  lift hx := ⟨hx.1.lift, hx.2.lift⟩
  reject diagnostic := ⟨respectedProgress.reject diagnostic, .of_run (run_reject · diagnostic)⟩
  integerOperand := ⟨respectedProgress.integerOperand, .integerOperand⟩
  terminated hx := ⟨hx.1.terminated, hx.2.terminated⟩
  attempted hx := ⟨hx.1.attempted, hx.2⟩

namespace Spends

variable {cursor after : Cursor}

/-- Every token passed is a level more. -/
theorem of_passed {x : ReadM α} {start : Cursor} (hx : Spends levels x)
    (hpassed : start.tokens.length + 1 ≤ cursor.tokens.length)
    (hstop : x.run start = .error .tooDeep after) :
    after.tokens.length + (levels + 1) ≤ cursor.tokens.length := by
  have h := hx _ _ hstop
  omega

/-- Behind the current token. -/
theorem advance_bind {f : Unit → ParseM β} {kind : Token.Kind} (hk : cursor.current.kind = kind)
    (hne : kind ≠ .eof) (hf : ParsesSpend levels (f ()) (f ()))
    (hstop : (liftM advance >>= f : ParseM β).run.run cursor = .error .tooDeep after) :
    after.tokens.length + (levels + 1) ≤ cursor.tokens.length :=
  hf.2.of_passed (Nat.le_of_eq (length_advance_of_current hk hne)) hstop

/-- Behind an expected token. -/
theorem expect_bind {f : Unit → ParseM β} {wanted : Token.Kind} (hne : wanted ≠ .eof)
    (hf : ParsesSpend levels (f ()) (f ()))
    (hstop : (expect wanted >>= f).run.run cursor = .error .tooDeep after) :
    after.tokens.length + (levels + 1) ≤ cursor.tokens.length := by
  rw [run_bind_parses, run_expect] at hstop
  by_cases hk : cursor.upcoming.kind = wanted
  · rw [if_pos hk] at hstop
    exact hf.2.of_passed (length_advance_of_upcoming hk hne) hstop
  · rw [if_neg hk] at hstop
    cases hstop

end Spends

section Nested

variable (he : ∀ level, ParsesSpend levels (e level) (e level))

include he

/-- The operator comes before the operand. -/
theorem spends_unaryExpression {cursor after : Cursor} {kind : Token.Kind}
    (hk : cursor.current.kind = kind) (hne : kind ≠ .eof)
    (hstop : (unaryExpression e).run.run cursor = .error .tooDeep after) :
    after.tokens.length + (levels + 1) ≤ cursor.tokens.length := by
  have h := respectedSpends levels
  rw [unaryExpression, run_current_bind] at hstop
  refine Spends.advance_bind hk hne ?_ hstop
  exact h.bind_parses (he _) fun _ => h.pure_parses _

/-- The opening parenthesis comes before the expression inside. -/
theorem spends_groupedExpression {cursor after : Cursor} {kind : Token.Kind}
    (hk : cursor.current.kind = kind) (hne : kind ≠ .eof)
    (hstop : (groupedExpression e).run.run cursor = .error .tooDeep after) :
    after.tokens.length + (levels + 1) ≤ cursor.tokens.length := by
  have h := respectedSpends levels
  refine Spends.advance_bind hk hne ?_ hstop
  refine h.bind_parses (he _) fun _ => ?_
  exact h.bind_parses (h.expect _) fun _ => h.pure_parses _

/-- The opening parenthesis comes before the condition and all that follows. -/
theorem spends_ifExpression : Spends (levels + 1) (ifExpression e).run := by
  intro cursor after hstop
  have h := respectedSpends levels
  have hb := h.block (f := e) he
  refine Spends.expect_bind (by decide) ?_ hstop
  refine h.bind_parses (h.lift h.advance) fun _ => ?_
  refine h.bind_parses (he _) fun _ => ?_
  refine h.bind_parses (h.expect _) fun _ => ?_
  refine h.bind_parses (h.expect _) fun _ => ?_
  refine h.bind_parses (h.lift hb) fun _ => ?_
  refine h.bind_parses (h.lift h.upcoming) fun token => ?_
  split
  · refine h.bind_parses (h.lift h.advance) fun _ => ?_
    refine h.bind_parses (h.expect _) fun _ => ?_
    exact h.bind_parses (h.lift hb) fun _ => h.pure_parses _
  · exact h.pure_parses _

/-- The opening parenthesis comes before the parameters and the body. -/
theorem spends_functionLiteral : Spends (levels + 1) (functionLiteral e).run := by
  intro cursor after hstop
  have h := respectedSpends levels
  refine Spends.expect_bind (by decide) ?_ hstop
  refine h.bind_parses h.functionParameters fun _ => ?_
  refine h.bind_parses (h.expect _) fun _ => ?_
  exact h.bind_parses (h.lift (h.block (f := e) he)) fun _ => h.pure_parses _

/-- The token that an operand begins with comes before the expressions inside it. -/
theorem spends_operand : Spends (levels + 1) (operand e).run := by
  intro cursor after hstop
  rw [operand_eq, run_current_bind] at hstop
  split at hstop
  · cases hstop
  · exact Spends.integerOperand _ _ hstop
  · cases hstop
  · cases hstop
  · exact spends_unaryExpression he ‹_› (by decide) hstop
  · exact spends_unaryExpression he ‹_› (by decide) hstop
  · exact spends_groupedExpression he ‹_› (by decide) hstop
  · exact spends_ifExpression he _ _ hstop
  · exact spends_functionLiteral he _ _ hstop
  · cases hstop

/-- The operator or parenthesis that continues an expression comes before those behind it. -/
theorem spends_extendAll (level : Int) (rounds : List Token) (left : Expr) :
    Spends (levels + 1) (extendAll e level rounds left).run := by
  have h := respectedSpends levels
  induction rounds generalizing left with
  | nil => exact .of_run (a := fun _ => some left) fun _ => rfl
  | cons round rounds ih =>
    intro cursor after hstop
    have hupcoming : (liftM upcoming : ParseM Token).run.run cursor =
        .ok (some cursor.upcoming) cursor := rfl
    have hadvance : (liftM advance : ParseM Unit).run.run cursor =
        .ok (some ()) cursor.advance := rfl
    rw [extendAll, run_bind_parses, hupcoming] at hstop
    dsimp only at hstop
    split at hstop
    · rename_i hgo
      have hne : cursor.upcoming.kind ≠ .eof := by
        intro heof
        rw [heof] at hgo
        exact absurd hgo.2.2 (by decide)
      have hpassed := length_advance_of_upcoming rfl hne
      have hextend := h.extend (f := e) he left
      have hrest : Spends levels (extend e left >>= extendAll e level rounds).run :=
        .bind_parses hextend.1 hextend.2 fun left => (h.extendAll (f := e) he level rounds left).2
      exact hrest.of_passed hpassed hstop
    · cases hstop

end Nested

/-- An expression that stops for want of depth has passed a token for every level. -/
theorem expression_spends (depth : Nat) (level : Int) :
    Spends depth (expression depth level).run := by
  induction depth generalizing level with
  | zero =>
    intro cursor after hstop
    cases hstop
    exact Nat.le_refl _
  | succ depth ih =>
    have he : ∀ level, ParsesSpend depth (expression depth level) (expression depth level) :=
      fun level => ⟨expression_accounted depth level, ih level⟩
    have hoperand := (respectedSpends depth).operand he
    have hremaining := (respectedSpends (depth + 1)).lift (respectedSpends (depth + 1)).remaining
    refine .bind_parses hoperand.1 (spends_operand he) fun left => ?_
    exact .bind_parses hremaining.1 hremaining.2 fun rounds => spends_extendAll he level rounds left

/-- On readable tokens a depth beyond their number is always enough. -/
theorem exists_run_program {tokens : List Token} (ht : ∀ token ∈ tokens, token.Readable)
    (hdepth : tokens.length < depth) :
    ∃ read last, (program (expression depth)).run (.ofTokens tokens) = .ok read last ∧
      ∀ token ∈ last.tokens, token.Readable := by
  have hhalts := respectedHalts.program (f := expression depth) (expression_halts depth)
    (.ofTokens tokens) ht
  have he : ∀ level, ParsesSpend depth (expression depth level) (expression depth level) :=
    fun level => ⟨expression_accounted depth level, expression_spends depth level⟩
  have hspends := ((respectedSpends depth).program he).2
  cases hr : (program (expression depth)).run (.ofTokens tokens) with
  | ok read last =>
    rw [hr] at hhalts
    exact ⟨read, last, rfl, hhalts⟩
  | error cause last =>
    rw [hr] at hhalts
    obtain rfl : cause = .tooDeep := hhalts
    have hlen : last.tokens.length + depth ≤ tokens.length := hspends _ _ hr
    omega

end Reading

end Inkwell
