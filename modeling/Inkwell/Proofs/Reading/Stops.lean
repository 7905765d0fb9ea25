import Inkwell.Proofs.Reading.Progress

/-!
# When reading ends early

A text whose numerals can be converted is read to its end, whatever is wrong with it, unless its
expressions nest too deeply: the operands of other kinds never look at the text of a token, and
giving up a statement is not an end.
-/

namespace Inkwell

/-- A token that stands for itself: it is not the end of the input, and if it is an integer literal,
its text is a numeral that is short enough to be converted. -/
structure Token.Readable (token : Token) : Prop where
  ne_eof : token.kind ≠ .eof
  numeral : token.kind = .int → ∃ digits ∈ Text.Decimal.digits? token.literal.toList,
    digits.length ≤ maxNumeralLength

instance (token : Token) : Decidable token.Readable :=
  decidable_of_iff (token.kind ≠ .eof ∧ (token.kind = .int →
      ∃ digits ∈ Text.Decimal.digits? token.literal.toList, digits.length ≤ maxNumeralLength))
    ⟨fun h => ⟨h.1, h.2⟩, fun h => ⟨h.ne_eof, h.numeral⟩⟩

namespace Reading

variable {α β : Type}

/-- On readable tokens a reader ends, or it stops for want of depth. -/
def Halts (x : ReadM α) : Prop :=
  ∀ cursor, (∀ token ∈ cursor.tokens, token.Readable) →
    match x.run cursor with
    | .ok _ after => ∀ token ∈ after.tokens, token.Readable
    | .error cause _ => cause = .tooDeep

namespace Halts

/-- A step that leaves the tokens as they are. -/
theorem of_run {x : ReadM α} {a : Cursor → α} {after : Cursor → Cursor}
    (h : ∀ cursor, x.run cursor = .ok (a cursor) (after cursor))
    (htokens : ∀ cursor, (after cursor).tokens = cursor.tokens) : Halts x := by
  intro cursor hc
  rw [h]
  dsimp only
  rwa [htokens]

/-- A sequence of steps leaves readable tokens to each of them. -/
theorem bind_steps {x : ReadM α} {f : α → ReadM β} (hx : Halts x) (hf : ∀ a, Halts (f a)) :
    Halts (x >>= f) := by
  intro cursor hc
  have hfirst := hx cursor hc
  rw [run_bind_steps]
  cases hr : x.run cursor with
  | ok a middle =>
    rw [hr] at hfirst
    exact hf a middle hfirst
  | error cause after =>
    rw [hr] at hfirst
    exact hfirst

/-- So does a sequence of readers, if the first one has a result. -/
theorem bind_parses {x : ParseM α} {f : α → ParseM β} (hx : Halts x.run)
    (hf : ∀ a, Halts (f a).run) : Halts (x >>= f).run := by
  intro cursor hc
  have hfirst := hx cursor hc
  rw [run_bind_parses]
  cases hr : x.run.run cursor with
  | error cause after =>
    rw [hr] at hfirst
    exact hfirst
  | ok result middle =>
    rw [hr] at hfirst
    cases result with
    | none => exact hfirst
    | some a => exact hf a middle hfirst

/-- A step halts among readers that may give up, too. -/
theorem lift {x : ReadM α} (hx : Halts x) : Halts (liftM x : ParseM α).run := by
  intro cursor hc
  have hfirst := hx cursor hc
  rw [run_lift]
  cases hr : x.run cursor <;> rw [hr] at hfirst <;> exact hfirst

/-- A move leaves some of the readable tokens. -/
theorem advance : Halts advance := by
  intro cursor hc token ht
  exact hc token ((List.tail_suffix _).subset ht)

/-- Giving up is not a stop. -/
theorem reject (diagnostic : Diagnostic) : Halts (reject diagnostic : ParseM α).run :=
  of_run (run_reject · diagnostic) fun _ => rfl

/-- The numeral of a readable token can be converted. -/
theorem integerOperand : Halts integerOperand.run := by
  intro cursor hc
  have hcurrent : (liftM current : ParseM Token).run.run cursor =
      .ok (some cursor.current) cursor := rfl
  rw [Reading.integerOperand, run_bind_parses, hcurrent]
  dsimp only
  by_cases hk : cursor.current.kind = .int
  · have hmem : cursor.current ∈ cursor.tokens := by
      unfold Cursor.current at hk ⊢
      cases ht : cursor.tokens with
      | nil =>
        rw [ht] at hk
        cases hk
      | cons => exact List.mem_cons_self
    obtain ⟨digits, hd, hlen⟩ := (hc _ hmem).numeral hk
    rw [if_pos hk, integerLiteral, run_bind_parses, hcurrent]
    dsimp only
    rw [Option.mem_def.mp hd]
    dsimp only
    rw [if_neg (Nat.not_lt.mpr hlen)]
    by_cases hlarge : maxInteger < Text.Decimal.value digits
    · rw [if_pos hlarge]
      exact reject (α := Expr) _ cursor hc
    · rw [if_neg hlarge]
      exact hc
  · rw [if_neg hk]
    exact reject (α := Expr) _ cursor hc

/-- Skipping a semicolon is a move. -/
theorem terminated {x : ParseM α} (hx : Halts x.run) : Halts (terminated x).run := by
  intro cursor hc
  have hfirst := hx cursor hc
  rw [run_terminated]
  cases hr : x.run.run cursor with
  | error cause after =>
    rw [hr] at hfirst
    exact hfirst
  | ok result after =>
    rw [hr] at hfirst
    dsimp only
    split
    · exact advance after hfirst
    · exact hfirst

end Halts

/-- Halting is respected by all readers. -/
def respectedHalts : Respected (fun x _ => Halts x) (fun x _ => Halts x.run) where
  pure_steps _ := .of_run (fun _ => rfl) fun _ => rfl
  bind_steps hx hf := hx.bind_steps hf
  current := .of_run (fun _ => rfl) fun _ => rfl
  upcoming := .of_run (fun _ => rfl) fun _ => rfl
  remaining := .of_run (fun _ => rfl) fun _ => rfl
  advance := .advance
  pure_parses a := .of_run (a := fun _ => some a) (fun _ => rfl) fun _ => rfl
  bind_parses hx hf := hx.bind_parses hf
  lift hx := hx.lift
  reject diagnostic := .reject diagnostic
  integerOperand := .integerOperand
  terminated hx := hx.terminated
  attempted hx := hx

/-- Of the reasons to stop, an expression of readable tokens has only its depth. -/
theorem expression_halts (depth : Nat) (level : Int) : Halts (expression depth level).run := by
  induction depth generalizing level with
  | zero => exact fun _ _ => rfl
  | succ depth ih => exact respectedHalts.nested (f := expression depth) ih level

end Reading

open Reading in
/-- Readable tokens are read to their end, unless they nest too deeply. -/
theorem Program.exists_read_eq_ok {depth : Nat} {tokens : List Token}
    (ht : ∀ token ∈ tokens, token.Readable)
    (hdeep : Program.read depth tokens ≠ .error .tooDeep) :
    ∃ result, Program.read depth tokens = .ok result := by
  have hhalts := respectedHalts.program (f := expression depth) (expression_halts depth)
    (.ofTokens tokens) ht
  unfold Program.read at hdeep ⊢
  cases hr : (Reading.program (expression depth)).run (.ofTokens tokens) with
  | ok program after => exact ⟨_, rfl⟩
  | error cause after =>
    rw [hr] at hhalts hdeep
    exact absurd (congrArg Except.error hhalts) hdeep

end Inkwell
