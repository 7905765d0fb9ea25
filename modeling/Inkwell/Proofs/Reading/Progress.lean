import Inkwell.Proofs.Reading.Relation

/-!
# How reading moves on

Whatever a reader does, its cursor only moves forward and diagnostics are only added behind the
earlier ones. A reader that gives up has added one at least, which it owes for the statement that is
dropped; so a loop that reads a statement and adds nothing has kept it.
-/

namespace Inkwell

/-- Before the end of the input the current token is the first of those left. -/
theorem Cursor.tokens_eq {cursor : Cursor} {kind : Token.Kind}
    (h : cursor.current.kind = kind) (hk : kind ≠ .eof) :
    cursor.tokens = cursor.current :: cursor.advance.tokens := by
  unfold Cursor.current Cursor.advance at *
  cases hc : cursor.tokens with
  | nil => rw [hc] at h; exact absurd h.symm hk
  | cons => rfl

/-- The upcoming token is the current one after a move. -/
theorem Cursor.current_advance (cursor : Cursor) : cursor.advance.current = cursor.upcoming := by
  unfold Cursor.upcoming Cursor.advance Cursor.current
  rcases cursor.tokens with _ | ⟨_, _ | _⟩ <;> rfl

/-- Before a token that is not the end of the input, the tokens behind the current one begin with
the upcoming one. -/
theorem Cursor.tokens_advance_eq {cursor : Cursor} {kind : Token.Kind}
    (h : cursor.upcoming.kind = kind) (hk : kind ≠ .eof) :
    cursor.advance.tokens = cursor.upcoming :: cursor.advance.advance.tokens := by
  rw [← cursor.current_advance] at h ⊢
  exact Cursor.tokens_eq h hk

/-- What happens to a cursor while reading, where `owed` diagnostics are owed for a statement that
is being given up. -/
structure Cursor.Progress (owed : Nat) (before after : Cursor) : Prop where
  /-- The cursor moves forward over the tokens. -/
  tokens : after.tokens <:+ before.tokens
  /-- Diagnostics are added at the end. -/
  diagnostics : before.diagnostics.toList <+: after.diagnostics.toList
  /-- There are new diagnostics for all that is owed. -/
  owed_le : before.diagnostics.size + owed ≤ after.diagnostics.size

namespace Cursor.Progress

variable {owed : Nat} {before middle after : Cursor}

/-- Nothing happens, and nothing is owed. -/
theorem refl (cursor : Cursor) : Progress 0 cursor cursor :=
  ⟨List.suffix_refl _, List.prefix_refl _, Nat.le_refl _⟩

/-- There are never fewer diagnostics than before. -/
theorem size_le (h : Progress owed before after) :
    before.diagnostics.size ≤ after.diagnostics.size :=
  Nat.le_of_add_right_le h.owed_le

/-- What is owed may be forgotten, as it is by the loop that goes on behind the statement. -/
theorem settle (h : Progress owed before after) : Progress 0 before after :=
  ⟨h.tokens, h.diagnostics, h.size_le⟩

/-- What the second of two readers owes is still owed where both are done. -/
theorem trans {earlier : Nat} (first : Progress earlier before middle)
    (second : Progress owed middle after) : Progress owed before after where
  tokens := second.tokens.trans first.tokens
  diagnostics := first.diagnostics.trans second.diagnostics
  owed_le := Nat.le_trans (Nat.add_le_add_right first.size_le owed) second.owed_le

/-- What is owed stays owed while nothing more happens. -/
theorem trans_clean (first : Progress owed before middle) (second : Progress 0 middle after) :
    Progress owed before after where
  tokens := second.tokens.trans first.tokens
  diagnostics := first.diagnostics.trans second.diagnostics
  owed_le := Nat.le_trans first.owed_le second.size_le

/-- A move passes one token and adds no diagnostic. -/
theorem advance (cursor : Cursor) : Progress 0 cursor cursor.advance :=
  ⟨List.tail_suffix _, List.prefix_refl _, Nat.le_refl _⟩

/-- A report pays for what is owed by giving up. -/
theorem report (cursor : Cursor) (diagnostic : Diagnostic) :
    Progress 1 cursor (cursor.report diagnostic) where
  tokens := List.suffix_refl _
  diagnostics := by simp [Cursor.report]
  owed_le := by simp [Cursor.report]

/-- Reading that adds no diagnostic leaves the list as it is. -/
theorem diagnostics_eq (h : Progress owed before after)
    (hs : after.diagnostics.size ≤ before.diagnostics.size) :
    after.diagnostics = before.diagnostics := by
  refine Array.ext' (h.diagnostics.eq_of_length_le ?_).symm
  simpa using hs

end Cursor.Progress

namespace Reading

section Running

variable {α β : Type} (cursor : Cursor)

/-- A sequence of steps, run on a cursor. -/
theorem run_bind_steps (x : ReadM α) (f : α → ReadM β) :
    (x >>= f).run cursor =
      match x.run cursor with
      | .ok a middle => (f a).run middle
      | .error cause after => .error cause after := by
  rw [EStateM.run_bind]
  cases x.run cursor <;> rfl

/-- A sequence of readers, run on a cursor: it goes on only behind a reader that did not give up. -/
theorem run_bind_parses (x : ParseM α) (f : α → ParseM β) :
    (x >>= f).run.run cursor =
      match x.run.run cursor with
      | .ok (some a) middle => (f a).run.run middle
      | .ok none after => .ok none after
      | .error cause after => .error cause after := by
  rw [OptionT.run_bind, Option.elimM, run_bind_steps]
  cases x.run.run cursor with
  | error => rfl
  | ok result => cases result <;> rfl

/-- A step among readers that may give up. -/
theorem run_lift (x : ReadM α) :
    (liftM x : ParseM α).run.run cursor =
      match x.run cursor with
      | .ok a after => .ok (some a) after
      | .error cause after => .error cause after := by
  have h : (liftM x : ParseM α).run = x >>= fun a => pure (some a) := rfl
  rw [h, run_bind_steps]
  cases x.run cursor <;> rfl

/-- Giving up reports the reason and moves nothing. -/
theorem run_reject (diagnostic : Diagnostic) :
    (reject diagnostic : ParseM α).run.run cursor = .ok none (cursor.report diagnostic) := rfl

/-- A semicolon is skipped only where it is the upcoming token. -/
theorem run_skipSemicolon :
    skipSemicolon.run cursor =
      .ok () (if cursor.upcoming.kind = .semicolon then cursor.advance else cursor) := by
  have h : upcoming.run cursor = .ok cursor.upcoming cursor := rfl
  rw [skipSemicolon, run_bind_steps, h]
  dsimp only
  split <;> rfl

/-- The semicolon is skipped behind whatever result the reading has, but not behind a stop. -/
theorem run_terminated (x : ParseM α) :
    (terminated x).run.run cursor =
      match x.run.run cursor with
      | .ok result after =>
        .ok result (if after.upcoming.kind = .semicolon then after.advance else after)
      | .error cause after => .error cause after := by
  have h : (terminated x).run =
      x.run >>= fun result => skipSemicolon >>= fun _ => pure result := rfl
  rw [h, run_bind_steps]
  cases x.run.run cursor with
  | error => rfl
  | ok result after =>
    dsimp only
    rw [run_bind_steps, run_skipSemicolon]
    rfl

end Running

/-- Every way in which a reader can end is progress, with as many diagnostics owed as the result
says. -/
def Moves {α : Type} (owed : α → Nat) (x : ReadM α) : Prop :=
  ∀ cursor, match x.run cursor with
    | .ok result after => cursor.Progress (owed result) after
    | .error _ after => cursor.Progress 0 after

/-- One diagnostic is owed by a reader that gave up. -/
def owedBy {α : Type} : Option α → Nat
  | none => 1
  | some _ => 0

/-- A reader that always succeeds makes progress. -/
abbrev Steady {α : Type} (x : ReadM α) : Prop := Moves (fun _ => 0) x

/-- A reader that may give up makes progress, and owes one diagnostic if it does. -/
abbrev Accounted {α : Type} (x : ParseM α) : Prop := Moves owedBy x.run

/-- Progress continues in the next step, also where that one stops. -/
theorem Steady.bind {α β : Type} {x : ReadM α} {f : α → ReadM β} (hx : Steady x)
    (hf : ∀ a, Steady (f a)) : Steady (x >>= f) := by
  intro cursor
  have hc := hx cursor
  rw [run_bind_steps]
  cases hr : x.run cursor with
  | error cause after =>
    rw [hr] at hc
    exact hc
  | ok a middle =>
    rw [hr] at hc
    have hm := hf a middle
    dsimp only
    cases hs : (f a).run middle <;> rw [hs] at hm <;> exact Cursor.Progress.trans hc hm

/-- Behind a result the next reader goes on, and what it owes is owed by both. -/
theorem Accounted.bind {α β : Type} {x : ParseM α} {f : α → ParseM β} (hx : Accounted x)
    (hf : ∀ a, Accounted (f a)) : Accounted (x >>= f) := by
  intro cursor
  have hc := hx cursor
  rw [run_bind_parses]
  cases hr : x.run.run cursor with
  | error cause after =>
    rw [hr] at hc
    exact hc
  | ok result middle =>
    rw [hr] at hc
    cases result with
    | none => exact hc
    | some a =>
      have hm := hf a middle
      dsimp only
      cases hs : (f a).run.run middle <;> rw [hs] at hm <;> exact Cursor.Progress.trans hc hm

/-- A step that always succeeds owes nothing among readers that may give up. -/
theorem Steady.lift {α : Type} {x : ReadM α} (hx : Steady x) :
    Accounted (liftM x : ParseM α) := by
  intro cursor
  have hc := hx cursor
  rw [run_lift]
  cases hr : x.run cursor <;> rw [hr] at hc <;> exact hc

/-- Skipping a semicolon changes nothing in what is owed. -/
theorem Accounted.terminated {α : Type} {x : ParseM α} (hx : Accounted x) :
    Accounted (terminated x) := by
  intro cursor
  have hc := hx cursor
  rw [run_terminated]
  cases hr : x.run.run cursor with
  | error cause after =>
    rw [hr] at hc
    exact hc
  | ok result after =>
    rw [hr] at hc
    dsimp only
    split
    · exact Cursor.Progress.trans_clean hc (.advance after)
    · exact hc

/-- A reader that gives up has reported something. -/
theorem Accounted.size_lt {α : Type} {x : ParseM α} {before after : Cursor} (hx : Accounted x)
    (h : x.run.run before = .ok none after) :
    before.diagnostics.size < after.diagnostics.size := by
  have hc := hx before
  rw [h] at hc
  exact hc.owed_le

/-- Behind a statement the loop goes on and owes nothing, also where it was given up. -/
theorem Accounted.attempted {α : Type} {x : ParseM α} (hx : Accounted x) : Steady x.run := by
  intro cursor
  have hc := hx cursor
  cases hr : x.run.run cursor <;> rw [hr] at hc
  · exact hc.settle
  · exact hc

/-- Progress is respected by all readers. -/
def respectedProgress : Respected (fun x _ => Steady x) (fun x _ => Accounted x) where
  pure_steps _ := .refl
  bind_steps hx hf := hx.bind hf
  current := .refl
  upcoming := .refl
  remaining := .refl
  advance := .advance
  pure_parses _ := .refl
  bind_parses hx hf := hx.bind hf
  lift hx := hx.lift
  reject diagnostic cursor := .report cursor diagnostic
  integerOperand := respectedIntegerOperand (fun x _ => Accounted x) (fun _ => .refl)
    (fun hx hf => hx.bind hf) .refl (fun diagnostic cursor => .report cursor diagnostic)
    fun _ => .refl
  terminated hx := hx.terminated
  attempted hx := hx.attempted

/-- Reading an expression makes progress, whatever the depth and the level. -/
theorem expression_accounted (depth : Nat) (level : Int) : Accounted (expression depth level) := by
  induction depth generalizing level with
  | zero => exact fun cursor => .refl cursor
  | succ depth ih => exact respectedProgress.nested (f := expression depth) ih level

end Reading

end Inkwell
