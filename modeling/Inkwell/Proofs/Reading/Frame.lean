import Inkwell.Proofs.Reading.Rounds

/-!
# Reading does not look back

What a reader does depends on the tokens before it and on nothing that was found earlier. With
earlier diagnostics on record it does the same, and adds to them what it finds. So does the loop
over statements with the statements that were kept earlier.
-/

namespace Inkwell

/-- The cursor with what was found up to an earlier one on record, too. -/
def Cursor.following (cursor earlier : Cursor) : Cursor where
  tokens := cursor.tokens
  diagnostics := earlier.diagnostics ++ cursor.diagnostics

/-- It makes no difference whether the earlier diagnostics are put on record before a report or
after it. -/
theorem Cursor.report_following (cursor earlier : Cursor) (diagnostic : Diagnostic) :
    (cursor.following earlier).report diagnostic =
      (cursor.report diagnostic).following earlier := by
  unfold Cursor.report Cursor.following
  rw [← Array.append_push]

namespace Reading

variable {α β : Type} {earlier : Cursor} {e : Int → ParseM Expr}

/-- A result, with what was found up to an earlier cursor on record. -/
def resultFollowing (earlier : Cursor) :
    EStateM.Result Stop Cursor α → EStateM.Result Stop Cursor α
  | .ok a after => .ok a (after.following earlier)
  | .error cause after => .error cause (after.following earlier)

/-- What a reader does is independent of what was found before it. -/
def Framed (earlier : Cursor) (x : ReadM α) : Prop :=
  ∀ cursor, x.run (cursor.following earlier) = resultFollowing earlier (x.run cursor)

namespace Framed

/-- A sequence of independent steps is independent. -/
theorem bind_steps {x : ReadM α} {f : α → ReadM β} (hx : Framed earlier x)
    (hf : ∀ a, Framed earlier (f a)) : Framed earlier (x >>= f) := by
  intro cursor
  rw [run_bind_steps, run_bind_steps, hx cursor]
  cases x.run cursor with
  | ok a middle => exact hf a middle
  | error => rfl

/-- So is a sequence of readers, of which the second one may not be reached. -/
theorem bind_parses {x : ParseM α} {f : α → ParseM β} (hx : Framed earlier x.run)
    (hf : ∀ a, Framed earlier (f a).run) : Framed earlier (x >>= f).run := by
  intro cursor
  rw [run_bind_parses, run_bind_parses, hx cursor]
  cases x.run.run cursor with
  | error => rfl
  | ok result middle =>
    cases result with
    | none => rfl
    | some a => exact hf a middle

/-- A step stays independent among readers that may give up. -/
theorem lift {x : ReadM α} (hx : Framed earlier x) : Framed earlier (liftM x : ParseM α).run := by
  intro cursor
  rw [run_lift, run_lift, hx cursor]
  cases x.run cursor <;> rfl

/-- Whoever gives up reports the same, whatever was reported before. -/
theorem reject (diagnostic : Diagnostic) : Framed earlier (reject diagnostic : ParseM α).run := by
  intro cursor
  rw [run_reject, run_reject, Cursor.report_following]
  rfl

/-- Whether a semicolon is skipped depends on the upcoming token only. -/
theorem terminated {x : ParseM α} (hx : Framed earlier x.run) :
    Framed earlier (terminated x).run := by
  intro cursor
  rw [run_terminated, run_terminated, hx cursor]
  cases x.run.run cursor with
  | error => rfl
  | ok result after =>
    have hupcoming : (after.following earlier).upcoming = after.upcoming := rfl
    simp only [resultFollowing, hupcoming]
    split <;> rfl

end Framed

/-- All readers are independent of what was found before them. -/
def respectedFramed (earlier : Cursor) :
    Respected (fun x _ => Framed earlier x) (fun x _ => Framed earlier x.run) where
  pure_steps _ _ := rfl
  bind_steps hx hf := hx.bind_steps hf
  current _ := rfl
  upcoming _ := rfl
  remaining _ := rfl
  advance _ := rfl
  pure_parses _ _ := rfl
  bind_parses hx hf := hx.bind_parses hf
  lift hx := hx.lift
  reject diagnostic := .reject diagnostic
  integerOperand := respectedIntegerOperand (fun x _ => Framed earlier x.run)
    (fun _ _ => rfl) (fun hx hf => hx.bind_parses hf) (fun _ => rfl) (fun _ => .reject _)
    fun _ _ => rfl
  terminated hx := hx.terminated
  attempted hx := hx

/-- Reading an expression is independent of what was found before, at every depth. -/
theorem expression_framed (earlier : Cursor) (depth : Nat) (level : Int) :
    Framed earlier (expression depth level).run := by
  induction depth generalizing level with
  | zero => exact fun _ => rfl
  | succ depth ih => exact (respectedFramed earlier).nested (f := expression depth) ih level

/-- The loop over statements puts what it reads behind what was kept before. -/
theorem statementsUntil_kept (ends : Token.Kind → Bool) (rounds : List Token) (kept : Array Stmt) :
    statementsUntil ends e rounds kept =
      (kept.toList ++ ·) <$> statementsUntil ends e rounds #[] := by
  induction rounds generalizing kept with
  | nil => simp [statementsUntil]
  | cons round rounds ih =>
    rw [statementsUntil, statementsUntil, map_eq_pure_bind, bind_assoc]
    refine bind_congr fun token => ?_
    dsimp only
    split
    · simp
    · rw [bind_assoc]
      refine bind_congr fun result => ?_
      rw [bind_assoc]
      refine bind_congr fun _ => ?_
      rw [ih, ih (#[] ++ result.toArray), map_eq_pure_bind, map_eq_pure_bind, bind_assoc]
      simp

/-- The same holds of the loop that asks for its rounds itself. -/
theorem statements_kept (ends : Token.Kind → Bool) (kept : Array Stmt) :
    statements ends e kept = (kept.toList ++ ·) <$> statements ends e #[] := by
  unfold statements
  rw [map_bind]
  exact bind_congr fun rounds => statementsUntil_kept ends rounds kept

/-- The loop over statements is independent of earlier diagnostics. -/
theorem statements_framed (earlier : Cursor) (depth : Nat) (ends : Token.Kind → Bool)
    (kept : Array Stmt) : Framed earlier (statements ends (expression depth) kept) :=
  Framed.bind_steps (fun _ => rfl) fun rounds =>
    (respectedFramed earlier).statementsUntil (f := expression depth)
      (expression_framed earlier depth) ends rounds kept

/-- The loop goes on behind what was read before as it starts alone. -/
theorem run_statements_following {depth : Nat} {ends : Token.Kind → Bool} {kept : Array Stmt}
    {ss : List Stmt} {cursor earlier after : Cursor}
    (h : (statements ends (expression depth) #[]).run cursor = .ok ss after) :
    (statements ends (expression depth) kept).run (cursor.following earlier) =
      .ok (kept.toList ++ ss) (after.following earlier) := by
  rw [statements_kept, map_eq_pure_bind, run_bind_steps, statements_framed earlier, h]
  rfl

end Reading

end Inkwell
