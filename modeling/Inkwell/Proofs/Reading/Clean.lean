import Inkwell.Proofs.Reading.Progress

/-!
# Reading without diagnostics

`Clean` and `Accepts` say that a reader ends well from one cursor to another and finds nothing wrong
on the way, not even in a statement that it drops. As diagnostics are never taken back, a sequence
of readers ends so if and only if each of them does. What this means is said here for each reader in
turn, so that later statements never look into a reader again.
-/

namespace Inkwell

/-- Moves over the upcoming token if it is a semicolon. -/
def Cursor.skipSemicolon (cursor : Cursor) : Cursor :=
  if cursor.upcoming.kind = .semicolon then cursor.advance else cursor

namespace Reading

variable {α β : Type}

/-- A reader that always succeeds gives a result and finds nothing wrong. -/
def Clean (x : ReadM α) (before : Cursor) (a : α) (after : Cursor) : Prop :=
  x.run before = .ok a after ∧ after.diagnostics = before.diagnostics

/-- A reader that may give up does not, and finds nothing wrong. -/
def Accepts (x : ParseM α) (before : Cursor) (a : α) (after : Cursor) : Prop :=
  Clean x.run before (some a) after

variable {before after : Cursor}

section Steps

/-- Where diagnostics only grow, an end without new ones has none in the middle. -/
theorem clean_of_progress {owed : Nat} {middle : Cursor} (first : before.Progress 0 middle)
    (second : middle.Progress owed after) (h : after.diagnostics = before.diagnostics) :
    middle.diagnostics = before.diagnostics := by
  refine first.diagnostics_eq ?_
  rw [← h]
  exact second.size_le

/-- The clean ends of a reader whose run is known. -/
theorem clean_iff_of_run {x : ReadM α} {a b : α} {l : Cursor} (h : x.run before = .ok a l)
    (hd : l.diagnostics = before.diagnostics) :
    Clean x before b after ↔ b = a ∧ after = l := by
  unfold Clean
  rw [h]
  constructor
  · rintro ⟨heq, -⟩
    cases heq
    exact ⟨rfl, rfl⟩
  · rintro ⟨rfl, rfl⟩
    exact ⟨rfl, hd⟩

/-- A result without a step is clean. -/
@[simp]
theorem clean_pure {a b : α} : Clean (pure a) before b after ↔ b = a ∧ after = before :=
  clean_iff_of_run rfl rfl

/-- A sequence of steps is clean if and only if both parts are. -/
theorem clean_bind {x : ReadM α} {f : α → ReadM β} {b : β} (hx : Steady x)
    (hf : ∀ a, Steady (f a)) :
    Clean (x >>= f) before b after ↔
      ∃ a middle, Clean x before a middle ∧ Clean (f a) middle b after := by
  unfold Clean
  rw [run_bind_steps]
  constructor
  · rintro ⟨h, hd⟩
    have hp := hx before
    cases hr : x.run before with
    | error => rw [hr] at h; cases h
    | ok a middle =>
      rw [hr] at h hp
      have hq := hf a middle
      dsimp only at h
      rw [h] at hq
      have hm := clean_of_progress hp hq hd
      exact ⟨a, middle, ⟨rfl, hm⟩, h, hd.trans hm.symm⟩
  · rintro ⟨a, middle, ⟨hr, hm⟩, hs, hd⟩
    rw [hr]
    exact ⟨hs, hd.trans hm⟩

/-- A result without a step is accepted where it is. -/
@[simp]
theorem accepts_pure {a b : α} : Accepts (pure a) before b after ↔ b = a ∧ after = before := by
  rw [Accepts, clean_iff_of_run (x := (pure a : ParseM α).run) rfl rfl, Option.some.injEq]

/-- A sequence of readers accepts if and only if both parts do. -/
theorem accepts_bind {x : ParseM α} {f : α → ParseM β} {b : β} (hx : Accounted x)
    (hf : ∀ a, Accounted (f a)) :
    Accepts (x >>= f) before b after ↔
      ∃ a middle, Accepts x before a middle ∧ Accepts (f a) middle b after := by
  unfold Accepts Clean
  rw [run_bind_parses]
  constructor
  · rintro ⟨h, hd⟩
    have hp := hx before
    cases hr : x.run.run before with
    | error => rw [hr] at h; cases h
    | ok result middle =>
      rw [hr] at h hp
      cases result with
      | none => cases h
      | some a =>
        have hq := hf a middle
        dsimp only at h
        rw [h] at hq
        have hm := clean_of_progress hp hq hd
        exact ⟨a, middle, ⟨rfl, hm⟩, h, hd.trans hm.symm⟩
  · rintro ⟨a, middle, ⟨hr, hm⟩, hs, hd⟩
    rw [hr]
    exact ⟨hs, hd.trans hm⟩

/-- A step among readers that may give up is accepted where it is clean. -/
@[simp]
theorem accepts_lift {x : ReadM α} {a : α} :
    Accepts (liftM x) before a after ↔ Clean x before a after := by
  unfold Accepts Clean
  rw [run_lift]
  cases x.run before <;> simp

/-- Whoever gives up accepts nothing. -/
@[simp]
theorem accepts_reject {diagnostic : Diagnostic} {a : α} :
    ¬ Accepts (reject diagnostic) before a after := by
  rintro ⟨h, -⟩
  rw [run_reject] at h
  cases h

/-- Nor does a stop. -/
@[simp]
theorem accepts_stop {cause : Stop} {a : α} : ¬ Accepts (stop cause) before a after := by
  rintro ⟨h, -⟩
  cases h

/-- The semicolon behind a statement is optional, and skipping it is clean. -/
@[simp]
theorem accepts_terminated {x : ParseM α} {a : α} :
    Accepts (terminated x) before a after ↔
      ∃ middle, Accepts x before a middle ∧ after = middle.skipSemicolon := by
  have hsame : ∀ cursor : Cursor, cursor.skipSemicolon.diagnostics = cursor.diagnostics := by
    intro cursor
    unfold Cursor.skipSemicolon
    split <;> rfl
  unfold Accepts Clean
  rw [run_terminated]
  constructor
  · rintro ⟨h, hd⟩
    cases hr : x.run.run before with
    | error => rw [hr] at h; cases h
    | ok result middle =>
      rw [hr] at h
      cases h
      exact ⟨middle, ⟨rfl, (hsame middle).symm.trans hd⟩, rfl⟩
  · rintro ⟨middle, ⟨hr, hd⟩, rfl⟩
    rw [hr]
    exact ⟨rfl, (hsame middle).trans hd⟩

/-- The statement of a loop is read cleanly only if it is kept. -/
theorem clean_run_iff {x : ParseM α} {result : Option α} (hx : Accounted x) :
    Clean x.run before result after ↔ ∃ a, result = some a ∧ Accepts x before a after := by
  constructor
  · intro h
    cases result with
    | some a => exact ⟨a, rfl, h⟩
    | none =>
      -- giving up has left a diagnostic
      have howed := hx.size_lt h.1
      rw [h.2] at howed
      exact absurd howed (Nat.lt_irrefl _)
  · rintro ⟨a, rfl, h⟩
    exact h

/-- Steps that start with one of known result go on from there. -/
theorem clean_bind_of_run {x : ReadM α} {f : α → ReadM β} {a : α} {b : β} {m : Cursor}
    (h : x.run before = .ok a m) (hd : m.diagnostics = before.diagnostics) :
    Clean (x >>= f) before b after ↔ Clean (f a) m b after := by
  unfold Clean
  rw [run_bind_steps, h, hd]

/-- A reader that starts with a step of known result goes on from there. -/
theorem accepts_bind_of_run {x : ReadM α} {f : α → ParseM β} {a : α} {b : β} {m : Cursor}
    (h : x.run before = .ok a m) (hd : m.diagnostics = before.diagnostics) :
    Accepts (liftM x >>= f) before b after ↔ Accepts (f a) m b after := by
  unfold Accepts Clean
  rw [run_bind_parses, run_lift, h, hd]

/-- Asking for the current token is clean. -/
@[simp]
theorem accepts_current_bind {f : Token → ParseM β} {b : β} :
    Accepts (liftM current >>= f) before b after ↔ Accepts (f before.current) before b after :=
  accepts_bind_of_run rfl rfl

/-- Asking for the upcoming token is clean. -/
@[simp]
theorem accepts_upcoming_bind {f : Token → ParseM β} {b : β} :
    Accepts (liftM upcoming >>= f) before b after ↔ Accepts (f before.upcoming) before b after :=
  accepts_bind_of_run rfl rfl

/-- Asking for the tokens left is clean. -/
@[simp]
theorem accepts_remaining_bind {f : List Token → ParseM β} {b : β} :
    Accepts (liftM remaining >>= f) before b after ↔ Accepts (f before.tokens) before b after :=
  accepts_bind_of_run rfl rfl

/-- A move is clean. -/
@[simp]
theorem accepts_advance_bind {f : Unit → ParseM β} {b : β} :
    Accepts (liftM advance >>= f) before b after ↔ Accepts (f ()) before.advance b after :=
  accepts_bind_of_run rfl rfl

/-- A name is taken from the current token as it is. -/
@[simp]
theorem accepts_identifier_bind {f : Ident → ParseM β} {b : β} :
    Accepts (liftM identifier >>= f) before b after ↔
      Accepts (f ⟨before.current, before.current.literal⟩) before b after :=
  accepts_bind_of_run rfl rfl

/-- An expected token is passed, and any other one is reported where it stands. -/
theorem run_expect (wanted : Token.Kind) :
    (expect wanted).run.run before =
      if before.upcoming.kind = wanted then .ok (some ()) before.advance
      else .ok none (before.report (.expected wanted before.upcoming.kind)) := by
  have h : upcoming.run before = .ok before.upcoming before := rfl
  unfold expect
  rw [run_bind_parses, run_lift, h]
  dsimp only
  split <;> rfl

/-- Only the expected token is accepted. -/
@[simp]
theorem accepts_expect_bind {wanted : Token.Kind} {f : Unit → ParseM β} {b : β} :
    Accepts (expect wanted >>= f) before b after ↔
      before.upcoming.kind = wanted ∧ Accepts (f ()) before.advance b after := by
  unfold Accepts Clean
  rw [run_bind_parses, run_expect]
  by_cases h : before.upcoming.kind = wanted
  · rw [if_pos h]
    exact (and_iff_right h).symm
  · rw [if_neg h]
    simp [h]

end Steps

section Readers

variable {e : Int → ParseM Expr}

/-- A `let` is its keyword, a name, the assignment sign, an expression and perhaps a semicolon. -/
theorem accepts_letStatement (he : ∀ level, Accounted (e level)) {s : Stmt} :
    Accepts (letStatement e) before s after ↔
      ∃ value middle, before.upcoming.kind = .ident ∧ before.advance.upcoming.kind = .assign ∧
        Accepts (e Precedence.lowest) before.advance.advance.advance value middle ∧
        s = .define before.current ⟨before.advance.current, before.advance.current.literal⟩ value ∧
        after = middle.skipSemicolon := by
  unfold letStatement
  simp only [accepts_current_bind, accepts_expect_bind, accepts_identifier_bind,
    accepts_advance_bind,
    accepts_bind (he _).terminated (fun _ => respectedProgress.pure_parses _),
    accepts_terminated, accepts_pure]
  constructor
  · rintro ⟨hi, ha, value, _, ⟨middle, h, rfl⟩, rfl, rfl⟩
    exact ⟨value, middle, hi, ha, h, rfl, rfl⟩
  · rintro ⟨value, middle, hi, ha, h, rfl, rfl⟩
    exact ⟨hi, ha, value, _, ⟨middle, h, rfl⟩, rfl, rfl⟩

/-- An expression is a statement, perhaps with a semicolon. -/
theorem accepts_bareStatement (he : ∀ level, Accounted (e level)) {s : Stmt} :
    Accepts (bareStatement e) before s after ↔
      ∃ value middle, Accepts (e Precedence.lowest) before value middle ∧
        s = .bare before.current value ∧ after = middle.skipSemicolon := by
  unfold bareStatement
  simp only [accepts_current_bind,
    accepts_bind (he _).terminated (fun _ => respectedProgress.pure_parses _),
    accepts_terminated, accepts_pure]
  constructor
  · rintro ⟨value, _, ⟨middle, h, rfl⟩, rfl, rfl⟩
    exact ⟨value, middle, h, rfl, rfl⟩
  · rintro ⟨value, middle, h, rfl, rfl⟩
    exact ⟨value, _, ⟨middle, h, rfl⟩, rfl, rfl⟩

/-- A `return` has no operand before a semicolon, before a closing brace and at the end of the
input, and an expression before anything else. -/
theorem accepts_returnStatement (he : ∀ level, Accounted (e level)) {s : Stmt} :
    Accepts (returnStatement e) before s after ↔
      (before.upcoming.kind = .semicolon ∧ s = .ret before.current none ∧
        after = before.advance) ∨
      ((before.upcoming.kind = .rbrace ∨ before.upcoming.kind = .eof) ∧
        s = .ret before.current none ∧ after = before) ∨
      (before.upcoming.kind ≠ .semicolon ∧ before.upcoming.kind ≠ .rbrace ∧
        before.upcoming.kind ≠ .eof ∧ ∃ value middle,
          Accepts (e Precedence.lowest) before.advance value middle ∧
          s = .ret before.current (some value) ∧ after = middle.skipSemicolon) := by
  unfold returnStatement
  simp only [accepts_current_bind, accepts_upcoming_bind]
  split
  · rename_i h
    simp only [accepts_advance_bind, accepts_pure]
    simp [h]
  · rename_i h
    simp [h]
  · rename_i h
    simp [h]
  · rename_i hs hr hf
    simp only [accepts_advance_bind,
      accepts_bind (he _).terminated (fun _ => respectedProgress.pure_parses _),
      accepts_terminated, accepts_pure]
    constructor
    · rintro ⟨value, _, ⟨middle, h, rfl⟩, rfl, rfl⟩
      exact .inr (.inr ⟨hs, hr, hf, value, middle, h, rfl, rfl⟩)
    · rintro (⟨h, -⟩ | ⟨h | h, -⟩ | ⟨-, -, -, value, middle, h, rfl, rfl⟩)
      · exact absurd h hs
      · exact absurd h hr
      · exact absurd h hf
      · exact ⟨value, _, ⟨middle, h, rfl⟩, rfl, rfl⟩

/-- The current token decides which kind of statement is read. -/
theorem accepts_statement {s : Stmt} :
    Accepts (statement e) before s after ↔
      (before.current.kind = .letKw ∧ Accepts (letStatement e) before s after) ∨
      (before.current.kind = .returnKw ∧ Accepts (returnStatement e) before s after) ∨
      (before.current.kind ≠ .letKw ∧ before.current.kind ≠ .returnKw ∧
        Accepts (bareStatement e) before s after) := by
  unfold statement
  simp only [accepts_current_bind]
  split
  · rename_i h
    simp [h]
  · rename_i h
    simp [h]
  · rename_i hl hr
    have hl' : before.current.kind ≠ .letKw := hl
    have hr' : before.current.kind ≠ .returnKw := hr
    simp [hl', hr']

/-- Without rounds the loop gives what it has kept. -/
theorem clean_statementsUntil_nil {ends : Token.Kind → Bool} {kept : Array Stmt}
    {ss : List Stmt} :
    Clean (statementsUntil ends e [] kept) before ss after ↔
      ss = kept.toList ∧ after = before := clean_pure

/-- One round of a loop over statements. -/
theorem clean_statementsUntil_cons (he : ∀ level, Accounted (e level))
    {ends : Token.Kind → Bool} {round : Token} {rounds : List Token} {kept : Array Stmt}
    {ss : List Stmt} :
    Clean (statementsUntil ends e (round :: rounds) kept) before ss after ↔
      if before.current.kind = .eof ∨ ends before.current.kind then
        ss = kept.toList ∧ after = before
      else ∃ s middle, Accepts (statement e) before s middle ∧
        Clean (statementsUntil ends e rounds (kept.push s)) middle.advance ss after := by
  have hs := respectedProgress.statement (f := e) he
  have hrest := fun kept => respectedProgress.statementsUntil (f := e) he ends rounds kept
  rw [statementsUntil, clean_bind_of_run (x := current) (a := before.current) rfl rfl]
  dsimp only
  split
  · exact clean_pure
  · rw [clean_bind hs.attempted fun _ => respectedProgress.advance.bind fun _ => hrest _]
    have hstep : ∀ (middle : Cursor) (s : Stmt),
        Clean (advance >>= fun _ => statementsUntil ends e rounds (kept ++ (some s).toArray))
          middle ss after ↔
        Clean (statementsUntil ends e rounds (kept.push s)) middle.advance ss after :=
      fun middle s => clean_bind_of_run (m := middle.advance) rfl rfl
    constructor
    · rintro ⟨_, middle, hstatement, h⟩
      obtain ⟨s, rfl, hacc⟩ := (clean_run_iff hs).mp hstatement
      exact ⟨s, middle, hacc, (hstep middle s).mp h⟩
    · rintro ⟨s, middle, hacc, h⟩
      exact ⟨some s, middle, (clean_run_iff hs).mpr ⟨s, rfl, hacc⟩, (hstep middle s).mpr h⟩

/-- A block is clean where its loop is, behind the opening brace. -/
theorem clean_block (he : ∀ level, Accounted (e level)) {b : Block} :
    Clean (block e) before b after ↔
      ∃ ss, Clean (statementsUntil (· == .rbrace) e before.advance.tokens #[]) before.advance ss
        after ∧ b = .mk before.current ss := by
  have hss := respectedProgress.statementsUntil (f := e) he (· == .rbrace)
    before.advance.tokens #[]
  rw [block, clean_bind_of_run (x := current) (a := before.current) rfl rfl,
    clean_bind_of_run (x := advance) (m := before.advance) rfl rfl,
    clean_bind_of_run (x := remaining) (a := before.advance.tokens) rfl rfl,
    clean_bind hss fun _ => respectedProgress.pure_steps _]
  simp only [clean_pure]
  constructor
  · rintro ⟨ss, middle, h, rfl, rfl⟩
    exact ⟨ss, h, rfl⟩
  · rintro ⟨ss, h, rfl⟩
    exact ⟨ss, after, h, rfl, rfl⟩

/-- A program is clean where its loop is. -/
theorem clean_program (he : ∀ level, Accounted (e level)) {p : Program} :
    Clean (program e) before p after ↔
      Clean (statementsUntil (fun _ => false) e before.tokens #[]) before p.statements after := by
  have hss := respectedProgress.statementsUntil (f := e) he (fun _ => false) before.tokens #[]
  rw [program, clean_bind_of_run (x := remaining) (a := before.tokens) rfl rfl,
    clean_bind hss fun _ => respectedProgress.pure_steps _]
  simp only [clean_pure]
  constructor
  · rintro ⟨ss, middle, h, rfl, rfl⟩
    exact h
  · intro h
    exact ⟨p.statements, after, h, rfl, rfl⟩

/-- An integer literal is a numeral of a length that can be converted and of a value that is not too
large. -/
theorem accepts_integerLiteral {r : Expr} :
    Accepts integerLiteral before r after ↔
      ∃ digits, Text.Decimal.digits? before.current.literal.toList = some digits ∧
        digits.length ≤ maxNumeralLength ∧ Text.Decimal.value digits ≤ maxInteger ∧
        r = .int before.current (Text.Decimal.value digits) ∧ after = before := by
  unfold integerLiteral
  simp only [accepts_current_bind]
  split
  · rename_i h
    simp [h]
  · rename_i digits h
    simp only [h, Option.some.injEq, exists_eq_left']
    split
    · rename_i hlong
      simp [Nat.not_le.mpr hlong]
    · rename_i hlong
      split
      · rename_i hlarge
        simp [Nat.not_le.mpr hlarge]
      · rename_i hlarge
        simp [Nat.not_lt.mp hlong, Nat.not_lt.mp hlarge]

/-- As an operand it is read from a token of its kind. -/
theorem accepts_integerOperand {r : Expr} :
    Accepts integerOperand before r after ↔
      before.current.kind = .int ∧ Accepts integerLiteral before r after := by
  rw [integerOperand, accepts_current_bind]
  split
  · rename_i h
    exact (and_iff_right h).symm
  · rename_i h
    simp [h]

/-- An operator is followed by an operand that binds as tightly as operators before operands do. -/
theorem accepts_unaryExpression (he : ∀ level, Accounted (e level)) {r : Expr} :
    Accepts (unaryExpression e) before r after ↔
      ∃ inner, Accepts (e Precedence.unary) before.advance inner after ∧
        r = .unary before.current before.current.literal inner := by
  unfold unaryExpression
  simp only [accepts_current_bind, accepts_advance_bind,
    accepts_bind (he _) (fun _ => respectedProgress.pure_parses _), accepts_pure]
  constructor
  · rintro ⟨inner, _, h, rfl, rfl⟩
    exact ⟨inner, h, rfl⟩
  · rintro ⟨inner, h, rfl⟩
    exact ⟨inner, after, h, rfl, rfl⟩

/-- An expression in parentheses is the expression itself. -/
theorem accepts_groupedExpression (he : ∀ level, Accounted (e level)) {r : Expr} :
    Accepts (groupedExpression e) before r after ↔
      ∃ middle, Accepts (e Precedence.lowest) before.advance r middle ∧
        middle.upcoming.kind = .rparen ∧ after = middle.advance := by
  have hrest : ∀ inner : Expr, Accounted (do expect .rparen; return inner) := fun inner =>
    (respectedProgress.expect _).bind fun _ => respectedProgress.pure_parses inner
  unfold groupedExpression
  simp only [accepts_advance_bind, accepts_bind (he _) hrest, accepts_expect_bind, accepts_pure]
  constructor
  · rintro ⟨inner, middle, h, hr, rfl, rfl⟩
    exact ⟨middle, h, hr, rfl⟩
  · rintro ⟨middle, h, hr, rfl⟩
    exact ⟨r, middle, h, hr, rfl, rfl⟩

/-- A choice has a condition in parentheses, a block, and a second block if and only if `else`
follows. -/
theorem accepts_ifExpression (he : ∀ level, Accounted (e level)) {r : Expr} :
    Accepts (ifExpression e) before r after ↔
      before.upcoming.kind = .lparen ∧ ∃ condition first, 
        Accepts (e Precedence.lowest) before.advance.advance condition first ∧
        first.upcoming.kind = .rparen ∧ first.advance.upcoming.kind = .lbrace ∧
        ∃ consequence second, Clean (block e) first.advance.advance consequence second ∧
          if second.upcoming.kind = .elseKw then
            second.advance.upcoming.kind = .lbrace ∧ ∃ alternative,
              Clean (block e) second.advance.advance alternative after ∧
              r = .cond before.current condition consequence (some alternative)
          else r = .cond before.current condition consequence none ∧ after = second := by
  have hblock := Steady.lift (respectedProgress.block (f := e) he)
  have htail : ∀ condition consequence, Accounted (do
      if (← upcoming).kind = .elseKw then
        advance
        expect .lbrace
        let alternative ← block e
        return .cond before.current condition consequence (some alternative)
      else return .cond before.current condition consequence none : ParseM Expr) := by
    intro condition consequence
    refine (Steady.lift respectedProgress.upcoming).bind fun token => ?_
    split
    · refine (Steady.lift respectedProgress.advance).bind fun _ => ?_
      refine (respectedProgress.expect _).bind fun _ => ?_
      exact hblock.bind fun _ => respectedProgress.pure_parses _
    · exact respectedProgress.pure_parses _
  have hrest : ∀ condition, Accounted (do
      expect .rparen
      expect .lbrace
      let consequence ← block e
      if (← upcoming).kind = .elseKw then
        advance
        expect .lbrace
        let alternative ← block e
        return .cond before.current condition consequence (some alternative)
      else return .cond before.current condition consequence none : ParseM Expr) := fun condition =>
    (respectedProgress.expect _).bind fun _ => (respectedProgress.expect _).bind fun _ =>
      hblock.bind fun _ => htail _ _
  unfold ifExpression
  simp only [accepts_current_bind, accepts_expect_bind, accepts_advance_bind,
    accepts_bind (he _) hrest, accepts_bind hblock (htail _), accepts_lift,
    accepts_upcoming_bind]
  refine and_congr_right fun _ => exists_congr fun condition => exists_congr fun first =>
    and_congr_right fun _ => and_congr_right fun _ => and_congr_right fun _ =>
    exists_congr fun consequence => exists_congr fun second => and_congr_right fun _ => ?_
  split
  · simp only [accepts_advance_bind, accepts_expect_bind,
      accepts_bind hblock (fun _ => respectedProgress.pure_parses _), accepts_lift, accepts_pure]
    refine and_congr_right fun _ => exists_congr fun alternative => ?_
    constructor
    · rintro ⟨_, h, rfl, rfl⟩
      exact ⟨h, rfl⟩
    · rintro ⟨h, rfl⟩
      exact ⟨after, h, rfl, rfl⟩
  · exact accepts_pure

/-- Without rounds there are no more parameters. -/
theorem accepts_moreParameters_nil {found : Array Ident} {ps : List Ident} :
    Accepts (moreParameters [] found) before ps after ↔ ps = found.toList ∧ after = before :=
  accepts_pure

/-- One round of a loop over parameters. -/
theorem accepts_moreParameters_cons {round : Token} {rounds : List Token} {found : Array Ident}
    {ps : List Ident} :
    Accepts (moreParameters (round :: rounds) found) before ps after ↔
      if before.upcoming.kind = .comma then
        before.advance.upcoming.kind = .ident ∧
          Accepts (moreParameters rounds (found.push
            ⟨before.advance.advance.current, before.advance.advance.current.literal⟩))
            before.advance.advance ps after
      else ps = found.toList ∧ after = before := by
  rw [moreParameters, accepts_upcoming_bind]
  split
  · simp only [accepts_advance_bind, accepts_expect_bind, accepts_identifier_bind]
  · exact accepts_pure

/-- Either the list of parameters is empty, or it starts with a name and ends with a parenthesis. -/
theorem accepts_functionParameters {ps : List Ident} :
    Accepts functionParameters before ps after ↔
      if before.upcoming.kind = .rparen then ps = [] ∧ after = before.advance
      else before.upcoming.kind = .ident ∧ ∃ middle,
        Accepts (moreParameters before.advance.tokens
          #[⟨before.advance.current, before.advance.current.literal⟩]) before.advance ps middle ∧
        middle.upcoming.kind = .rparen ∧ after = middle.advance := by
  have hrest : ∀ ps : List Ident, Accounted (do expect .rparen; return ps) := fun ps =>
    (respectedProgress.expect _).bind fun _ => respectedProgress.pure_parses ps
  unfold functionParameters
  rw [accepts_upcoming_bind]
  split
  · simp only [accepts_advance_bind, accepts_pure]
  · simp only [accepts_expect_bind, accepts_identifier_bind, accepts_remaining_bind,
      accepts_bind (respectedProgress.moreParameters _ _) hrest, accepts_pure]
    refine and_congr_right fun _ => ?_
    constructor
    · rintro ⟨_, middle, h, hr, rfl, rfl⟩
      exact ⟨middle, h, hr, rfl⟩
    · rintro ⟨middle, h, hr, rfl⟩
      exact ⟨ps, middle, h, hr, rfl, rfl⟩

/-- A function literal has parameters in parentheses and a block. -/
theorem accepts_functionLiteral (he : ∀ level, Accounted (e level)) {r : Expr} :
    Accepts (functionLiteral e) before r after ↔
      before.upcoming.kind = .lparen ∧ ∃ parameters middle body,
        Accepts functionParameters before.advance parameters middle ∧
        middle.upcoming.kind = .lbrace ∧ Clean (block e) middle.advance body after ∧
        r = .fn before.current parameters body := by
  have hblock := Steady.lift (respectedProgress.block (f := e) he)
  have hbody : ∀ parameters, ∀ _ : Unit, Accounted (do
      let body ← block e
      return .fn before.current parameters body : ParseM Expr) := fun parameters _ =>
    hblock.bind fun _ => respectedProgress.pure_parses _
  have hrest : ∀ parameters, Accounted (do
      expect .lbrace
      let body ← block e
      return .fn before.current parameters body : ParseM Expr) := fun parameters =>
    (respectedProgress.expect _).bind (hbody parameters)
  unfold functionLiteral
  simp only [accepts_current_bind, accepts_expect_bind,
    accepts_bind respectedProgress.functionParameters hrest,
    accepts_bind hblock (fun _ => respectedProgress.pure_parses _), accepts_lift, accepts_pure]
  refine and_congr_right fun _ => exists_congr fun parameters => exists_congr fun middle => ?_
  constructor
  · rintro ⟨hp, hl, body, _, hb, rfl, rfl⟩
    exact ⟨body, hp, hl, hb, rfl⟩
  · rintro ⟨body, hp, hl, hb, rfl⟩
    exact ⟨hp, hl, body, after, hb, rfl, rfl⟩

/-- Without rounds there are no more expressions. -/
theorem accepts_moreExpressions_nil {found : Array Expr} {es : List Expr} :
    Accepts (moreExpressions e [] found) before es after ↔ es = found.toList ∧ after = before :=
  accepts_pure

/-- One round of a loop over expressions. -/
theorem accepts_moreExpressions_cons (he : ∀ level, Accounted (e level)) {round : Token}
    {rounds : List Token} {found : Array Expr} {es : List Expr} :
    Accepts (moreExpressions e (round :: rounds) found) before es after ↔
      if before.upcoming.kind = .comma then
        ∃ next middle, Accepts (e Precedence.lowest) before.advance.advance next middle ∧
          Accepts (moreExpressions e rounds (found.push next)) middle es after
      else es = found.toList ∧ after = before := by
  rw [moreExpressions, accepts_upcoming_bind]
  split
  · simp only [accepts_advance_bind, accepts_bind (he _)
      (fun next => respectedProgress.moreExpressions (f := e) he rounds (found.push next))]
  · exact accepts_pure

/-- Either the list of expressions is empty, or it starts with an expression and ends with the
closing token. -/
theorem accepts_expressionList (he : ∀ level, Accounted (e level)) {close : Token.Kind}
    {es : List Expr} :
    Accepts (expressionList e close) before es after ↔
      if before.upcoming.kind = close then es = [] ∧ after = before.advance
      else ∃ first middle last, Accepts (e Precedence.lowest) before.advance first middle ∧
        Accepts (moreExpressions e middle.tokens #[first]) middle es last ∧
        last.upcoming.kind = close ∧ after = last.advance := by
  have hmore := respectedProgress.moreExpressions (f := e) he
  have hclose : ∀ es : List Expr, Accounted (do expect close; return es) := fun es =>
    (respectedProgress.expect _).bind fun _ => respectedProgress.pure_parses es
  have hrest : ∀ first : Expr, Accounted (do
      let expressions ← moreExpressions e (← remaining) #[first]
      expect close
      return expressions) := fun first =>
    (Steady.lift respectedProgress.remaining).bind fun rounds =>
      Accounted.bind (hmore rounds #[first]) hclose
  unfold expressionList
  rw [accepts_upcoming_bind]
  split
  · simp only [accepts_advance_bind, accepts_pure]
  · simp only [accepts_advance_bind, accepts_bind (he _) hrest, accepts_remaining_bind,
      accepts_bind (hmore _ _) hclose, accepts_expect_bind, accepts_pure]
    constructor
    · rintro ⟨first, middle, h, _, last, hm, hc, rfl, rfl⟩
      exact ⟨first, middle, last, h, hm, hc, rfl⟩
    · rintro ⟨first, middle, last, h, hm, hc, rfl⟩
      exact ⟨first, middle, h, es, last, hm, hc, rfl, rfl⟩

/-- A parenthesis continues an expression by a call, and any other token by an operator that is
followed by a more tightly binding operand. -/
theorem accepts_extend (he : ∀ level, Accounted (e level)) {left r : Expr} :
    Accepts (extend e left) before r after ↔
      if before.current.kind = .lparen then
        ∃ arguments, Accepts (expressionList e .rparen) before arguments after ∧
          r = .call before.current left arguments
      else ∃ right, Accepts (e before.current.kind.precedence) before.advance right after ∧
        r = .binary before.current left before.current.literal right := by
  unfold extend
  rw [accepts_current_bind]
  split
  · rw [callExpression, accepts_current_bind,
      accepts_bind (respectedProgress.expressionList (f := e) he _)
        fun _ => respectedProgress.pure_parses _]
    simp only [accepts_pure]
    constructor
    · rintro ⟨arguments, _, h, rfl, rfl⟩
      exact ⟨arguments, h, rfl⟩
    · rintro ⟨arguments, h, rfl⟩
      exact ⟨arguments, after, h, rfl, rfl⟩
  · simp only [binaryExpression, accepts_current_bind, accepts_advance_bind,
      accepts_bind (he _) (fun _ => respectedProgress.pure_parses _), accepts_pure]
    constructor
    · rintro ⟨right, _, h, rfl, rfl⟩
      exact ⟨right, h, rfl⟩
    · rintro ⟨right, h, rfl⟩
      exact ⟨right, after, h, rfl, rfl⟩

/-- What an expression may start with. -/
theorem accepts_operand {r : Expr} :
    Accepts (operand e) before r after ↔
      match before.current.kind with
      | .ident => r = .ident ⟨before.current, before.current.literal⟩ ∧ after = before
      | .int => Accepts integerLiteral before r after
      | .trueKw => r = .bool before.current true ∧ after = before
      | .falseKw => r = .bool before.current false ∧ after = before
      | .bang | .minus => Accepts (unaryExpression e) before r after
      | .lparen => Accepts (groupedExpression e) before r after
      | .ifKw => Accepts (ifExpression e) before r after
      | .fnKw => Accepts (functionLiteral e) before r after
      | _ => False := by
  have hbool : Clean booleanLiteral before r after ↔
      r = .bool before.current (before.current.kind == .trueKw) ∧ after = before :=
    clean_iff_of_run rfl rfl
  unfold operand
  rw [accepts_current_bind]
  cases hk : before.current.kind <;>
    simp only [hk, accepts_identifier_bind, accepts_pure, accepts_lift, hbool, accepts_reject]
  all_goals exact Iff.rfl

/-- Without rounds an expression is not continued. -/
theorem accepts_extendAll_nil {level : Int} {left r : Expr} :
    Accepts (extendAll e level [] left) before r after ↔ r = left ∧ after = before :=
  accepts_pure

/-- One round of the loop that continues an expression. -/
theorem accepts_extendAll_cons (he : ∀ level, Accounted (e level)) {level : Int} {round : Token}
    {rounds : List Token} {left r : Expr} :
    Accepts (extendAll e level (round :: rounds) left) before r after ↔
      if before.upcoming.kind ≠ .semicolon ∧ level < before.upcoming.kind.precedence ∧
          before.upcoming.kind.isInfix then
        ∃ next middle, Accepts (extend e left) before.advance next middle ∧
          Accepts (extendAll e level rounds next) middle r after
      else r = left ∧ after = before := by
  rw [extendAll, accepts_upcoming_bind]
  dsimp only
  split
  · simp only [accepts_advance_bind,
      accepts_bind (respectedProgress.extend (f := e) he left)
        (fun next => respectedProgress.extendAll (f := e) he level rounds next)]
  · exact accepts_pure

/-- An expression is an operand with what continues it. -/
theorem accepts_expression_succ {depth : Nat} {level : Int} {r : Expr} :
    Accepts (expression (depth + 1) level) before r after ↔
      ∃ left middle, Accepts (operand (expression depth)) before left middle ∧
        Accepts (extendAll (expression depth) level middle.tokens left) middle r after := by
  have he := expression_accounted depth
  have hrest : ∀ left, Accounted (do
      extendAll (expression depth) level (← remaining) left) := fun left =>
    (Steady.lift respectedProgress.remaining).bind fun rounds =>
      respectedProgress.extendAll (f := expression depth) he level rounds left
  rw [expression, accepts_bind (respectedProgress.operand (f := expression depth) he) hrest]
  simp only [accepts_remaining_bind]

end Readers

end Reading

end Inkwell
