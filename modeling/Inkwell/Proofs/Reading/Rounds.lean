import Inkwell.Proofs.Reading.Progress

/-!
# Loops without rounds

A loop is given as many rounds as there are tokens left, which makes it end. As each of its rounds
advances, it never runs out of them, and from the same cursor any larger number of rounds comes to
the same. So a loop that asks for its rounds itself satisfies an equation in which they do not
occur, and the readers around it can be written without them.
-/

namespace Inkwell

namespace Reading

variable {α β : Type} {cursor : Cursor} {e : Int → ParseM Expr}

/-- Readers that end alike from every cursor are the same. -/
theorem steps_ext {x y : ReadM α} (h : ∀ cursor, x.run cursor = y.run cursor) : x = y := funext h

/-- The second part of a sequence matters only where the first one ends. -/
theorem run_bind_steps_congr {x : ReadM α} {f g : α → ReadM β}
    (h : ∀ a middle, x.run cursor = .ok a middle → (f a).run middle = (g a).run middle) :
    (x >>= f).run cursor = (x >>= g).run cursor := by
  rw [run_bind_steps, run_bind_steps]
  cases hr : x.run cursor with
  | ok a middle => exact h a middle hr
  | error => rfl

/-- Among readers that may give up, the second part matters only behind a result. -/
theorem run_bind_parses_congr {x : ParseM α} {f g : α → ParseM β}
    (h : ∀ a middle, x.run.run cursor = .ok (some a) middle →
      (f a).run.run middle = (g a).run.run middle) :
    (x >>= f).run.run cursor = (x >>= g).run.run cursor := by
  rw [run_bind_parses, run_bind_parses]
  cases hr : x.run.run cursor with
  | error => rfl
  | ok result middle =>
    cases result with
    | none => rfl
    | some a => exact h a middle hr

/-- Where a reader ends that makes progress, there are no more tokens than before. -/
theorem length_le_of_run {owed : α → Nat} {x : ReadM α} (hx : Moves owed x) {a : α}
    {after : Cursor} (h : x.run cursor = .ok a after) :
    after.tokens.length ≤ cursor.tokens.length := by
  have hp := hx cursor
  rw [h] at hp
  exact hp.tokens.length_le

/-- A move leaves one token less, unless there is none. -/
theorem length_advance (cursor : Cursor) :
    cursor.advance.tokens.length = cursor.tokens.length - 1 := List.length_tail

/-- As many rounds as there are tokens are enough: more of them change nothing. -/
def Enough (loop : List Token → ReadM α) : Prop :=
  ∀ {cursor : Cursor} {rounds others : List Token}, cursor.tokens.length ≤ rounds.length →
    cursor.tokens.length ≤ others.length → (loop rounds).run cursor = (loop others).run cursor

/-- A loop that asks for its rounds comes to the same as one that has enough. -/
theorem Enough.run_remaining {loop : List Token → ReadM α} (h : Enough loop) {rounds : List Token}
    (hlen : cursor.tokens.length ≤ rounds.length) :
    (remaining >>= loop).run cursor = (loop rounds).run cursor := by
  have hrun : remaining.run cursor = .ok cursor.tokens cursor := rfl
  rw [run_bind_steps, hrun]
  exact h (Nat.le_refl _) hlen

/-- A loop takes one round after the other, with something that it carries along. What it does in
one round ends at the end of the input, and goes on only behind a token. -/
structure IsLoop {σ : Type} (loop : List Token → σ → ReadM α)
    (body : (σ → ReadM α) → σ → ReadM α) : Prop where
  cons : ∀ round rounds s, loop (round :: rounds) s = body (loop rounds) s
  nil : ∀ {cursor : Cursor} next s, cursor.tokens = [] →
    (body next s).run cursor = (loop [] s).run cursor
  congr : ∀ {cursor : Cursor} {next next' : σ → ReadM α} s,
    (∀ s' middle, middle.tokens.length ≤ cursor.tokens.length - 1 →
      (next s').run middle = (next' s').run middle) →
    (body next s).run cursor = (body next' s).run cursor

namespace IsLoop

variable {σ : Type} {loop : List Token → σ → ReadM α} {body : (σ → ReadM α) → σ → ReadM α}

/-- At the end of the input the rounds do not matter. -/
theorem run_nil (h : IsLoop loop body) (hnil : cursor.tokens = []) (rounds : List Token) (s : σ) :
    (loop rounds s).run cursor = (loop [] s).run cursor := by
  cases rounds with
  | nil => rfl
  | cons round rounds => rw [h.cons, h.nil _ _ hnil]

/-- A loop whose rounds all advance has enough rounds with one for each token. -/
theorem enough (h : IsLoop loop body) (s : σ) : Enough fun rounds => loop rounds s := by
  intro cursor rounds others hrounds hothers
  have hend : ∀ {cursor : Cursor}, cursor.tokens.length ≤ ([] : List Token).length →
      cursor.tokens = [] := fun h => List.eq_nil_of_length_eq_zero (Nat.le_zero.mp h)
  induction rounds generalizing cursor others s with
  | nil => exact (h.run_nil (hend hrounds) others s).symm
  | cons round rounds ih =>
    cases others with
    | nil => exact h.run_nil (hend hothers) _ s
    | cons other others =>
      simp only [List.length_cons] at hrounds hothers
      dsimp only
      rw [h.cons, h.cons]
      exact h.congr s fun s' middle hle => ih s' (by omega) (by omega)

/-- A loop that asks for its rounds is its own continuation behind one of them. -/
theorem unroll (h : IsLoop loop body) (s : σ) :
    (remaining >>= fun rounds => loop rounds s) =
      body (fun s => remaining >>= fun rounds => loop rounds s) s := by
  refine steps_ext fun cursor => ?_
  have hmore : cursor.tokens.length ≤ (Token.eof :: cursor.tokens).length := Nat.le_succ _
  rw [Enough.run_remaining (h.enough s) hmore, h.cons]
  refine h.congr s fun s' middle hle => ?_
  exact (Enough.run_remaining (h.enough s') (Nat.le_trans hle (Nat.sub_le _ _))).symm

end IsLoop

/-- Where no tokens are left, the current one is the end of the input. -/
theorem run_current_nil (h : cursor.tokens = []) : current.run cursor = .ok Token.eof cursor := by
  have heof : cursor.current = Token.eof := by rw [Cursor.current, h]
  rw [← heof]
  rfl

/-- There the upcoming one is, too. -/
theorem run_upcoming_nil (h : cursor.tokens = []) :
    (liftM upcoming : ParseM Token).run.run cursor = .ok (some Token.eof) cursor := by
  have heof : cursor.upcoming = Token.eof := by rw [Cursor.upcoming, h]
  rw [← heof]
  rfl

/-- Statements up to a token at which the loop ends, or up to the end of the input. -/
def statements (ends : Token.Kind → Bool) (e : Int → ParseM Expr) (kept : Array Stmt) :
    ReadM (List Stmt) := do
  statementsUntil ends e (← remaining) kept

/-- A round of the loop over statements reads one of them and moves on. -/
theorem isLoop_statementsUntil (he : ∀ level, Accounted (e level)) (ends : Token.Kind → Bool) :
    IsLoop (statementsUntil ends e) fun next kept => do
      let kind := (← current).kind
      if kind = .eof ∨ ends kind then return kept.toList
      let result ← (statement e).run
      advance
      next (kept ++ result.toArray) where
  cons _ _ _ := by rw [statementsUntil]
  nil next kept hnil := by
    rw [run_bind_steps, run_current_nil hnil]
    rfl
  congr kept h := by
    refine run_bind_steps_congr fun token start hstart => ?_
    cases hstart
    dsimp only
    split
    · rfl
    · refine run_bind_steps_congr fun result middle hstatement => ?_
      have hle := length_le_of_run (respectedProgress.statement (f := e) he).attempted hstatement
      refine run_bind_steps_congr fun _ last hlast => ?_
      cases hlast
      exact h _ _ (by rw [length_advance]; omega)

/-- One statement, and the loop behind it. -/
theorem statements_eq (he : ∀ level, Accounted (e level)) (ends : Token.Kind → Bool)
    (kept : Array Stmt) :
    statements ends e kept = (do
      let kind := (← current).kind
      if kind = .eof ∨ ends kind then return kept.toList
      let result ← (statement e).run
      advance
      statements ends e (kept ++ result.toArray)) :=
  (isLoop_statementsUntil he ends).unroll kept

/-- Before a token at which it ends, the loop gives what it has kept and does not move. -/
theorem run_statements_of_end (he : ∀ level, Accounted (e level)) {ends : Token.Kind → Bool}
    {kept : Array Stmt} (h : cursor.current.kind = .eof ∨ ends cursor.current.kind) :
    (statements ends e kept).run cursor = .ok kept.toList cursor := by
  have hcurrent : current.run cursor = .ok cursor.current cursor := rfl
  rw [statements_eq he, run_bind_steps, hcurrent]
  dsimp only
  rw [if_pos h]
  rfl

/-- Before any other token it reads a statement, moves one token further and goes on with what it
has kept then. -/
theorem run_statements (he : ∀ level, Accounted (e level)) {ends : Token.Kind → Bool}
    {kept : Array Stmt} (h : ¬ (cursor.current.kind = .eof ∨ ends cursor.current.kind)) :
    (statements ends e kept).run cursor =
      match (statement e).run.run cursor with
      | .ok result after => (statements ends e (kept ++ result.toArray)).run after.advance
      | .error cause after => .error cause after := by
  have hcurrent : current.run cursor = .ok cursor.current cursor := rfl
  rw [statements_eq he, run_bind_steps, hcurrent]
  dsimp only
  rw [if_neg h, run_bind_steps]
  cases (statement e).run.run cursor <;> rfl

/-- The parameters that follow the first one. -/
def parametersBehind (found : Array Ident) : ParseM (List Ident) := do
  moreParameters (← remaining) found

/-- A round of the loop over parameters passes a comma and a name. -/
theorem isLoop_moreParameters :
    IsLoop (fun rounds found => (moreParameters rounds found).run) fun next found => OptionT.run do
      if (← upcoming).kind = .comma then
        advance
        expect .ident
        OptionT.mk (next (found.push (← identifier)))
      else return found.toList where
  cons _ _ _ := by rw [moreParameters]; rfl
  nil next found hnil := by
    rw [run_bind_parses, run_upcoming_nil hnil]
    rfl
  congr found h := by
    refine run_bind_parses_congr fun token start hstart => ?_
    cases hstart
    split
    · refine run_bind_parses_congr fun _ middle hmiddle => ?_
      cases hmiddle
      refine run_bind_parses_congr fun _ last hlast => ?_
      have hle := length_le_of_run (respectedProgress.expect .ident) hlast
      rw [length_advance] at hle
      refine run_bind_parses_congr fun parameter name hname => ?_
      cases hname
      exact h _ _ hle
    · rfl

/-- A comma and a name, and the loop behind them. -/
theorem parametersBehind_eq (found : Array Ident) :
    parametersBehind found = (do
      if (← upcoming).kind = .comma then
        advance
        expect .ident
        parametersBehind (found.push (← identifier))
      else return found.toList) :=
  isLoop_moreParameters.unroll found

/-- The expressions that follow the first one in a list. -/
def expressionsBehind (e : Int → ParseM Expr) (found : Array Expr) : ParseM (List Expr) := do
  moreExpressions e (← remaining) found

/-- A round of the loop over expressions passes a comma and an expression. -/
theorem isLoop_moreExpressions (he : ∀ level, Accounted (e level)) :
    IsLoop (fun rounds found => (moreExpressions e rounds found).run)
      fun next found => OptionT.run do
        if (← upcoming).kind = .comma then
          advance
          advance
          OptionT.mk (next (found.push (← e Precedence.lowest)))
        else return found.toList where
  cons _ _ _ := by rw [moreExpressions]; rfl
  nil next found hnil := by
    rw [run_bind_parses, run_upcoming_nil hnil]
    rfl
  congr found h := by
    refine run_bind_parses_congr fun token start hstart => ?_
    cases hstart
    split
    · refine run_bind_parses_congr fun _ comma hcomma => ?_
      cases hcomma
      refine run_bind_parses_congr fun _ first hfirst => ?_
      cases hfirst
      refine run_bind_parses_congr fun r last hlast => ?_
      have hle := length_le_of_run (he _) hlast
      rw [length_advance, length_advance] at hle
      exact h _ _ (by omega)
    · rfl

/-- A comma and an expression, and the loop behind them. -/
theorem expressionsBehind_eq (he : ∀ level, Accounted (e level)) (found : Array Expr) :
    expressionsBehind e found = (do
      if (← upcoming).kind = .comma then
        advance
        advance
        expressionsBehind e (found.push (← e Precedence.lowest))
      else return found.toList) :=
  (isLoop_moreExpressions he).unroll found

/-- Operators and calls behind an expression, as far as a level allows. -/
def extended (e : Int → ParseM Expr) (level : Int) (left : Expr) : ParseM Expr := do
  extendAll e level (← remaining) left

/-- A round of the loop over operators passes an operator with its right operand, or a call. -/
theorem isLoop_extendAll (he : ∀ level, Accounted (e level)) (level : Int) :
    IsLoop (fun rounds left => (extendAll e level rounds left).run)
      fun next left => OptionT.run do
        let kind := (← upcoming).kind
        if kind ≠ .semicolon ∧ level < kind.precedence ∧ kind.isInfix then
          advance
          OptionT.mk (next (← extend e left))
        else return left where
  cons _ _ _ := by rw [extendAll]; rfl
  nil next found hnil := by
    rw [run_bind_parses, run_upcoming_nil hnil]
    simp only [Token.eof, Token.Kind.isInfix, Bool.false_eq_true, and_false, if_false]
    rfl
  congr found h := by
    refine run_bind_parses_congr fun token start hstart => ?_
    cases hstart
    dsimp only
    split
    · refine run_bind_parses_congr fun _ first hfirst => ?_
      cases hfirst
      refine run_bind_parses_congr fun r last hlast => ?_
      have hle := length_le_of_run (respectedProgress.extend (f := e) he _) hlast
      rw [length_advance] at hle
      exact h _ _ hle
    · rfl

/-- One operator or call, and the loop behind it. -/
theorem extended_eq (he : ∀ level, Accounted (e level)) (level : Int) (left : Expr) :
    extended e level left = (do
      let kind := (← upcoming).kind
      if kind ≠ .semicolon ∧ level < kind.precedence ∧ kind.isInfix then
        advance
        extended e level (← extend e left)
      else return left) :=
  (isLoop_extendAll he level).unroll left

/-- A block, with its loop in the place of the rounds. -/
theorem block_eq : block e = (do
    let token ← current
    advance
    let ss ← statements (· == .rbrace) e #[]
    return .mk token ss) := by
  simp only [block, statements, bind_assoc]

/-- A block moves over its brace and ends where its loop does. -/
theorem run_block : (block e).run cursor =
    match (statements (· == .rbrace) e #[]).run cursor.advance with
    | .ok ss after => .ok (.mk cursor.current ss) after
    | .error cause after => .error cause after := by
  have hcurrent : current.run cursor = .ok cursor.current cursor := rfl
  have hadvance : advance.run cursor = .ok () cursor.advance := rfl
  rw [block_eq, run_bind_steps, hcurrent]
  dsimp only
  rw [run_bind_steps, hadvance]
  dsimp only
  rw [run_bind_steps]
  cases (statements (· == .rbrace) e #[]).run cursor.advance <;> rfl

/-- A program ends where its loop does. -/
theorem run_program : (program e).run cursor =
    match (statements (fun _ => false) e #[]).run cursor with
    | .ok ss after => .ok ⟨ss⟩ after
    | .error cause after => .error cause after := by
  have hprogram : program e = do return ⟨← statements (fun _ => false) e #[]⟩ := by
    simp only [program, statements, bind_assoc]
  rw [hprogram, run_bind_steps]
  cases (statements (fun _ => false) e #[]).run cursor <;> rfl

/-- Parameters, with their loop in the place of the rounds. -/
theorem functionParameters_eq : functionParameters = (do
    if (← upcoming).kind = .rparen then
      advance
      return []
    else
      expect .ident
      let first ← identifier
      let parameters ← parametersBehind #[first]
      expect .rparen
      return parameters) := by
  simp only [functionParameters, parametersBehind, bind_assoc]

/-- A list of expressions, with its loop in the place of the rounds. -/
theorem expressionList_eq (close : Token.Kind) : expressionList e close = (do
    if (← upcoming).kind = close then
      advance
      return []
    else
      advance
      let first ← e Precedence.lowest
      let expressions ← expressionsBehind e #[first]
      expect close
      return expressions) := by
  simp only [expressionList, expressionsBehind, bind_assoc]

/-- An expression, with its loop in the place of the rounds. -/
theorem expression_succ_eq (depth : Nat) (level : Int) : expression (depth + 1) level = (do
    let left ← operand (expression depth)
    extended (expression depth) level left) := rfl

end Reading

open Reading in
/-- What reading a text gives, told by the loop over its statements. -/
theorem Program.read_eq_ok_iff_statements {depth : Nat} {tokens : List Token} {result : Parsed} :
    Program.read depth tokens = .ok result ↔
      ∃ after, (Reading.statements (fun _ => false) (expression depth) #[]).run (.ofTokens tokens) =
        .ok result.program.statements after ∧ after.diagnostics.toList = result.diagnostics := by
  unfold Program.read
  rw [run_program]
  cases (Reading.statements (fun _ => false) (expression depth) #[]).run (.ofTokens tokens) with
  | error => simp
  | ok ss after =>
    obtain ⟨⟨statements⟩, diagnostics⟩ := result
    simp only [Except.ok.injEq, Parsed.mk.injEq, Program.mk.injEq, EStateM.Result.ok.injEq]
    constructor
    · rintro ⟨rfl, h⟩
      exact ⟨after, ⟨rfl, rfl⟩, h⟩
    · rintro ⟨_, ⟨rfl, rfl⟩, h⟩
      exact ⟨rfl, h⟩

end Inkwell
