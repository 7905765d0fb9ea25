import Inkwell.Proofs.Reading.Budget
import Inkwell.Proofs.Reading.Rounds

/-!
# Reading always ends

The loops of the readers are given a number of rounds. Here they are compared with loops that have
no such bound and go on for as long as their test holds. These end too, and after no more rounds
than there are tokens left, because every round moves the cursor forward: also where a statement is
given up on the spot, and although there is no moving beyond the end of the input. With a depth
beyond the number of tokens, reading therefore always comes to the end of the text.
-/

namespace Inkwell

namespace Reading

variable {α β σ ρ : Type} {cursor after : Cursor} {e : Int → ParseM Expr}

/-- A loop that goes on for as long as its test holds. It carries something along; a round gives
what is carried on, or the result with which the loop is left in the middle. -/
structure While (σ ρ : Type) where
  /-- Whether another round is taken. -/
  test : Cursor → Prop
  /-- One round. -/
  round : σ → ReadM (Except ρ σ)
  /-- The result where the test fails. -/
  result : σ → ρ

namespace While

/-- A loop ends, after some number of rounds. -/
inductive Ends (loop : While σ ρ) : σ → Cursor → Nat → EStateM.Result Stop Cursor ρ → Prop
  | done {s : σ} {cursor : Cursor} : ¬ loop.test cursor →
    Ends loop s cursor 0 (.ok (loop.result s) cursor)
  | stop {s : σ} {cursor after : Cursor} {cause : Stop} : loop.test cursor →
    (loop.round s).run cursor = .error cause after → Ends loop s cursor 1 (.error cause after)
  | leave {s : σ} {cursor after : Cursor} {r : ρ} : loop.test cursor →
    (loop.round s).run cursor = .ok (.error r) after → Ends loop s cursor 1 (.ok r after)
  | next {s t : σ} {cursor middle : Cursor} {n : Nat} {last : EStateM.Result Stop Cursor ρ} :
    loop.test cursor → (loop.round s).run cursor = .ok (.ok t) middle →
    Ends loop t middle n last → Ends loop s cursor (n + 1) last

/-- Rounds are taken before the end of the input only, and every one of them that ends, whatever
comes of it, moves the cursor forward. -/
structure Advances (loop : While σ ρ) : Prop where
  inside : ∀ {cursor}, loop.test cursor → cursor.tokens ≠ []
  forward : ∀ {s cursor carried after}, loop.test cursor →
    (loop.round s).run cursor = .ok carried after →
    after.tokens <:+ cursor.tokens ∧ after.tokens.length < cursor.tokens.length

/-- What is left of a loop behind one of its rounds. -/
def behind (next : σ → ReadM ρ) :
    EStateM.Result Stop Cursor (Except ρ σ) → EStateM.Result Stop Cursor ρ
  | .error cause after => .error cause after
  | .ok (.error r) after => .ok r after
  | .ok (.ok t) middle => (next t).run middle

/-- A reader that is given rounds does what a loop does while it has rounds left. -/
structure Bounded (loop : While σ ρ) (bounded : List Token → σ → ReadM ρ) : Prop where
  out : ∀ s cursor, (bounded [] s).run cursor = .ok (loop.result s) cursor
  done : ∀ {round rounds s cursor}, ¬ loop.test cursor →
    (bounded (round :: rounds) s).run cursor = .ok (loop.result s) cursor
  next : ∀ {round rounds s cursor}, loop.test cursor →
    (bounded (round :: rounds) s).run cursor =
      behind (bounded rounds) ((loop.round s).run cursor)

/-- A loop ends by itself: every round moves forward, and from every cursor it comes to its end
after no more rounds than there are tokens left. It ends as the reader does that is given that many
rounds. -/
structure Terminates (loop : While σ ρ) (bounded : List Token → σ → ReadM ρ) : Prop where
  advances : loop.Advances
  ends : ∀ s cursor, ∃ n ≤ cursor.tokens.length,
    loop.Ends s cursor n ((bounded cursor.tokens s).run cursor)

variable {loop : While σ ρ} {bounded : List Token → σ → ReadM ρ}

/-- As every round takes a token, a loop with as many rounds as tokens never runs out of them. -/
theorem Bounded.ends (h : loop.Bounded bounded) (ha : loop.Advances) (s : σ) {rounds : List Token}
    (hlen : cursor.tokens.length ≤ rounds.length) :
    ∃ n ≤ cursor.tokens.length, loop.Ends s cursor n ((bounded rounds s).run cursor) := by
  induction rounds generalizing s cursor with
  | nil =>
    rw [h.out]
    refine ⟨0, Nat.zero_le _, .done fun htest => ha.inside htest ?_⟩
    exact List.eq_nil_of_length_eq_zero (Nat.le_zero.mp hlen)
  | cons round rounds ih =>
    rw [List.length_cons] at hlen
    by_cases htest : loop.test cursor
    · have hpos : 1 ≤ cursor.tokens.length := List.length_pos_iff.mpr (ha.inside htest)
      rw [h.next htest]
      cases hround : (loop.round s).run cursor with
      | error cause after => exact ⟨1, hpos, .stop htest hround⟩
      | ok carried middle =>
        cases carried with
        | error r => exact ⟨1, hpos, .leave htest hround⟩
        | ok t =>
          have hlt := (ha.forward htest hround).2
          have hmiddle : middle.tokens.length ≤ rounds.length := by omega
          obtain ⟨n, hn, hends⟩ := ih t hmiddle
          exact ⟨n + 1, Nat.lt_of_le_of_lt hn hlt, .next htest hround hends⟩
    · rw [h.done htest]
      exact ⟨0, Nat.zero_le _, .done htest⟩

/-- A loop whose every round advances ends by itself, and with as many rounds as tokens it ends
alike. -/
theorem Bounded.terminates (h : loop.Bounded bounded) (ha : loop.Advances) :
    loop.Terminates bounded :=
  ⟨ha, fun s _ => h.ends ha s (Nat.le_refl _)⟩

end While

/-- The statements of a program, or of a block where the loop ends at a closing brace too. -/
def statementLoop (ends : Token.Kind → Bool) (e : Int → ParseM Expr) :
    While (Array Stmt) (List Stmt) where
  test cursor := ¬ (cursor.current.kind = .eof ∨ ends cursor.current.kind)
  round kept := do
    let result ← (statement e).run
    advance
    return .ok (kept ++ result.toArray)
  result kept := kept.toList

/-- A loop that looks at the upcoming token to see whether to go on, and moves to it in every round.
It is left, with nothing, where a round is given up. -/
def upcomingLoop (goesOn : Token.Kind → Prop) (behind : σ → ParseM σ) (result : σ → ρ) :
    While σ (Option ρ) where
  test cursor := goesOn cursor.upcoming.kind
  round s := do
    match ← (do advance; behind s : ParseM σ).run with
    | some t => return .ok t
    | none => return .error none
  result s := some (result s)

/-- The parameters behind the first one. -/
def parameterLoop : While (Array Ident) (Option (List Ident)) :=
  upcomingLoop (· = .comma) (fun found => do expect .ident; return found.push (← identifier))
    Array.toList

/-- The arguments behind the first one. -/
def argumentLoop (e : Int → ParseM Expr) : While (Array Expr) (Option (List Expr)) :=
  upcomingLoop (· = .comma) (fun found => do advance; return found.push (← e Precedence.lowest))
    Array.toList

/-- The operators and calls behind an operand. -/
def infixLoop (e : Int → ParseM Expr) (level : Int) : While Expr (Option Expr) :=
  upcomingLoop (fun kind => kind ≠ .semicolon ∧ level < kind.precedence ∧ kind.isInfix) (extend e)
    id

/-- Behind a move from before the end of the input there are fewer tokens. -/
theorem length_advance_lt_of_ne_nil (h : cursor.tokens ≠ []) :
    cursor.advance.tokens.length < cursor.tokens.length := by
  have hpos := List.length_pos_iff.mpr h
  rw [length_advance]
  omega

/-- A round ends behind the statement and one more token, also where the statement was given up
without a move. -/
theorem advances_statementLoop (he : ∀ level, Accounted (e level)) (ends : Token.Kind → Bool) :
    (statementLoop ends e).Advances where
  inside {cursor} htest hnil := htest (.inl (by rw [Cursor.current, hnil]; rfl))
  forward {kept cursor carried after} htest hround := by
    have hne : cursor.tokens ≠ [] := fun hnil =>
      htest (.inl (by rw [Cursor.current, hnil]; rfl))
    have hpos := List.length_pos_iff.mpr hne
    have hprogress := (respectedProgress.statement (f := e) he).attempted cursor
    dsimp only [statementLoop] at hround
    rw [run_bind_steps] at hround
    cases hr : (statement e).run.run cursor with
    | error cause middle =>
      rw [hr] at hround
      cases hround
    | ok result middle =>
      rw [hr] at hround hprogress
      cases hround
      have hsuffix := hprogress.tokens
      have hle := hsuffix.length_le
      refine ⟨(List.tail_suffix _).trans hsuffix, ?_⟩
      rw [length_advance]
      omega

/-- A round ends behind the upcoming token at least, which is not the end of the input. -/
theorem advances_upcomingLoop {goesOn : Token.Kind → Prop} {behind : σ → ParseM σ}
    {result : σ → ρ} (heof : ¬ goesOn .eof) (hbehind : ∀ s, Accounted (behind s)) :
    (upcomingLoop goesOn behind result).Advances := by
  have hinside : ∀ {cursor : Cursor}, goesOn cursor.upcoming.kind → cursor.tokens ≠ [] := by
    intro cursor htest hnil
    have hupcoming : cursor.upcoming = Token.eof := by rw [Cursor.upcoming, hnil]
    rw [hupcoming] at htest
    exact heof htest
  refine ⟨fun htest => hinside htest, fun {s cursor carried after} htest hround => ?_⟩
  have hadvance : (liftM advance : ParseM Unit).run.run cursor =
      .ok (some ()) cursor.advance := rfl
  have hprogress := hbehind s cursor.advance
  dsimp only [upcomingLoop] at hround
  rw [run_bind_steps, run_bind_parses, hadvance] at hround
  dsimp only at hround
  have hsuffix : after.tokens <:+ cursor.advance.tokens := by
    cases hrun : (behind s).run.run cursor.advance with
    | error cause middle =>
      rw [hrun] at hround
      cases hround
    | ok found middle =>
      rw [hrun] at hround hprogress
      cases found <;> cases hround <;> exact hprogress.tokens
  have hlt := length_advance_lt_of_ne_nil (hinside htest)
  exact ⟨hsuffix.trans (List.tail_suffix _), Nat.lt_of_le_of_lt hsuffix.length_le hlt⟩

/-- The loop over statements, with its rounds counted, is the loop of the reader. -/
theorem bounded_statementsUntil (ends : Token.Kind → Bool) (e : Int → ParseM Expr) :
    (statementLoop ends e).Bounded (statementsUntil ends e) where
  out _ _ := rfl
  done {_ rounds kept cursor} h := by
    have hends : cursor.current.kind = .eof ∨ ends cursor.current.kind := Decidable.not_not.mp h
    have hcurrent : current.run cursor = .ok cursor.current cursor := rfl
    rw [statementsUntil, run_bind_steps, hcurrent]
    dsimp only
    rw [if_pos hends]
    rfl
  next {_ rounds kept cursor} h := by
    have hends : ¬ (cursor.current.kind = .eof ∨ ends cursor.current.kind) := h
    have hcurrent : current.run cursor = .ok cursor.current cursor := rfl
    rw [statementsUntil, run_bind_steps, hcurrent]
    dsimp only [statementLoop]
    rw [if_neg hends, run_bind_steps, run_bind_steps]
    cases (statement e).run.run cursor <;> rfl

/-- A reader that looks at the upcoming token, moves on and continues is such a loop with its rounds
counted. -/
theorem bounded_of_upcoming {goesOn : Token.Kind → Prop} [DecidablePred goesOn]
    {behind : σ → ParseM σ} {result : σ → ρ} {reader : List Token → σ → ParseM ρ}
    (hnil : ∀ s, reader [] s = return result s)
    (hcons : ∀ round rounds s, reader (round :: rounds) s = do
      if goesOn (← upcoming).kind then
        advance
        reader rounds (← behind s)
      else return result s) :
    (upcomingLoop goesOn behind result).Bounded fun rounds s => (reader rounds s).run := by
  have hupcoming : ∀ cursor : Cursor, (liftM upcoming : ParseM Token).run.run cursor =
      .ok (some cursor.upcoming) cursor := fun _ => rfl
  refine ⟨fun s cursor => by rw [hnil]; rfl, fun {_ _ s cursor} h => ?_,
    fun {_ rounds s cursor} h => ?_⟩
  · have hstop : ¬ goesOn cursor.upcoming.kind := h
    rw [hcons, run_bind_parses, hupcoming]
    dsimp only
    rw [if_neg hstop]
    rfl
  · have hgo : goesOn cursor.upcoming.kind := h
    have hadvance : (liftM advance : ParseM Unit).run.run cursor =
        .ok (some ()) cursor.advance := rfl
    rw [hcons, run_bind_parses, hupcoming]
    dsimp only [upcomingLoop]
    rw [if_pos hgo, run_bind_parses, hadvance, run_bind_steps, run_bind_parses, hadvance]
    dsimp only
    rw [run_bind_parses]
    cases (behind s).run.run cursor.advance with
    | error => rfl
    | ok result => cases result <;> rfl

theorem bounded_moreParameters :
    parameterLoop.Bounded fun rounds found => (moreParameters rounds found).run :=
  bounded_of_upcoming (fun _ => rfl) fun _ _ _ => by
    rw [moreParameters]
    simp only [bind_assoc, pure_bind]

theorem bounded_moreExpressions (e : Int → ParseM Expr) :
    (argumentLoop e).Bounded fun rounds found => (moreExpressions e rounds found).run :=
  bounded_of_upcoming (fun _ => rfl) fun _ _ _ => by
    rw [moreExpressions]
    simp only [bind_assoc, pure_bind]

/-- So is the loop over operators and calls. -/
theorem bounded_extendAll (e : Int → ParseM Expr) (level : Int) :
    (infixLoop e level).Bounded fun rounds left => (extendAll e level rounds left).run :=
  bounded_of_upcoming (fun _ => rfl) fun _ _ _ => by rw [extendAll]; rfl

/-- All loops of the readers end by themselves, wherever they are started. -/
structure LoopsTerminate (e : Int → ParseM Expr) : Prop where
  /-- The statements of a program or of a block. -/
  statements : ∀ ends, (statementLoop ends e).Terminates (statementsUntil ends e)
  /-- The parameters of a function. -/
  parameters : parameterLoop.Terminates fun rounds found => (moreParameters rounds found).run
  /-- The arguments of a call. -/
  arguments : (argumentLoop e).Terminates fun rounds found => (moreExpressions e rounds found).run
  /-- The operators and calls behind an operand. -/
  operators : ∀ level,
    (infixLoop e level).Terminates fun rounds left => (extendAll e level rounds left).run

/-- If nested expressions make progress, every round of every loop does. -/
theorem loopsTerminate (he : ∀ level, Accounted (e level)) : LoopsTerminate e where
  statements ends := (bounded_statementsUntil ends e).terminates (advances_statementLoop he ends)
  parameters := by
    refine bounded_moreParameters.terminates (advances_upcomingLoop (by decide) fun found => ?_)
    refine Accounted.bind (respectedProgress.expect .ident) fun _ => ?_
    exact Accounted.bind respectedProgress.identifier.lift fun _ =>
      respectedProgress.pure_parses _
  arguments := by
    have hbounded := bounded_moreExpressions e
    refine hbounded.terminates (advances_upcomingLoop (by decide) fun found => ?_)
    refine Accounted.bind respectedProgress.advance.lift fun _ => ?_
    exact (he _).bind fun _ => respectedProgress.pure_parses _
  operators level := by
    refine (bounded_extendAll e level).terminates (advances_upcomingLoop ?_ fun left => ?_)
    · exact fun h => absurd h.2.2 (by decide)
    · exact respectedProgress.extend (f := e) he left

/-- A loop over statements comes to an end where its test fails, and nowhere else. -/
theorem While.Ends.not_test {ends : Token.Kind → Bool} {kept : Array Stmt} {n : Nat}
    {last : EStateM.Result Stop Cursor (List Stmt)}
    (h : (statementLoop ends e).Ends kept cursor n last) {statements : List Stmt}
    (hlast : last = .ok statements after) :
    ¬ (statementLoop ends e).test after := by
  induction h with
  | done htest =>
    cases hlast
    exact htest
  | stop => cases hlast
  | @leave kept cursor _ _ htest hround =>
    dsimp only [statementLoop] at hround
    rw [run_bind_steps] at hround
    cases hr : (statement e).run.run cursor <;> rw [hr] at hround <;> cases hround
  | next _ _ _ ih => exact ih hlast

/-- Reading a whole text ends where no readable token is left. -/
theorem tokens_eq_nil_of_program {program : Program} (he : ∀ level, Accounted (e level))
    (h : (Reading.program e).run cursor = .ok program after)
    (hread : ∀ token ∈ after.tokens, token.Readable) : after.tokens = [] := by
  have hends : ∃ n ≤ cursor.tokens.length, (statementLoop (fun _ => false) e).Ends #[] cursor n
      ((statements (fun _ => false) e #[]).run cursor) :=
    ((loopsTerminate he).statements fun _ => false).ends #[] cursor
  obtain ⟨n, -, hends⟩ := hends
  rw [run_program] at h
  cases hr : (statements (fun _ => false) e #[]).run cursor with
  | error => rw [hr] at h; cases h
  | ok ss last =>
    rw [hr] at h
    cases h
    have heof := (Decidable.not_not.mp (hends.not_test hr)).resolve_right Bool.false_ne_true
    cases htokens : after.tokens with
    | nil => rfl
    | cons token rest =>
      rw [Cursor.current, htokens] at heof
      exact absurd heof (hread token (htokens ▸ List.mem_cons_self)).ne_eof

end Reading

open Reading in
/-- Reading always ends. However malformed the tokens are, a depth beyond their number is enough to
read all of them: there is a program, with the diagnostics found, and the current and the upcoming
token are the end of the input. Whatever the depth, each of the loops ends by itself, because every
one of its rounds moves the cursor forward over a token: although a statement may be given up
without a move, and although nothing moves at the end of the input. -/
theorem Program.read_terminates {depth : Nat} {tokens : List Token}
    (ht : ∀ token ∈ tokens, token.Readable) (hdepth : tokens.length < depth) :
    (∃ program last,
      (Reading.program (expression depth)).run (.ofTokens tokens) = .ok program last ∧
      Program.read depth tokens = .ok ⟨program, last.diagnostics.toList⟩ ∧
      last.current = Token.eof ∧ last.upcoming = Token.eof) ∧
    (∀ d, LoopsTerminate (expression d)) ∧
    (∀ d, ∃ before after, before.tokens ≠ [] ∧ after.tokens = before.tokens ∧
      (statement (expression (d + 1))).run.run before = .ok none after) ∧
    (∀ cursor : Cursor, cursor.tokens = [] → cursor.advance = cursor) := by
  refine ⟨?_, fun d => loopsTerminate (expression_accounted d), fun d => ?_, ?_⟩
  · obtain ⟨program, last, hrun, hread⟩ := exists_run_program ht hdepth
    have hnil := tokens_eq_nil_of_program (expression_accounted depth) hrun hread
    refine ⟨program, last, hrun, ?_, ?_, ?_⟩
    · rw [Program.read, hrun]
    · rw [Cursor.current, hnil]
    · rw [Cursor.upcoming, hnil]
  · let before := Cursor.ofTokens [⟨.rparen, ")"⟩]
    exact ⟨before, before.report (.noOperand .rparen), by simp [before, Cursor.ofTokens], rfl, rfl⟩
  · rintro ⟨tokens, diagnostics⟩ rfl
    rfl

open Reading in
/-- Brackets that are opened and not closed, and one that is closed and was not opened. -/
theorem Program.read_terminates_unclosed :
    let tokens : List Token := [⟨.fnKw, "fn"⟩, ⟨.lbrace, "\x7b"⟩, ⟨.rparen, ")"⟩, ⟨.ifKw, "if"⟩,
      ⟨.lparen, "("⟩, ⟨.minus, "-"⟩]
    (∀ token ∈ tokens, token.Readable) ∧ tokens.length < 7 ∧
      ∃ program last,
        (Reading.program (expression 7)).run (.ofTokens tokens) = .ok program last ∧
        Program.read 7 tokens = .ok ⟨program, last.diagnostics.toList⟩ ∧
        last.current = Token.eof ∧ last.upcoming = Token.eof :=
  ⟨by decide, by decide, (Program.read_terminates (by decide) (by decide)).1⟩

end Inkwell
