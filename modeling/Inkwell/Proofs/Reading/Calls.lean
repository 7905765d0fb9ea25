import Inkwell.Proofs.Reading.Budget
import Inkwell.Proofs.Reading.Rounds
import Inkwell.Proofs.Token.Cutting

/-!
# Readers called in any order

The readers do not ask where they are started. Here they are called one after the other, in any
order and with any arguments, each wherever the one before has left the cursor, and also behind one
that has stopped at a numeral. Whatever is called, the cursor shows two tokens of the text that
stand side by side and moves forward only, and diagnostics are added at the end, one at least by a
reader that gives up. Behind an expression stands a token that does not continue it.

A call that stops for want of depth is the last one. The limit that the depth stands for may be hit
at any step, in the middle of a move too, so nothing is said of the cursor that such a call leaves.
With a depth beyond the number of tokens no call stops so.
-/

namespace Inkwell

/-- The tokens of a text and the end of the input behind them, repeated forever. -/
def Token.stream (tokens : List Token) (place : Nat) : Token := tokens[place]?.getD Token.eof

/-- The stream of the last tokens is the rest of the stream. -/
theorem Token.stream_drop (tokens : List Token) (n k : Nat) :
    Token.stream (tokens.drop n) k = Token.stream tokens (n + k) := by
  rw [Token.stream, Token.stream, List.getElem?_drop]

namespace Cursor

/-- How many of the tokens are behind the cursor. -/
def place (tokens : List Token) (cursor : Cursor) : Nat := tokens.length - cursor.tokens.length

/-- The cursor shows the token at a place and the one behind it. -/
def Shows (tokens : List Token) (place : Nat) (cursor : Cursor) : Prop :=
  cursor.current = Token.stream tokens place ∧ cursor.upcoming = Token.stream tokens (place + 1)

/-- The current token is the first of the stream from the cursor on. -/
theorem current_eq_stream (cursor : Cursor) : cursor.current = Token.stream cursor.tokens 0 := by
  unfold current Token.stream
  cases cursor.tokens <;> rfl

/-- The upcoming token is the second one. -/
theorem upcoming_eq_stream (cursor : Cursor) : cursor.upcoming = Token.stream cursor.tokens 1 := by
  unfold upcoming Token.stream
  rcases cursor.tokens with _ | ⟨_, _ | _⟩ <;> rfl

/-- Before some of the last tokens, the cursor shows those at its place. -/
theorem shows_place {tokens : List Token} {cursor : Cursor} (h : cursor.tokens <:+ tokens) :
    cursor.Shows tokens (cursor.place tokens) := by
  have hdrop : cursor.tokens = tokens.drop (cursor.place tokens) :=
    List.suffix_iff_eq_drop.mp h
  rw [Shows, current_eq_stream, upcoming_eq_stream, hdrop, Token.stream_drop, Token.stream_drop]
  exact ⟨rfl, rfl⟩

/-- A move takes the cursor to the next place, also from the end of the input. -/
theorem Shows.advance {tokens : List Token} {cursor : Cursor} (h : cursor.tokens <:+ tokens) :
    cursor.advance.Shows tokens (cursor.place tokens + 1) := by
  have hdrop : cursor.tokens = tokens.drop (cursor.place tokens) :=
    List.suffix_iff_eq_drop.mp h
  have htail : cursor.advance.tokens = tokens.drop (cursor.place tokens + 1) := by
    rw [Cursor.advance, ← List.drop_one, hdrop, List.drop_drop]
  rw [Shows, current_eq_stream, upcoming_eq_stream, htail, Token.stream_drop, Token.stream_drop]
  exact ⟨rfl, rfl⟩

end Cursor

namespace Reading

variable {e : Int → ParseM Expr} {before after : Cursor}

/-- A token of this kind does not continue an expression that binds more tightly than a level. -/
def Settles (level : Int) (kind : Token.Kind) : Prop :=
  kind = .semicolon ∨ kind.precedence ≤ level ∨ kind.isInfix = false

/-- What makes the loop over operators end is that the upcoming token settles the level. -/
theorem settles_of_not {level : Int} {kind : Token.Kind}
    (h : ¬ (kind ≠ .semicolon ∧ level < kind.precedence ∧ kind.isInfix = true)) :
    Settles level kind := by
  by_cases hs : kind = .semicolon
  · exact .inl hs
  · by_cases hl : level < kind.precedence
    · exact .inr (.inr (Bool.eq_false_iff.mpr fun hi => h ⟨hs, hl, hi⟩))
    · exact .inr (.inl (Int.not_lt.mp hl))

/-- The loop that continues an expression ends before a token that does not continue it, if it has
enough rounds. -/
theorem settles_extendAll (he : ∀ level, Accounted (e level)) {level : Int} {rounds : List Token}
    {left a : Expr} (hrounds : before.tokens.length ≤ rounds.length)
    (h : (extendAll e level rounds left).run.run before = .ok (some a) after) :
    Settles level after.upcoming.kind := by
  have hupcoming : (liftM upcoming : ParseM Token).run.run before =
      .ok (some before.upcoming) before := rfl
  have hadvance : (liftM advance : ParseM Unit).run.run before =
      .ok (some ()) before.advance := rfl
  -- a round moves at least one token on, so that the rounds last as long as the tokens do
  induction rounds generalizing before left with
  | nil =>
    have hnil : before.tokens = [] := List.eq_nil_of_length_eq_zero (Nat.le_zero.mp hrounds)
    cases h
    refine .inr (.inr ?_)
    rw [Cursor.upcoming, hnil]
    rfl
  | cons _ rounds ih =>
    rw [extendAll, run_bind_parses, hupcoming] at h
    dsimp only at h
    split at h
    · rw [run_bind_parses, hadvance] at h
      dsimp only at h
      rw [run_bind_parses] at h
      cases hr : (extend e left).run.run before.advance with
      | error => rw [hr] at h; cases h
      | ok result middle =>
        rw [hr] at h
        cases result with
        | none => cases h
        | some longer =>
          have hle := length_le_of_run (respectedProgress.extend (f := e) he left) hr
          rw [length_advance] at hle
          rw [List.length_cons] at hrounds
          exact ih (by omega) h rfl rfl
    · cases h
      exact settles_of_not ‹_›

/-- Behind an expression stands a token that does not continue it at its level. -/
theorem settles_expression {depth : Nat} {level : Int} {a : Expr}
    (h : (expression depth level).run.run before = .ok (some a) after) :
    Settles level after.upcoming.kind := by
  cases depth with
  | zero => cases h
  | succ depth =>
    rw [expression, run_bind_parses] at h
    cases hr : (operand (expression depth)).run.run before with
    | error => rw [hr] at h; cases h
    | ok result middle =>
      rw [hr] at h
      cases result with
      | none => cases h
      | some left =>
        have hremaining : (liftM remaining : ParseM (List Token)).run.run middle =
            .ok (some middle.tokens) middle := rfl
        dsimp only at h
        rw [run_bind_parses, hremaining] at h
        exact settles_extendAll (expression_accounted depth) (Nat.le_refl _) h

/-- A call of one of the readers, with its arguments. -/
inductive Call where
  | advance
  | expect (wanted : Token.Kind)
  | program
  | block
  | statement
  | letStatement
  | returnStatement
  | bareStatement
  | expression (level : Int)
  | identifier
  | integerLiteral
  | booleanLiteral
  | unaryExpression
  | groupedExpression
  | ifExpression
  | functionLiteral
  | functionParameters
  | binaryExpression (left : Expr)
  | callExpression (left : Expr)
  | expressionList (close : Token.Kind)

namespace Call

/-- What a call gives. -/
def Result : Call → Type
  | advance => Unit
  | expect _ => Unit
  | program => Program
  | block => Block
  | statement => Stmt
  | letStatement => Stmt
  | returnStatement => Stmt
  | bareStatement => Stmt
  | identifier => Ident
  | functionParameters => List Ident
  | expressionList _ => List Expr
  | _ => Expr

/-- The reader that is called, with expressions nested at most `depth` deep. -/
def reader (depth : Nat) : (call : Call) → ParseM call.Result
  | advance => liftM Reading.advance
  | expect wanted => Reading.expect wanted
  | program => liftM (Reading.program (Reading.expression depth))
  | block => liftM (Reading.block (Reading.expression depth))
  | statement => Reading.statement (Reading.expression depth)
  | letStatement => Reading.letStatement (Reading.expression depth)
  | returnStatement => Reading.returnStatement (Reading.expression depth)
  | bareStatement => Reading.bareStatement (Reading.expression depth)
  | expression level => Reading.expression depth level
  | identifier => liftM Reading.identifier
  | integerLiteral => Reading.integerLiteral
  | booleanLiteral => liftM Reading.booleanLiteral
  | unaryExpression => Reading.unaryExpression (Reading.expression depth)
  | groupedExpression => Reading.groupedExpression (Reading.expression depth)
  | ifExpression => Reading.ifExpression (Reading.expression depth)
  | functionLiteral => Reading.functionLiteral (Reading.expression depth)
  | functionParameters => Reading.functionParameters
  | binaryExpression left => Reading.binaryExpression (Reading.expression depth) left
  | callExpression left => Reading.callExpression (Reading.expression depth) left
  | expressionList close => Reading.expressionList (Reading.expression depth) close

/-- Where a call leaves the cursor, whatever its result. Behind a call that stops for want of depth
there is no cursor to go on from. -/
def next? (depth : Nat) (call : Call) (cursor : Cursor) : Option Cursor :=
  match (call.reader depth).run.run cursor with
  | .ok _ after => some after
  | .error .tooDeep _ => none
  | .error (.numeralTooLong _) after => some after
  | .error (.notNumeral _) after => some after

/-- Where calls leave the cursor, one after the other, each with a depth of its own. -/
def runAll (calls : List (Nat × Call)) (cursor : Cursor) : Option Cursor :=
  calls.foldlM (fun cursor call => call.2.next? call.1 cursor) cursor

end Call

/-- An integer literal is accounted for wherever it is read. -/
theorem integerLiteral_accounted : Accounted integerLiteral := by
  have hcurrent : Steady current := respectedProgress.current
  refine hcurrent.lift.bind fun token => ?_
  split
  · exact fun cursor => .refl cursor
  · split
    · exact fun cursor => .refl cursor
    · dsimp only
      split
      · exact respectedProgress.reject _
      · exact respectedProgress.pure_parses (Expr.int _ _)

/-- What all readers respect holds of every call, if it holds of nested expressions and of integer
literals. -/
theorem Call.respected {steps : ∀ {α : Type}, ReadM α → ReadM α → Prop}
    {parses : ∀ {α : Type}, ParseM α → ParseM α → Prop} (h : Respected steps parses) {depth : Nat}
    (he : ∀ level, parses (Reading.expression depth level) (Reading.expression depth level))
    (hinteger : parses Reading.integerLiteral Reading.integerLiteral) (call : Call) :
    parses (call.reader depth) (call.reader depth) := by
  have hblock := h.block he
  have hlist := h.expressionList he
  cases call with
  | advance => exact h.lift h.advance
  | expect wanted => exact h.expect wanted
  | program => exact h.lift (h.program he)
  | block => exact h.lift hblock
  | statement => exact h.statement he
  | letStatement => exact h.letStatement he
  | returnStatement => exact h.returnStatement he
  | bareStatement => exact h.bareStatement he
  | expression level => exact he level
  | identifier => exact h.lift h.identifier
  | integerLiteral => exact hinteger
  | booleanLiteral => exact h.lift h.booleanLiteral
  | unaryExpression => exact h.unaryExpression he
  | groupedExpression => exact h.groupedExpression he
  | ifExpression => exact h.ifExpression he hblock
  | functionLiteral => exact h.functionLiteral h.functionParameters hblock
  | functionParameters => exact h.functionParameters
  | binaryExpression left => exact h.binaryExpression he left
  | callExpression left => exact h.callExpression hlist left
  | expressionList close => exact hlist close

/-- Every call makes progress. -/
theorem Call.accounted (depth : Nat) (call : Call) : Accounted (call.reader depth) :=
  Call.respected respectedProgress (expression_accounted depth) integerLiteral_accounted call

/-- A call that stops for want of depth has passed a token for every level. -/
theorem Call.spends (depth : Nat) (call : Call) : Spends depth (call.reader depth).run :=
  (Call.respected (respectedSpends depth)
    (fun level => ⟨expression_accounted depth level, expression_spends depth level⟩)
    ⟨integerLiteral_accounted, .integerLiteral⟩ call).2

/-- One call moves forward, and adds diagnostics at the end. -/
theorem Call.next_progress {depth : Nat} {call : Call} (h : call.next? depth before = some after) :
    after.tokens <:+ before.tokens ∧ before.diagnostics.toList <+: after.diagnostics.toList := by
  have hprogress := call.accounted depth before
  unfold Call.next? at h
  split at h <;> rename_i hr <;> rw [hr] at hprogress <;> cases h <;>
    exact ⟨hprogress.tokens, hprogress.diagnostics⟩

/-- Behind any calls the cursor stands before some of the last tokens of where it started. -/
theorem Call.runAll_suffix {calls : List (Nat × Call)}
    (h : Call.runAll calls before = some after) : after.tokens <:+ before.tokens := by
  induction calls generalizing before with
  | nil =>
    cases h
    exact List.suffix_refl _
  | cons call calls ih =>
    obtain ⟨middle, hfirst, hrest⟩ := Option.bind_eq_some_iff.mp h
    exact (ih hrest).trans (Call.next_progress hfirst).1

/-- A call with a depth beyond the number of tokens leaves a cursor to go on from. -/
theorem Call.exists_next {depth : Nat} (call : Call) (h : before.tokens.length < depth) :
    ∃ after, call.next? depth before = some after := by
  unfold Call.next?
  split
  · exact ⟨_, rfl⟩
  · rename_i last hr
    have hspent : last.tokens.length + depth ≤ before.tokens.length := call.spends depth _ _ hr
    omega
  · exact ⟨_, rfl⟩
  · exact ⟨_, rfl⟩

/-- So do any number of calls with such depths. -/
theorem Call.exists_runAll {calls : List (Nat × Call)}
    (h : ∀ call ∈ calls, before.tokens.length < call.1) :
    ∃ after, Call.runAll calls before = some after := by
  induction calls generalizing before with
  | nil => exact ⟨before, rfl⟩
  | cons call calls ih =>
    rw [List.forall_mem_cons] at h
    obtain ⟨middle, hfirst⟩ := call.2.exists_next h.1
    have hle := (Call.next_progress hfirst).1.length_le
    obtain ⟨after, hrest⟩ := ih fun call hcall => Nat.lt_of_le_of_lt hle (h.2 call hcall)
    exact ⟨after, Option.bind_eq_some_iff.mpr ⟨middle, hfirst, hrest⟩⟩

/-- Whatever has been called before, the cursor shows two tokens of the text side by side. A call
moves it forward or not at all, and a single move takes it to the next place. Diagnostics are only
added at the end; a call that gives up adds one, and an expression at a level ends before a
semicolon, before a token that does not bind more tightly, or before one that continues nothing.

This is said behind calls none of which has stopped for want of depth, and of a call that does not.
Where every depth exceeds the number of tokens, these are all calls. -/
theorem Call.invariant (source : String) (calls : List (Nat × Call)) :
    let tokens := Token.scan source
    ((∀ call ∈ calls, tokens.length < call.1) →
      ∃ before, Call.runAll calls (.ofTokens tokens) = some before) ∧
    ∀ before, Call.runAll calls (.ofTokens tokens) = some before →
      before.Shows tokens (before.place tokens) ∧
      ∀ depth (call : Call),
        (tokens.length < depth → ∃ after, call.next? depth before = some after) ∧
        (∀ after, call.next? depth before = some after →
          after.Shows tokens (after.place tokens) ∧
          before.place tokens ≤ after.place tokens ∧
          (call = .advance → after.Shows tokens (before.place tokens + 1)) ∧
          before.diagnostics.toList <+: after.diagnostics.toList) ∧
        (∀ last, (call.reader depth).run.run before = .ok none last →
          before.diagnostics.size < last.diagnostics.size) ∧
        ∀ level e last, (Reading.expression depth level).run.run before = .ok (some e) last →
          last.upcoming.kind = .semicolon ∨ last.upcoming.kind.precedence ≤ level ∨
            last.upcoming.kind.isInfix = false := by
  intro tokens
  refine ⟨fun hdepths => Call.exists_runAll hdepths, fun before hcalls => ?_⟩
  have hbefore : before.tokens <:+ tokens := Call.runAll_suffix hcalls
  refine ⟨Cursor.shows_place hbefore, fun depth call => ⟨fun hdepth => ?_, fun after h => ?_,
    fun _ => (call.accounted depth).size_lt, fun _ _ _ => settles_expression⟩⟩
  · exact call.exists_next (Nat.lt_of_le_of_lt hbefore.length_le hdepth)
  · obtain ⟨hafter, hdiagnostics⟩ := Call.next_progress h
    refine ⟨Cursor.shows_place (hafter.trans hbefore), Nat.sub_le_sub_left hafter.length_le _, ?_,
      hdiagnostics⟩
    rintro rfl
    cases h
    exact .advance hbefore

/-- Behind the end of `x` nothing is an expression, and whoever reads one there reports it. -/
theorem Call.invariant_behind :
    ∃ before, Call.runAll [(0, .advance), (0, .expect .comma), (2, .expression 0)]
        (.ofTokens (Token.scan "x")) = some before ∧
      before.Shows (Token.scan "x") 1 ∧
      ∃ last, ((Call.expression 0).reader 2).run.run before = .ok none last ∧
        before.diagnostics.size < last.diagnostics.size := by
  have hscan : Token.scan "x" = [⟨.ident, "x"⟩] :=
    Token.tokensOf_eq_cons rfl Token.tokensOf_nil
  have hinvariant := (Call.invariant "x"
    [(0, .advance), (0, .expect .comma), (2, .expression 0)]).2
  rw [hscan] at hinvariant ⊢
  obtain ⟨hshows, hnext⟩ := hinvariant _ rfl
  exact ⟨_, rfl, hshows, _, rfl, (hnext 2 (.expression 0)).2.2.1 _ rfl⟩

end Reading

end Inkwell
