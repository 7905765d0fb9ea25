import Inkwell.Proofs.Reading.Rounds
import Inkwell.Proofs.Reading.Stops

/-!
# Which statement a diagnostic drops

What a reader does can be told as a list of deeds: it reports a diagnostic, or one of its loops has
a statement read, which does such things in turn and is then kept or dropped. The `Account` of a
reader tells this for every cursor. It is put together along the text of the reader, step by step,
and carries the proof that it tells all diagnostics of a run.

Every account has the same shape. A statement that is kept reports nothing itself; one that is
dropped reports one thing itself, and does nothing after that; and outside of statements nothing is
reported. So there are as many diagnostics as dropped statements, and each belongs to the innermost
statement around it.
-/

namespace Inkwell

/-- What a reader does, as far as it concerns the fate of statements. -/
inductive Deed where
  /-- A diagnostic is reported. -/
  | report (diagnostic : Diagnostic)
  /-- A loop has a statement read: what is done inside, and whether the statement is kept. -/
  | statement (inside : List Deed) (kept : Bool)

namespace Deed

mutual

/-- The diagnostics reported by a deed, in the order of the reports. -/
def diagnostics : Deed → List Diagnostic
  | report diagnostic => [diagnostic]
  | statement inside _ => diagnosticsAll inside

/-- The diagnostics reported by deeds in a row. -/
def diagnosticsAll : List Deed → List Diagnostic
  | [] => []
  | first :: rest => first.diagnostics ++ diagnosticsAll rest

end

mutual

/-- The number of statements that were read and dropped, at any depth. -/
def dropped : Deed → Nat
  | report _ => 0
  | statement inside true => droppedAll inside
  | statement inside false => droppedAll inside + 1

/-- The number of statements dropped by deeds in a row. -/
def droppedAll : List Deed → Nat
  | [] => 0
  | first :: rest => first.dropped + droppedAll rest

end

/-- Whether a deed is a statement that was kept. -/
def keeps : Deed → Bool
  | report _ => false
  | statement _ kept => kept

/-- A statement whose diagnostics are paid for: it is kept and reports nothing itself, or it reports
one thing itself, the last thing it does, and is dropped. So are all statements inside. -/
inductive Paid : Deed → Prop
  | kept {inside : List Deed} : (∀ deed ∈ inside, Paid deed) → Paid (statement inside true)
  | dropped {inside : List Deed} {own : Diagnostic} : (∀ deed ∈ inside, Paid deed) →
    Paid (statement (inside ++ [report own]) false)

/-- Of two rows of deeds, the reports of the first come first. -/
theorem diagnosticsAll_append (first second : List Deed) :
    diagnosticsAll (first ++ second) = diagnosticsAll first ++ diagnosticsAll second := by
  induction first with
  | nil => rfl
  | cons deed first ih =>
    rw [List.cons_append, diagnosticsAll, diagnosticsAll, ih, List.append_assoc]

/-- The statements dropped in two rows add up. -/
theorem droppedAll_append (first second : List Deed) :
    droppedAll (first ++ second) = droppedAll first + droppedAll second := by
  induction first with
  | nil => exact (Nat.zero_add _).symm
  | cons deed first ih => rw [List.cons_append, droppedAll, droppedAll, ih, Nat.add_assoc]

/-- What holds of every deed in a row holds of the row. -/
theorem length_diagnosticsAll {deeds : List Deed}
    (h : ∀ deed ∈ deeds, deed.diagnostics.length = deed.dropped) :
    (diagnosticsAll deeds).length = droppedAll deeds := by
  induction deeds with
  | nil => rfl
  | cons deed deeds ih =>
    rw [List.forall_mem_cons] at h
    rw [diagnosticsAll, droppedAll, List.length_append, h.1, ih h.2]

/-- There are as many diagnostics as dropped statements. -/
theorem Paid.length_diagnostics {deed : Deed} (h : deed.Paid) :
    deed.diagnostics.length = deed.dropped := by
  induction h with
  | kept _ ih =>
    rw [Deed.diagnostics, Deed.dropped]
    exact length_diagnosticsAll ih
  | @dropped inside own _ ih =>
    have hinside := length_diagnosticsAll ih
    rw [Deed.diagnostics, Deed.dropped, diagnosticsAll_append, droppedAll_append,
      List.length_append, hinside]
    rfl

end Deed

namespace Reading

variable {α β : Type} {owed owed' : Nat} {before middle after : Cursor} {deeds more : List Deed}

/-- The deeds account for what has changed between two cursors. What is done inside statements is
paid for, and outside of statements there are as many reports as are owed. -/
structure Tells (owed : Nat) (deeds : List Deed) (before after : Cursor) : Prop where
  /-- The new diagnostics are those that the deeds report. -/
  diagnostics : after.diagnostics.toList = before.diagnostics.toList ++ Deed.diagnosticsAll deeds
  /-- The statements come first, and behind them what is reported for the statement around. -/
  paid : ∃ (inside : List Deed) (own : List Diagnostic), deeds = inside ++ own.map .report ∧
    (∀ deed ∈ inside, deed.Paid) ∧ own.length = owed

namespace Tells

/-- Nothing is done. -/
theorem nil (h : after.diagnostics = before.diagnostics) : Tells 0 [] before after where
  diagnostics := by rw [h, Deed.diagnosticsAll, List.append_nil]
  paid := ⟨[], [], rfl, List.forall_mem_nil _, rfl⟩

/-- One thing is reported. -/
theorem report (diagnostic : Diagnostic) (cursor : Cursor) :
    Tells 1 [.report diagnostic] cursor (cursor.report diagnostic) where
  diagnostics := by simp [Cursor.report, Deed.diagnosticsAll, Deed.diagnostics]
  paid := ⟨[], [diagnostic], rfl, List.forall_mem_nil _, rfl⟩

/-- Behind deeds that owe nothing, others may follow. -/
theorem append (first : Tells 0 deeds before middle) (second : Tells owed more middle after) :
    Tells owed (deeds ++ more) before after where
  diagnostics := by
    rw [second.diagnostics, first.diagnostics, Deed.diagnosticsAll_append, List.append_assoc]
  paid := by
    obtain ⟨inside, own, rfl, hpaid, hnone⟩ := first.paid
    obtain ⟨inside', own', rfl, hpaid', howed⟩ := second.paid
    obtain rfl := List.eq_nil_of_length_eq_zero hnone
    refine ⟨inside ++ inside', own', ?_, List.forall_mem_append.mpr ⟨hpaid, hpaid'⟩, howed⟩
    rw [List.map_nil, List.append_nil, List.append_assoc]

/-- Deeds that owe nothing are statements, all of them paid for. -/
theorem forall_paid (h : Tells 0 deeds before after) : ∀ deed ∈ deeds, deed.Paid := by
  obtain ⟨inside, own, rfl, hpaid, hnone⟩ := h.paid
  obtain rfl := List.eq_nil_of_length_eq_zero hnone
  rwa [List.map_nil, List.append_nil]

/-- A statement that has a result owes nothing and is kept. -/
theorem kept (h : Tells 0 deeds before after) :
    Tells 0 [.statement deeds true] before after where
  diagnostics := by
    rw [h.diagnostics, Deed.diagnosticsAll, Deed.diagnostics, Deed.diagnosticsAll, List.append_nil]
  paid := ⟨[_], [], rfl, List.forall_mem_singleton.mpr (.kept h.forall_paid), rfl⟩

/-- A statement that is given up owes one report, and is dropped for it. -/
theorem dropped (h : Tells 1 deeds before after) :
    Tells 0 [.statement deeds false] before after where
  diagnostics := by
    rw [h.diagnostics, Deed.diagnosticsAll, Deed.diagnostics, Deed.diagnosticsAll, List.append_nil]
  paid := by
    obtain ⟨inside, own, rfl, hpaid, howed⟩ := h.paid
    -- the one report that is owed stands last, behind statements that are paid for
    obtain ⟨diagnostic, rfl⟩ := List.length_eq_one_iff.mp howed
    exact ⟨[_], [], rfl, List.forall_mem_singleton.mpr (.dropped hpaid), rfl⟩

end Tells

/-- The account of a reader: what it does from each cursor on. It tells every run that ends with a
result. -/
structure Account (owed : α → Nat) (x : ReadM α) where
  /-- What is done from a cursor on, from first to last. -/
  deeds : Cursor → List Deed
  /-- What is told is what happens. -/
  tells : ∀ {before after : Cursor} {a : α}, x.run before = .ok a after →
    Tells (owed a) (deeds before) before after

/-- The account of a reader that always succeeds. -/
abbrev StepsAccount (x : ReadM α) : Type := Account (fun _ => 0) x

/-- The account of a reader that may give up, and owes one report if it does. -/
abbrev ParsesAccount (x : ParseM α) : Type := Account owedBy x.run

/-- What is done behind a run, if that has ended with a result. -/
def doneBehind (deeds : α → Cursor → List Deed) : EStateM.Result Stop Cursor α → List Deed
  | .ok a after => deeds a after
  | .error _ _ => []

/-- Whether a statement is kept: it is, if it was not given up. -/
def isKept : EStateM.Result Stop Cursor (Option α) → Bool
  | .ok result _ => result.isSome
  | .error _ _ => false

namespace Account

/-- Nothing that concerns a statement is done by a step that leaves the diagnostics alone. -/
def quiet {x : ReadM α} (a : Cursor → α) (next : Cursor → Cursor)
    (hrun : ∀ cursor, x.run cursor = .ok (a cursor) (next cursor))
    (hsame : ∀ cursor, (next cursor).diagnostics = cursor.diagnostics) : StepsAccount x where
  deeds _ := []
  tells {before after b} h := by
    rw [hrun] at h
    cases h
    exact .nil (hsame before)

/-- First what the first step does, then what the second one does from there. -/
def bind {x : ReadM α} {f : α → ReadM β} (first : StepsAccount x)
    (second : ∀ a, StepsAccount (f a)) : StepsAccount (x >>= f) where
  deeds cursor := first.deeds cursor ++ doneBehind (fun a => (second a).deeds) (x.run cursor)
  tells {before after b} h := by
    rw [run_bind_steps] at h
    cases hr : x.run before with
    | error => rw [hr] at h; cases h
    | ok a middle =>
      rw [hr] at h
      exact (first.tells hr).append ((second a).tells h)

/-- The second reader does something only behind a result of the first one. -/
def bindSome {x : ParseM α} {f : α → ParseM β} (first : ParsesAccount x)
    (second : ∀ a, ParsesAccount (f a)) : ParsesAccount (x >>= f) where
  deeds cursor := first.deeds cursor ++
    doneBehind (fun found middle => found.elim [] fun a => (second a).deeds middle)
      (x.run.run cursor)
  tells {before after result} h := by
    rw [run_bind_parses] at h
    cases hr : x.run.run before with
    | error => rw [hr] at h; cases h
    | ok found middle =>
      rw [hr] at h
      cases found with
      | none =>
        -- given up: the second reader is not reached
        cases h
        rw [doneBehind, Option.elim_none, List.append_nil]
        exact first.tells hr
      | some a => exact (first.tells hr).append ((second a).tells h)

/-- A step among readers that may give up does what it does. -/
def lift {x : ReadM α} (account : StepsAccount x) : ParsesAccount (liftM x) where
  deeds := account.deeds
  tells {before after result} h := by
    rw [run_lift] at h
    cases hr : x.run before with
    | error => rw [hr] at h; cases h
    | ok a middle =>
      rw [hr] at h
      cases h
      exact account.tells hr

/-- A result without a step. -/
def result (a : α) : ParsesAccount (pure a) where
  deeds _ := []
  tells h := by
    cases h
    exact .nil rfl

/-- Whoever gives up reports why. -/
def reject (diagnostic : Diagnostic) : ParsesAccount (reject diagnostic : ParseM α) where
  deeds _ := [.report diagnostic]
  tells {before after result} h := by
    rw [run_reject] at h
    cases h
    exact .report diagnostic before

/-- A stop has no result to account for. -/
def stop (cause : Stop) : ParsesAccount (stop cause : ParseM α) where
  deeds _ := []
  tells h := nomatch h

/-- The semicolon behind a statement is skipped in silence. -/
def terminated {x : ParseM α} (account : ParsesAccount x) : ParsesAccount (terminated x) where
  deeds := account.deeds
  tells {before after result} h := by
    rw [run_terminated] at h
    cases hr : x.run.run before with
    | error => rw [hr] at h; cases h
    | ok found middle =>
      rw [hr] at h
      cases h
      have htells := account.tells hr
      refine ⟨?_, htells.paid⟩
      rw [← htells.diagnostics]
      split <;> rfl

/-- A loop has a statement read: a deed of its own, with what is done inside and what becomes of the
statement. -/
def attempted {x : ParseM α} (account : ParsesAccount x) : StepsAccount x.run where
  deeds cursor := [.statement (account.deeds cursor) (isKept (x.run.run cursor))]
  tells {before after result} h := by
    have htells := account.tells h
    rw [h]
    cases result with
    | some a => exact htells.kept
    | none => exact htells.dropped

end Account

/-- The accounts of all readers are put together from those of their steps. -/
def accounts : Respected (fun x _ => StepsAccount x) (fun x _ => ParsesAccount x) where
  pure_steps a := .quiet (fun _ => a) id (fun _ => rfl) fun _ => rfl
  bind_steps := .bind
  current := .quiet Cursor.current id (fun _ => rfl) fun _ => rfl
  upcoming := .quiet Cursor.upcoming id (fun _ => rfl) fun _ => rfl
  remaining := .quiet Cursor.tokens id (fun _ => rfl) fun _ => rfl
  advance := .quiet (fun _ => ()) Cursor.advance (fun _ => rfl) fun _ => rfl
  pure_parses := .result
  bind_parses := .bindSome
  lift := .lift
  reject := .reject
  integerOperand := respectedIntegerOperand (fun x _ => ParsesAccount x) .result .bindSome
    (.lift (.quiet Cursor.current id (fun _ => rfl) fun _ => rfl)) .reject .stop
  terminated := .terminated
  attempted := .attempted

/-- What reading an expression does. -/
def expressionAccount : (depth : Nat) → (level : Int) → ParsesAccount (expression depth level)
  | 0, _ => .stop .tooDeep
  | depth + 1, level => accounts.nested (f := expression depth) (expressionAccount depth) level

/-- Of a choice between two steps the account is that of the chosen one. -/
theorem deeds_choice {x y : ReadM α} (p : Prop) [decision : Decidable p] (hx : StepsAccount x)
    (hy : StepsAccount y) (cursor : Cursor) :
    (@Composed.choice (fun x _ => StepsAccount x) α x x y y p decision hx hy).deeds cursor =
      if p then hx.deeds cursor else hy.deeds cursor := by
  cases decision <;> rfl

/-- A result without a step adds nothing to what was done before. -/
theorem deeds_bind_pure {x : ReadM α} {f : α → β} (account : StepsAccount x) (cursor : Cursor) :
    (account.bind fun a => accounts.pure_steps (f a)).deeds cursor = account.deeds cursor := by
  have hnone : doneBehind (fun a => (accounts.pure_steps (f a)).deeds) (x.run cursor) = [] := by
    cases x.run cursor <;> rfl
  exact (congrArg (account.deeds cursor ++ ·) hnone).trans (List.append_nil _)

section Loops

variable {e : Int → ParseM Expr} (he : ∀ level, ParsesAccount (e level))

/-- What reading a statement does. -/
def statementAccount : ParsesAccount (statement e) := accounts.statement (f := e) he

/-- What a loop over statements does. -/
def statementsAccount (ends : Token.Kind → Bool) (rounds : List Token) (kept : Array Stmt) :
    StepsAccount (statementsUntil ends e rounds kept) :=
  accounts.statementsUntil (f := e) he ends rounds kept

/-- What reading a block does. -/
def blockAccount : StepsAccount (block e) := accounts.block (f := e) he

/-- What reading a program does. -/
def programAccount : StepsAccount (program e) := accounts.program (f := e) he

/-- A round of a loop does one thing: it has a statement read, and goes on from where that ends. -/
theorem deeds_statementsAccount (ends : Token.Kind → Bool) (round : Token) (rounds : List Token)
    (kept : Array Stmt) (cursor : Cursor) :
    (statementsAccount he ends (round :: rounds) kept).deeds cursor =
      if cursor.current.kind = .eof ∨ ends cursor.current.kind then []
      else
        .statement ((statementAccount he).deeds cursor) (isKept ((statement e).run.run cursor)) ::
          doneBehind (fun result after =>
            (statementsAccount he ends rounds (kept ++ result.toArray)).deeds after.advance)
            ((statement e).run.run cursor) :=
  deeds_choice _ _ _ cursor

/-- A block does what its loop does. -/
theorem deeds_blockAccount (cursor : Cursor) :
    (blockAccount he).deeds cursor =
      (statementsAccount he (· == .rbrace) cursor.advance.tokens #[]).deeds cursor.advance :=
  deeds_bind_pure (statementsAccount he (· == .rbrace) cursor.advance.tokens #[]) cursor.advance

/-- A program does what its loop does. -/
theorem deeds_programAccount (cursor : Cursor) :
    (programAccount he).deeds cursor =
      (statementsAccount he (fun _ => false) cursor.tokens #[]).deeds cursor :=
  deeds_bind_pure (statementsAccount he (fun _ => false) cursor.tokens #[]) cursor

/-- A loop gives the statements it has kept already and those that its account keeps. -/
theorem length_statementsUntil {ends : Token.Kind → Bool} {rounds : List Token}
    {kept : Array Stmt} {ss : List Stmt} {before after : Cursor}
    (h : (statementsUntil ends e rounds kept).run before = .ok ss after) :
    ss.length = kept.size +
      ((statementsAccount he ends rounds kept).deeds before).countP Deed.keeps := by
  induction rounds generalizing before kept with
  | nil =>
    cases h
    exact Array.length_toList
  | cons round rounds ih =>
    have hcurrent : current.run before = .ok before.current before := rfl
    rw [statementsUntil, run_bind_steps, hcurrent] at h
    dsimp only at h
    rw [deeds_statementsAccount]
    by_cases hend : before.current.kind = .eof ∨ ends before.current.kind
    · rw [if_pos hend] at h ⊢
      cases h
      exact Array.length_toList
    · rw [if_neg hend] at h ⊢
      rw [run_bind_steps] at h
      cases hr : (statement e).run.run before with
      | error => rw [hr] at h; cases h
      | ok result middle =>
        rw [hr] at h
        rw [ih h, List.countP_cons, Deed.keeps, isKept, doneBehind]
        cases result with
        | none => simp
        | some s => simp; omega

end Loops

/-- An account of steps that end with statements: it tells of nothing but statements that were read,
all paid for, and the result has as many as were kept. -/
def Pays (statements : α → List Stmt) {x : ReadM α} (account : StepsAccount x) : Prop :=
  ∀ ⦃before after : Cursor⦄ ⦃a : α⦄, x.run before = .ok a after →
    (∀ deed ∈ account.deeds before, deed.Paid) ∧
      (statements a).length = (account.deeds before).countP Deed.keeps

/-- A block has as many statements as its account keeps, at any depth and wherever it is read. -/
theorem block_pays (depth : Nat) :
    Pays Block.statements (blockAccount (expressionAccount depth)) := by
  intro before after b h
  refine ⟨((blockAccount _).tells h).forall_paid, ?_⟩
  rw [run_block] at h
  cases hr : (statements (· == .rbrace) (expression depth) #[]).run before.advance with
  | error => rw [hr] at h; cases h
  | ok ss last =>
    rw [hr] at h
    cases h
    have hlength := length_statementsUntil (expressionAccount depth) hr
    rw [deeds_blockAccount]
    exact hlength.trans (Nat.zero_add _)

/-- A program has as many statements as its account keeps. -/
theorem program_pays (depth : Nat) :
    Pays Program.statements (programAccount (expressionAccount depth)) := by
  intro before after read h
  refine ⟨((programAccount _).tells h).forall_paid, ?_⟩
  rw [run_program] at h
  cases hr : (statements (fun _ => false) (expression depth) #[]).run before with
  | error => rw [hr] at h; cases h
  | ok ss last =>
    rw [hr] at h
    cases h
    have hlength := length_statementsUntil (expressionAccount depth) hr
    rw [deeds_programAccount]
    exact hlength.trans (Nat.zero_add _)

end Reading

open Reading

/-- What is done while a text is read. -/
def Program.deeds (depth : Nat) (tokens : List Token) : List Deed :=
  (programAccount (expressionAccount depth)).deeds (.ofTokens tokens)

/-- There are as many diagnostics as statements that were read and dropped, at any depth. Each
diagnostic is the last thing done in the innermost statement around it, which is dropped for it and
for nothing else; a statement that is kept, here or in any block, has reported nothing itself. -/
theorem Program.read_paid {depth : Nat} {tokens : List Token}
    (ht : ∀ token ∈ tokens, token.Readable)
    (hdeep : Program.read depth tokens ≠ .error .tooDeep) :
    (∃ program,
      Program.read depth tokens = .ok ⟨program, Deed.diagnosticsAll (Program.deeds depth tokens)⟩ ∧
      (∀ deed ∈ Program.deeds depth tokens, deed.Paid) ∧
      (Deed.diagnosticsAll (Program.deeds depth tokens)).length =
        Deed.droppedAll (Program.deeds depth tokens) ∧
      program.statements.length = (Program.deeds depth tokens).countP Deed.keeps) ∧
    (∀ inner, Pays Block.statements (blockAccount (expressionAccount inner))) ∧
    ∀ inner before result after,
      (statement (expression inner)).run.run before = .ok result after →
      Tells (owedBy result) ((statementAccount (expressionAccount inner)).deeds before) before
        after := by
  refine ⟨?_, block_pays, fun _ _ _ _ => (statementAccount _).tells⟩
  obtain ⟨result, hresult⟩ := Program.exists_read_eq_ok ht hdeep
  unfold Program.read at hresult
  cases hr : (Reading.program (expression depth)).run (.ofTokens tokens) with
  | error => rw [hr] at hresult; cases hresult
  | ok program after =>
    obtain ⟨hpaid, hlength⟩ := program_pays depth hr
    have hdiagnostics : after.diagnostics.toList =
        Deed.diagnosticsAll (Program.deeds depth tokens) :=
      ((programAccount (expressionAccount depth)).tells hr).diagnostics
    refine ⟨program, ?_, hpaid, ?_, hlength⟩
    · rw [Program.read, hr, ← hdiagnostics]
    · exact Deed.length_diagnosticsAll fun deed h => (hpaid deed h).length_diagnostics

/-- Of `if (x) { let ; } + ; y` three statements are dropped, two of them inside the third one. -/
theorem Program.read_paid_choice :
    let tokens : List Token := [⟨.ifKw, "if"⟩, ⟨.lparen, "("⟩, ⟨.ident, "x"⟩, ⟨.rparen, ")"⟩,
      ⟨.lbrace, "\x7b"⟩, ⟨.letKw, "let"⟩, ⟨.semicolon, ";"⟩, ⟨.rbrace, "\x7d"⟩, ⟨.plus, "+"⟩,
      ⟨.semicolon, ";"⟩, ⟨.ident, "y"⟩]
    (∀ deed ∈ Program.deeds 3 tokens, deed.Paid) ∧
      Deed.droppedAll (Program.deeds 3 tokens) = 3 ∧
      (Program.deeds 3 tokens).countP Deed.keeps = 1 := by
  intro tokens
  have hends : ∀ {result : Parsed},
      Program.read 3 tokens = .ok result → Program.read 3 tokens ≠ .error .tooDeep :=
    fun h hdeep => nomatch h.symm.trans hdeep
  obtain ⟨program, hread, hpaid, hlength, hkept⟩ :=
    (@Program.read_paid 3 tokens (by decide) (hends rfl)).1
  have hresult := Except.ok.inj (hread.symm.trans rfl)
  injection hresult with hprogram hdiagnostics
  rw [← hlength, ← hkept, hprogram, hdiagnostics]
  exact ⟨hpaid, rfl, rfl⟩

end Inkwell
