import Inkwell.Proofs.Reading.Clean
import Inkwell.Proofs.Reading.Rounds
import Inkwell.Proofs.Grammar.Sound

/-!
# Reading does not look far ahead

A reader looks at the current token and the upcoming one, and at no others. Of the tokens that it
leaves it has therefore seen no more than the first two, and if these are followed by other tokens,
the reading is the same. Loops are an exception only in appearance: how many tokens are left decides
how many rounds they may take, but they never run out of them.
-/

namespace Inkwell

/-- The same cursor before other tokens. -/
def Cursor.facing (cursor : Cursor) (tokens : List Token) : Cursor := { cursor with tokens }

/-- The other tokens are those that the cursor is put before. -/
@[simp]
theorem Cursor.facing_tokens (cursor : Cursor) (tokens : List Token) :
    (cursor.facing tokens).tokens = tokens := rfl

/-- Puts more tokens behind the last one. -/
def Cursor.append (cursor : Cursor) (more : List Token) : Cursor :=
  { cursor with tokens := cursor.tokens ++ more }

/-- Both the current token and the upcoming one are there. -/
def Cursor.Full (cursor : Cursor) : Prop := 2 ≤ cursor.tokens.length

variable {more : List Token} {before after cursor : Cursor}

/-- Where two tokens are left at the end, they were left at the beginning. -/
theorem Cursor.Full.of_suffix (h : after.Full) (hs : after.tokens <:+ before.tokens) :
    before.Full := Nat.le_trans h hs.length_le

/-- The upcoming token is there, and therefore the current one, too. -/
theorem Cursor.full_iff : cursor.Full ↔ cursor.advance.tokens ≠ [] := by
  have hlength := Reading.length_advance cursor
  rw [Cursor.Full, ← List.length_pos_iff]
  omega

/-- Tokens behind the last one do not change the current one. -/
theorem Cursor.current_append (h : cursor.tokens ≠ []) :
    (cursor.append more).current = cursor.current := by
  unfold Cursor.append Cursor.current
  cases ht : cursor.tokens with
  | nil => exact absurd ht h
  | cons => rfl

/-- Nor do they change where a move leads. -/
theorem Cursor.advance_append (h : cursor.tokens ≠ []) :
    (cursor.append more).advance = cursor.advance.append more := by
  unfold Cursor.append Cursor.advance
  rw [List.tail_append_of_ne_nil h]

/-- With two tokens there is one. -/
theorem Cursor.Full.ne_nil (h : cursor.Full) : cursor.tokens ≠ [] := by
  rintro hnil
  rw [Cursor.Full, hnil] at h
  exact absurd h (by decide)

/-- Tokens behind two others do not change the upcoming one. -/
theorem Cursor.Full.upcoming_append (h : cursor.Full) :
    (cursor.append more).upcoming = cursor.upcoming := by
  rw [← Cursor.current_advance, Cursor.advance_append h.ne_nil,
    Cursor.current_append (Cursor.full_iff.mp h), Cursor.current_advance]

/-- An upcoming token that is not the end of the input is one of two. -/
theorem Cursor.full_of_upcoming {kind : Token.Kind} (h : cursor.upcoming.kind = kind)
    (hk : kind ≠ .eof) : cursor.Full := by
  rw [Cursor.full_iff, Cursor.tokens_advance_eq h hk]
  exact List.cons_ne_nil _ _

/-- Tokens behind two others do not change whether a semicolon is skipped. -/
theorem Cursor.Full.skipSemicolon_append (h : cursor.Full) :
    (cursor.append more).skipSemicolon = cursor.skipSemicolon.append more := by
  unfold Cursor.skipSemicolon
  rw [h.upcoming_append, Cursor.advance_append h.ne_nil]
  split <;> rfl

/-- Behind a semicolon that is skipped, or before a token that is none, there is a token left. -/
theorem Cursor.Full.skipSemicolon_ne_nil (h : cursor.Full) : cursor.skipSemicolon.tokens ≠ [] := by
  unfold Cursor.skipSemicolon
  split
  · exact Cursor.full_iff.mp h
  · exact h.ne_nil

namespace Reading

variable {α β : Type} {e : Int → ParseM Expr} {used rest : List Token}

/-- A clean reading is the same before other tokens if those that it has seen stay: the ones that it
used and the first two of those that it leaves. -/
structure LocalSteps (x : ReadM α) : Prop where
  steady : Steady x
  exchange {before after : Cursor} {a : α} {used rest : List Token} : Clean x before a after →
    before.tokens = used ++ after.tokens → rest.take 2 = after.tokens.take 2 →
    Clean x (before.facing (used ++ rest)) a (after.facing rest)

/-- The same for readers that may give up. -/
structure LocalParses (x : ParseM α) : Prop where
  accounted : Accounted x
  exchange {before after : Cursor} {a : α} {used rest : List Token} : Accepts x before a after →
    before.tokens = used ++ after.tokens → rest.take 2 = after.tokens.take 2 →
    Accepts x (before.facing (used ++ rest)) a (after.facing rest)

/-- What two steps use, one behind the other. -/
theorem exists_used {middle : Cursor} (hfirst : middle.tokens <:+ before.tokens)
    (hsecond : after.tokens <:+ middle.tokens) (h : before.tokens = used ++ after.tokens) :
    ∃ first second, used = first ++ second ∧ before.tokens = first ++ middle.tokens ∧
      middle.tokens = second ++ after.tokens := by
  obtain ⟨first, hf⟩ := hfirst
  obtain ⟨second, hs⟩ := hsecond
  refine ⟨first, second, ?_, hf.symm, hs.symm⟩
  rw [← hf, ← hs, ← List.append_assoc] at h
  exact (List.append_cancel_right h).symm

/-- Behind the same tokens, the first two stay the same. -/
theorem take_two_append {other : List Token} (second : List Token)
    (h : rest.take 2 = other.take 2) :
    (second ++ rest).take 2 = (second ++ other).take 2 := by
  have hshort : ∀ n ≤ 2, rest.take n = other.take n := by
    intro n hn
    have hn' := congrArg (List.take n) h
    rwa [List.take_take, List.take_take, Nat.min_eq_left hn] at hn'
  rw [List.take_append, List.take_append, hshort _ (Nat.sub_le _ _)]

/-- Where the first two tokens are the same, the next one is. -/
theorem nextKind_of_take_two {other : List Token} (h : rest.take 2 = other.take 2) :
    Grammar.nextKind rest = Grammar.nextKind other := by
  cases rest <;> cases other <;> simp_all [Grammar.nextKind]

/-- The first two tokens decide which is the current one. -/
theorem current_of_take_two {other : List Token} (h : rest.take 2 = other.take 2) :
    (cursor.facing rest).current = (cursor.facing other).current := by
  cases rest <;> cases other <;> simp_all [Cursor.current]

/-- They decide which is the upcoming one, too. -/
theorem upcoming_of_take_two {other : List Token} (h : rest.take 2 = other.take 2) :
    (cursor.facing rest).upcoming = (cursor.facing other).upcoming := by
  rcases rest with _ | ⟨a, _ | ⟨b, rest⟩⟩ <;> rcases other with _ | ⟨c, _ | ⟨d, other⟩⟩ <;>
    simp_all [Cursor.upcoming]

namespace LocalSteps

/-- A question that looks at no other tokens. -/
theorem ask {x : ReadM α} {answer : Cursor → α} (hx : Steady x)
    (hrun : ∀ cursor, x.run cursor = .ok (answer cursor) cursor)
    (hsame : ∀ cursor : Cursor, answer (cursor.facing (cursor.tokens.take 2)) = answer cursor) :
    LocalSteps x where
  steady := hx
  exchange {before after a used rest} h hused hrest := by
    obtain ⟨rfl, rfl⟩ := (clean_iff_of_run (hrun before) rfl).mp h
    obtain rfl : used = [] := List.self_eq_append_left.mp hused
    refine (clean_iff_of_run (hrun _) rfl).mpr ⟨?_, rfl⟩
    have hlast := hsame (after.facing rest)
    rw [Cursor.facing_tokens, hrest] at hlast
    exact (hsame after).symm.trans hlast

/-- A result without a step looks at no token. -/
theorem pure (a : α) : LocalSteps (pure a : ReadM α) :=
  .ask (respectedProgress.pure_steps a) (fun _ => rfl) fun _ => rfl

/-- A sequence of local steps has seen what the second one leaves, and nothing behind. -/
theorem bind {x : ReadM α} {f : α → ReadM β} (hx : LocalSteps x) (hf : ∀ a, LocalSteps (f a)) :
    LocalSteps (x >>= f) where
  steady := hx.steady.bind fun a => (hf a).steady
  exchange h hused hrest := by
    have hbind := fun {before after : Cursor} {b : β} =>
      @clean_bind α β before after x f b hx.steady fun a => (hf a).steady
    obtain ⟨a, middle, hfirst, hsecond⟩ := hbind.mp h
    obtain ⟨first, second, rfl, hu, hv⟩ :=
      exists_used (hfirst.suffix hx.steady) (hsecond.suffix (hf a).steady) hused
    refine hbind.mpr ⟨a, middle.facing (second ++ _), ?_, (hf a).exchange hsecond hv hrest⟩
    rw [List.append_assoc]
    exact hx.exchange hfirst hu (hv ▸ take_two_append second hrest)

/-- A move uses the current token and has not seen more than the next one. -/
theorem advance : LocalSteps advance where
  steady := respectedProgress.advance
  exchange {before after a used rest} h hused hrest := by
    have hrun : ∀ cursor : Cursor, Reading.advance.run cursor = .ok () cursor.advance :=
      fun _ => rfl
    obtain ⟨-, rfl⟩ := (clean_iff_of_run (hrun before) rfl).mp h
    have htail : (used ++ rest).tail = rest := by
      unfold Cursor.advance at hused hrest
      cases ht : before.tokens with
      | nil =>
        rw [ht] at hused hrest
        obtain ⟨rfl, -⟩ := List.append_eq_nil_iff.mp hused.symm
        have hnil : rest = [] := by simpa using hrest
        rw [hnil]
        rfl
      | cons token tokens =>
        rw [ht, List.tail_cons, ← List.singleton_append] at hused
        rw [← List.append_cancel_right hused]
        rfl
    refine (clean_iff_of_run (hrun _) rfl).mpr ⟨rfl, ?_⟩
    rw [Cursor.advance.eq_1 (before.facing _), Cursor.facing_tokens, htail]
    rfl

/-- The statement of a loop is read cleanly only where it is accepted. -/
theorem attempted {x : ParseM α} (hx : LocalParses x) : LocalSteps x.run where
  steady := hx.accounted.attempted
  exchange h hused hrest := by
    obtain ⟨a, rfl, hacc⟩ := (clean_run_iff hx.accounted).mp h
    exact (clean_run_iff hx.accounted).mpr ⟨a, rfl, hx.exchange hacc hused hrest⟩

/-- A loop that asks for its rounds: enough of them for the one list of tokens and the other do not
depend on either. -/
theorem loop {x : List Token → ReadM α} (hx : ∀ rounds, LocalSteps (x rounds)) (h : Enough x) :
    LocalSteps (remaining >>= x) where
  steady := respectedProgress.remaining.bind fun rounds => (hx rounds).steady
  exchange {before after a used rest} hclean hused hrest := by
    have hlen : before.tokens.length ≤ (before.tokens ++ (used ++ rest)).length := by simp
    have hlen' : (before.facing (used ++ rest)).tokens.length ≤
        (before.tokens ++ (used ++ rest)).length := by simp
    unfold Clean at hclean ⊢
    rw [h.run_remaining hlen] at hclean
    rw [h.run_remaining hlen']
    exact (hx _).exchange hclean hused hrest

end LocalSteps

namespace LocalParses

/-- So it is with a sequence of readers that may give up. -/
theorem bind {x : ParseM α} {f : α → ParseM β} (hx : LocalParses x)
    (hf : ∀ a, LocalParses (f a)) : LocalParses (x >>= f) where
  accounted := hx.accounted.bind fun a => (hf a).accounted
  exchange h hused hrest := by
    have hbind := fun {before after : Cursor} {b : β} =>
      @accepts_bind α β before after x f b hx.accounted fun a => (hf a).accounted
    obtain ⟨a, middle, hfirst, hsecond⟩ := hbind.mp h
    obtain ⟨first, second, rfl, hu, hv⟩ :=
      exists_used (hfirst.suffix hx.accounted) (hsecond.suffix (hf a).accounted) hused
    refine hbind.mpr ⟨a, middle.facing (second ++ _), ?_, (hf a).exchange hsecond hv hrest⟩
    rw [List.append_assoc]
    exact hx.exchange hfirst hu (hv ▸ take_two_append second hrest)

/-- A local step is local among readers that may give up. -/
theorem lift {x : ReadM α} (hx : LocalSteps x) : LocalParses (liftM x : ParseM α) where
  accounted := hx.steady.lift
  exchange h hused hrest := accepts_lift.mpr (hx.exchange (accepts_lift.mp h) hused hrest)

/-- A reader that accepts nothing. -/
theorem of_not {x : ParseM α} (hx : Accounted x)
    (h : ∀ {before after : Cursor} {a : α}, ¬ Accepts x before a after) : LocalParses x where
  accounted := hx
  exchange hacc := absurd hacc h

/-- Whether a semicolon is skipped is seen in the upcoming token. -/
theorem terminated {x : ParseM α} (hx : LocalParses x) : LocalParses (terminated x) where
  accounted := hx.accounted.terminated
  exchange {before after a used rest} h hused hrest := by
    obtain ⟨middle, hacc, rfl⟩ := accepts_terminated.mp h
    by_cases hsemi : middle.upcoming.kind = .semicolon
    · -- the semicolon is the first of the tokens left
      have hskip : middle.skipSemicolon = middle.advance := if_pos hsemi
      rw [hskip] at hused hrest ⊢
      obtain ⟨first, second, rfl, hu, hv⟩ :=
        exists_used (hacc.suffix hx.accounted) (List.tail_suffix _) hused
      obtain ⟨token, rfl⟩ : ∃ token, second = [token] := by
        have hfull : middle.Full := Cursor.full_of_upcoming hsemi (by decide)
        have hlen := congrArg List.length hv
        have htail := length_advance middle
        rw [List.length_append] at hlen
        exact List.length_eq_one_iff.mp (by unfold Cursor.Full at hfull; omega)
      have hfirst := hx.exchange hacc hu (hv ▸ take_two_append [token] hrest)
      refine accepts_terminated.mpr ⟨_, by rwa [List.append_assoc], ?_⟩
      have hupcoming : (middle.facing ([token] ++ rest)).upcoming.kind = .semicolon := by
        rw [Cursor.upcoming_kind] at hsemi ⊢
        exact (nextKind_of_take_two hrest).trans hsemi
      rw [Cursor.skipSemicolon, if_pos hupcoming]
      rfl
    · have hskip : middle.skipSemicolon = middle := if_neg hsemi
      rw [hskip] at hused hrest ⊢
      refine accepts_terminated.mpr ⟨_, hx.exchange hacc hused hrest, ?_⟩
      rw [Cursor.skipSemicolon, if_neg]
      rwa [upcoming_of_take_two hrest]

/-- A loop that asks for its rounds. -/
theorem loop {x : List Token → ParseM α} (hx : ∀ rounds, LocalParses (x rounds))
    (h : Enough fun rounds => (x rounds).run) : LocalParses (liftM remaining >>= x) where
  accounted := respectedProgress.remaining.lift.bind fun rounds => (hx rounds).accounted
  exchange {before after a used rest} hacc hused hrest := by
    have hlen : before.tokens.length ≤ (before.tokens ++ (used ++ rest)).length := by simp
    have hlen' : (before.facing (used ++ rest)).tokens.length ≤
        (before.tokens ++ (used ++ rest)).length := by simp
    have hrun : ∀ {cursor : Cursor} {rounds : List Token}, cursor.tokens.length ≤ rounds.length →
        (liftM remaining >>= x).run.run cursor = (x rounds).run.run cursor := fun hle => by
      rw [← h.run_remaining hle, run_bind_parses, run_lift, run_bind_steps]
      rfl
    unfold Accepts Clean at hacc ⊢
    rw [hrun hlen] at hacc
    rw [hrun hlen']
    exact (hx _).exchange hacc hused hrest

/-- A clean end at which two tokens are left is the same with more tokens behind. -/
theorem append {x : ParseM α} (hx : LocalParses x) {more : List Token} {a : α}
    (h : Accepts x before a after) (hfull : after.Full) :
    Accepts x (before.append more) a (after.append more) := by
  obtain ⟨used, hused⟩ := h.suffix hx.accounted
  have htake : (after.tokens ++ more).take 2 = after.tokens.take 2 :=
    List.take_append_of_le_length hfull
  have hmore := hx.exchange h hused.symm htake
  rwa [← List.append_assoc, hused] at hmore

end LocalParses

/-- The current token is the first of those that are left. -/
theorem current_local : LocalSteps current :=
  .ask respectedProgress.current (fun _ => rfl) fun cursor =>
    current_of_take_two (by rw [List.take_take, Nat.min_self])

/-- The upcoming token is the second one. -/
theorem upcoming_local : LocalSteps upcoming :=
  .ask respectedProgress.upcoming (fun _ => rfl) fun cursor =>
    upcoming_of_take_two (by rw [List.take_take, Nat.min_self])

/-- An integer literal is read from the current token alone. -/
theorem integerOperand_local : LocalParses integerOperand where
  accounted := respectedProgress.integerOperand
  exchange {before after a used rest} h hused hrest := by
    obtain ⟨hk, h⟩ := accepts_integerOperand.mp h
    obtain ⟨digits, hd, hl, hv, rfl, rfl⟩ := accepts_integerLiteral.mp h
    obtain rfl : used = [] := List.self_eq_append_left.mp hused
    have hcurrent : (after.facing rest).current = after.current := current_of_take_two hrest
    rw [← hcurrent] at hk hd ⊢
    exact accepts_integerOperand.mpr
      ⟨hk, accepts_integerLiteral.mpr ⟨digits, hd, hl, hv, rfl, rfl⟩⟩

/-- All steps but the question for the tokens left are local. -/
def composedLocal : Composed (fun x _ => LocalSteps x) (fun x _ => LocalParses x) where
  pure_steps := .pure
  bind_steps hx hf := hx.bind hf
  current := current_local
  upcoming := upcoming_local
  advance := .advance
  pure_parses a := .lift (.pure a)
  bind_parses hx hf := hx.bind hf
  lift hx := .lift hx
  reject diagnostic := .of_not (respectedProgress.reject diagnostic) accepts_reject
  integerOperand := integerOperand_local
  terminated hx := hx.terminated
  attempted hx := .attempted hx

theorem identifier_local : LocalSteps identifier := composedLocal.identifier

/-- A closing token that ends what is read. -/
theorem close_local (kind : Token.Kind) (a : α) : LocalParses (do expect kind; return a) :=
  (composedLocal.expect kind).bind fun _ => composedLocal.pure_parses a

section Readers

variable (he : ∀ level, LocalParses (e level))

include he

/-- The loop over statements looks at the token where it ends, and no further than its statements
do. -/
theorem statements_local (ends : Token.Kind → Bool) (kept : Array Stmt) :
    LocalSteps (statements ends e kept) :=
  .loop (fun rounds => composedLocal.statementsUntil (f := e) he ends rounds kept)
    ((isLoop_statementsUntil (fun level => (he level).accounted) ends).enough kept)

/-- A block is local, with the loop inside. -/
theorem block_local : LocalSteps (block e) := by
  rw [block_eq]
  refine composedLocal.current.bind fun _ => ?_
  refine composedLocal.advance.bind fun _ => ?_
  exact (statements_local he _ _).bind fun _ => .pure _

/-- The loop over expressions ends at a token that is no comma. -/
theorem expressionsBehind_local (found : Array Expr) : LocalParses (expressionsBehind e found) :=
  .loop (fun rounds => composedLocal.moreExpressions (f := e) he rounds found)
    ((isLoop_moreExpressions fun level => (he level).accounted).enough found)

/-- A list of expressions is local, with the loop inside. -/
theorem expressionList_local (close : Token.Kind) : LocalParses (expressionList e close) := by
  rw [expressionList_eq]
  refine (LocalParses.lift upcoming_local).bind fun token => ?_
  split
  · exact (LocalParses.lift .advance).bind fun _ => composedLocal.pure_parses _
  · refine (LocalParses.lift .advance).bind fun _ => (he _).bind fun first => ?_
    exact (expressionsBehind_local he _).bind (close_local close)

end Readers

/-- The loop over parameters ends at a token that is no comma. -/
theorem parametersBehind_local (found : Array Ident) : LocalParses (parametersBehind found) :=
  .loop (fun rounds => composedLocal.moreParameters rounds found)
    (isLoop_moreParameters.enough found)

/-- A list of parameters is local, with the loop inside. -/
theorem functionParameters_local : LocalParses functionParameters := by
  rw [functionParameters_eq]
  refine (LocalParses.lift upcoming_local).bind fun token => ?_
  split
  · exact (LocalParses.lift .advance).bind fun _ => composedLocal.pure_parses _
  · refine (composedLocal.expect .ident).bind fun _ => ?_
    refine (LocalParses.lift identifier_local).bind fun first => ?_
    exact (parametersBehind_local _).bind (close_local .rparen)

/-- An operand is local, if nested expressions are. -/
theorem operand_local (he : ∀ level, LocalParses (e level)) : LocalParses (operand e) :=
  composedLocal.operand (f := e) he functionParameters_local (block_local he)

/-- So is the continuation of an expression by one operator or call. -/
theorem extend_local (he : ∀ level, LocalParses (e level)) (left : Expr) :
    LocalParses (extend e left) :=
  composedLocal.extend (f := e) he (expressionList_local he) left

/-- So is the continuation by any number of them. -/
theorem extended_local (he : ∀ level, LocalParses (e level)) (level : Int) (left : Expr) :
    LocalParses (extended e level left) :=
  .loop (fun rounds => composedLocal.extendAll (f := e) (extend_local he) level rounds left)
    ((isLoop_extendAll (fun level => (he level).accounted) level).enough left)

/-- Reading an expression does not look far ahead, whatever the depth and the level. -/
theorem expression_local (depth : Nat) (level : Int) : LocalParses (expression depth level) := by
  induction depth generalizing level with
  | zero => exact .of_not (expression_accounted 0 level) accepts_stop
  | succ depth ih =>
    rw [expression_succ_eq]
    exact (operand_local ih).bind fun left => extended_local ih level left

end Reading

end Inkwell
