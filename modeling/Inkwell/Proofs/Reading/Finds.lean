import Inkwell.Proofs.Reading.Local

/-!
# The first thing that is found wrong

`Finds` says which diagnostic a reader adds first. Diagnostics are never taken back, so it is the
first one of a sequence if and only if its first part finds it, or if the first part finds nothing
and the second part does. A `Fault` says in addition where: what stands behind the token that the
diagnostic is about has not been looked at, so any tokens may stand there.
-/

namespace Inkwell

/-- The kind of token that a diagnostic is about. -/
def Diagnostic.found : Diagnostic → Token.Kind
  | expected _ found => found
  | noOperand found => found
  | outOfRange _ => .int

namespace Reading

variable {α β : Type} {before middle after : Cursor} {d : Diagnostic}

/-- Where a run ends, whatever its result. -/
def lastCursor : EStateM.Result Stop Cursor α → Cursor
  | .ok _ after => after
  | .error _ after => after

/-- The first diagnostic that a reader adds. -/
def Finds (x : ReadM α) (before : Cursor) (d : Diagnostic) : Prop :=
  (lastCursor (x.run before)).diagnostics.toList[before.diagnostics.toList.length]? = some d

/-- However a reader ends, it has kept the earlier diagnostics. -/
theorem Moves.prefix_lastCursor {owed : α → Nat} {x : ReadM α} (hx : Moves owed x)
    (before : Cursor) :
    before.diagnostics.toList <+: (lastCursor (x.run before)).diagnostics.toList := by
  have hp := hx before
  cases hr : x.run before <;> rw [hr] at hp <;> exact hp.diagnostics

/-- The first element behind a list, by what was added to the list first. -/
theorem getElem?_of_isPrefix {first second third : List α} (h₁ : first <+: second)
    (h₂ : second <+: third) {a : α} :
    third[first.length]? = some a ↔
      second[first.length]? = some a ∨ second = first ∧ third[second.length]? = some a := by
  obtain ⟨added, rfl⟩ := h₁
  obtain ⟨more, rfl⟩ := h₂
  cases added <;> simp

/-- Readers that run alike find the same. -/
theorem finds_congr {γ : Type} {x : ReadM α} {y : ReadM γ}
    (h : (lastCursor (x.run before)).diagnostics = (lastCursor (y.run before)).diagnostics) :
    Finds x before d ↔ Finds y before d := by
  unfold Finds
  rw [h]

/-- The first diagnostic of a sequence is that of the first reader, or of the second one behind a
clean result. -/
theorem finds_bind_parses {x : ParseM α} {f : α → ParseM β} (hx : Accounted x)
    (hf : ∀ a, Accounted (f a)) :
    Finds (x >>= f).run before d ↔
      Finds x.run before d ∨ ∃ a middle, Accepts x before a middle ∧ Finds (f a).run middle d := by
  unfold Finds Accepts Clean
  have hprefix := hx.prefix_lastCursor before
  rw [run_bind_parses]
  cases hr : x.run.run before with
  | error cause middle => simp [lastCursor]
  | ok result middle =>
    rw [hr] at hprefix
    cases result with
    | none => simp [lastCursor]
    | some a =>
      have hrest := (hf a).prefix_lastCursor middle
      dsimp only
      rw [getElem?_of_isPrefix hprefix hrest]
      simp only [lastCursor, Array.toList_inj, EStateM.Result.ok.injEq, Option.some.injEq]
      refine or_congr_right ⟨fun ⟨hd, h⟩ => ⟨a, middle, ⟨⟨rfl, rfl⟩, hd⟩, h⟩, ?_⟩
      rintro ⟨_, _, ⟨⟨rfl, rfl⟩, hd⟩, h⟩
      exact ⟨hd, h⟩

/-- A result without a step finds nothing. -/
@[simp]
theorem finds_pure_parses {a : α} : ¬ Finds (pure a : ParseM α).run before d := by
  simp [Finds, lastCursor]

/-- A stop is not a diagnostic. -/
@[simp]
theorem finds_stop {cause : Stop} : ¬ Finds (stop cause : ReadM α) before d := by
  have hrun : (stop cause : ReadM α).run before = .error cause before := rfl
  simp [Finds, lastCursor, hrun]

/-- A step finds the same among readers that may give up. -/
@[simp]
theorem finds_lift {x : ReadM α} : Finds (liftM x : ParseM α).run before d ↔ Finds x before d := by
  refine finds_congr ?_
  rw [run_lift]
  cases x.run before <;> rfl

/-- Whoever gives up finds the reason that is given. -/
@[simp]
theorem finds_reject {reason : Diagnostic} :
    Finds (reject reason : ParseM α).run before d ↔ d = reason := by
  unfold Finds
  rw [run_reject]
  simp [lastCursor, Cursor.report, eq_comm]

/-- Skipping a semicolon finds nothing. -/
@[simp]
theorem finds_terminated {x : ParseM α} :
    Finds (terminated x).run before d ↔ Finds x.run before d := by
  refine finds_congr ?_
  rw [run_terminated]
  cases x.run.run before with
  | error => rfl
  | ok result middle =>
    dsimp only [lastCursor]
    split <;> rfl

/-- What follows a step of known result. -/
theorem finds_bind_of_run {x : ReadM α} {f : α → ParseM β} {a : α} (h : x.run before = .ok a middle)
    (hd : middle.diagnostics = before.diagnostics) :
    Finds (liftM x >>= f).run before d ↔ Finds (f a).run middle d := by
  unfold Finds
  rw [run_bind_parses, run_lift, h, hd]

/-- The current token depends on the first of the tokens only. -/
theorem current_of_head? {cursor : Cursor} {tokens : List Token}
    (h : tokens.head? = cursor.tokens.head?) : (cursor.facing tokens).current = cursor.current := by
  unfold Cursor.facing Cursor.current
  cases ht : cursor.tokens <;> cases tokens <;> simp_all

/-- Behind the current token, the first one decides which is the upcoming one. -/
theorem take_two_of_head? {cursor : Cursor} {tokens : List Token}
    (h : tokens.head? = cursor.advance.tokens.head?) :
    (cursor.tokens.take 1 ++ tokens).take 2 = cursor.tokens.take 2 := by
  unfold Cursor.advance at h
  rcases ht : cursor.tokens with _ | ⟨a, rest⟩ <;> rw [ht] at h
  · simpa using h
  · simp [List.take_one, h]

/-- The upcoming token depends on the first two tokens only. -/
theorem upcoming_facing {cursor : Cursor} {tokens : List Token}
    (h : tokens.take 2 = cursor.tokens.take 2) :
    (cursor.facing tokens).upcoming = cursor.upcoming := by
  have hsame : (cursor.facing tokens).upcoming = (cursor.facing cursor.tokens).upcoming :=
    upcoming_of_take_two h
  exact hsame

/-- What stands behind the current token. -/
theorem advance_tokens_of_take_one {cursor : Cursor} {tokens : List Token}
    (h : cursor.tokens = cursor.tokens.take 1 ++ tokens) : cursor.advance.tokens = tokens := by
  unfold Cursor.advance
  rcases ht : cursor.tokens with _ | ⟨a, rest⟩ <;> rw [ht] at h <;> simpa using h

/-- The tokens of a cursor are the current one and those behind it. -/
theorem take_one_append_advance (cursor : Cursor) :
    cursor.tokens.take 1 ++ cursor.advance.tokens = cursor.tokens := by
  unfold Cursor.advance
  cases cursor.tokens <;> simp

/-- A reader finds something in the token behind those used, and would find it whatever stood behind
that token. -/
structure Fault (x : ReadM α) (before : Cursor) (d : Diagnostic) (used rest : List Token) :
    Prop where
  tokens : before.tokens = used ++ rest
  found : d.found = Grammar.nextKind rest
  finds : ∀ {others : List Token}, others.head? = rest.head? →
    Finds x (before.facing (used ++ others)) d

namespace Fault

variable {used rest : List Token}

/-- A fault of the first reader is one of the sequence. -/
theorem bind_left {x : ParseM α} {f : α → ParseM β} (hx : Accounted x) (hf : ∀ a, Accounted (f a))
    (h : Fault x.run before d used rest) : Fault (x >>= f).run before d used rest :=
  ⟨h.tokens, h.found, fun ho => (finds_bind_parses hx hf).mpr (.inl (h.finds ho))⟩

/-- A fault behind the current token leaves the first two tokens as they are. -/
theorem take_two {x : ReadM α} (h : Fault x before d (before.tokens.take 1 ++ used) rest)
    {others : List Token} (ho : others.head? = rest.head?) :
    (before.tokens.take 1 ++ used ++ others).take 2 = before.tokens.take 2 := by
  have hadvance : before.advance.tokens = used ++ rest :=
    advance_tokens_of_take_one (h.tokens.trans (List.append_assoc _ _ _))
  rw [List.append_assoc]
  refine take_two_of_head? ?_
  rw [hadvance, List.head?_append, List.head?_append, ho]

/-- Behind a reader that accepts, with its current token used. -/
theorem bind_right {x : ParseM α} {f : α → ParseM β} {a : α} {first : List Token}
    (hx : LocalParses x) (hf : ∀ a, Accounted (f a)) (hacc : Accepts x before a middle)
    (hfirst : before.tokens = first ++ middle.tokens)
    (h : Fault (f a).run middle d (middle.tokens.take 1 ++ used) rest) :
    Fault (x >>= f).run before d (first ++ (middle.tokens.take 1 ++ used)) rest := by
  refine ⟨by rw [hfirst, List.append_assoc, ← h.tokens], h.found, fun {others} ho => ?_⟩
  refine (finds_bind_parses hx.accounted hf).mpr (.inr ⟨a, _, ?_, h.finds ho⟩)
  rw [List.append_assoc]
  exact hx.exchange hacc hfirst (h.take_two ho)

/-- A fault of a step is one among readers that may give up. -/
theorem lift {x : ReadM α} (h : Fault x before d used rest) :
    Fault (liftM x : ParseM α).run before d used rest :=
  ⟨h.tokens, h.found, fun ho => finds_lift.mpr (h.finds ho)⟩

/-- A fault stays one if a semicolon may follow. -/
theorem terminated {x : ParseM α} (h : Fault x.run before d used rest) :
    Fault (terminated x).run before d used rest :=
  ⟨h.tokens, h.found, fun ho => finds_terminated.mpr (h.finds ho)⟩

/-- A fault behind the question for the current token. -/
theorem current {f : Token → ParseM β} (h : Fault (f before.current).run before d used rest) :
    Fault (liftM current >>= f).run before d used rest := by
  refine ⟨h.tokens, h.found, fun {others} ho => ?_⟩
  have hhead : (used ++ others).head? = before.tokens.head? := by
    rw [h.tokens, List.head?_append, List.head?_append, ho]
  have hrun : Reading.current.run (before.facing (used ++ others)) =
      .ok before.current (before.facing (used ++ others)) := by
    rw [← current_of_head? hhead]
    rfl
  exact (finds_bind_of_run hrun rfl).mpr (h.finds ho)

/-- A fault behind a name. -/
theorem identifier {f : Ident → ParseM β}
    (h : Fault (f ⟨before.current, before.current.literal⟩).run before d used rest) :
    Fault (liftM identifier >>= f).run before d used rest := by
  have hname : (liftM Reading.identifier >>= f : ParseM β) =
      liftM Reading.current >>= fun token => f ⟨token, token.literal⟩ := rfl
  rw [hname]
  exact .current h

/-- A fault behind the question for the upcoming token: it uses the current one, so that question
gets the same answer. -/
theorem upcoming {f : Token → ParseM β}
    (h : Fault (f before.upcoming).run before d (before.tokens.take 1 ++ used) rest) :
    Fault (liftM upcoming >>= f).run before d (before.tokens.take 1 ++ used) rest := by
  refine ⟨h.tokens, h.found, fun {others} ho => ?_⟩
  have hupcoming : (before.facing (before.tokens.take 1 ++ used ++ others)).upcoming =
      before.upcoming := upcoming_facing (h.take_two ho)
  have hrun : Reading.upcoming.run (before.facing (before.tokens.take 1 ++ used ++ others)) =
      .ok before.upcoming (before.facing (before.tokens.take 1 ++ used ++ others)) := by
    rw [← hupcoming]
    rfl
  exact (finds_bind_of_run hrun rfl).mpr (h.finds ho)

/-- A fault behind a move, which uses the current token. -/
theorem advance {f : Unit → ParseM β} (h : Fault (f ()).run before.advance d used rest) :
    Fault (liftM advance >>= f).run before d (before.tokens.take 1 ++ used) rest := by
  have htokens : before.tokens = before.tokens.take 1 ++ (used ++ rest) := by
    rw [← h.tokens, take_one_append_advance]
  refine ⟨by rw [List.append_assoc, ← htokens], h.found, fun {others} ho => ?_⟩
  have htail : (before.tokens.take 1 ++ (used ++ others)).tail = used ++ others := by
    have hused := h.tokens
    unfold Cursor.advance at hused
    rcases ht : before.tokens with _ | ⟨token, tokens⟩
    · rw [ht] at hused
      obtain ⟨rfl, rfl⟩ := List.append_eq_nil_iff.mp hused.symm
      obtain rfl : others = [] := by simpa using ho
      rfl
    · rfl
  have hrun : Reading.advance.run (before.facing (before.tokens.take 1 ++ used ++ others)) =
      .ok () (before.advance.facing (used ++ others)) := by
    rw [← htail, ← List.append_assoc]
    rfl
  exact (finds_bind_of_run hrun rfl).mpr (h.finds ho)

/-- A token other than the wanted one. -/
theorem unexpected {wanted : Token.Kind} {f : Unit → ParseM β}
    (h : before.upcoming.kind ≠ wanted) :
    Fault (expect wanted >>= f).run before (.expected wanted before.upcoming.kind)
      (before.tokens.take 1) before.advance.tokens := by
  refine ⟨(take_one_append_advance before).symm, before.upcoming_kind, fun {others} ho => ?_⟩
  have hupcoming : (before.facing (before.tokens.take 1 ++ others)).upcoming = before.upcoming :=
    upcoming_facing (take_two_of_head? ho)
  unfold Finds
  rw [run_bind_parses, run_expect, if_neg (by rwa [hupcoming]), hupcoming]
  simp [lastCursor, Cursor.report, Cursor.facing]

/-- The wanted token, and something wrong behind it. -/
theorem expect {wanted : Token.Kind} {f : Unit → ParseM β} (hw : before.upcoming.kind = wanted)
    (h : Fault (f ()).run before.advance d used rest) :
    Fault (expect wanted >>= f).run before d (before.tokens.take 1 ++ used) rest := by
  have hadvance := h.advance (f := f)
  refine ⟨hadvance.tokens, hadvance.found, fun {others} ho => ?_⟩
  have hupcoming : (before.facing (before.tokens.take 1 ++ used ++ others)).upcoming =
      before.upcoming := upcoming_facing (hadvance.take_two ho)
  refine (finds_congr ?_).mp (hadvance.finds ho)
  rw [run_bind_parses, run_bind_parses, run_expect, if_pos (by rw [hupcoming, hw])]
  rfl

end Fault

end Reading

end Inkwell
