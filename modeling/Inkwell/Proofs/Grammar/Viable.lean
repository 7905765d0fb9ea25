import Inkwell.Proofs.Grammar.Exchange
import Inkwell.Proofs.Reading.Finds
import Inkwell.Proofs.Reading.Stops

/-!
# What was read before the first mistake can be completed

Whatever a reader has used when it finds something wrong for the first time can be completed to
something that the grammar derives: the tokens are then a beginning of derivable tokens. The
completion is made of what the readers that are still at work would have accepted next.

A reader starts with its current token used or not. `lead` says which tokens before those that it
derives count as used: none, or the current one.
-/

namespace Inkwell

/-- Before the end of the input the first token is the current one. -/
theorem Cursor.take_one_of_kind {cursor : Cursor} {kind : Token.Kind}
    (h : cursor.current.kind = kind) (hk : kind ≠ .eof) :
    cursor.tokens.take 1 = [cursor.current] := by
  rw [cursor.tokens_eq h hk]
  rfl

/-- There a move passes a token. -/
theorem Reading.length_advance_lt {cursor : Cursor} (h : cursor.current.kind ≠ .eof) :
    cursor.advance.tokens.length < cursor.tokens.length := by
  rw [cursor.tokens_eq rfl h]
  exact Nat.lt_succ_self _

namespace Grammar

open Reading

/-- Readable tokens do not stand for the end of the input. -/
theorem Unended.of_readable {tokens : List Token} (h : ∀ token ∈ tokens, token.Readable) :
    Unended tokens := fun token ht => (h token ht).ne_eof

variable {α β : Type} {lead ahead : List Token} {before middle : Cursor} {d : Diagnostic}
  {derives derives' : List Token → List Token → Prop}

/-- What a reader used before it found something wrong is the beginning of readable tokens that are
derived, whatever stands behind them. -/
def Repair (lead : List Token) (x : ReadM α) (before : Cursor) (d : Diagnostic)
    (derives : List Token → List Token → Prop) : Prop :=
  ∃ used rest front, Fault x before d (lead ++ used) rest ∧ used <+: front ∧
    (∀ token ∈ front, token.Readable) ∧ ∀ others, derives (front ++ others) others

/-- Whatever a reader finds wrong first in readable tokens, what stands before it can be
completed. -/
structure Viable (lead : List Token) (x : ReadM α) (before : Cursor)
    (derives : List Token → List Token → Prop) : Prop where
  repair : (∀ token ∈ before.tokens, token.Readable) → ∀ {d : Diagnostic}, Finds x before d →
    Repair lead x before d derives

namespace Viable

/-- A reader that finds nothing wrong has nothing to complete. -/
theorem of_not {x : ReadM α} (h : ∀ d, ¬ Finds x before d) : Viable lead x before derives :=
  ⟨fun _ _ hd => absurd hd (h _)⟩

/-- A result without a step finds nothing wrong. -/
theorem pure {a : α} : Viable lead (pure a : ParseM α).run before derives :=
  of_not fun _ => finds_pure_parses

/-- More tokens complete something larger. -/
theorem imp {x : ReadM α} (h : Viable lead x before derives) (tail : List Token)
    (htail : ∀ token ∈ tail, token.Readable)
    (hderives : ∀ tokens others, derives tokens (tail ++ others) → derives' tokens others) :
    Viable lead x before derives' := by
  refine ⟨fun hread d hd => ?_⟩
  obtain ⟨used, rest, front, hfault, hused, hfront, h⟩ := h.repair hread hd
  refine ⟨used, rest, front ++ tail, hfault, hused.trans (List.prefix_append _ _), ?_, ?_⟩
  · intro token ht
    exact (List.mem_append.mp ht).elim (hfront token) (htail token)
  · intro others
    rw [List.append_assoc]
    exact hderives _ _ (h _)

/-- What follows from the derived may be asked for in its place. -/
theorem mono {x : ReadM α} (h : Viable lead x before derives)
    (hderives : ∀ tokens others, derives tokens others → derives' tokens others) :
    Viable lead x before derives' := h.imp [] (by simp) hderives

/-- A reader that finds what another one finds, at the same tokens, is completed as that one is. -/
theorem of_finds {x : ReadM α} {y : ReadM β} {lead' : List Token} {start : Cursor}
    (h : Viable lead' y start derives) (hsuffix : start.tokens <:+ before.tokens)
    (hfinds : ∀ {d}, Finds x before d → Finds y start d)
    (hfault : ∀ {d used rest}, Fault y start d (lead' ++ used) rest →
      Fault x before d (lead ++ used) rest) : Viable lead x before derives := by
  refine ⟨fun hread d hd => ?_⟩
  have hread' : ∀ token ∈ start.tokens, token.Readable := fun token ht =>
    hread token (hsuffix.subset ht)
  obtain ⟨used, rest, front, hy, h⟩ := h.repair hread' (hfinds hd)
  exact ⟨used, rest, front, hfault hy, h⟩

/-- A step that can be completed can be so among readers that may give up. -/
theorem lift {x : ReadM α} (h : Viable lead x before derives) :
    Viable lead (liftM x : ParseM α).run before derives :=
  h.of_finds List.suffix_rfl finds_lift.mp fun hy => hy.lift

/-- The semicolon that may follow finds nothing wrong. -/
theorem terminated {x : ParseM α} (h : Viable lead x.run before derives) :
    Viable lead (terminated x).run before derives :=
  h.of_finds List.suffix_rfl finds_terminated.mp fun hy => hy.terminated

/-- Asking for the current token finds nothing wrong. -/
theorem current {f : Token → ParseM β} (h : Viable lead (f before.current).run before derives) :
    Viable lead (liftM current >>= f).run before derives :=
  h.of_finds List.suffix_rfl (finds_bind_of_run rfl rfl).mp fun hy => hy.current

/-- Nor does taking a name from it. -/
theorem identifier {f : Ident → ParseM β}
    (h : Viable lead (f ⟨before.current, before.current.literal⟩).run before derives) :
    Viable lead (liftM identifier >>= f).run before derives :=
  h.of_finds List.suffix_rfl (finds_bind_of_run rfl rfl).mp fun hy => hy.identifier

/-- Nor does asking for the upcoming token, for which the current one has to stay. -/
theorem upcoming {f : Token → ParseM β}
    (h : Viable (before.tokens.take 1) (f before.upcoming).run before derives) :
    Viable (before.tokens.take 1) (liftM upcoming >>= f).run before derives :=
  h.of_finds List.suffix_rfl (finds_bind_of_run rfl rfl).mp fun hy => hy.upcoming

/-- Nor does a move, which uses the current token. -/
theorem advance {f : Unit → ParseM β} (h : Viable [] (f ()).run before.advance derives) :
    Viable (before.tokens.take 1) (liftM advance >>= f).run before derives :=
  h.of_finds (List.tail_suffix _) (finds_bind_of_run rfl rfl).mp fun hy => hy.advance

/-- A current token that is used belongs to what is derived. -/
theorem behind {x : ReadM α} {kind : Token.Kind} (hk : before.current.kind = kind)
    (hne : kind ≠ .eof) (h : Viable (before.tokens.take 1) x before (Behind kind derives)) :
    Viable [] x before derives := by
  refine ⟨fun hread d hd => ?_⟩
  obtain ⟨used, rest, front, hfault, hused, hfront, h⟩ := h.repair hread hd
  rw [Cursor.take_one_of_kind hk hne] at hfault
  refine ⟨before.current :: used, rest, before.current :: front, hfault, ?_, ?_, fun others => ?_⟩
  · exact List.cons_prefix_cons.mpr ⟨rfl, hused⟩
  · refine List.forall_mem_cons.mpr ⟨hread _ ?_, hfront⟩
    rw [Cursor.tokens_eq hk hne]
    exact List.mem_cons_self
  · exact h others _ hk

/-- The token that is wanted, and what follows it. Where it is missing, it can be put there, with
others behind it. -/
theorem expect {wanted : Token.Kind} {f : Unit → ParseM β} (front : List Token)
    (hfront : ∀ token ∈ front, token.Readable)
    (hmissing : ∀ others, derives (front ++ others) others)
    (h : before.upcoming.kind = wanted → Viable [] (f ()).run before.advance derives) :
    Viable (before.tokens.take 1) (expect wanted >>= f).run before derives := by
  by_cases hw : before.upcoming.kind = wanted
  · refine (h hw).of_finds (List.tail_suffix _) (fun hd => ?_) fun hy => hy.expect hw
    unfold Finds at hd
    rwa [run_bind_parses, run_expect, if_pos hw] at hd
  · refine ⟨fun hread d hd => ?_⟩
    have hreason : d = .expected wanted before.upcoming.kind := by
      unfold Finds at hd
      rw [run_bind_parses, run_expect, if_neg hw] at hd
      simpa [lastCursor, Cursor.report, eq_comm] using hd
    subst hreason
    refine ⟨[], before.advance.tokens, front, ?_, List.nil_prefix, hfront, hmissing⟩
    rw [List.append_nil]
    exact .unexpected hw

/-- A token of no use, where others can be put. -/
theorem reject {reason : Diagnostic} (hk : reason.found = before.current.kind)
    (front : List Token) (hfront : ∀ token ∈ front, token.Readable)
    (hmissing : ∀ others, derives (front ++ others) others) :
    Viable [] (reject reason : ParseM α).run before derives := by
  refine ⟨fun _ d hd => ?_⟩
  rw [finds_reject] at hd
  subst hd
  exact ⟨[], before.tokens, front, ⟨rfl, hk.trans before.current_kind, fun _ =>
    finds_reject.mpr rfl⟩, List.nil_prefix, hfront, hmissing⟩

/-- Something made of what a reader gives. -/
theorem map {x : ParseM α} {g : α → β} (hx : Accounted x) (h : Viable lead x.run before derives) :
    Viable lead (do let a ← x; return g a : ParseM β).run before derives := by
  have hg : ∀ a : α, Accounted (Pure.pure (g a) : ParseM β) := fun a =>
    respectedProgress.pure_parses (g a)
  refine h.of_finds List.suffix_rfl (fun hd => ?_) fun hy => hy.bind_left hx hg
  exact ((finds_bind_parses hx hg).mp hd).resolve_right fun ⟨_, _, _, h⟩ => finds_pure_parses h

/-- A sequence. What the first reader accepts can be followed by anything, so also by what completes
the second one. -/
theorem bind {x : ParseM α} {f : α → ParseM β} (hx : LocalParses x) (hf : ∀ a, Accounted (f a))
    (hahead : before.tokens = lead ++ ahead) (hleft : Viable lead x.run before derives)
    (hright : (∀ token ∈ before.tokens, token.Readable) → ∀ {a : α} {middle : Cursor},
      Accepts x before a middle → ∃ first,
        Exchanges Anything first ahead middle.advance.tokens ∧
        Viable (middle.tokens.take 1) (f a).run middle (After first derives)) :
    Viable lead (x >>= f).run before derives := by
  refine ⟨fun hread d hd => ?_⟩
  rcases (finds_bind_parses hx.accounted hf).mp hd with hd | ⟨a, middle, hacc, hd⟩
  · obtain ⟨used, rest, front, hfault, h⟩ := hleft.repair hread hd
    exact ⟨used, rest, front, hfault.bind_left hx.accounted hf, h⟩
  · have hsuffix := hacc.suffix hx.accounted
    obtain ⟨start, hstart⟩ := hacc.suffix hx.accounted
    obtain ⟨first, ⟨used, n, hused, hn, hfirst⟩, hviable⟩ := hright hread hacc
    have hread' : ∀ token ∈ middle.tokens, token.Readable := fun token ht =>
      hread token (hsuffix.subset ht)
    obtain ⟨used', rest, front, hfault, hprefix, hfront, hsecond⟩ := hviable.repair hread' hd
    have hbehind : middle.advance.tokens = used' ++ rest :=
      advance_tokens_of_take_one (hfault.tokens.trans (List.append_assoc _ _ _))
    have hsame : start ++ (middle.tokens.take 1 ++ used') ++ rest =
        lead ++ (used ++ used') ++ rest := by
      calc start ++ (middle.tokens.take 1 ++ used') ++ rest = before.tokens := by
            rw [List.append_assoc, ← hfault.tokens, hstart]
        _ = lead ++ (used ++ used') ++ rest := by
            rw [hahead, hused, hbehind]
            simp only [List.append_assoc]
    have hclosers : used' ≠ [] → n = 0 := fun hne => hn (by simp [hbehind, hne])
    refine ⟨used ++ used', rest, used ++ (closers n ++ front), ?_, ?_, ?_, fun others => ?_⟩
    · rw [← List.append_cancel_right hsame]
      exact hfault.bind_right hx hf hacc hstart.symm
    · refine List.prefix_append_right_inj _ |>.mpr ?_
      by_cases hne : used' = []
      · rw [hne]
        exact List.nil_prefix
      · rw [hclosers hne]
        exact hprefix
    · intro token ht
      rcases List.mem_append.mp ht with ht | ht
      · exact hread token (by rw [hahead, hused]; simp [ht])
      · rcases List.mem_append.mp ht with ht | ht
        · rw [List.eq_of_mem_replicate ht]
          decide
        · exact hfront token ht
    · have hd := hsecond others _ (hfirst (front ++ others) trivial)
      simpa only [List.append_assoc] using hd

/-- The token that is wanted, and what is derived behind it. -/
theorem expect_token {wanted : Token.Kind} {f : Unit → ParseM β} (hne : wanted ≠ .eof)
    (front : List Token) (hfront : ∀ token ∈ front, token.Readable)
    (hmissing : ∀ others, derives (front ++ others) others)
    (h : before.upcoming.kind = wanted →
      Viable (before.advance.tokens.take 1) (f ()).run before.advance (Behind wanted derives)) :
    Viable (before.tokens.take 1) (Reading.expect wanted >>= f).run before derives := by
  refine .expect front hfront hmissing fun hw => ?_
  have hcurrent : before.advance.current.kind = wanted := by rw [Cursor.current_advance, hw]
  exact .behind hcurrent hne (h hw)

/-- A token that is known to follow, and what is derived behind it. -/
theorem skip {kind : Token.Kind} {f : Unit → ParseM β} (hk : before.upcoming.kind = kind)
    (hne : kind ≠ .eof)
    (h : Viable (before.advance.tokens.take 1) (f ()).run before.advance (Behind kind derives)) :
    Viable (before.tokens.take 1) (liftM Reading.advance >>= f).run before derives := by
  have hcurrent : before.advance.current.kind = kind := by rw [Cursor.current_advance, hk]
  exact .advance (.behind hcurrent hne h)

/-- A closing token that ends what is read. -/
theorem close {kind : Token.Kind} {a : α} (closing : Token)
    (hread : closing.Readable) (hmissing : ∀ others, derives (closing :: others) others) :
    Viable (before.tokens.take 1) (do Reading.expect kind; return a : ParseM α).run before
      derives := .expect [closing] (by simpa using hread) hmissing fun _ => .pure

end Viable

end Grammar

end Inkwell
