import Inkwell.Proofs.Reading.Progress
import Inkwell.Proofs.Token.Cutting
import Inkwell.Proofs.Tree.Formed

/-!
# What survives reading is well formed

Whatever is wrong with a text, the program that reading keeps of it is well formed. The readers look
at the current token without asking what it is, so this rests on where they are started: each with
the cursor at the token that it is for, also behind a mistake. `Ensures` says what a reader gives if
it gives a result at all, from what is known where it starts, and there is one statement for each
reader.
-/

namespace Inkwell

/-- The token at the cursor is of a kind. -/
def Cursor.At (kind : Token.Kind) (cursor : Cursor) : Prop := cursor.current.kind = kind

namespace Reading

variable {α β : Type} {source : List Token} {P P' R : Cursor → Prop}

/-- On the tokens of a text, a reader that starts where `P` holds and gives a result gives one for
which `Q` holds where it ends. -/
def Ensures (source : List Token) (P : Cursor → Prop) (x : ReadM α) (Q : α → Cursor → Prop) :
    Prop :=
  ∀ ⦃before after : Cursor⦄ ⦃a : α⦄, before.tokens <:+ source → P before →
    x.run before = .ok a after → after.tokens <:+ source ∧ Q a after

/-- The same of a reader that may give up: then nothing is said. -/
abbrev Yields (source : List Token) (P : Cursor → Prop) (x : ParseM α) (Q : α → Cursor → Prop) :
    Prop :=
  Ensures source P x.run fun result after => ∀ a ∈ result, Q a after

namespace Ensures

variable {x : ReadM α} {Q : α → Cursor → Prop}

/-- A result without a step ends where it starts. -/
theorem pure {a : α} (h : ∀ c, P c → Q a c) : Ensures source P (pure a) Q := by
  intro before after b hs hb hr
  cases hr
  exact ⟨hs, h _ hb⟩

/-- What the first step ensures is where the second one starts. -/
theorem bind {f : α → ReadM β} {Q' : β → Cursor → Prop} (hx : Ensures source P x Q)
    (hf : ∀ a, Ensures source (Q a) (f a) Q') : Ensures source P (x >>= f) Q' := by
  intro before after b hs hb hr
  rw [run_bind_steps] at hr
  cases hm : x.run before with
  | error => rw [hm] at hr; cases hr
  | ok a middle =>
    rw [hm] at hr
    obtain ⟨hs', hq⟩ := hx hs hb hm
    exact hf a hs' hq hr

/-- The current token is the one at the cursor, which stays there. -/
theorem current : Ensures source P current fun token c => P c ∧ token = c.current := by
  intro before after token hs hb hr
  cases hr
  exact ⟨hs, hb, rfl⟩

/-- The upcoming token is the one behind it. -/
theorem upcoming : Ensures source P upcoming fun token c => P c ∧ token = c.upcoming := by
  intro before after token hs hb hr
  cases hr
  exact ⟨hs, hb, rfl⟩

/-- Asking for the tokens left changes nothing. -/
theorem remaining : Ensures source P remaining fun _ => P := by
  intro before after tokens hs hb hr
  cases hr
  exact ⟨hs, hb⟩

/-- What is known of the cursor behind a move. -/
theorem advance_to (h : ∀ c, P c → R c.advance) : Ensures source P advance fun _ => R := by
  intro before after a hs hb hr
  cases hr
  exact ⟨(List.tail_suffix _).trans hs, h _ hb⟩

/-- A move stays inside the text. -/
theorem advance : Ensures source P advance fun _ _ => True := advance_to fun _ _ => trivial

end Ensures

namespace Yields

variable {x : ParseM α} {Q : α → Cursor → Prop}

/-- A result without a step ends where it starts, among readers that may give up. -/
theorem pure {a : α} (h : ∀ c, P c → Q a c) : Yields source P (pure a) Q :=
  Ensures.pure (a := some a) fun c hc _ hb => Option.mem_some_iff.mp hb ▸ h c hc

/-- The second reader starts only where the first one has a result. -/
theorem bind {f : α → ParseM β} {Q' : β → Cursor → Prop} (hx : Yields source P x Q)
    (hf : ∀ a, Yields source (Q a) (f a) Q') : Yields source P (x >>= f) Q' := by
  intro before after result hs hb hr
  rw [run_bind_parses] at hr
  cases hm : x.run.run before with
  | error => rw [hm] at hr; cases hr
  | ok found middle =>
    rw [hm] at hr
    obtain ⟨hs', hq⟩ := hx hs hb hm
    cases found with
    | none =>
      cases hr
      exact ⟨hs', fun _ h => nomatch h⟩
    | some a => exact hf a hs' (hq a rfl) hr

/-- A step ensures the same among readers that may give up. -/
theorem lift {x : ReadM α} (h : Ensures source P x Q) : Yields source P (liftM x) Q := by
  intro before after result hs hb hr
  rw [run_lift] at hr
  cases hm : x.run before with
  | error => rw [hm] at hr; cases hr
  | ok a middle =>
    rw [hm] at hr
    cases hr
    obtain ⟨hs', hq⟩ := h hs hb hm
    exact ⟨hs', fun b hb => Option.mem_some_iff.mp hb ▸ hq⟩

/-- Whoever gives up gives no result of which something could be said. -/
theorem reject {diagnostic : Diagnostic} : Yields source P (reject diagnostic) Q := by
  intro before after result hs hb hr
  rw [run_reject] at hr
  cases hr
  exact ⟨hs, fun _ h => nomatch h⟩

/-- Nor does a stop. -/
theorem stop {cause : Stop} : Yields source P (stop cause) Q := by
  intro before after result hs hb hr
  cases hr

/-- Behind an expected token the cursor is at it. -/
theorem expect {wanted : Token.Kind} :
    Yields source P (expect wanted) fun _ => Cursor.At wanted := by
  refine Yields.bind (.lift .upcoming) fun token => ?_
  split
  next hw =>
    refine .lift (.advance_to fun c hc => ?_)
    rw [Cursor.At, c.current_advance, ← hc.2, hw]
  next => exact .reject

/-- Skipping a semicolon does not change the result. -/
theorem terminated {F : α → Prop} (h : Yields source P x fun a _ => F a) :
    Yields source P (terminated x) fun a _ => F a := by
  intro before after result hs hb hr
  rw [run_terminated] at hr
  cases hm : x.run.run before with
  | error => rw [hm] at hr; cases hr
  | ok found middle =>
    rw [hm] at hr
    cases hr
    obtain ⟨hs', hq⟩ := h hs hb hm
    refine ⟨?_, hq⟩
    split
    · exact (List.tail_suffix _).trans hs'
    · exact hs'

/-- A loop that goes on behind a statement knows it to be well formed if it was kept. -/
theorem attempted {F : α → Prop} (h : Yields source P x fun a _ => F a) :
    Ensures source P x.run fun result _ => ∀ a ∈ result, F a := by
  intro before after result hs hb hr
  obtain ⟨hs', hq⟩ := h hs hb hr
  cases result with
  | none => exact ⟨hs', fun _ h => nomatch h⟩
  | some a => exact ⟨hs', hq⟩

end Yields

section Readers

variable {e : Int → ParseM Expr} {depth : Nat}

/-- Before the end of the input the current token is one of the text. -/
theorem current_spelled (hsource : ∀ token ∈ source, token.Spelled) {c : Cursor}
    (hs : c.tokens <:+ source) {kind : Token.Kind} (hk : c.current.kind = kind)
    (hne : kind ≠ .eof) : c.current.Spelled := by
  refine hsource _ (hs.subset ?_)
  rw [c.tokens_eq hk hne]
  exact List.mem_cons_self

/-- A token of the text whose kind has one spelling is spelled so. -/
theorem current_eq (hsource : ∀ token ∈ source, token.Spelled) {c : Cursor}
    (hs : c.tokens <:+ source) {kind : Token.Kind} {text : String} (hk : c.current.kind = kind)
    (ht : kind.text? = some text) : c.current = ⟨kind, text⟩ := by
  refine (current_spelled hsource hs hk ?_).eq_of_text hk ht
  rintro rfl
  cases ht

end Readers

end Reading

open Reading

end Inkwell
