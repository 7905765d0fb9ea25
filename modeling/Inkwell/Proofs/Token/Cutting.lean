import Inkwell.Proofs.Token.Spelling

/-!
# Cutting tokens off a text

What scanning makes of a text whose first token is known: this token comes first, and the tokens of
the text behind it follow. Words and numerals end where the text goes on with another sort of
character, and an exclamation mark stands for itself unless an equals sign follows. No token goes
over a blank, so that two texts with a blank between them are cut one after the other.
-/

namespace Inkwell.Token

variable {rest : List Char} {text : String} {kind : Kind}

/-- The text does not go on with a letter or a digit. -/
def Apart (rest : List Char) : Prop :=
  ∀ c ∈ rest.head?, isLetter c = false ∧ c.isDigit = false

/-- The end of the text does not go on with a token. -/
theorem apart_nil : Apart [] := nofun

/-- Neither does a character that is no letter and no digit. -/
theorem apart_cons {c : Char} (hl : isLetter c = false) (hd : c.isDigit = false) :
    Apart (c :: rest) := by
  intro d hc
  cases hc
  exact ⟨hl, hd⟩

/-- Nothing holds no tokens. -/
theorem tokensOf_nil : tokensOf [] = [] := tokensOf_of_none rfl

/-- A text is cut into the token it starts with and the tokens behind. -/
theorem tokensOf_eq_cons {text : List Char} {token : Token} {tokens : List Token}
    (h : next? text = some (token, rest)) (hrest : tokensOf rest = tokens) :
    tokensOf text = token :: tokens := by rw [tokensOf_of_some h, hrest]

/-- A blank in front is left out. -/
theorem tokensOf_blank {c : Char} (h : isBlank c = true) :
    tokensOf (c :: rest) = tokensOf rest := by
  have hnext : next? (c :: rest) = next? rest := by
    unfold next?
    rw [List.dropWhile_cons_of_pos h]
  cases hr : next? rest with
  | none => rw [tokensOf_of_none hr, tokensOf_of_none (hnext.trans hr)]
  | some cut =>
    obtain ⟨token, behind⟩ := cut
    rw [tokensOf_of_some hr, tokensOf_of_some (hnext.trans hr)]

/-- Letters and digits are no blanks. -/
theorem isBlank_eq_false {c : Char} (h : isLetter c = true ∨ c.isDigit = true) :
    isBlank c = false := by
  cases hblank : isBlank c with
  | false => rfl
  | true =>
    have hc : c = ' ' ∨ c = '\t' ∨ c = '\r' ∨ c = '\n' := by
      simpa [isBlank, or_assoc] using hblank
    rcases hc with rfl | rfl | rfl | rfl <;> exact absurd h (by decide)

/-- No digit is a letter. -/
theorem isLetter_eq_false {c : Char} (h : c.isDigit = true) : isLetter c = false := by
  have hdigits : ∀ n < 58, 48 ≤ n → isLetter (Char.ofNat n) = false := by decide
  have hrange : 48 ≤ c.toNat ∧ c.toNat ≤ 57 := Char.isDigit_iff_toNat.mp h
  have hc := hdigits c.toNat (Nat.lt_succ_of_le hrange.2) hrange.1
  rwa [Char.ofNat_toNat] at hc

/-- A run of characters with a property ends where the text goes on without it. -/
theorem span_append {p : Char → Bool} {run : List Char} (h : ∀ c ∈ run, p c = true)
    (hrest : ∀ c ∈ rest.head?, p c = false) :
    (run ++ rest).takeWhile p = run ∧ (run ++ rest).dropWhile p = rest := by
  have hstop : rest.takeWhile p = [] ∧ rest.dropWhile p = rest := by
    cases rest with
    | nil => exact ⟨rfl, rfl⟩
    | cons c rest =>
      have hc : ¬ p c = true := by
        rw [hrest c rfl]
        nofun
      exact ⟨List.takeWhile_cons_of_neg hc, List.dropWhile_cons_of_neg hc⟩
  rw [List.takeWhile_append_of_pos h, List.dropWhile_append_of_pos h, hstop.1, hstop.2,
    List.append_nil]
  exact ⟨rfl, rfl⟩

/-- A letter starts a word, which goes as far as there are letters. -/
theorem next?_letter {c : Char} {tail : List Char} (h : isLetter c = true) :
    next? (c :: tail) =
      some (⟨Kind.ofWord (String.ofList (c :: tail.takeWhile isLetter)),
        String.ofList (c :: tail.takeWhile isLetter)⟩, tail.dropWhile isLetter) := by
  have hblank := isBlank_eq_false (.inl h)
  unfold next?
  rw [List.dropWhile_cons_of_neg (by rw [hblank]; nofun)]
  dsimp only
  rw [if_pos h]

/-- A digit starts a numeral, which goes as far as there are digits. -/
theorem next?_digit {c : Char} {tail : List Char} (h : c.isDigit = true) :
    next? (c :: tail) =
      some (⟨.int, String.ofList (c :: tail.takeWhile Char.isDigit)⟩,
        tail.dropWhile Char.isDigit) := by
  have hblank := isBlank_eq_false (.inr h)
  have hletter := isLetter_eq_false h
  unfold next?
  rw [List.dropWhile_cons_of_neg (by rw [hblank]; nofun)]
  dsimp only
  rw [hletter, if_neg Bool.false_ne_true, if_pos h]

/-- Where cutting takes a whole run of characters, the token is the run. -/
theorem next?_run {p : Char → Bool} {kindOf : String → Kind}
    (hcut : ∀ c tail, p c = true → next? (c :: tail) =
      some (⟨kindOf (String.ofList (c :: tail.takeWhile p)), String.ofList (c :: tail.takeWhile p)⟩,
        tail.dropWhile p))
    (h : text.toList ≠ [] ∧ ∀ c ∈ text.toList, p c = true)
    (hrest : ∀ c ∈ rest.head?, p c = false) :
    next? (text.toList ++ rest) = some (⟨kindOf text, text⟩, rest) := by
  obtain ⟨hne, hall⟩ := h
  cases ht : text.toList with
  | nil => exact absurd ht hne
  | cons c run =>
    rw [ht, List.forall_mem_cons] at hall
    have hspan := span_append hall.2 hrest
    have hnext := hcut c (run ++ rest) hall.1
    rwa [hspan.1, hspan.2, ← ht, String.ofList_toList] at hnext

/-- A word that ends where it is put is scanned as one token. -/
theorem tokensOf_word (h : IsWord text) (hrest : Apart rest) :
    tokensOf (text.toList ++ rest) = ⟨Kind.ofWord text, text⟩ :: tokensOf rest :=
  tokensOf_of_some (next?_run (fun _ _ => next?_letter) h fun c hc => (hrest c hc).1)

theorem tokensOf_numeral (h : IsNumeral text) (hrest : Apart rest) :
    tokensOf (text.toList ++ rest) = ⟨.int, text⟩ :: tokensOf rest :=
  tokensOf_of_some
    (@next?_run _ _ _ (fun _ => .int) (fun _ _ => next?_digit) h fun c hc => (hrest c hc).2)

/-- A symbol stands for itself unless an equals sign follows. -/
theorem symbol_of_ne {c : Char} (h : rest.head? ≠ some '=') :
    symbol c rest = (⟨(Kind.ofSymbol? c).getD .illegal, String.singleton c⟩, rest) := by
  unfold symbol
  split
  · exact absurd rfl h
  · exact absurd rfl h
  · rfl

/-- So is an operator that no equals sign follows. -/
theorem tokensOf_operator (h : kind ∈ Kind.operators) (hrest : rest.head? ≠ some '=') :
    tokensOf (kind.display.toList ++ rest) = ⟨kind, kind.display⟩ :: tokensOf rest := by
  refine tokensOf_of_some ?_
  cases kind
  case bang => exact congrArg some (symbol_of_ne hrest)
  all_goals first
    | rfl
    | exact absurd h (by decide)

theorem tokensOf_lparen : tokensOf ('(' :: rest) = ⟨.lparen, "("⟩ :: tokensOf rest :=
  tokensOf_of_some rfl

theorem tokensOf_rparen : tokensOf (')' :: rest) = ⟨.rparen, ")"⟩ :: tokensOf rest :=
  tokensOf_of_some rfl

theorem tokensOf_comma : tokensOf (',' :: rest) = ⟨.comma, ","⟩ :: tokensOf rest :=
  tokensOf_of_some rfl

theorem tokensOf_semicolon : tokensOf (';' :: rest) = ⟨.semicolon, ";"⟩ :: tokensOf rest :=
  tokensOf_of_some rfl

/-- An equals sign stands for itself unless another one follows. -/
theorem tokensOf_assign :
    tokensOf ('=' :: ' ' :: rest) = ⟨.assign, "="⟩ :: tokensOf (' ' :: rest) :=
  tokensOf_of_some rfl

/-- A space in front is left out. -/
theorem tokensOf_space : tokensOf (' ' :: rest) = tokensOf rest := tokensOf_blank rfl

section Blank

variable {blank : Char} {front back : List Char}

/-- A run of characters ends at a blank, and what stands behind has no part in it. -/
theorem span_append_blank {p : Char → Bool} (hp : p blank = false) :
    (front ++ blank :: back).takeWhile p = front.takeWhile p ∧
      (front ++ blank :: back).dropWhile p = front.dropWhile p ++ blank :: back := by
  induction front with
  | nil => simp [hp]
  | cons c front ih =>
    by_cases hc : p c = true
    · simp [hc, ih]
    · simp [hc]

/-- A symbol is the same when a blank follows somewhere behind it. -/
theorem symbol_append_blank (c : Char) (h : isBlank blank = true) :
    symbol c (front ++ blank :: back) =
      ((symbol c front).1, (symbol c front).2 ++ blank :: back) := by
  have hblank : blank ≠ '=' := by
    rintro rfl
    exact absurd h (by decide)
  by_cases hfront : front.head? = some '='
  · obtain ⟨tail, rfl⟩ := List.head?_eq_some_iff.mp hfront
    rw [List.cons_append]
    unfold symbol
    split <;> simp_all
  · have hall : (front ++ blank :: back).head? ≠ some '=' := by
      cases front with
      | nil => simpa using hblank
      | cons => simpa using hfront
    rw [symbol_of_ne hfront, symbol_of_ne hall]

/-- The first token is the same with a blank and another text behind. -/
theorem next?_append_blank {token : Token} (h : isBlank blank = true)
    (hnext : next? front = some (token, rest)) :
    next? (front ++ blank :: back) = some (token, rest ++ blank :: back) := by
  have hletter : isLetter blank = false :=
    Bool.eq_false_iff.mpr fun hl => nomatch h.symm.trans (isBlank_eq_false (.inl hl))
  have hdigit : blank.isDigit = false :=
    Bool.eq_false_iff.mpr fun hd => nomatch h.symm.trans (isBlank_eq_false (.inr hd))
  unfold next? at hnext ⊢
  rw [List.dropWhile_append]
  cases hdrop : front.dropWhile isBlank with
  | nil =>
    rw [hdrop] at hnext
    cases hnext
  | cons c tail =>
    have hl := @span_append_blank blank tail back isLetter hletter
    have hd := @span_append_blank blank tail back Char.isDigit hdigit
    rw [hdrop] at hnext
    dsimp only [List.isEmpty_cons, List.cons_append] at hnext ⊢
    rw [if_neg (by simp)]
    dsimp only
    rw [hl.1, hl.2, hd.1, hd.2, symbol_append_blank c h]
    split at hnext
    · rename_i hc
      cases hnext
      rw [if_pos hc]
    · rename_i hc
      rw [if_neg hc]
      split at hnext
      · rename_i hc
        cases hnext
        rw [if_pos hc]
      · rename_i hc
        rw [if_neg hc, Option.some.inj hnext]

/-- Where only blanks are left, the first token is that of the text behind. -/
theorem next?_append_of_none (h : isBlank blank = true) (hnext : next? front = none) :
    next? (front ++ blank :: back) = next? back := by
  have hdrop : front.dropWhile isBlank = [] := by
    unfold next? at hnext
    split at hnext
    · assumption
    · split at hnext
      · cases hnext
      · split at hnext <;> cases hnext
  unfold next?
  rw [List.dropWhile_append, hdrop, List.isEmpty_nil, if_pos rfl, List.dropWhile_cons_of_pos h]

/-- No token goes over a blank. -/
theorem tokensOf_append_blank (h : isBlank blank = true) :
    tokensOf (front ++ blank :: back) = tokensOf front ++ tokensOf back := by
  induction hn : front.length using Nat.strongRecOn generalizing front with
  | ind n ih =>
    subst hn
    cases hnext : next? front with
    | none =>
      have hback := @next?_append_of_none blank front back h hnext
      rw [tokensOf_of_none hnext, List.nil_append]
      cases hrest : next? back with
      | none => rw [tokensOf_of_none hrest, tokensOf_of_none (hback.trans hrest)]
      | some cut => rw [tokensOf_of_some hrest, tokensOf_of_some (hback.trans hrest)]
    | some cut =>
      obtain ⟨token, rest⟩ := cut
      rw [tokensOf_of_some hnext, tokensOf_of_some (next?_append_blank h hnext),
        ih _ (length_next?_lt hnext) rfl, List.cons_append]

/-- Lines are scanned one after the other. -/
theorem scan_append_line (first second : String) :
    scan (first ++ "\n" ++ second) = scan first ++ scan second := by
  have hlist : (first ++ "\n" ++ second).toList = first.toList ++ '\n' :: second.toList := by
    simp
  rw [scan_eq, scan_eq, scan_eq, hlist, tokensOf_append_blank (by decide)]

end Blank

end Inkwell.Token
