import Inkwell.Text.Decimal
import Inkwell.Token.Scan

/-!
# How tokens are spelled

Scanning cuts four sorts of token, and the text of each is a spelling of its kind. Here are these
sorts, and what they say about the text of a token whose kind is known.
-/

namespace Inkwell.Token

/-- A nonempty run of ASCII digits. -/
def IsNumeral (text : String) : Prop :=
  text.toList ≠ [] ∧ ∀ c ∈ text.toList, c.isDigit = true

/-- A nonempty run of letters. -/
def IsWord (text : String) : Prop :=
  text.toList ≠ [] ∧ ∀ c ∈ text.toList, isLetter c = true

instance (text : String) : Decidable (IsNumeral text) :=
  decidable_of_iff ((!text.toList.isEmpty && text.toList.all Char.isDigit) = true)
    (by simp [IsNumeral])

instance (text : String) : Decidable (IsWord text) :=
  decidable_of_iff ((!text.toList.isEmpty && text.toList.all isLetter) = true) (by simp [IsWord])

/-- The tokens that scanning cuts. -/
inductive Spelled : Token → Prop
  | word {text : String} : IsWord text → Spelled ⟨Kind.ofWord text, text⟩
  | numeral {text : String} : IsNumeral text → Spelled ⟨.int, text⟩
  | eq : Spelled ⟨.eq, "=="⟩
  | notEq : Spelled ⟨.notEq, "!="⟩
  | single (c : Char) : Spelled ⟨(Kind.ofSymbol? c).getD .illegal, String.singleton c⟩

/-- The kinds of the tokens that are operators. -/
def Kind.operators : List Kind :=
  [.bang, .eq, .notEq, .lt, .gt, .plus, .minus, .asterisk, .slash]

/-- The text of an operator is its symbol. -/
theorem Spelled.literal_eq {token : Token} (h : token.Spelled)
    (hk : token.kind ∈ Kind.operators) : token.literal = token.kind.display := by
  cases h with
  | word =>
    unfold Kind.ofWord at hk
    repeat' split at hk
    all_goals exact absurd hk (by simp [Kind.operators])
  | numeral => exact absurd hk (by simp [Kind.operators])
  | eq => rfl
  | notEq => rfl
  | single c =>
    unfold Kind.ofSymbol? at hk ⊢
    split at hk
    all_goals first
      | rfl
      | exact absurd hk (by simp [Kind.operators])

/-- The end of the input is not cut from any text. -/
theorem Spelled.ne_eof {token : Token} (h : token.Spelled) : token.kind ≠ .eof := by
  cases h with
  | word =>
    unfold Kind.ofWord
    repeat' split
    all_goals nofun
  | numeral => nofun
  | eq => decide
  | notEq => decide
  | single c =>
    unfold Kind.ofSymbol?
    split <;> nofun

/-- A character and those behind it that satisfy a property it has itself. -/
theorem run_spec {p : Char → Bool} {c : Char} {rest : List Char} (hc : p c = true) :
    (String.ofList (c :: rest.takeWhile p)).toList ≠ [] ∧
      ∀ d ∈ (String.ofList (c :: rest.takeWhile p)).toList, p d = true := by
  rw [String.toList_ofList]
  refine ⟨List.cons_ne_nil _ _, fun d hd => ?_⟩
  rcases List.mem_cons.mp hd with rfl | hd
  · exact hc
  · exact List.all_eq_true.mp List.all_takeWhile d hd

/-- A symbol is spelled as its kind is. -/
theorem spelled_symbol (c : Char) (rest : List Char) : Spelled (symbol c rest).1 := by
  unfold symbol
  split
  · exact .eq
  · exact .notEq
  · exact .single c

/-- Any token that is scanned is spelled as its kind is. -/
theorem spelled_of_next? {text rest : List Char} {token : Token}
    (h : next? text = some (token, rest)) : Spelled token := by
  unfold next? at h
  split at h
  · contradiction
  · rename_i c tail _
    split at h
    · rename_i hc
      cases h
      exact .word (run_spec hc)
    · split at h
      · rename_i hc
        cases h
        exact .numeral (run_spec hc)
      · have hs := spelled_symbol c tail
        rw [Option.some.inj h] at hs
        exact hs

/-- Scanning a text onto tokens already cut puts its own tokens behind them. -/
theorem scanOnto_eq (found : Array Token) (text : List Char) :
    scanOnto found text = found ++ scanOnto #[] text := by
  induction hn : text.length using Nat.strongRecOn generalizing found text with
  | ind n ih =>
    subst hn
    rw [scanOnto, scanOnto]
    split
    · simp
    · rename_i token rest hnext
      have hlt := length_next?_lt hnext
      rw [ih _ hlt _ rest rfl, ih _ hlt (#[].push token) rest rfl]
      simp

/-- The tokens of a list of characters. -/
def tokensOf (text : List Char) : List Token := (scanOnto #[] text).toList

/-- A text is scanned as its characters are. -/
theorem scan_eq (source : String) : scan source = tokensOf source.toList := rfl

/-- There are no tokens where there is no first one. -/
theorem tokensOf_of_none {text : List Char} (h : next? text = none) : tokensOf text = [] := by
  rw [tokensOf, scanOnto]
  split
  · rfl
  · rename_i hnext
    rw [h] at hnext
    cases hnext

/-- The tokens are the first one and those of the rest. -/
theorem tokensOf_of_some {text rest : List Char} {token : Token}
    (h : next? text = some (token, rest)) : tokensOf text = token :: tokensOf rest := by
  rw [tokensOf, scanOnto]
  split
  · rename_i hnext
    rw [h] at hnext
    cases hnext
  · rename_i hnext
    rw [h] at hnext
    cases hnext
    rw [scanOnto_eq]
    simp [tokensOf]

/-- What scanning gives is spelled as its kind says. -/
theorem spelled_of_mem_scan {source : String} {token : Token} (h : token ∈ scan source) :
    Spelled token := by
  rw [scan_eq] at h
  generalize source.toList = text at h
  induction hn : text.length using Nat.strongRecOn generalizing text with
  | ind n ih =>
    subst hn
    cases hnext : next? text with
    | none =>
      rw [tokensOf_of_none hnext] at h
      cases h
    | some cut =>
      obtain ⟨first, rest⟩ := cut
      rw [tokensOf_of_some hnext] at h
      rcases List.mem_cons.mp h with rfl | h
      · exact spelled_of_next? hnext
      · exact ih _ (length_next?_lt hnext) rest h rfl

end Inkwell.Token
