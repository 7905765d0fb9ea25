import Inkwell.Proofs.Tree.Formed

/-!
# Numerals written and read back

The numeral of a number consists of ASCII digits, and read as one it denotes the number, also with
zeros before it. An integer has the numeral of its absolute value, behind a minus sign if it is
negative.
-/

namespace Inkwell

namespace Text.Decimal

variable {digit number zeros : Nat}

/-- The digits are numbered from that of zero on. -/
theorem toNat_digitChar (h : digit < 10) : (digitChar digit).toNat = '0'.toNat + digit := by
  have hdigits : ∀ n < 10, (digitChar n).toNat = '0'.toNat + n := by decide
  exact hdigits digit h

/-- The character for a digit is one. -/
theorem isDigit_digitChar (h : digit < 10) : (digitChar digit).isDigit = true := by
  have hzero : '0'.toNat = 48 := rfl
  have hnine : '9'.toNat = 57 := rfl
  rw [Char.isDigit_iff_toNat, toNat_digitChar h]
  omega

/-- A number has at least one digit. -/
theorem ofNat_ne_nil (number : Nat) : ofNat number ≠ [] := by
  rw [ofNat]
  split <;> simp

/-- A number is written with digits only. -/
theorem isDigit_of_mem_ofNat {c : Char} (h : c ∈ ofNat number) : c.isDigit = true := by
  induction number using ofNat.induct with
  | case1 number hlt =>
    rw [ofNat, if_pos hlt] at h
    rw [List.mem_singleton.mp h]
    exact isDigit_digitChar hlt
  | case2 number hge ih =>
    rw [ofNat, if_neg hge, List.mem_append] at h
    rcases h with h | h
    · exact ih h
    · rw [List.mem_singleton.mp h]
      exact isDigit_digitChar (Nat.mod_lt _ (by decide))

/-- The numeral of a number with zeros before it. -/
def paddedNat (zeros number : Nat) : String :=
  String.ofList (List.replicate zeros '0' ++ ofNat number)

/-- Zeros in front are counted with the digits. -/
theorem length_paddedNat (zeros number : Nat) :
    (paddedNat zeros number).length = zeros + (ofNat number).length := by
  rw [paddedNat, String.length_ofList, List.length_append, List.length_replicate]

/-- A number with zeros in front is a numeral. -/
theorem isNumeral_paddedNat (zeros number : Nat) : Token.IsNumeral (paddedNat zeros number) := by
  rw [Token.IsNumeral, paddedNat, String.toList_ofList]
  refine ⟨List.append_ne_nil_of_right_ne_nil _ (ofNat_ne_nil number), fun c hc => ?_⟩
  rcases List.mem_append.mp hc with h | h
  · rw [List.eq_of_mem_replicate h]
    rfl
  · exact isDigit_of_mem_ofNat h

/-- What the digits denote that follow others. -/
theorem foldl_ofNat (number : Nat) :
    (ofNat number).foldl (fun number c => 10 * number + (c.toNat - '0'.toNat)) 0 = number := by
  induction number using ofNat.induct with
  | case1 number hlt =>
    rw [ofNat, if_pos hlt, List.foldl_cons, List.foldl_nil, toNat_digitChar hlt]
    omega
  | case2 number hge ih =>
    have hlt : number % 10 < 10 := Nat.mod_lt _ (by decide)
    rw [ofNat, if_neg hge, List.foldl_append, ih, List.foldl_cons, List.foldl_nil,
      toNat_digitChar hlt]
    omega

/-- Zeros before a numeral change nothing. -/
theorem number_paddedNat (zeros number : Nat) : Token.number (paddedNat zeros number) = number := by
  rw [Token.number, paddedNat, String.toList_ofList, List.foldl_append]
  have hzeros : (List.replicate zeros '0').foldl
      (fun number c => 10 * number + (c.toNat - '0'.toNat)) 0 = 0 := by
    induction zeros with
    | zero => rfl
    | succ zeros ih =>
      rw [List.replicate_succ, List.foldl_cons]
      exact ih
  rw [hzeros, foldl_ofNat]

/-- The text of an integer with zeros before its digits. -/
def padded (zeros : Nat) : Int → String
  | .ofNat number => paddedNat zeros number
  | .negSucc number => "-" ++ paddedNat zeros (number + 1)

/-- The text that shows an integer has no zeros before its digits. -/
theorem padded_zero (number : Int) : padded 0 number = ofInt number := by
  cases number with
  | ofNat number => rfl
  | negSucc number =>
    refine String.toList_inj.mp ?_
    simp only [padded, paddedNat, ofInt, String.toList_append, String.toList_ofList]
    rfl

end Text.Decimal

end Inkwell
