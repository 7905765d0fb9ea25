import Inkwell.Value.Operator
import Mathlib.Data.Int.ModEq
import Mathlib.Tactic.Linarith

/-!
# Wrapping and quotients

Wrapping picks the one integer with a sign and 64 bits among those that agree modulo two to the
power of 64, so it is compatible with negation, sums, differences and products. It is not compatible
with quotients, but there it hardly ever matters: of all quotients of two integers in the range only
one has a floor that is not in the range.
-/

namespace Inkwell

/-- An integer with a sign and 64 bits. -/
def Signed (number : Int) : Prop := -2 ^ 63 ≤ number ∧ number < 2 ^ 63

instance (number : Int) : Decidable (Signed number) := inferInstanceAs (Decidable (_ ∧ _))

variable {a b q y z : Int}

/-- A wrapped number is in range. -/
theorem signed_wrap (z : Int) : Signed (wrap z) := by
  have hlow : -((0x10000000000000000 : Nat) : Int) / 2 ≤ wrap z := Int.le_bmod (by decide)
  have hhigh : wrap z < ((0x10000000000000000 : Nat) + 1) / 2 := Int.bmod_lt (by decide)
  unfold Signed
  omega

/-- A number in range is not changed by wrapping. -/
theorem wrap_of_signed (h : Signed z) : wrap z = z := by
  obtain ⟨hlow, hhigh⟩ := h
  exact Int.bmod_eq_of_le (by omega) (by omega)

/-- Wrapping changes a number by a multiple of `2 ^ 64`. -/
theorem wrap_modEq (z : Int) : wrap z ≡ z [ZMOD 2 ^ 64] := Int.bmod_emod

/-- There is only one integer in the range for each class of integers that agree in 64 bits. -/
theorem eq_wrap_of_modEq (h : Signed a) (hz : a ≡ z [ZMOD 2 ^ 64]) : a = wrap z := by
  rw [← wrap_of_signed h, wrap, wrap, ← Int.emod_bmod a, ← Int.emod_bmod z]
  exact congrArg (Int.bmod · _) hz

/-- An operand may be wrapped before it is negated. -/
theorem wrap_neg_wrap (z : Int) : wrap (-wrap z) = wrap (-z) := Int.bmod_neg_bmod

/-- Operands may be wrapped before they are added. -/
theorem wrap_add_wrap (y z : Int) : wrap (wrap y + wrap z) = wrap (y + z) := by
  unfold wrap
  rw [Int.bmod_add_bmod, Int.add_bmod_bmod]

/-- They may be wrapped before one is taken from the other. -/
theorem wrap_sub_wrap (y z : Int) : wrap (wrap y - wrap z) = wrap (y - z) := by
  unfold wrap
  rw [Int.bmod_sub_bmod, Int.sub_bmod_bmod]

/-- They may be wrapped before they are multiplied. -/
theorem wrap_mul_wrap (y z : Int) : wrap (wrap y * wrap z) = wrap (y * z) := by
  unfold wrap
  rw [Int.bmod_mul_bmod, Int.mul_bmod_bmod]

/-- The largest integer that is not above the exact quotient of two integers. -/
def IsFloor (a b q : Int) : Prop :=
  (0 < b → b * q ≤ a ∧ a < b * (q + 1)) ∧ (b < 0 → a ≤ b * q ∧ b * (q + 1) < a)

instance (a b q : Int) : Decidable (IsFloor a b q) := inferInstanceAs (Decidable (_ ∧ _))

/-- Division rounds down. -/
theorem isFloor_fdiv (a b : Int) : IsFloor a b (a.fdiv b) := by
  -- A negative divisor is a positive one for the opposite dividend.
  have hpos : ∀ a c : Int, 0 < c → c * a.fdiv c ≤ a ∧ a < c * (a.fdiv c + 1) := by
    intro a c hc
    have hsplit := Int.mul_fdiv_add_fmod a c
    have hlow := Int.fmod_nonneg_of_pos a hc
    have hhigh := Int.fmod_lt_of_pos a hc
    rw [Int.mul_add, Int.mul_one]
    omega
  refine ⟨hpos a b, fun hb => ?_⟩
  obtain ⟨hlow, hhigh⟩ := hpos (-a) (-b) (by omega)
  rw [Int.neg_fdiv_neg, Int.neg_mul] at hlow hhigh
  omega

example : IsFloor (-7) 2 (-4) ∧ ¬ IsFloor (-7) 2 (-3) := by decide

/-- The floor of a quotient is in the range, unless it is that of the smallest integer and minus
one. -/
theorem IsFloor.signed (h : IsFloor a b q) (hb : b ≠ 0) (ha : Signed a)
    (hne : ¬ (a = -2 ^ 63 ∧ b = -1)) : Signed q := by
  obtain ⟨hlow, hhigh⟩ := ha
  -- A divisor is at least one in size, so a quotient out of the range takes its dividend along.
  rcases Int.lt_or_gt_of_ne hb with hneg | hpos
  · obtain ⟨hle, hlt⟩ := h.2 hneg
    constructor
    · by_contra hq
      nlinarith
    · by_contra hq
      have hb' : b = -1 := by nlinarith
      rw [hb'] at hle
      exact hne ⟨by omega, hb'⟩
  · obtain ⟨hle, hlt⟩ := h.1 hpos
    constructor
    · by_contra hq
      nlinarith
    · by_contra hq
      nlinarith

/-- A quotient of numbers in range is in range, but for one. -/
theorem wrap_fdiv (ha : Signed a) (hb : b ≠ 0) (hne : ¬ (a = -2 ^ 63 ∧ b = -1)) :
    wrap (a.fdiv b) = a.fdiv b :=
  wrap_of_signed ((isFloor_fdiv a b).signed hb ha hne)

end Inkwell
