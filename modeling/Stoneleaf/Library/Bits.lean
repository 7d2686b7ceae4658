import Mathlib.Data.Nat.Bitwise

/-!
Bits of fixed-width words, as arithmetic on the numbers they stand for.
-/

namespace Stoneleaf.Library

/-- Flipping the top bit moves a number by half of its range. -/
theorem xor_two_pow {n width : Nat} (hn : n < 2 ^ (width + 1)) :
    n ^^^ 2 ^ width = (2 ^ width + n) % 2 ^ (width + 1) := by
  apply Nat.eq_of_testBit_eq
  intro i
  rw [Nat.testBit_xor, Nat.testBit_mod_two_pow, Nat.testBit_two_pow]
  rcases Nat.lt_trichotomy i width with hLt | rfl | hGt
  · rw [Nat.testBit_two_pow_add_gt hLt]
    simp [Nat.lt_succ_of_lt hLt, Nat.ne_of_gt hLt]
  · simp [Nat.testBit_two_pow_add_eq]
  · have hHigh : n.testBit i = false :=
      Nat.testBit_eq_false_of_lt (hn.trans_le (Nat.pow_le_pow_right (by decide) hGt))
    simp [hHigh, Nat.ne_of_lt hGt, Nat.not_lt.2 hGt]

end Stoneleaf.Library
