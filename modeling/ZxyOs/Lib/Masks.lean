/-
  ZxyOs.Lib.Masks

  Fields of a word: a mask with `n` ones from bit `k` on cuts a field out, and bits put
  below an aligned number are added to it.
-/

import Mathlib.Data.Nat.Bitwise

namespace ZxyOs.Lib

/-- A mask cuts out a field. -/
theorem and_shifted_mask (w n k : Nat) : w &&& ((2 ^ n - 1) <<< k) = w / 2 ^ k % 2 ^ n * 2 ^ k := by
  rw [← Nat.shiftLeft_eq, ← Nat.shiftRight_eq_div_pow]
  apply Nat.eq_of_testBit_eq
  intro i
  simp only [Nat.testBit_and, Nat.testBit_shiftLeft, Nat.testBit_two_pow_sub_one, Nat.testBit_mod_two_pow,
    Nat.testBit_shiftRight]
  by_cases hi : k ≤ i
  · simp [hi, Bool.and_comm, Nat.add_sub_cancel' hi]
  · simp [hi]

/-- The address in an entry. -/
theorem and_page (w : Nat) : w &&& 0xfffff000 = w % 2 ^ 32 / 4096 * 4096 := by
  have hmask : 0xfffff000 = (2 ^ 20 - 1) <<< 12 := by decide
  rw [hmask, and_shifted_mask]
  omega

/-- The field shifted down. -/
theorem and_shifted_mask_shift (w n k : Nat) : (w &&& ((2 ^ n - 1) <<< k)) >>> k = w / 2 ^ k % 2 ^ n := by
  rw [and_shifted_mask, Nat.shiftRight_eq_div_pow]
  exact Nat.mul_div_cancel _ (Nat.two_pow_pos k)

/-- Bits below an aligned number. -/
theorem or_below {a b k : Nat} (ha : a % 2 ^ k = 0) (hb : b < 2 ^ k) : a ||| b = a + b := by
  have hsplit : a = 2 ^ k * (a / 2 ^ k) := (Nat.mul_div_cancel' (Nat.dvd_of_mod_eq_zero ha)).symm
  rw [hsplit, ← Nat.two_pow_add_eq_or_of_lt hb]

/-- Bit 0. -/
theorem and_one_ne_zero {w : Nat} : w &&& 1 ≠ 0 ↔ w % 2 = 1 := by
  rw [Nat.and_one_is_mod]
  omega

end ZxyOs.Lib
