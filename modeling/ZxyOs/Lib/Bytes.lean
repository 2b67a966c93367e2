/-
  ZxyOs.Lib.Bytes

  Byte-addressed stores and the little-endian 32-bit words laid out in them.

  A store is a total function from addresses to bytes; `splice` overwrites a
  window of it (`memcpy`), `u32At` reads a word, `wordByte` gives the bytes a
  word is written as.  `window` cuts a fixed number of bytes out of a store and
  forgets everything outside, so that two windows with the same bytes are equal
  as functions.
-/

import Mathlib.Logic.Function.Basic
import Mathlib.Algebra.Group.Nat.Defs

namespace ZxyOs.Lib

/-- A byte store. -/
abbrev Bytes : Type := Nat → UInt8

namespace Bytes

/-- The store whose bytes are all zero. -/
def zero : Bytes := fun _ => 0

/-- `b` with the `n` bytes from `off` on replaced by those of `src`. -/
def splice (b : Bytes) (off n : Nat) (src : Bytes) : Bytes :=
  fun a => if off ≤ a ∧ a < off + n then src (a - off) else b a

/-- The `n` bytes of `b` from `off` on, zero outside. -/
def window (b : Bytes) (off n : Nat) : Bytes :=
  fun k => if k < n then b (off + k) else 0

/-- Byte `j` of the little-endian layout of the word `w`. -/
def wordByte (w j : Nat) : UInt8 := UInt8.ofNat (w / 256 ^ j)

/-- The little-endian word at `off`. -/
def u32At (b : Bytes) (off : Nat) : Nat :=
  (b off).toNat + 256 * (b (off + 1)).toNat + 65536 * (b (off + 2)).toNat
    + 16777216 * (b (off + 3)).toNat

/-! ## Splicing -/

theorem splice_inside {b src : Bytes} {off n a : Nat} (h : off ≤ a) (h' : a < off + n) :
    b.splice off n src a = src (a - off) := by
  simp [splice, h, h']

theorem splice_outside {b src : Bytes} {off n a : Nat} (h : a < off ∨ off + n ≤ a) :
    b.splice off n src a = b a := by
  simp only [splice]
  rw [if_neg (by omega)]

/-- Overwriting a window with a copy of the store that differs from it only on a
    part of the window overwrites just that part. -/
theorem splice_splice_window {b src : Bytes} {off n k m : Nat} (h : k + m ≤ n) :
    b.splice off n ((b.window off n).splice k m src) = b.splice (off + k) m src := by
  funext a
  by_cases ha : off ≤ a ∧ a < off + n
  · rw [splice_inside ha.1 ha.2]
    by_cases hk : k ≤ a - off ∧ a - off < k + m
    · rw [splice_inside hk.1 hk.2, splice_inside (by omega) (by omega)]
      congr 1
      omega
    · rw [splice_outside (by omega), splice_outside (by omega), window, if_pos (by omega)]
      congr 1
      omega
  · rw [splice_outside (by omega), splice_outside (by omega)]

theorem splice_congr {b src src' : Bytes} {off n : Nat} (h : ∀ k < n, src k = src' k) :
    b.splice off n src = b.splice off n src' := by
  funext a
  by_cases ha : off ≤ a ∧ a < off + n
  · rw [splice_inside ha.1 ha.2, splice_inside ha.1 ha.2, h _ (by omega)]
  · rw [splice_outside (by omega), splice_outside (by omega)]

/-- Two windows overwritten one behind the other. -/
theorem splice_append {b src src₁ src₂ : Bytes} {off n m : Nat} (h₁ : ∀ k < n, src k = src₁ k)
    (h₂ : ∀ k < m, src (n + k) = src₂ k) :
    (b.splice off n src₁).splice (off + n) m src₂ = b.splice off (n + m) src := by
  funext a
  by_cases hfar : off + n ≤ a ∧ a < off + n + m
  · rw [splice_inside hfar.1 hfar.2, splice_inside (by omega) (by omega), ← h₂ _ (by omega)]
    congr 1
    omega
  · rw [splice_outside (by omega)]
    by_cases hin : off ≤ a ∧ a < off + n
    · rw [splice_inside hin.1 hin.2, splice_inside (by omega) (by omega), h₁ _ (by omega)]
    · rw [splice_outside (by omega), splice_outside (by omega)]

/-! ## Windows -/

@[simp] theorem window_apply {b : Bytes} {off n k : Nat} (h : k < n) :
    b.window off n k = b (off + k) := by
  simp [window, h]

theorem window_congr {b c : Bytes} {off n : Nat} (h : ∀ k < n, b (off + k) = c (off + k)) :
    b.window off n = c.window off n := by
  funext k
  by_cases hk : k < n
  · simp [hk, h k hk]
  · simp [window, hk]

theorem window_splice_disjoint {b src : Bytes} {off n off' n' : Nat}
    (h : off + n ≤ off' ∨ off' + n' ≤ off) :
    (b.splice off' n' src).window off n = b.window off n :=
  window_congr fun k hk => splice_outside (by omega)

theorem window_splice_same (b src : Bytes) (off n : Nat) :
    (b.splice off n src).window off n = src.window 0 n := by
  funext k
  by_cases hk : k < n
  · rw [window_apply hk, window_apply hk, splice_inside (by omega) (by omega)]
    congr 1
    omega
  · simp [window, hk]

theorem window_window {b : Bytes} {off n k m : Nat} (h : k + m ≤ n) :
    (b.window off n).window k m = b.window (off + k) m := by
  funext j
  by_cases hj : j < m
  · rw [window_apply hj, window_apply hj, window_apply (by omega)]
    congr 1
    omega
  · simp [window, hj]

/-! ## Words -/

theorem u32At_lt (b : Bytes) (off : Nat) : u32At b off < 2 ^ 32 := by
  have h0 := (b off).toNat_lt
  have h1 := (b (off + 1)).toNat_lt
  have h2 := (b (off + 2)).toNat_lt
  have h3 := (b (off + 3)).toNat_lt
  simp only [u32At]
  omega

theorem u32At_congr {b c : Bytes} {off off' : Nat} (h : ∀ j < 4, b (off + j) = c (off' + j)) :
    u32At b off = u32At c off' := by
  have h0 := h 0 (by omega)
  have h1 := h 1 (by omega)
  have h2 := h 2 (by omega)
  have h3 := h 3 (by omega)
  simp only [Nat.add_zero] at h0
  simp only [u32At, h0, h1, h2, h3]

/-- Reading back the layout of a word gives the word modulo `2 ^ 32`. -/
theorem u32At_of_wordByte {b : Bytes} {off w : Nat} (h : ∀ j < 4, b (off + j) = wordByte w j) :
    u32At b off = w % 2 ^ 32 := by
  have h0 := h 0 (by omega)
  have h1 := h 1 (by omega)
  have h2 := h 2 (by omega)
  have h3 := h 3 (by omega)
  simp only [Nat.add_zero] at h0
  simp only [u32At, h0, h1, h2, h3, wordByte, UInt8.toNat_ofNat']
  omega

@[simp] theorem u32At_zero (off : Nat) : u32At zero off = 0 := by
  simp [u32At, zero]

theorem u32At_window {b : Bytes} {off n k : Nat} (h : k + 4 ≤ n) :
    u32At (b.window off n) k = u32At b (off + k) :=
  u32At_congr fun j hj => by rw [window_apply (by omega), Nat.add_assoc]

end Bytes

end ZxyOs.Lib
