/-
  ZxyOs.Lib.Ring

  A ring of `n` cells with a position to write at (`head`) and one to read at
  (`tail`).  The cells from `tail` up to `head` are in use; one cell stays free, so
  that a full ring differs from an empty one.

  `ringContents` reads the cells in use in order.  A write appends to it, a read takes
  its first element away.
-/

import Mathlib.Data.List.Basic
import Mathlib.Data.Nat.ModEq
import Mathlib.Logic.Function.Basic

namespace ZxyOs.Lib

variable {α : Type}

/-- The position behind `pos`. -/
def ringNext (n pos : Nat) : Nat := (pos + 1) % n

/-- The number of cells in use. -/
def ringLength (n head tail : Nat) : Nat :=
  if tail ≤ head then head - tail else n - (tail - head)

/-- `len` cells from `tail` on. -/
def ringContents (n : Nat) (buf : Nat → α) (tail len : Nat) : List α :=
  (List.range len).map fun i => buf ((tail + i) % n)

section Ring

variable {n head tail len pos : Nat} {buf : Nat → α} {a : α}

theorem ringNext_eq (h : pos < n) : ringNext n pos = if pos + 1 = n then 0 else pos + 1 := by
  unfold ringNext
  split
  · next heq => rw [heq, Nat.mod_self]
  · next hne => exact Nat.mod_eq_of_lt (by omega)

theorem ringNext_lt (h : pos < n) : ringNext n pos < n :=
  Nat.mod_lt _ (Nat.lt_of_le_of_lt (Nat.zero_le pos) h)

theorem ringLength_lt (hh : head < n) : ringLength n head tail < n := by
  unfold ringLength
  split <;> omega

theorem ringLength_eq_zero (ht : tail < n) :
    ringLength n head tail = 0 ↔ head = tail := by
  unfold ringLength
  split <;> omega

/-- The ring is full when the next write would meet the read position. -/
theorem ringLength_full (hh : head < n) (ht : tail < n) :
    ringLength n head tail = n - 1 ↔ ringNext n head = tail := by
  rw [ringNext_eq hh]
  unfold ringLength
  split <;> split <;> omega

theorem ringLength_put (hh : head < n) (ht : tail < n) (hroom : ringNext n head ≠ tail) :
    ringLength n (ringNext n head) tail = ringLength n head tail + 1 := by
  rw [ringNext_eq hh] at hroom ⊢
  by_cases hwrap : head + 1 = n
  · rw [if_pos hwrap] at hroom ⊢
    unfold ringLength
    split <;> split <;> omega
  · rw [if_neg hwrap] at hroom ⊢
    unfold ringLength
    split <;> split <;> omega

theorem ringLength_take (hh : head < n) (ht : tail < n) (hne : head ≠ tail) :
    ringLength n head tail = ringLength n head (ringNext n tail) + 1 := by
  rw [ringNext_eq ht]
  by_cases hwrap : tail + 1 = n
  · rw [if_pos hwrap]
    unfold ringLength
    split <;> split <;> omega
  · rw [if_neg hwrap]
    unfold ringLength
    split <;> split <;> omega

/-- The write position is behind the cells in use. -/
theorem ringLength_head (hh : head < n) (ht : tail < n) :
    (tail + ringLength n head tail) % n = head := by
  unfold ringLength
  split
  · next hle =>
    have hsum : tail + (head - tail) = head := by omega
    rw [hsum, Nat.mod_eq_of_lt hh]
  · next hlt =>
    have hsum : tail + (n - (tail - head)) = head + n := by omega
    rw [hsum, Nat.add_mod_right, Nat.mod_eq_of_lt hh]

@[simp] theorem ringContents_length : (ringContents n buf tail len).length = len := by
  simp [ringContents]

/-- A read takes the first cell. -/
theorem ringContents_take (ht : tail < n) :
    ringContents n buf tail (len + 1) = buf tail :: ringContents n buf (ringNext n tail) len := by
  have hshift (i : Nat) : (tail + (i + 1)) % n = (ringNext n tail + i) % n := by
    rw [ringNext, Nat.mod_add_mod]
    congr 1
    omega
  simp [ringContents, List.range_succ_eq_map, Nat.mod_eq_of_lt ht, Function.comp_def, hshift]

/-- A write appends: it touches no cell in use. -/
theorem ringContents_put (hlen : len < n) :
    ringContents n (Function.update buf ((tail + len) % n) a) tail (len + 1) =
      ringContents n buf tail len ++ [a] := by
  have hother (i : Nat) (hi : i < len) : (tail + i) % n ≠ (tail + len) % n := by
    intro heq
    have hmod : Nat.ModEq n i len := Nat.ModEq.add_left_cancel' tail heq
    have heq' : i = len := Nat.ModEq.eq_of_lt_of_lt hmod (by omega) hlen
    omega
  rw [ringContents, List.range_succ, List.map_append, ringContents]
  congr 1
  · apply List.map_congr_left
    intro i hi
    exact Function.update_of_ne (hother i (List.mem_range.mp hi)) ..
  · simp

end Ring

end ZxyOs.Lib
