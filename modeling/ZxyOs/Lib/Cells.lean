/-
  ZxyOs.Lib.Cells

  What a row of cells holds, each cell a finite collection with multiplicities.
  Putting something into one cell puts it into the row, taking it out of one cell
  takes it out of the row, and nothing else about the row changes.
-/

import Mathlib.Algebra.BigOperators.Group.Finset.Basic
import Mathlib.Algebra.Order.Group.Multiset

namespace ZxyOs.Lib

open Finset

variable {α : Type}

/-- What the cells `0, …, n - 1` hold together. -/
def contents (n : Nat) (f : Nat → Multiset α) : Multiset α := ∑ k ∈ range n, f k

section Contents

variable {n k : Nat} {f g : Nat → Multiset α} {x : α}

theorem mem_contents : x ∈ contents n f ↔ ∃ k < n, x ∈ f k := by
  simp [contents, Multiset.mem_sum]

theorem contents_congr (h : ∀ j < n, f j = g j) : contents n f = contents n g :=
  sum_congr rfl fun j hj => h j (mem_range.mp hj)

/-- A row is one of its cells and the others. -/
theorem contents_eq_add (hk : k < n) : contents n f = f k + ∑ j ∈ (range n).erase k, f j :=
  (add_sum_erase (range n) f (mem_range.mpr hk)).symm

theorem contents_eq_of_ne (hk : k < n) (h : ∀ j < n, j ≠ k → g j = f j) :
    contents n g = g k + ∑ j ∈ (range n).erase k, f j := by
  rw [contents_eq_add hk]
  congr 1
  refine sum_congr rfl fun j hj => h j ?_ (ne_of_mem_erase hj)
  exact mem_range.mp (mem_of_mem_erase hj)

/-- Putting `x` into cell `k`. -/
theorem contents_cons (hk : k < n) (hput : g k = x ::ₘ f k) (h : ∀ j < n, j ≠ k → g j = f j) :
    contents n g = x ::ₘ contents n f := by
  rw [contents_eq_of_ne hk h, contents_eq_add hk, hput, Multiset.cons_add]

/-- Cells behind the first `m` that hold nothing do not count. -/
theorem contents_eq_of_zero {m : Nat} (hm : m ≤ n) (h : ∀ j < n, m ≤ j → f j = 0) :
    contents n f = contents m f := by
  refine (sum_subset (range_subset_range.mpr hm) fun j hj hj' => ?_).symm
  exact h j (mem_range.mp hj) (by simpa using hj')

theorem card_contents_le {m : Nat} (h : ∀ j < n, (f j).card ≤ m) :
    (contents n f).card ≤ n * m := by
  induction n with
  | zero => simp [contents]
  | succ n ih =>
    have hlast := h n (by omega)
    have hrest := ih fun j hj => h j (by omega)
    rw [contents, sum_range_succ, Multiset.card_add, Nat.add_mul, Nat.one_mul]
    exact Nat.add_le_add hrest hlast

/-- The first `m` cells and the rest. -/
theorem contents_add (m n : Nat) (f : Nat → Multiset α) :
    contents (m + n) f = contents m f + contents n fun j => f (m + j) :=
  sum_range_add f m n

end Contents

end ZxyOs.Lib
