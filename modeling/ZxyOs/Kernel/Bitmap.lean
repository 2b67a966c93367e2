/-
  ZxyOs.Kernel.Bitmap

  The bit allocator of `lib/kernel/bitmap.c`, shared by the physical pools, the
  virtual-address pools, the pid pool and the two bitmaps of a partition.

  `Bitmap.bit i` is bit `i` of the memory `bits` points at.  Only the first
  `8 * btmpBytesLen` bits belong to the bitmap; the bits past them stand for
  whatever the memory behind it holds, because `bitmap_scan` for a run of more
  than one bit looks at one of them.
-/

import ZxyOs.Lib.Exec
import ZxyOs.Lib.Bytes
import Mathlib.Data.Nat.Bitwise
import Mathlib.Data.Nat.Find

namespace ZxyOs

open Lib Lib.Exec

/-- `struct bitmap`. -/
structure Bitmap where
  btmpBytesLen : Nat
  bit : Nat → Bool

namespace Bitmap

/-- The number of bits that belong to the bitmap. -/
def size (b : Bitmap) : Nat := 8 * b.btmpBytesLen

/-- `bitmap_set`: write one bit. -/
def bitmapSet (b : Bitmap) (index : Nat) (value : Bool) : Bitmap :=
  { b with bit := Function.update b.bit index value }

/-- `0xff == bits[idx_byte]`. -/
def byteFull (b : Bitmap) (idxByte : Nat) : Bool :=
  (List.range 8).all fun j => b.bit (8 * idxByte + j)

/-- The byte loop of `bitmap_scan`, with `n` bytes left to look at. -/
def scanByte (b : Bitmap) : Nat → Nat → Nat
  | 0, idxByte => idxByte
  | n + 1, idxByte => if b.byteFull idxByte then scanByte b n (idxByte + 1) else idxByte

/-- The bit loop of `bitmap_scan` inside byte `idxByte`, with `n` bits left. -/
def scanBit (b : Bitmap) (idxByte : Nat) : Nat → Nat → Nat
  | 0, idxBit => idxBit
  | n + 1, idxBit =>
    if b.bit (8 * idxByte + idxBit) then scanBit b idxByte n (idxBit + 1) else idxBit

/-- The run loop of `bitmap_scan`: `count` bits below `nextBit` are clear, and
    `bitLeft` more are looked at.  The last one looked at is bit `size`. -/
def scanRun (b : Bitmap) (cnt : Nat) : Nat → Nat → Nat → Option Nat
  | 0, _, _ => none
  | bitLeft + 1, nextBit, count =>
    let count := if b.bit nextBit then 0 else count + 1
    if count = cnt then some (nextBit + 1 - cnt) else scanRun b cnt bitLeft (nextBit + 1) count

/-- `bitmap_scan`: the index of a clear run of `cnt` bits, `none` for `-1`.  A
    bitmap without a clear bit fails the assertion in front of `return -1`. -/
def bitmapScan {σ : Type} (b : Bitmap) (cnt : Nat) : Exec σ (Option Nat) := do
  let idxByte := b.scanByte b.btmpBytesLen 0
  assert (idxByte < b.btmpBytesLen)
  if idxByte = b.btmpBytesLen then
    return none
  let bitIdxStart := 8 * idxByte + b.scanBit idxByte 8 0
  if cnt = 1 then
    return some bitIdxStart
  return b.scanRun cnt (b.size - bitIdxStart) (bitIdxStart + 1) 1

/-- Byte `k` of the memory of the bitmap. -/
def byteAt (b : Bitmap) (k : Nat) : UInt8 :=
  UInt8.ofNat (((List.range 8).map fun j => if b.bit (8 * k + j) then 2 ^ j else 0).sum)

/-- The bitmap whose memory holds the bytes of `buf`. -/
def ofBytes (buf : Bytes) (len : Nat) : Bitmap :=
  { btmpBytesLen := len, bit := fun i => (buf (i / 8)).toNat.testBit (i % 8) }

/-! ## Setting a bit -/

@[simp] theorem bitmapSet_btmpBytesLen (b : Bitmap) (i : Nat) (v : Bool) :
    (b.bitmapSet i v).btmpBytesLen = b.btmpBytesLen := rfl

@[simp] theorem bitmapSet_size (b : Bitmap) (i : Nat) (v : Bool) :
    (b.bitmapSet i v).size = b.size := rfl

theorem bitmapSet_bit (b : Bitmap) (i j : Nat) (v : Bool) :
    (b.bitmapSet i v).bit j = if j = i then v else b.bit j := by
  simp [bitmapSet, Function.update_apply]

@[simp] theorem bitmapSet_bit_self (b : Bitmap) (i : Nat) (v : Bool) :
    (b.bitmapSet i v).bit i = v := by
  simp [bitmapSet_bit]

theorem bitmapSet_bit_ne {b : Bitmap} {i j : Nat} {v : Bool} (h : j ≠ i) :
    (b.bitmapSet i v).bit j = b.bit j := by
  simp [bitmapSet_bit, h]

/-! ## Scanning -/

theorem byteFull_eq_true {b : Bitmap} {k : Nat} :
    b.byteFull k = true ↔ ∀ j < 8, b.bit (8 * k + j) = true := by
  simp [byteFull]

/-- The byte loop stops at the first byte with a clear bit, or after the last. -/
theorem scanByte_spec (b : Bitmap) (n k : Nat) :
    k ≤ b.scanByte n k ∧ b.scanByte n k ≤ k + n ∧
      (∀ i, 8 * k ≤ i → i < 8 * b.scanByte n k → b.bit i = true) ∧
      (b.scanByte n k < k + n → b.byteFull (b.scanByte n k) = false) := by
  induction n generalizing k with
  | zero =>
    refine ⟨le_refl _, le_refl _, fun i h h' => ?_, fun h => ?_⟩
    · simp only [scanByte] at h'
      omega
    · simp only [scanByte] at h
      omega
  | succ n ih =>
    by_cases hf : b.byteFull k
    · obtain ⟨h1, h2, h3, h4⟩ := ih (k + 1)
      simp only [scanByte, hf, if_true]
      refine ⟨by omega, by omega, fun i hi hi' => ?_, fun h => h4 (by omega)⟩
      by_cases hk : 8 * (k + 1) ≤ i
      · exact h3 i hk hi'
      · have := byteFull_eq_true.mp hf (i - 8 * k) (by omega)
        rwa [Nat.add_sub_cancel' hi] at this
    · simp only [scanByte, hf]
      refine ⟨le_refl _, by simp, fun i h h' => ?_, fun _ => ?_⟩
      · simp only [Bool.false_eq_true, if_false] at h'
        omega
      · simpa using hf

/-- The bit loop stops at the first clear bit of its byte. -/
theorem scanBit_spec (b : Bitmap) (k n j : Nat) :
    j ≤ b.scanBit k n j ∧ b.scanBit k n j ≤ j + n ∧
      (∀ i, j ≤ i → i < b.scanBit k n j → b.bit (8 * k + i) = true) ∧
      (b.scanBit k n j < j + n → b.bit (8 * k + b.scanBit k n j) = false) := by
  induction n generalizing j with
  | zero =>
    refine ⟨le_refl _, le_refl _, fun i h h' => ?_, fun h => ?_⟩
    · simp only [scanBit] at h'
      omega
    · simp only [scanBit] at h
      omega
  | succ n ih =>
    by_cases hf : b.bit (8 * k + j)
    · obtain ⟨h1, h2, h3, h4⟩ := ih (j + 1)
      simp only [scanBit, hf, if_true]
      refine ⟨by omega, by omega, fun i hi hi' => ?_, fun h => h4 (by omega)⟩
      rcases Nat.eq_or_lt_of_le hi with rfl | hlt
      · exact hf
      · exact h3 i hlt hi'
    · simp only [scanBit, hf]
      refine ⟨le_refl _, by simp, fun i h h' => ?_, fun _ => ?_⟩
      · simp only [Bool.false_eq_true, if_false] at h'
        omega
      · simpa using hf

/-- `i` is the first clear bit of the bitmap. -/
def IsFirstClear (b : Bitmap) (i : Nat) : Prop :=
  i < b.size ∧ b.bit i = false ∧ ∀ j < i, b.bit j = true

theorem IsFirstClear.unique {b : Bitmap} {i j : Nat} (hi : b.IsFirstClear i)
    (hj : b.IsFirstClear j) : i = j := by
  by_contra hne
  rcases Nat.lt_or_gt_of_ne hne with h | h
  · have := hj.2.2 i h
    simp [hi.2.1] at this
  · have := hi.2.2 j h
    simp [hj.2.1] at this

theorem exists_isFirstClear {b : Bitmap} {i : Nat} (h : i < b.size) (hi : b.bit i = false) :
    ∃ j, b.IsFirstClear j := by
  classical
  have hex : ∃ k, k < b.size ∧ b.bit k = false := ⟨i, h, hi⟩
  refine ⟨Nat.find hex, (Nat.find_spec hex).1, (Nat.find_spec hex).2, fun j hj => ?_⟩
  have := Nat.find_min hex hj
  simp only [not_and, Bool.not_eq_false] at this
  exact this (lt_trans hj (Nat.find_spec hex).1)

/-- The two nested loops of `bitmap_scan` compute the first clear bit. -/
theorem isFirstClear_scan {b : Bitmap} (h : b.scanByte b.btmpBytesLen 0 < b.btmpBytesLen) :
    b.IsFirstClear
      (8 * b.scanByte b.btmpBytesLen 0 + b.scanBit (b.scanByte b.btmpBytesLen 0) 8 0) := by
  obtain ⟨-, -, hbefore, hnot⟩ := b.scanByte_spec b.btmpBytesLen 0
  set k := b.scanByte b.btmpBytesLen 0
  obtain ⟨-, hle, hbits, hclear⟩ := b.scanBit_spec k 8 0
  have hlt : b.scanBit k 8 0 < 8 := by
    by_contra hge
    have hfull : b.byteFull k = true :=
      byteFull_eq_true.mpr fun j hj => hbits j (by omega) (by omega)
    rw [hnot (by omega)] at hfull
    cases hfull
  refine ⟨?_, hclear (by omega), fun j hj => ?_⟩
  · simp only [size]
    omega
  · by_cases hjk : j < 8 * k
    · exact hbefore j (by omega) hjk
    · have := hbits (j - 8 * k) (by omega) (by omega)
      rwa [Nat.add_sub_cancel' (by omega)] at this

/-- The assertion of `bitmap_scan` fails exactly where no bit is clear. -/
theorem scanByte_lt_iff {b : Bitmap} :
    b.scanByte b.btmpBytesLen 0 < b.btmpBytesLen ↔ ∃ i, b.IsFirstClear i := by
  constructor
  · intro h
    exact ⟨_, isFirstClear_scan h⟩
  · rintro ⟨i, hi, hclear, -⟩
    obtain ⟨-, hle, hbefore, -⟩ := b.scanByte_spec b.btmpBytesLen 0
    by_contra hge
    have hset := hbefore i (by omega) (by simp only [size] at hi; omega)
    rw [hclear] at hset
    cases hset

/-- A scan for one bit returns the first clear bit and fails the assertion where
    there is none: it never returns `-1`. -/
theorem returns_bitmapScan_one {σ : Type} {b : Bitmap} {s s' : σ} {r : Option Nat} :
    Returns (b.bitmapScan 1) s r s' ↔ s = s' ∧ ∃ i, r = some i ∧ b.IsFirstClear i := by
  simp only [bitmapScan, returns_bind, returns_assert]
  constructor
  · rintro ⟨-, t, ⟨hlt, rfl⟩, h⟩
    rw [if_neg (by omega)] at h
    simp only [if_true, returns_pure] at h
    exact ⟨h.2, _, h.1.symm, isFirstClear_scan hlt⟩
  · rintro ⟨rfl, i, rfl, hi⟩
    have hlt := scanByte_lt_iff.mpr ⟨i, hi⟩
    refine ⟨(), s, ⟨hlt, rfl⟩, ?_⟩
    rw [if_neg (by omega)]
    simp only [if_true, returns_pure]
    exact ⟨congrArg some ((isFirstClear_scan hlt).unique hi), trivial⟩

theorem contained_bitmapScan {σ : Type} {P : σ → Prop} {b : Bitmap} {cnt : Nat} :
    Contained P (b.bitmapScan cnt : Exec σ (Option Nat)) := by
  refine (contained_assert _).bind fun _ => ?_
  split
  · exact contained_pure _
  · split
    · exact contained_pure _
    · exact contained_pure _

/-- The run loop reports a run of `cnt` clear bits; its last bit may be the one
    behind the bitmap. -/
theorem scanRun_spec {b : Bitmap} {cnt n next count i : Nat}
    (hcount : count ≤ next) (hclear : ∀ j < count, b.bit (next - 1 - j) = false)
    (h : b.scanRun cnt n next count = some i) :
    i + cnt ≤ next + n ∧ (∀ j < cnt, b.bit (i + j) = false) := by
  induction n generalizing next count with
  | zero => simp [scanRun] at h
  | succ n ih =>
    simp only [scanRun] at h
    by_cases hb : b.bit next
    · simp only [hb, if_true] at h
      split at h
      · next h0 =>
        subst h0
        simp only [Option.some.injEq] at h
        exact ⟨by omega, fun j hj => by omega⟩
      · obtain ⟨h1, h2⟩ := ih (by omega) (by simp) h
        exact ⟨by omega, h2⟩
    · simp only [hb, Bool.false_eq_true, if_false] at h
      have hstep : ∀ j < count + 1, b.bit (next + 1 - 1 - j) = false := by
        intro j hj
        cases j with
        | zero => simpa using hb
        | succ j =>
          have := hclear j (by omega)
          rwa [show next + 1 - 1 - (j + 1) = next - 1 - j by omega]
      split at h
      · next hcnt =>
        simp only [Option.some.injEq] at h
        subst hcnt
        refine ⟨by omega, fun j hj => ?_⟩
        have := hstep (count - j) (by omega)
        rwa [show next + 1 - 1 - (count - j) = i + j by omega] at this
      · obtain ⟨h1, h2⟩ := ih (by omega) hstep h
        exact ⟨by omega, h2⟩

/-- A successful scan returns the start of a clear run.  The run may end with the
    bit behind the bitmap. -/
theorem bitmapScan_some {σ : Type} {b : Bitmap} {cnt i : Nat} {s s' : σ}
    (h : Returns (b.bitmapScan cnt) s (some i) s') :
    s = s' ∧ i + cnt ≤ b.size + 1 ∧ ∀ j < cnt, b.bit (i + j) = false := by
  by_cases hcnt : cnt = 1
  · subst hcnt
    obtain ⟨rfl, k, hk, hlt, hclear, -⟩ := returns_bitmapScan_one.mp h
    cases hk
    refine ⟨rfl, by omega, fun j hj => ?_⟩
    obtain rfl : j = 0 := by omega
    exact hclear
  · simp only [bitmapScan, returns_bind, returns_assert] at h
    obtain ⟨-, t, ⟨hlt, rfl⟩, h⟩ := h
    rw [if_neg (by omega), if_neg hcnt, returns_pure] at h
    obtain ⟨hin, hclear, -⟩ := isFirstClear_scan hlt
    obtain ⟨hrun, rfl⟩ := h
    set start := 8 * b.scanByte b.btmpBytesLen 0 + b.scanBit (b.scanByte b.btmpBytesLen 0) 8 0
    obtain ⟨h1, h2⟩ := scanRun_spec (by omega)
      (fun j hj => by obtain rfl : j = 0 := by omega
                      simpa using hclear) hrun
    exact ⟨rfl, by omega, h2⟩

end Bitmap

end ZxyOs
