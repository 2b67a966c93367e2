/-
  ZxyOs.Kernel.BitmapScan

  What `bitmap_scan` looks at and what it returns.

  The scan of `Kernel.Bitmap` is written here with the 32-bit arithmetic of the source, and
  every byte it reads is recorded, in order: the state is the list of the bytes read so far.
  A scan is clean (`CleanScan`) when it returns, has read bytes of the bitmap only and reports
  the first free run, or `-1` where there is none.

  The three loops are `findByte`, `findBit` and `countBits`.  The last has two specifications:
  `countBits_finds` where a run ends within the bits left, `countBits_sound` for any start.
-/

import ZxyOs.Lib.Stretch
import ZxyOs.Kernel.Bitmap

namespace ZxyOs

open Lib Lib.Exec

/-- A 32-bit word read as an `int`. -/
def toInt (w : Nat) : Int := if w < 2 ^ 31 then w else (w : Int) - 2 ^ 32

theorem toInt_of_lt {w : Nat} (h : w < 2 ^ 31) : toInt w = w := if_pos h

/-- A word that reads as a natural number is below the sign bit. -/
theorem toInt_eq_natCast {w n : Nat} (hw : w < 2 ^ 32) (h : toInt w = n) : w = n ∧ w < 2 ^ 31 := by
  unfold toInt at h
  split at h
  · omega
  · omega

namespace Bitmap

/-! ## The scan with its reads -/

/-- `btmp->bits[k]`: the bits of byte `k`, the lowest first. -/
def readByte (b : Bitmap) (k : Nat) : Exec (List Nat) (Nat → Bool) := do
  update (· ++ [k])
  return fun j => b.bit (8 * k + j)

/-- The byte loop, with `n` bytes left below `btmp_bytes_len`.  The byte is read before the
    index is compared. -/
def findByte (b : Bitmap) : Nat → Nat → Exec (List Nat) Nat
  | 0, idxByte => do
    let _ ← b.readByte idxByte
    return idxByte
  | n + 1, idxByte => do
    let byte ← b.readByte idxByte
    if (List.range 8).all byte then
      findByte b n (idxByte + 1)
    else
      return idxByte

/-- The bit loop, with `n` bits of the byte left.  The mask is 0 behind the last one. -/
def findBit (b : Bitmap) (idxByte : Nat) : Nat → Nat → Exec (List Nat) Nat
  | 0, idxBit => do
    let _ ← b.readByte idxByte
    return idxBit
  | n + 1, idxBit => do
    let byte ← b.readByte idxByte
    if byte idxBit then
      findBit b idxByte n (idxBit + 1)
    else
      return idxBit

def bitmapScanTest (b : Bitmap) (index : Nat) : Exec (List Nat) Bool := do
  let byte ← b.readByte (index / 8)
  return byte (index % 8)

/-- The run loop. -/
def countBits (b : Bitmap) (cnt : Nat) : Nat → Nat → Nat → Exec (List Nat) Int
  | 0, _, _ => return -1
  | bitLeft + 1, nextBit, count => do
    let used ← b.bitmapScanTest nextBit
    let count := if used then 0 else (count + 1) % 2 ^ 32
    if count = cnt then
      return toInt ((nextBit + 2 ^ 32 - cnt + 1) % 2 ^ 32)
    else
      countBits b cnt bitLeft ((nextBit + 1) % 2 ^ 32) count

/-- `bit_left`, for a scan that found its first clear bit at `start`. -/
def bitLeft (b : Bitmap) (start : Nat) : Nat := (b.size + 2 ^ 32 - start) % 2 ^ 32

/-- `bitmap_scan`, for a length and a count of 32 bits. -/
def bitmapScanReads (b : Bitmap) (cnt : Nat) : Exec (List Nat) Int := do
  let idxByte ← b.findByte b.btmpBytesLen 0
  assert (idxByte < b.btmpBytesLen)
  if idxByte = b.btmpBytesLen then
    return -1
  let idxBit ← b.findBit idxByte 8 0
  let bitIdxStart := (idxByte * 8 + idxBit) % 2 ^ 32
  if cnt = 1 then
    return toInt bitIdxStart
  b.countBits cnt (b.bitLeft bitIdxStart) ((bitIdxStart + 1) % 2 ^ 32) 1

/-! ## What a scan is for -/

def Clear (b : Bitmap) (i : Nat) : Prop := b.bit i = false

/-- `cnt` clear bits of the bitmap, from `s` on. -/
def FreeRun (b : Bitmap) (cnt s : Nat) : Prop := s + cnt ≤ b.size ∧ Stretch b.Clear cnt s

/-- `r` is the index of the first free run, or `-1` where there is none. -/
def ScansFirst (b : Bitmap) (cnt : Nat) (r : Int) : Prop :=
  (∃ s : Nat, r = s ∧ b.FreeRun cnt s ∧ ∀ s' < s, ¬ b.FreeRun cnt s') ∨
    r = -1 ∧ ∀ s, ¬ b.FreeRun cnt s

/-- The scan returns, reads bytes of the bitmap only and reports the first free run. -/
def CleanScan (b : Bitmap) (cnt : Nat) : Prop :=
  ∃ r reads, Returns (b.bitmapScanReads cnt) [] r reads ∧ (∀ k ∈ reads, k < b.btmpBytesLen) ∧
    b.ScansFirst cnt r

/-- Where a scan is clean: some bit is clear; there is a run to be found, or the size of the
    bitmap wraps around; and the first run starts where an `int` can say so and ends within
    the bits that are left to the scan. -/
structure Scannable (b : Bitmap) (cnt : Nat) : Prop where
  clear : ∃ f, b.IsFirstClear f
  run : b.size < 2 ^ 32 → ∃ s, b.FreeRun cnt s
  reach : ∀ s, FirstStretch b.Clear cnt s → b.FreeRun cnt s →
    s < 2 ^ 31 ∧ (1 < cnt → s + cnt ≤ 2 ^ 32 ∧ ∀ f, b.IsFirstClear f → s + cnt ≤ f + 1 + b.bitLeft f)

/-! ## The byte and the bit loop -/

theorem returns_readByte {b : Bitmap} {k : Nat} {reads : List Nat} :
    Returns (b.readByte k) reads (fun j => b.bit (8 * k + j)) (reads ++ [k]) := by
  simp [readByte]

theorem returns_bitmapScanTest {b : Bitmap} {i : Nat} {reads : List Nat} :
    Returns (b.bitmapScanTest i) reads (b.bit i) (reads ++ [i / 8]) := by
  rw [bitmapScanTest, returns_bind_iff returns_readByte]
  apply returns_pure.mpr
  simp only [Nat.div_add_mod, and_self]

theorem findByte_reads (b : Bitmap) (n k : Nat) (reads : List Nat) :
    ∃ more, Returns (b.findByte n k) reads (b.scanByte n k) (reads ++ more) ∧
      ∀ i ∈ more, i ≤ b.scanByte n k := by
  induction n generalizing k reads with
  | zero =>
    refine ⟨[k], ?_, ?_⟩
    · rw [findByte, returns_bind_iff returns_readByte]
      exact returns_pure.mpr ⟨rfl, rfl⟩
    · simp [scanByte]
  | succ n ih =>
    rw [findByte, scanByte]
    simp only [returns_bind_iff returns_readByte]
    have hfull : ((List.range 8).all fun j => b.bit (8 * k + j)) = b.byteFull k := rfl
    rw [hfull]
    by_cases hf : b.byteFull k
    · simp only [hf, if_true]
      obtain ⟨more, hret, hmore⟩ := ih (k + 1) (reads ++ [k])
      refine ⟨k :: more, ?_, ?_⟩
      · rw [List.append_cons reads k more]
        exact hret
      · intro i hi
        have hk := (b.scanByte_spec n (k + 1)).1
        rcases List.mem_cons.mp hi with rfl | hi
        · omega
        · exact hmore i hi
    · simp only [hf, Bool.false_eq_true, if_false]
      refine ⟨[k], returns_pure.mpr ⟨rfl, rfl⟩, ?_⟩
      simp

theorem findBit_reads (b : Bitmap) (k n j : Nat) (reads : List Nat) :
    ∃ more, Returns (b.findBit k n j) reads (b.scanBit k n j) (reads ++ more) ∧ ∀ i ∈ more, i = k := by
  induction n generalizing j reads with
  | zero =>
    refine ⟨[k], ?_, by simp⟩
    rw [findBit, returns_bind_iff returns_readByte]
    exact returns_pure.mpr ⟨rfl, rfl⟩
  | succ n ih =>
    rw [findBit, scanBit]
    simp only [returns_bind_iff returns_readByte]
    by_cases hf : b.bit (8 * k + j)
    · simp only [hf, if_true]
      obtain ⟨more, hret, hmore⟩ := ih (j + 1) (reads ++ [k])
      refine ⟨k :: more, ?_, ?_⟩
      · rw [List.append_cons reads k more]
        exact hret
      · simpa using hmore
    · simp only [hf, Bool.false_eq_true, if_false]
      exact ⟨[k], returns_pure.mpr ⟨rfl, rfl⟩, by simp⟩

/-! ## The run loop -/

variable {b : Bitmap} {cnt n next count s : Nat}

/-- Where the first stretch ends within the bits left, the loop finds it and reads nothing
    behind it. -/
theorem countBits_finds (hcnt : cnt < 2 ^ 32) (h32 : s + cnt ≤ 2 ^ 32) (hs : FirstStretch b.Clear cnt s)
    (hc : Counted b.Clear cnt next count) (hend : s + cnt ≤ next + n) (reads : List Nat) :
    ∃ more, Returns (b.countBits cnt n next count) reads (toInt s) (reads ++ more) ∧
      ∀ k ∈ more, k ≤ (s + cnt - 1) / 8 := by
  have hlt := hc.lt
  induction n generalizing next count reads with
  | zero => exact absurd hs.1 (hc.unseen s hend)
  | succ n ih =>
    have hnext : next < s + cnt := by
      by_contra hge
      exact hc.unseen s (by omega) hs.1
    have hread : next / 8 ≤ (s + cnt - 1) / 8 := Nat.div_le_div_right (by omega)
    rw [countBits]
    simp only [returns_bind_iff returns_bitmapScanTest]
    -- the loop goes on with a counter that means what it should
    have hgo : ∀ count', Counted b.Clear cnt (next + 1) count' →
        ∃ more, Returns (b.countBits cnt n ((next + 1) % 2 ^ 32) count') (reads ++ [next / 8])
          (toInt s) (reads ++ more) ∧ ∀ k ∈ more, k ≤ (s + cnt - 1) / 8 := by
      intro count' hc'
      have hnext' : next + 1 < s + cnt := by
        by_contra hge
        exact hc'.unseen s (by omega) hs.1
      rw [Nat.mod_eq_of_lt (by omega)]
      obtain ⟨more, hret, hmore⟩ := ih hc' (by omega) (reads ++ [next / 8]) hc'.lt
      refine ⟨next / 8 :: more, ?_, ?_⟩
      · rw [List.append_cons reads (next / 8) more]
        exact hret
      · intro k hk
        rcases List.mem_cons.mp hk with rfl | hk
        · exact hread
        · exact hmore k hk
    by_cases hb : b.bit next
    · rw [if_pos hb, if_neg (by omega)]
      exact hgo 0 (hc.miss (by simp [Clear, hb]))
    · have hclear : b.Clear next := by simpa [Clear] using hb
      rw [if_neg hb, Nat.mod_eq_of_lt (by omega)]
      by_cases hcount : count + 1 = cnt
      · have hle := hc.le
        have hfound := hs.unique (hc.found hclear hcount)
        rw [if_pos hcount, show (next + 2 ^ 32 - cnt + 1) % 2 ^ 32 = s by omega]
        exact ⟨[next / 8], returns_pure.mpr ⟨rfl, rfl⟩, by simpa using hread⟩
      · rw [if_neg hcount]
        exact hgo (count + 1) (hc.hit hclear (by omega))

/-- Whatever the loop reports is the first stretch, the last bit of which it has read.  Where
    it reports none and has not wrapped around, it has read all the bits left.  The counter may
    mean nothing where the bit looked at next is set. -/
theorem countBits_sound (hcnt : count < cnt) (h32 : cnt < 2 ^ 32) (hnext : next < 2 ^ 32)
    (hwrap : next + n ≤ 2 ^ 32 ∨ ¬ b.Clear 0)
    (hunseen : ∀ s, s + cnt ≤ next → ¬ Stretch b.Clear cnt s)
    (hc : n = 0 ∨ ¬ b.Clear next ∨ Counted b.Clear cnt next count) (reads : List Nat) :
    ∃ r more, Returns (b.countBits cnt n next count) reads r (reads ++ more) ∧
      (∀ k ∈ more, k < 2 ^ 29) ∧
      ((∃ s, FirstStretch b.Clear cnt s ∧ s + cnt ≤ 2 ^ 32 ∧ s + cnt ≤ next + n ∧ r = toInt s ∧
          (s + cnt - 1) / 8 ∈ more) ∨
        r = -1 ∧ (0 < n → next + n ≤ 2 ^ 32 → (next + n - 1) / 8 ∈ more)) := by
  induction n generalizing next count reads with
  | zero =>
    refine ⟨-1, [], ?_, by simp, Or.inr ⟨rfl, by omega⟩⟩
    simp [countBits]
  | succ n ih =>
    rw [countBits]
    simp only [returns_bind_iff returns_bitmapScanTest]
    have hbyte : next / 8 < 2 ^ 29 := by omega
    -- the loop goes on, from bit 0 where the index wraps around
    have hgo : ∀ count', count' < cnt → Counted b.Clear cnt (next + 1) count' →
        ∃ r more, Returns (b.countBits cnt n ((next + 1) % 2 ^ 32) count') (reads ++ [next / 8]) r
          (reads ++ more) ∧ (∀ k ∈ more, k < 2 ^ 29) ∧
        ((∃ s, FirstStretch b.Clear cnt s ∧ s + cnt ≤ 2 ^ 32 ∧ s + cnt ≤ next + (n + 1) ∧
            r = toInt s ∧ (s + cnt - 1) / 8 ∈ more) ∨
          r = -1 ∧ (0 < n + 1 → next + (n + 1) ≤ 2 ^ 32 → (next + (n + 1) - 1) / 8 ∈ more)) := by
      intro count' hcount' hc'
      have hstart : (next + 1) % 2 ^ 32 + n ≤ 2 ^ 32 ∨ ¬ b.Clear 0 := by
        rcases hwrap with hw | hw
        · left
          omega
        · exact Or.inr hw
      have hmean : n = 0 ∨ ¬ b.Clear ((next + 1) % 2 ^ 32) ∨
          Counted b.Clear cnt ((next + 1) % 2 ^ 32) count' := by
        by_cases hlast : next + 1 = 2 ^ 32
        · rw [hlast, Nat.mod_self]
          rcases hwrap with hw | hw
          · left
            omega
          · exact Or.inr (Or.inl hw)
        · rw [Nat.mod_eq_of_lt (by omega)]
          exact Or.inr (Or.inr hc')
      have hseen : ∀ s, s + cnt ≤ (next + 1) % 2 ^ 32 → ¬ Stretch b.Clear cnt s := by
        intro s hle
        exact hc'.unseen s (hle.trans (Nat.mod_le _ _))
      obtain ⟨r, more, hret, hmore, hr⟩ :=
        ih hcount' (Nat.mod_lt _ (by omega)) hstart hseen hmean (reads ++ [next / 8])
      refine ⟨r, next / 8 :: more, ?_, ?_, ?_⟩
      · rw [List.append_cons reads (next / 8) more]
        exact hret
      · intro k hk
        rcases List.mem_cons.mp hk with rfl | hk
        · exact hbyte
        · exact hmore k hk
      · rcases hr with ⟨s, hs, hs32, hsn, hrs, hmem⟩ | ⟨hr, hall⟩
        · have hle : (next + 1) % 2 ^ 32 ≤ next + 1 := Nat.mod_le _ _
          exact Or.inl ⟨s, hs, hs32, by omega, hrs, List.mem_cons_of_mem _ hmem⟩
        · refine Or.inr ⟨hr, fun _ hle => ?_⟩
          by_cases hn : n = 0
          · subst hn
            simp
          · have hmod : (next + 1) % 2 ^ 32 = next + 1 := Nat.mod_eq_of_lt (by omega)
            rw [hmod] at hall
            have := hall (by omega) (by omega)
            rw [show next + 1 + n - 1 = next + (n + 1) - 1 by omega] at this
            exact List.mem_cons_of_mem _ this
    by_cases hb : b.bit next
    · have hset : ¬ b.Clear next := by simp [Clear, hb]
      rw [if_pos hb, if_neg (by omega)]
      exact hgo 0 (by omega) (Counted.after (by omega) hset hunseen)
    · have hclear : b.Clear next := by simpa [Clear] using hb
      have hc : Counted b.Clear cnt next count := by
        rcases hc with h | h | h
        · omega
        · exact absurd hclear h
        · exact h
      rw [if_neg hb, Nat.mod_eq_of_lt (by omega)]
      by_cases hcount : count + 1 = cnt
      · have hle := hc.le
        have hfound := hc.found hclear hcount
        rw [if_pos hcount, show (next + 2 ^ 32 - cnt + 1) % 2 ^ 32 = next + 1 - cnt by omega]
        refine ⟨_, [next / 8], returns_pure.mpr ⟨rfl, rfl⟩, by simpa using hbyte, Or.inl ?_⟩
        refine ⟨next + 1 - cnt, hfound, by omega, by omega, rfl, ?_⟩
        rw [show next + 1 - cnt + cnt - 1 = next by omega]
        simp
      · rw [if_neg hcount]
        exact hgo (count + 1) (by omega) (hc.hit hclear (by omega))

/-! ## The whole scan -/

/-- A bitmap without a clear bit fails the assertion. -/
theorem not_returns_of_full (h : ¬ ∃ f, b.IsFirstClear f) {r : Int} {reads reads' : List Nat} :
    ¬ Returns (b.bitmapScanReads cnt) reads r reads' := by
  obtain ⟨more, hbyte, -⟩ := b.findByte_reads b.btmpBytesLen 0 reads
  rw [bitmapScanReads, returns_bind_iff hbyte, returns_bind]
  rintro ⟨u, t, hassert, -⟩
  exact h (scanByte_lt_iff.mp (returns_assert _ _ |>.mp hassert).1)

/-- What the scan does once it has found the first clear bit `f`. -/
def scanFrom (b : Bitmap) (cnt f : Nat) : Exec (List Nat) Int :=
  if cnt = 1 then return toInt (f % 2 ^ 32)
  else b.countBits cnt (b.bitLeft (f % 2 ^ 32)) ((f % 2 ^ 32 + 1) % 2 ^ 32) 1

theorem bitmapScanReads_of_clear {f : Nat} (hf : b.IsFirstClear f) :
    ∃ head, (∀ k ∈ head, k ≤ f / 8) ∧ ∀ r reads,
      Returns (b.bitmapScanReads cnt) [] r reads ↔ Returns (b.scanFrom cnt f) head r reads := by
  have hlt := scanByte_lt_iff.mpr ⟨f, hf⟩
  have hfirst := hf.unique (isFirstClear_scan hlt)
  obtain ⟨head₁, hbyte, hle₁⟩ := b.findByte_reads b.btmpBytesLen 0 []
  obtain ⟨-, hle, -, -⟩ := b.scanBit_spec (b.scanByte b.btmpBytesLen 0) 8 0
  set k := b.scanByte b.btmpBytesLen 0
  obtain ⟨head₂, hbit, heq₂⟩ := b.findBit_reads k 8 0 head₁
  refine ⟨head₁ ++ head₂, ?_, ?_⟩
  · intro i hi
    rcases List.mem_append.mp hi with hi | hi
    · have := hle₁ i hi
      omega
    · have := heq₂ i hi
      omega
  · intro r reads
    have hassert : Returns (assert (k < b.btmpBytesLen)) head₁ () head₁ :=
      (returns_assert _ _).mpr ⟨hlt, rfl⟩
    rw [bitmapScanReads, returns_bind_iff hbyte, List.nil_append, returns_bind_iff hassert,
      if_neg (by omega), returns_bind_iff hbit]
    rw [show k * 8 + b.scanBit k 8 0 = f by omega]
    exact Iff.rfl

theorem FreeRun.first {s : Nat} (h : b.FreeRun cnt s) :
    ∃ s', s' ≤ s ∧ FirstStretch b.Clear cnt s' ∧ b.FreeRun cnt s' := by
  obtain ⟨s', hle, hs'⟩ := h.2.exists_first
  refine ⟨s', hle, hs', ?_, hs'.1⟩
  have := h.1
  omega

theorem IsFirstClear.le_of_stretch {f s : Nat} (hf : b.IsFirstClear f) (hcnt : 0 < cnt)
    (hs : Stretch b.Clear cnt s) : f ≤ s := by
  by_contra hlt
  have hset := hf.2.2 s (by omega)
  have hclear : b.bit s = false := hs 0 hcnt
  rw [hclear] at hset
  cases hset

theorem ScansFirst.eq {r : Int} (h : b.ScansFirst cnt r) {s : Nat} (hs : FirstStretch b.Clear cnt s)
    (hrun : b.FreeRun cnt s) : r = s := by
  rcases h with ⟨s', rfl, hrun', hbefore⟩ | ⟨-, hnone⟩
  · have hle : s' ≤ s := by
      by_contra hlt
      exact hbefore s (by omega) hrun
    have hge : s ≤ s' := by
      by_contra hlt
      exact hs.2 s' (by omega) hrun'.2
    rw [show s' = s by omega]
  · exact absurd hrun (hnone s)

theorem scansFirst_first {s : Nat} (hs : FirstStretch b.Clear cnt s) (hrun : b.FreeRun cnt s) :
    b.ScansFirst cnt s :=
  Or.inl ⟨s, rfl, hrun, fun s' hlt hrun' => hs.2 s' hlt hrun'.2⟩

/-- The run loop, started where the other two have stopped. -/
theorem scanFrom_sound {f : Nat} (hf : b.IsFirstClear f) (hcnt : 1 < cnt) (h32 : cnt < 2 ^ 32)
    (head : List Nat) :
    ∃ r more, Returns (b.scanFrom cnt f) head r (head ++ more) ∧ (∀ k ∈ more, k < 2 ^ 29) ∧
      ((∃ s, FirstStretch b.Clear cnt s ∧ s + cnt ≤ 2 ^ 32 ∧
          s + cnt ≤ (f % 2 ^ 32 + 1) % 2 ^ 32 + b.bitLeft (f % 2 ^ 32) ∧ r = toInt s ∧
          (s + cnt - 1) / 8 ∈ more) ∨
        r = -1 ∧ (b.size < 2 ^ 32 → b.size / 8 ∈ more)) := by
  obtain ⟨hin, hclear, hbefore⟩ := hf
  have hset : ∀ i < f, ¬ b.Clear i := by
    intro i hi
    simp [Clear, hbefore i hi]
  have hle : (f % 2 ^ 32 + 1) % 2 ^ 32 ≤ f + 1 := by omega
  have hwrap : (f % 2 ^ 32 + 1) % 2 ^ 32 + b.bitLeft (f % 2 ^ 32) ≤ 2 ^ 32 ∨ ¬ b.Clear 0 := by
    rcases Nat.eq_zero_or_pos f with rfl | hpos
    · have : b.bitLeft (0 % 2 ^ 32) < 2 ^ 32 := Nat.mod_lt _ (by omega)
      left
      omega
    · exact Or.inr (hset 0 hpos)
  have hunseen : ∀ s, s + cnt ≤ (f % 2 ^ 32 + 1) % 2 ^ 32 → ¬ Stretch b.Clear cnt s := by
    intro s hend hs
    exact hset s (by omega) (hs 0 (by omega))
  have hstart : ¬ b.Clear ((f % 2 ^ 32 + 1) % 2 ^ 32) ∨
      Counted b.Clear cnt ((f % 2 ^ 32 + 1) % 2 ^ 32) 1 := by
    by_cases hsmall : f + 1 < 2 ^ 32
    · right
      rw [show (f % 2 ^ 32 + 1) % 2 ^ 32 = f + 1 by omega]
      exact .start hcnt hclear hset
    · exact Or.inl (hset _ (by omega))
  obtain ⟨r, more, hret, hmore, hr⟩ :=
    countBits_sound hcnt h32 (Nat.mod_lt _ (by omega)) hwrap hunseen (Or.inr hstart) head
  refine ⟨r, more, ?_, hmore, ?_⟩
  · rw [scanFrom, if_neg (by omega)]
    exact hret
  · rcases hr with hfound | ⟨hr, hall⟩
    · exact Or.inl hfound
    · refine Or.inr ⟨hr, fun hsize => ?_⟩
      have hleft : b.bitLeft (f % 2 ^ 32) = b.size - f := by
        simp only [bitLeft]
        omega
      rw [hleft, show (f % 2 ^ 32 + 1) % 2 ^ 32 = f + 1 by omega] at hall
      have := hall (by omega) (by omega)
      rwa [show f + 1 + (b.size - f) - 1 = b.size by omega] at this

theorem cleanScan_of_scannable (hcnt : 1 ≤ cnt) (h32 : cnt < 2 ^ 32) (h : b.Scannable cnt) :
    b.CleanScan cnt := by
  obtain ⟨f, hf⟩ := h.clear
  obtain ⟨head, hhead, hscan⟩ := @bitmapScanReads_of_clear _ cnt _ hf
  have hin := hf.1
  simp only [size] at hin
  by_cases hex : ∃ s, b.FreeRun cnt s
  · obtain ⟨s, hrun⟩ := hex
    obtain ⟨s, -, hs, hrun⟩ := hrun.first
    obtain ⟨h31, hreach⟩ := h.reach s hs hrun
    have hfs := hf.le_of_stretch hcnt hs.1
    have hend := hrun.1
    simp only [size] at hend
    by_cases hone : cnt = 1
    · subst hone
      have hsf : s = f := by
        refine hs.unique ⟨fun j hj => ?_, fun s' hlt hs' => ?_⟩
        · obtain rfl : j = 0 := by omega
          exact hf.2.1
        · have := hf.le_of_stretch hcnt hs'
          omega
      subst hsf
      refine ⟨s, head, (hscan _ _).mpr ?_, fun k hk => ?_, scansFirst_first hs hrun⟩
      · rw [scanFrom, if_pos rfl, Nat.mod_eq_of_lt (by omega), toInt_of_lt h31]
        exact returns_pure.mpr ⟨rfl, rfl⟩
      · have := hhead k hk
        omega
    · obtain ⟨hs32, hleft⟩ := hreach (by omega)
      have hset : ∀ i < f, ¬ b.Clear i := by
        intro i hi
        simp [Clear, hf.2.2 i hi]
      obtain ⟨more, hret, hmore⟩ := countBits_finds h32 hs32 hs
        (.start (by omega) hf.2.1 hset) (hleft f hf) head
      refine ⟨s, head ++ more, (hscan _ _).mpr ?_, fun k hk => ?_, scansFirst_first hs hrun⟩
      · rw [scanFrom, if_neg hone, Nat.mod_eq_of_lt (by omega : f < 2 ^ 32),
          Nat.mod_eq_of_lt (by omega : f + 1 < 2 ^ 32), ← toInt_of_lt h31]
        exact hret
      · rcases List.mem_append.mp hk with hk | hk
        · have := hhead k hk
          omega
        · have := hmore k hk
          omega
  · -- no run: the size wraps around, and every word there is indexes a bit of the bitmap
    have hwide : 2 ^ 32 ≤ b.size := by
      by_contra hlt
      exact hex (h.run (by omega))
    have hone : cnt ≠ 1 := by
      rintro rfl
      refine hex ⟨f, by simp only [size]; omega, fun j hj => ?_⟩
      obtain rfl : j = 0 := by omega
      exact hf.2.1
    obtain ⟨r, more, hret, hmore, hr⟩ := scanFrom_sound hf (by omega) h32 head
    refine ⟨r, head ++ more, (hscan _ _).mpr hret, fun k hk => ?_, ?_⟩
    · simp only [size] at hwide
      rcases List.mem_append.mp hk with hk | hk
      · have := hhead k hk
        omega
      · have := hmore k hk
        omega
    · rcases hr with ⟨s, hs, hs32, -⟩ | ⟨rfl, -⟩
      · exact absurd ⟨s, by omega, hs.1⟩ hex
      · exact Or.inr ⟨rfl, fun s hrun => hex ⟨s, hrun⟩⟩

theorem scannable_of_cleanScan (hcnt : 1 ≤ cnt) (h32 : cnt < 2 ^ 32) (h : b.CleanScan cnt) :
    b.Scannable cnt := by
  obtain ⟨r, reads, hret, hin, hfirst⟩ := h
  have hclear : ∃ f, b.IsFirstClear f := by
    by_contra hfull
    exact not_returns_of_full hfull hret
  obtain ⟨f, hf⟩ := hclear
  obtain ⟨head, hhead, hscan⟩ := bitmapScanReads_of_clear hf
  rw [hscan] at hret
  have hfin := hf.1
  by_cases hone : cnt = 1
  · subst hone
    have hrun : b.FreeRun 1 f := by
      refine ⟨by omega, fun j hj => ?_⟩
      obtain rfl : j = 0 := by omega
      exact hf.2.1
    refine ⟨⟨f, hf⟩, fun _ => ⟨f, hrun⟩, fun s hs hsrun => ⟨?_, by omega⟩⟩
    have hr := hfirst.eq hs hsrun
    rw [scanFrom, if_pos rfl, returns_pure] at hret
    rw [← hret.1] at hr
    have := toInt_eq_natCast (Nat.mod_lt f (by omega)) hr
    omega
  · obtain ⟨r', more, hret', -, hr⟩ := scanFrom_sound hf (by omega) h32 head
    obtain ⟨rfl, rfl⟩ := hret'.unique hret
    refine ⟨⟨f, hf⟩, fun hsize => ?_, fun s hs hsrun => ?_⟩
    · -- a scan without a run looks at the bit behind the bitmap
      by_contra hnone
      have hlast : b.size / 8 ∈ more := by
        rcases hr with ⟨s, hs, -, hend, -, hmem⟩ | ⟨-, hall⟩
        · have hleft : b.bitLeft (f % 2 ^ 32) = b.size - f := by
            simp only [bitLeft]
            omega
          rw [hleft] at hend
          have hbehind : ¬ s + cnt ≤ b.size := fun hle => hnone ⟨s, hle, hs.1⟩
          rwa [show s + cnt - 1 = b.size by omega] at hmem
        · exact hall hsize
      have := hin _ (List.mem_append_right head hlast)
      simp only [size] at this
      omega
    · have hval := hfirst.eq hs hsrun
      rcases hr with ⟨s', hs', hs32, hend, hrs, -⟩ | ⟨hr, -⟩
      · obtain rfl := hs.unique hs'
        have h31 := toInt_eq_natCast (by omega) (hrs.symm.trans hval)
        refine ⟨h31.2, fun _ => ⟨hs32, fun f' hf' => ?_⟩⟩
        obtain rfl := hf.unique hf'
        have hle := hf.le_of_stretch hcnt hs.1
        rwa [Nat.mod_eq_of_lt (by omega : f < 2 ^ 32), Nat.mod_eq_of_lt (by omega : f + 1 < 2 ^ 32)] at hend
      · omega

/-- A scan of a 32-bit bitmap for a 32-bit count is clean exactly where the bitmap is
    scannable. -/
theorem cleanScan_iff_scannable (hcnt : 1 ≤ cnt) (h32 : cnt < 2 ^ 32) :
    b.CleanScan cnt ↔ b.Scannable cnt :=
  ⟨scannable_of_cleanScan hcnt h32, cleanScan_of_scannable hcnt h32⟩

/-- Five free bits behind two used ones. -/
def sample : Bitmap := { btmpBytesLen := 1, bit := fun i => decide (i = 0 ∨ i = 2) }

theorem sample_firstClear : sample.IsFirstClear 1 := by
  refine ⟨by decide, by decide, ?_⟩
  intro j hj
  obtain rfl : j = 0 := by omega
  rfl

theorem sample_scannable : sample.Scannable 2 := by
  have hrun : ∀ j < 2, sample.bit (3 + j) = false := by decide
  have hfirst : FirstStretch sample.Clear 2 3 := by
    refine ⟨hrun, fun s' hlt hs' => ?_⟩
    have hnone : ∀ s < 3, ¬ (sample.bit s = false ∧ sample.bit (s + 1) = false) := by decide
    exact hnone s' hlt ⟨hs' 0 (by omega), hs' 1 (by omega)⟩
  refine ⟨⟨1, sample_firstClear⟩, fun _ => ⟨3, by decide, hrun⟩, fun s hs _ => ?_⟩
  obtain rfl := hs.unique hfirst
  refine ⟨by omega, fun _ => ⟨by omega, fun f hf => ?_⟩⟩
  obtain rfl := hf.unique sample_firstClear
  decide

theorem cleanScan_sample : sample.CleanScan 2 :=
  (cleanScan_iff_scannable (by decide) (by decide)).mpr sample_scannable

/-- One byte with its last bit free, and more free memory behind it. -/
def lastFree : Bitmap := { btmpBytesLen := 1, bit := fun i => decide (i < 7) }

/-- A scan of `lastFree` for two bits looks at the byte behind the bitmap and reports a run
    that ends there. -/
theorem not_cleanScan_lastFree :
    Returns (lastFree.bitmapScanReads 2) [] 7 [0, 0, 0, 0, 0, 0, 0, 0, 0, 1] ∧
      ¬ lastFree.CleanScan 2 := by
  have hret : Returns (lastFree.bitmapScanReads 2) [] 7 [0, 0, 0, 0, 0, 0, 0, 0, 0, 1] := by
    rfl
  refine ⟨hret, ?_⟩
  rintro ⟨r, reads, hret', hin, -⟩
  obtain ⟨-, rfl⟩ := hret.unique hret'
  exact absurd (hin 1 (by simp)) (by decide)

/-- For the bitmaps whose bits an `int` can index, a scan is clean exactly where there is a
    run to be found. -/
theorem scannable_iff_freeRun (hsize : b.size < 2 ^ 31) (hcnt : 1 ≤ cnt) :
    b.Scannable cnt ↔ ∃ s, b.FreeRun cnt s := by
  constructor
  · intro h
    exact h.run (by omega)
  · rintro ⟨s, hrun⟩
    have hs := hrun.1
    refine ⟨exists_isFirstClear (by omega) (hrun.2 0 hcnt), fun _ => ⟨s, hrun⟩, ?_⟩
    intro s hs hrun
    have hend := hrun.1
    refine ⟨by omega, fun _ => ⟨by omega, fun f hf => ?_⟩⟩
    have hle := hf.1
    simp only [bitLeft]
    omega

/-! ## The scan of `Kernel.Bitmap` -/

/-- An index or `-1`. -/
def asIndex : Option Nat → Int
  | some i => i
  | none => -1

theorem asIndex_injective {o o' : Option Nat} (h : asIndex o = asIndex o') : o = o' := by
  cases o with
  | none =>
    cases o' with
    | none => rfl
    | some j => simp only [asIndex] at h; omega
  | some i =>
    cases o' with
    | none => simp only [asIndex] at h; omega
    | some j =>
      simp only [asIndex] at h
      rw [Int.natCast_inj.mp h]

theorem countBits_eq_scanRun (hle : count ≤ next) (hlt : count < cnt) (hend : next + n < 2 ^ 31 + 1)
    (reads : List Nat) :
    ∃ more, Returns (b.countBits cnt n next count) reads (asIndex (b.scanRun cnt n next count))
      (reads ++ more) := by
  induction n generalizing next count reads with
  | zero => exact ⟨[], by simp [countBits, scanRun, asIndex]⟩
  | succ n ih =>
    rw [countBits, scanRun]
    simp only [returns_bind_iff returns_bitmapScanTest]
    rw [Nat.mod_eq_of_lt (by omega : count + 1 < 2 ^ 32), Nat.mod_eq_of_lt (by omega : next + 1 < 2 ^ 32)]
    generalize hcount : (if b.bit next = true then 0 else count + 1) = count'
    have hle' : count' ≤ next + 1 := by
      rw [← hcount]
      split <;> omega
    by_cases hfound : count' = cnt
    · rw [if_pos hfound, if_pos hfound]
      refine ⟨[next / 8], returns_pure.mpr ⟨?_, rfl⟩⟩
      rw [show (next + 2 ^ 32 - cnt + 1) % 2 ^ 32 = next + 1 - cnt by omega, toInt_of_lt (by omega)]
      rfl
    · rw [if_neg hfound, if_neg hfound]
      have hlt' : count' < cnt := by
        have : count' ≤ cnt := by
          rw [← hcount]
          split <;> omega
        omega
      obtain ⟨more, hret⟩ := ih hle' hlt' (by omega) (reads ++ [next / 8])
      refine ⟨next / 8 :: more, ?_⟩
      rw [List.append_cons reads (next / 8) more]
      exact hret

/-- Up to the range of an `int`, the scan with its reads and the scan without them agree. -/
theorem returns_bitmapScan_iff {σ : Type} {t t' : σ} {o : Option Nat} (hsize : b.size < 2 ^ 31)
    (hcnt : 1 ≤ cnt) :
    Returns (b.bitmapScan cnt) t o t' ↔
      t = t' ∧ ∃ reads, Returns (b.bitmapScanReads cnt) [] (asIndex o) reads := by
  by_cases hclear : ∃ f, b.IsFirstClear f
  · obtain ⟨f, hf⟩ := hclear
    have hlt := scanByte_lt_iff.mpr ⟨f, hf⟩
    have hstart := hf.unique (isFirstClear_scan hlt)
    have hfin := hf.1
    obtain ⟨head, -, hscan⟩ := @bitmapScanReads_of_clear _ cnt _ hf
    have hleft : b.bitLeft f = b.size - f := by
      simp only [bitLeft]
      omega
    have hassert : Returns (assert (b.scanByte b.btmpBytesLen 0 < b.btmpBytesLen)) t () t :=
      (returns_assert _ _).mpr ⟨hlt, rfl⟩
    rw [bitmapScan, returns_bind_iff hassert, if_neg (by omega), ← hstart]
    simp only [hscan, scanFrom, Nat.mod_eq_of_lt (by omega : f < 2 ^ 32),
      Nat.mod_eq_of_lt (by omega : f + 1 < 2 ^ 32), hleft]
    by_cases hone : cnt = 1
    · simp only [hone, if_true, returns_pure, toInt_of_lt (by omega : f < 2 ^ 31)]
      constructor
      · rintro ⟨rfl, rfl⟩
        exact ⟨rfl, head, rfl, rfl⟩
      · rintro ⟨rfl, reads, heq, -⟩
        exact ⟨asIndex_injective heq, rfl⟩
    · simp only [hone, if_false, returns_pure]
      obtain ⟨more, hret⟩ := countBits_eq_scanRun (b := b) (n := b.size - f) (by omega : 1 ≤ f + 1)
        (by omega : 1 < cnt) (by omega) head
      constructor
      · rintro ⟨rfl, rfl⟩
        exact ⟨rfl, _, hret⟩
      · rintro ⟨rfl, reads, hret'⟩
        exact ⟨asIndex_injective (hret.unique hret').1, rfl⟩
  · constructor
    · intro h
      rw [bitmapScan, returns_bind] at h
      obtain ⟨u, t, hassert, -⟩ := h
      exact absurd (scanByte_lt_iff.mp ((returns_assert _ _).mp hassert).1) hclear
    · rintro ⟨-, reads, hret⟩
      exact absurd hret (not_returns_of_full hclear)

end Bitmap

end ZxyOs
