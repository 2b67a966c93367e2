/-
  ZxyOs.Kernel.AllocFails

  What an allocation does when there is nothing left (`kernel/memory.c`).

  `malloc_page` and `sys_malloc` look for `-1` and `NULL`, but `bitmap_scan` does not return
  `-1` from a bitmap without a clear bit: an assertion in front of that fails.  So `palloc`
  never returns `NULL`, and the only pool found short is a pool of addresses that has clear
  bits but no run of them; nothing has been taken then.  `Shared.Enough` is what `malloc_page`
  needs for anything else than a panic.
-/

import ZxyOs.Kernel.BitmapScan
import ZxyOs.Kernel.Tlb
import Mathlib.Data.Finset.Card
import Mathlib.Algebra.Group.Nat.Defs

namespace ZxyOs

open Lib Lib.Exec Lib.Prog

/-! ## What there is -/

/-- The number of clear bits. -/
def Bitmap.free (b : Bitmap) : Nat := ((Finset.range b.size).filter fun i => b.bit i = false).card

namespace Shared

/-- The page tables that are missing for `n` pages from `vaddr` on. -/
def missingTables (s : Shared) (vaddr n : Nat) : Finset Nat :=
  ((Finset.range n).image fun k => (vaddr + k * pgSize) / 2 ^ 22).filter fun i => s.pde (s.dirOf i) i % 2 = 0

/-- The frames `malloc_page` takes from the pool `q` to map `n` pages of the pool `pf`. -/
def framesFrom (s : Shared) (pf : PoolFlag) (vaddr n : Nat) (q : PoolFlag) : Nat :=
  (if q = pf then n else 0) + if q = .kernel then (s.missingTables vaddr n).card else 0

/-- `n` pages from `vaddr` on can be mapped: none of them is, and the pools have the frames. -/
structure Mappable (s : Shared) (pf : PoolFlag) (vaddr n : Nat) : Prop where
  unmapped : ∀ k < n, s.walk ((vaddr + k * pgSize) / pgSize) = none
  frames : ∀ q, s.framesFrom pf vaddr n q ≤ (s.bitmap q).free

/-- What `malloc_page` needs for not to panic: few enough pages, a clear bit in the pool of
    addresses and, where the bits have a run, frames for its pages. -/
structure Enough (s : Shared) (t : Nat) (pf : PoolFlag) (pageCount : Nat) : Prop where
  count : pageCount < 3840
  clear : ∃ f, (s.vaddrPool t pf).vaddrBitmap.IsFirstClear f
  range : ∀ i, FirstStretch (s.vaddrPool t pf).vaddrBitmap.Clear pageCount i →
    i + pageCount ≤ (s.vaddrPool t pf).vaddrBitmap.size + 1 →
    (pf = .user → (s.vaddrPool t pf).vaddrStart + i * pgSize < 0xc0000000 - pgSize) ∧
      s.Mappable pf ((s.vaddrPool t pf).vaddrStart + i * pgSize) pageCount

end Shared

/-- `sys_malloc` with its answer, whether it is not `NULL`; `listEmpty` says whether the
    descriptor of the size has no free block. -/
def Code.sysMallocServed (size : Nat) (listEmpty : Bool) : Code Bool := do
  let hasPgdir ← perform .hasPgdir
  let pf : PoolFlag := if hasPgdir = 0 then .kernel else .user
  let poolSize ← perform (.poolSize pf)
  if ¬ (0 < size ∧ size < poolSize) then
    return false
  else
    lockAcquire pf
    if 1024 < size then
      let a ← mallocPage pf ((size + 12 + pgSize - 1) / pgSize)
      lockRelease pf
      return a.isSome
    else if listEmpty then
      let a ← mallocPage pf 1
      lockRelease pf
      return a.isSome
    else
      lockRelease pf
      return true

/-! ## What the calls should leave -/

namespace Shared

/-- The bitmaps, the page tables and who has the locks are as they were. -/
structure Untouched (s s' : Shared) : Prop where
  bitmap : ∀ q, s'.bitmap q = s.bitmap q
  kernelVaddr : s'.kernelVaddr = s.kernelVaddr
  userprogVaddr : s'.userprogVaddr = s.userprogVaddr
  pde : s'.pde = s.pde
  pte : s'.pte = s.pte
  holder : ∀ q, (s'.lock q).holder = (s.lock q).holder
  holderRepeatNr : ∀ q, (s'.lock q).holderRepeatNr = (s.lock q).holderRepeatNr
  value : ∀ q, (s'.lock q).value = (s.lock q).value

/-- The pool a thread allocates from. -/
def poolOf (s : Shared) (t : Nat) : PoolFlag := if (s.pgdir t).isSome then .user else .kernel

/-- The thread gets the lock at once: it has it, or nobody has, and who waits for it is
    blocked. -/
def Gets (s : Shared) (t : Nat) (pf : PoolFlag) : Prop :=
  (s.lock pf).holder = some t ∧ 0 < (s.lock pf).holderRepeatNr ∨
    (s.lock pf).holder = none ∧ (s.lock pf).holderRepeatNr = 0 ∧ (s.lock pf).value = 1 ∧
      ∀ w ∈ (s.lock pf).waiters, s.blocked w = true

/-- Another thread has the lock. -/
def Waits (s : Shared) (t : Nat) (pf : PoolFlag) : Prop :=
  (s.lock pf).holder ≠ some t ∧ (s.lock pf).value = 0 ∧ t ∉ (s.lock pf).waiters

end Shared

/-- The call waits for a lock, or it returns, and where it fails nothing has changed. -/
def FailsCleanly {α : Type} (x : Exec Shared α) (failed : α) (s : Shared) : Prop :=
  Stops x s .blocked ∨ ∃ r s', Returns x s r s' ∧ (r = failed → s.Untouched s')

/-! ## bitmap_scan -/

namespace Bitmap

variable {b : Bitmap} {cnt n next count i f : Nat}

/-- The run loop reports the first stretch, where it ends within the bits left. -/
theorem scanRun_iff (hc : Counted b.Clear cnt next count) :
    b.scanRun cnt n next count = some i ↔ FirstStretch b.Clear cnt i ∧ i + cnt ≤ next + n := by
  induction n generalizing next count with
  | zero =>
    refine iff_of_false nofun ?_
    rintro ⟨hfirst, hend⟩
    exact hc.unseen i hend hfirst.1
  | succ n ih =>
    rw [scanRun]
    by_cases hb : b.bit next
    · have hset : ¬ b.Clear next := by simp [Clear, hb]
      have hlt := hc.lt
      simp only [hb, if_true]
      rw [if_neg (by omega), ih (hc.miss hset), Nat.add_right_comm, Nat.add_assoc next]
    · have hclear : b.Clear next := by simpa [Clear] using hb
      simp only [hb, Bool.false_eq_true, if_false]
      by_cases hcount : count + 1 = cnt
      · have hle := hc.le
        have hfound := hc.found hclear hcount
        rw [if_pos hcount, Option.some.injEq]
        constructor
        · rintro rfl
          exact ⟨hfound, by omega⟩
        · exact fun h => hfound.unique h.1
      · have hlt := hc.lt
        rw [if_neg hcount, ih (hc.hit hclear (by omega)), Nat.add_right_comm, Nat.add_assoc next]

theorem IsFirstClear.firstStretch (hf : b.IsFirstClear f) : FirstStretch b.Clear 1 f := by
  constructor
  · intro j hj
    obtain rfl : j = 0 := by omega
    exact hf.2.1
  · intro s hlt hs
    have := hf.le_of_stretch Nat.one_pos hs
    omega

/-- A scan that does not panic reports the first stretch, which may end with the bit behind
    the bitmap. -/
theorem returns_bitmapScan {σ : Type} {s : σ} (hcnt : 0 < cnt) (hf : b.IsFirstClear f) :
    ∃ r, Returns (b.bitmapScan cnt) s r s ∧
      ∀ i, r = some i ↔ FirstStretch b.Clear cnt i ∧ i + cnt ≤ b.size + 1 := by
  have hlt := scanByte_lt_iff.mpr ⟨f, hf⟩
  have hfirst := hf.unique (isFirstClear_scan hlt)
  have hassert : Returns (assert (b.scanByte b.btmpBytesLen 0 < b.btmpBytesLen)) s () s :=
    (returns_assert _ ()).mpr ⟨hlt, rfl⟩
  have hin := hf.1
  simp only [bitmapScan]
  simp only [returns_bind_iff hassert, if_neg (Nat.ne_of_lt hlt), ← hfirst]
  by_cases hone : cnt = 1
  · subst hone
    refine ⟨some f, returns_pure.mpr ⟨rfl, rfl⟩, fun i => ?_⟩
    rw [Option.some.injEq]
    constructor
    · rintro rfl
      exact ⟨hf.firstStretch, by omega⟩
    · exact fun h => hf.firstStretch.unique h.1
  · have hset : ∀ i < f, ¬ b.Clear i := by
      intro i hi
      simp [Clear, hf.2.2 i hi]
    rw [if_neg hone]
    refine ⟨_, returns_pure.mpr ⟨rfl, rfl⟩, fun i => ?_⟩
    rw [scanRun_iff (.start (by omega) hf.2.1 hset), show f + 1 + (b.size - f) = b.size + 1 by omega]

theorem isFirstClear_of_bitmapScan {σ : Type} {s s' : σ} {r : Option Nat} (h : Returns (b.bitmapScan cnt) s r s') :
    ∃ f, b.IsFirstClear f := by
  simp only [bitmapScan, returns_bind, returns_assert] at h
  obtain ⟨_, _, ⟨hlt, -⟩, -⟩ := h
  exact scanByte_lt_iff.mp hlt

end Bitmap

/-! ## palloc -/

section Calls

variable {s s' : Shared} {t n vaddr frame : Nat} {pf : PoolFlag}

theorem safe_runs {a : Act} : Safe (a.runs t) s ↔ a.exec t 0 s ≠ none := by
  simp only [Safe, Stops, Act.runs]
  split
  · next h => simp [h]
  · next h => simp [h]
  · next h => simp [h]

theorem returns_assertCode_iff {p : Prop} [Decidable p] {u : Unit} :
    Returns (alone (Act.runs t) (Code.assert p)) s u s' ↔ p ∧ s = s' := by
  simp only [Code.assert, returns_alone_bind, returns_alone_perform, returns_runs, Act.exec, returns_alone_pure]
  by_cases hp : p
  · simp [hp]
  · simp [hp]

theorem returns_assertCode_of {p : Prop} [Decidable p] (hp : p) :
    Returns (alone (Act.runs t) (Code.assert p)) s () s := returns_assertCode_iff.mpr ⟨hp, rfl⟩

theorem safe_assertCode {p : Prop} [Decidable p] : Safe (alone (Act.runs t) (Code.assert p)) s ↔ p := by
  simp only [Code.assert, safe_alone_bind, safe_alone_perform, safe_runs, safe_alone_pure, implies_true, and_true,
    Act.exec]
  by_cases hp : p
  · simp [hp]
  · simp [hp]

theorem returns_scanByte {k : Nat} :
    Returns (alone (Act.runs t) (Code.scanByte pf n k)) s ((s.bitmap pf).scanByte n k) s := by
  induction n generalizing k with
  | zero => exact returns_alone_pure.mpr ⟨rfl, rfl⟩
  | succ n ih =>
    have hfull : Returns (alone (Act.runs t) (perform (.byteFull pf k))) s
        (if (s.bitmap pf).byteFull k then 1 else 0) s := by
      simp only [returns_alone_perform, returns_runs, Act.exec]
    rw [Code.scanByte, returns_alone_iff hfull, Bitmap.scanByte]
    by_cases hf : (s.bitmap pf).byteFull k
    · simp only [hf, if_true, Nat.one_ne_zero, if_false]
      exact ih
    · simp only [hf, if_false, if_true, Bool.false_eq_true]
      exact returns_alone_pure.mpr ⟨rfl, rfl⟩

/-- The mask of the last test is 0. -/
theorem returns_scanBit {k j : Nat} (hj : j + n = 8) :
    Returns (alone (Act.runs t) (Code.scanBit pf k (n + 1) j)) s ((s.bitmap pf).scanBit k n j) s := by
  induction n generalizing j with
  | zero =>
    have htest : Returns (alone (Act.runs t) (perform (.testBit pf k j))) s 0 s := by
      simp only [returns_alone_perform, returns_runs, Act.exec]
      rw [if_neg (by omega)]
    rw [Code.scanBit, returns_alone_iff htest]
    exact returns_alone_pure.mpr ⟨rfl, rfl⟩
  | succ n ih =>
    have htest : Returns (alone (Act.runs t) (perform (.testBit pf k j))) s
        (if (s.bitmap pf).bit (8 * k + j) then 1 else 0) s := by
      simp only [returns_alone_perform, returns_runs, Act.exec, show j < 8 by omega, true_and]
    rw [Code.scanBit, returns_alone_iff htest, Bitmap.scanBit]
    by_cases hb : (s.bitmap pf).bit (8 * k + j)
    · simp only [hb, if_true, Nat.one_ne_zero, if_false]
      exact ih (by omega)
    · simp only [hb, if_false, if_true, Bool.false_eq_true]
      exact returns_alone_pure.mpr ⟨rfl, rfl⟩

/-- The scan finds the first clear bit, where there is one. -/
theorem returns_poolScan {i : Nat} (hi : (s.bitmap pf).IsFirstClear i) :
    Returns (alone (Act.runs t) (Code.bitmapScan pf)) s (some i) s := by
  have hlt := Bitmap.scanByte_lt_iff.mpr ⟨i, hi⟩
  have hfirst := hi.unique (Bitmap.isFirstClear_scan hlt)
  have hlen : Returns (alone (Act.runs t) (perform (.btmpBytesLen pf))) s (s.bitmap pf).btmpBytesLen s := by
    simp only [returns_alone_perform, returns_runs, Act.exec]
  rw [Code.bitmapScan, returns_alone_iff hlen, returns_alone_iff returns_scanByte,
    returns_alone_iff (returns_assertCode_of hlt),
    if_neg (by omega), returns_alone_iff (returns_scanBit rfl)]
  refine returns_alone_pure.mpr ⟨?_, rfl⟩
  rw [hfirst]
  congr 1
  omega

theorem safe_poolScan : Safe (alone (Act.runs t) (Code.bitmapScan pf)) s ↔ ∃ i, (s.bitmap pf).IsFirstClear i := by
  constructor
  · intro h
    have hlen : Returns (alone (Act.runs t) (perform (.btmpBytesLen pf))) s (s.bitmap pf).btmpBytesLen s := by
      simp only [returns_alone_perform, returns_runs, Act.exec]
    rw [Code.bitmapScan, safe_alone_of_returns hlen, safe_alone_of_returns returns_scanByte, safe_alone_bind] at h
    exact Bitmap.scanByte_lt_iff.mp (safe_assertCode.mp h.1)
  · rintro ⟨i, hi⟩
    exact safe_of_returns (returns_poolScan hi)

/-- The pool once the bit `i` is set. -/
def Shared.takeBit (s : Shared) (pf : PoolFlag) (i : Nat) : Shared :=
  s.setBitmap pf ((s.bitmap pf).bitmapSet i true)

theorem returns_poolPalloc {i : Nat} (hi : (s.bitmap pf).IsFirstClear i) :
    Returns (alone (Act.runs t) (Code.palloc pf)) s (some (i * pgSize + (s.pool pf).phyAddrStart)) (s.takeBit pf i) := by
  have hcall : Returns (alone (Act.runs t) (perform (.palloc pf))) s 0 s := by
    simp only [returns_alone_perform, returns_runs, Act.exec]
  have hset : Returns (alone (Act.runs t) (perform (.setBit pf i))) s 0 (s.takeBit pf i) := by
    simp only [returns_alone_perform, returns_runs, Act.exec]
    rfl
  have hstart : Returns (alone (Act.runs t) (perform (.phyAddrStart pf))) (s.takeBit pf i)
      (s.pool pf).phyAddrStart (s.takeBit pf i) := by
    simp only [returns_alone_perform, returns_runs, Act.exec]
    simp [Shared.takeBit, Shared.setBitmap, Shared.setPool]
  rw [Code.palloc, returns_alone_iff hcall, returns_alone_iff (returns_poolScan hi)]
  show Returns (alone (Act.runs t) (_ >>= _)) s _ _
  rw [returns_alone_iff hset, returns_alone_iff hstart]
  exact returns_alone_pure.mpr ⟨rfl, rfl⟩

/-- It never returns `NULL`: an empty pool is a panic. -/
theorem safe_palloc : Safe (alone (Act.runs t) (Code.palloc pf)) s ↔ ∃ i, (s.bitmap pf).IsFirstClear i := by
  constructor
  · intro h
    have hcall : Returns (alone (Act.runs t) (perform (.palloc pf))) s 0 s := by
      simp only [returns_alone_perform, returns_runs, Act.exec]
    rw [Code.palloc, safe_alone_of_returns hcall, safe_alone_bind] at h
    exact safe_poolScan.mp h.1
  · rintro ⟨i, hi⟩
    exact safe_of_returns (returns_poolPalloc hi)

/-! ## page_table_add -/

/-- An entry of a page directory is stored. -/
def Shared.setPde (s : Shared) (vaddr w : Nat) : Shared :=
  let dir := s.dirOf (vaddr / 2 ^ 22)
  { s with pde := Function.update s.pde dir (Function.update (s.pde dir) (vaddr / 2 ^ 22) w) }

/-- The page is mapped, with bit `j` of the kernel's pool for a table if there is none. -/
def Shared.addPage (s : Shared) (vaddr frame j : Nat) : Shared :=
  if s.pdeAt vaddr % 2 = 0 then
    ((s.takeBit .kernel j).newTable vaddr (Code.entry (j * pgSize + (s.pool .kernel).phyAddrStart))).setPte vaddr
      (Code.entry frame)
  else
    s.setPte vaddr (Code.entry frame)

theorem walk_div : s.walk (vaddr / pgSize) =
    if s.pdeAt vaddr % 2 = 1 ∧ s.pteAt vaddr % 2 = 1 then some (s.pteAt vaddr / pgSize) else none := by
  have hregion : vaddr / pgSize * pgSize / 2 ^ 22 = vaddr / 2 ^ 22 := by
    show vaddr / 4096 * 4096 / 4194304 = vaddr / 4194304
    omega
  have hpage : vaddr / pgSize * pgSize / pgSize = vaddr / pgSize := Nat.mul_div_cancel _ (by decide)
  have hpde : s.pdeAt (vaddr / pgSize * pgSize) = s.pdeAt vaddr := by rw [Shared.pdeAt, Shared.pdeAt, hregion]
  have hpte : s.pteAt (vaddr / pgSize * pgSize) = s.pteAt vaddr := by
    rw [Shared.pteAt, Shared.pteAt, hregion, hpage]
  rw [Shared.walk, hpde, hpte]

theorem walk_eq_none : s.walk (vaddr / pgSize) = none ↔ ¬ (s.pdeAt vaddr % 2 = 1 ∧ s.pteAt vaddr % 2 = 1) := by
  rw [walk_div]
  split
  · next h => simp [h]
  · next h => exact iff_of_true rfl h

theorem pteAt_newTable {w : Nat} : (s.newTable vaddr w).pteAt vaddr = 0 := by
  show Function.update s.pte (s.dirOf (vaddr / 2 ^ 22)) _ (s.dirOf (vaddr / 2 ^ 22)) (vaddr / pgSize) = 0
  rw [Function.update_self, if_pos]
  show vaddr / 4096 / 1024 = vaddr / 4194304
  omega

theorem returns_pageTableAdd {j : Nat} (hwalk : s.walk (vaddr / pgSize) = none)
    (hfree : s.pdeAt vaddr % 2 = 0 → (s.bitmap .kernel).IsFirstClear j) :
    Returns (alone (Act.runs t) (Code.pageTableAdd vaddr frame)) s () (s.addPage vaddr frame j) := by
  rw [walk_eq_none] at hwalk
  have hpde : Returns (alone (Act.runs t) (perform (.pdePresent vaddr))) s (s.pdeAt vaddr % 2) s := by
    simp only [returns_alone_perform, returns_runs, Act.exec]
  rw [Code.pageTableAdd, returns_alone_iff hpde, Shared.addPage]
  by_cases habsent : s.pdeAt vaddr % 2 = 0
  · let s₁ := s.takeBit .kernel j
    let w := Code.entry (j * pgSize + (s.pool .kernel).phyAddrStart)
    have hcleared : (s₁.newTable vaddr w).pteAt vaddr % 2 = 0 := by rw [pteAt_newTable]
    have hset : Returns (alone (Act.runs t) (perform (.setPde vaddr w))) s₁ 0 (s₁.setPde vaddr w) := by
      simp only [returns_alone_perform, returns_runs, Act.exec, Shared.setPde]
    have hclear : Returns (alone (Act.runs t) (perform (.clearPageTable vaddr))) (s₁.setPde vaddr w) 0
        (s₁.newTable vaddr w) := by
      simp only [returns_alone_perform, returns_runs, Act.exec]
      rfl
    have hpte : Returns (alone (Act.runs t) (perform (.ptePresent vaddr))) (s₁.newTable vaddr w) 0
        (s₁.newTable vaddr w) := by
      simp only [returns_alone_perform, returns_runs, Act.exec, hcleared]
    rw [if_neg (by omega), if_pos habsent, returns_alone_iff (returns_poolPalloc (hfree habsent))]
    refine (returns_alone_iff hset).mpr ?_
    rw [returns_alone_iff hclear, returns_alone_iff hpte, returns_alone_iff (returns_assertCode_of rfl)]
    simp only [returns_alone_bind, returns_alone_perform, returns_runs, Act.exec]
    exact ⟨0, _, rfl, returns_alone_pure.mpr ⟨rfl, rfl⟩⟩
  · have hpte : Returns (alone (Act.runs t) (perform (.ptePresent vaddr))) s 0 s := by
      have hzero : s.pteAt vaddr % 2 = 0 := by omega
      simp only [returns_alone_perform, returns_runs, Act.exec, hzero]
    rw [if_pos habsent, if_neg habsent, returns_alone_iff hpte, if_pos rfl]
    simp only [returns_alone_bind, returns_alone_perform, returns_runs, Act.exec]
    exact ⟨0, _, rfl, returns_alone_pure.mpr ⟨rfl, rfl⟩⟩

theorem exists_of_imp {p : Prop} {q : Nat → Prop} (h : p → ∃ j, q j) : ∃ j, p → q j := by
  by_cases hp : p
  · obtain ⟨j, hj⟩ := h hp
    exact ⟨j, fun _ => hj⟩
  · exact ⟨0, fun h => absurd h hp⟩

/-- A page that is mapped is a panic, and so is a missing table without a frame for it. -/
theorem safe_pageTableAdd : Safe (alone (Act.runs t) (Code.pageTableAdd vaddr frame)) s ↔
    s.walk (vaddr / pgSize) = none ∧ (s.pdeAt vaddr % 2 = 0 → ∃ j, (s.bitmap .kernel).IsFirstClear j) := by
  constructor
  · intro h
    have hpde : Returns (alone (Act.runs t) (perform (.pdePresent vaddr))) s (s.pdeAt vaddr % 2) s := by
      simp only [returns_alone_perform, returns_runs, Act.exec]
    rw [Code.pageTableAdd, safe_alone_of_returns hpde] at h
    rw [walk_eq_none]
    by_cases habsent : s.pdeAt vaddr % 2 = 0
    · rw [if_neg (by omega), safe_alone_bind] at h
      exact ⟨by omega, fun _ => safe_palloc.mp h.1⟩
    · have hpte : Returns (alone (Act.runs t) (perform (.ptePresent vaddr))) s (s.pteAt vaddr % 2) s := by
        simp only [returns_alone_perform, returns_runs, Act.exec]
      rw [if_pos habsent, safe_alone_of_returns hpte] at h
      refine ⟨?_, fun habs => absurd habs habsent⟩
      rintro ⟨-, hmapped⟩
      rw [if_neg (by omega)] at h
      exact safe_assertCode.mp h
  · rintro ⟨hwalk, hfree⟩
    obtain ⟨j, hj⟩ := exists_of_imp hfree
    exact safe_of_returns (returns_pageTableAdd hwalk hj)

/-! ## What is left -/
/-- A pool has a first clear bit where it has one at all. -/
theorem free_pos_iff {b : Bitmap} : 0 < b.free ↔ ∃ i, b.IsFirstClear i := by
  simp only [Bitmap.free, Finset.card_pos, Finset.Nonempty, Finset.mem_filter, Finset.mem_range]
  constructor
  · rintro ⟨i, hlt, hclear⟩
    exact Bitmap.exists_isFirstClear hlt hclear
  · rintro ⟨i, hlt, hclear, -⟩
    exact ⟨i, hlt, hclear⟩

theorem free_bitmapSet {b : Bitmap} {i : Nat} (hi : b.IsFirstClear i) : (b.bitmapSet i true).free + 1 = b.free := by
  obtain ⟨hlt, hclear, -⟩ := hi
  have herase : (Finset.range b.size).filter (fun k => (b.bitmapSet i true).bit k = false) =
      ((Finset.range b.size).filter fun k => b.bit k = false).erase i := by
    ext k
    simp only [Finset.mem_filter, Finset.mem_erase, Bitmap.bitmapSet_bit]
    by_cases hk : k = i
    · simp [hk]
    · simp [hk]
  rw [Bitmap.free, Bitmap.bitmapSet_size, herase, Bitmap.free]
  apply Finset.card_erase_add_one
  simp only [Finset.mem_filter, Finset.mem_range]
  exact ⟨hlt, hclear⟩

theorem free_takeBit {i : Nat} (hi : (s.bitmap pf).IsFirstClear i) (q : PoolFlag) :
    ((s.takeBit pf i).bitmap q).free + (if q = pf then 1 else 0) = (s.bitmap q).free := by
  by_cases hq : q = pf
  · subst hq
    have hbitmap : (s.takeBit q i).bitmap q = (s.bitmap q).bitmapSet i true := by
      simp [Shared.takeBit, Shared.setBitmap, Shared.setPool, Shared.bitmap]
    rw [hbitmap, if_pos rfl, free_bitmapSet hi]
  · have hbitmap : (s.takeBit pf i).bitmap q = s.bitmap q := by
      simp [Shared.takeBit, Shared.setBitmap, Shared.setPool, Shared.bitmap, hq]
    rw [hbitmap, if_neg hq, Nat.add_zero]

/-- The frame of a missing table is all that a page takes but for its own. -/
theorem free_addPage {j : Nat} (hfree : s.pdeAt vaddr % 2 = 0 → (s.bitmap .kernel).IsFirstClear j) (q : PoolFlag) :
    ((s.addPage vaddr frame j).bitmap q).free + (if q = .kernel ∧ s.pdeAt vaddr % 2 = 0 then 1 else 0) =
      (s.bitmap q).free := by
  rw [Shared.addPage]
  by_cases habsent : s.pdeAt vaddr % 2 = 0
  · simp only [habsent, if_true, and_true]
    exact free_takeBit (hfree habsent) q
  · simp only [habsent, if_false, and_false, Nat.add_zero]
    rfl

theorem walk_addPage {j page : Nat} (hpage : page ≠ vaddr / pgSize) :
    (s.addPage vaddr frame j).walk page = s.walk page := by
  rw [Shared.addPage]
  split
  · next habsent =>
    have hnew : (s.takeBit .kernel j).pdeAt vaddr % 2 ≠ 1 := by
      show s.pdeAt vaddr % 2 ≠ 1
      omega
    exact (mapsWithin_setPte.walk page hpage).trans (walk_newTable hnew)
  · exact mapsWithin_setPte.walk page hpage

theorem entry_odd {w : Nat} : Code.entry w % 2 = 1 := by
  rw [Code.entry, Nat.or_mod_two_eq_one]
  exact Or.inr rfl

/-- Afterwards the table of the page is there. -/
theorem missing_addPage {j i : Nat} : (s.addPage vaddr frame j).pde (s.dirOf i) i % 2 = 0 ↔
    s.pde (s.dirOf i) i % 2 = 0 ∧ i ≠ vaddr / 2 ^ 22 := by
  rw [Shared.addPage]
  split
  · next habsent =>
    show Function.update s.pde (s.dirOf (vaddr / 2 ^ 22)) (Function.update (s.pde (s.dirOf (vaddr / 2 ^ 22)))
      (vaddr / 2 ^ 22) (Code.entry _)) (s.dirOf i) i % 2 = 0 ↔ _
    by_cases hi : i = vaddr / 2 ^ 22
    · subst hi
      rw [Function.update_self, Function.update_self, entry_odd]
      simp
    · simp only [hi, ne_eq, not_false_eq_true, and_true]
      by_cases hdir : s.dirOf i = s.dirOf (vaddr / 2 ^ 22)
      · rw [hdir, Function.update_self, Function.update_of_ne hi]
      · rw [Function.update_of_ne hdir]
  · next hpresent =>
    show s.pde (s.dirOf i) i % 2 = 0 ↔ _
    constructor
    · intro hzero
      refine ⟨hzero, ?_⟩
      rintro rfl
      exact hpresent hzero
    · exact fun h => h.1

theorem mem_missingTables {i : Nat} : i ∈ s.missingTables vaddr n ↔
    (∃ k < n, (vaddr + k * pgSize) / 2 ^ 22 = i) ∧ s.pde (s.dirOf i) i % 2 = 0 := by
  simp only [Shared.missingTables, Finset.mem_filter, Finset.mem_image, Finset.mem_range]

theorem next_page {k : Nat} : vaddr + pgSize + k * pgSize = vaddr + (k + 1) * pgSize := by
  simp only [pgSize]
  omega

/-- The first page takes the table it is in, where that is missing. -/
theorem card_missingTables {j : Nat} : (s.missingTables vaddr (n + 1)).card =
    (if s.pdeAt vaddr % 2 = 0 then 1 else 0) + ((s.addPage vaddr frame j).missingTables (vaddr + pgSize) n).card := by
  have hmem (i : Nat) : i ∈ (s.addPage vaddr frame j).missingTables (vaddr + pgSize) n ↔
      (∃ k < n, (vaddr + (k + 1) * pgSize) / 2 ^ 22 = i) ∧ s.pde (s.dirOf i) i % 2 = 0 ∧ i ≠ vaddr / 2 ^ 22 := by
    have hdir : (s.addPage vaddr frame j).dirOf i = s.dirOf i := by
      rw [Shared.addPage]
      split <;> rfl
    rw [mem_missingTables, hdir, missing_addPage]
    simp only [next_page]
  have hfirst : vaddr / 2 ^ 22 ∉ (s.addPage vaddr frame j).missingTables (vaddr + pgSize) n := by
    rw [hmem]
    rintro ⟨-, -, hne⟩
    exact hne rfl
  by_cases habsent : s.pdeAt vaddr % 2 = 0
  · have hinsert : s.missingTables vaddr (n + 1) =
        insert (vaddr / 2 ^ 22) ((s.addPage vaddr frame j).missingTables (vaddr + pgSize) n) := by
      ext i
      rw [mem_missingTables, Finset.mem_insert, hmem, Nat.exists_lt_succ_left, Nat.zero_mul, Nat.add_zero]
      constructor
      · rintro ⟨rfl | hk, hzero⟩
        · exact Or.inl rfl
        · by_cases hi : i = vaddr / 2 ^ 22
          · exact Or.inl hi
          · exact Or.inr ⟨hk, hzero, hi⟩
      · rintro (rfl | ⟨hk, hzero, -⟩)
        · exact ⟨Or.inl rfl, habsent⟩
        · exact ⟨Or.inr hk, hzero⟩
    rw [hinsert, Finset.card_insert_of_notMem hfirst, if_pos habsent, Nat.add_comm]
  · have hsame : s.missingTables vaddr (n + 1) = (s.addPage vaddr frame j).missingTables (vaddr + pgSize) n := by
      ext i
      rw [mem_missingTables, hmem, Nat.exists_lt_succ_left, Nat.zero_mul, Nat.add_zero]
      constructor
      · rintro ⟨rfl | hk, hzero⟩
        · exact absurd hzero habsent
        · refine ⟨hk, hzero, ?_⟩
          rintro rfl
          exact habsent hzero
      · rintro ⟨hk, hzero, -⟩
        exact ⟨Or.inr hk, hzero⟩
    rw [hsame, if_neg habsent, Nat.zero_add]

/-! ## The pages of malloc_page -/

/-- One page, then the others. -/
theorem mappable_succ {i j : Nat} (hi : (s.bitmap pf).IsFirstClear i)
    (hj : s.pdeAt vaddr % 2 = 0 → ((s.takeBit pf i).bitmap .kernel).IsFirstClear j) :
    s.Mappable pf vaddr (n + 1) ↔ s.walk (vaddr / pgSize) = none ∧
      ((s.takeBit pf i).addPage vaddr frame j).Mappable pf (vaddr + pgSize) n := by
  let s₁ := s.takeBit pf i
  have hframes (q : PoolFlag) : s.framesFrom pf vaddr (n + 1) q ≤ (s.bitmap q).free ↔
      (s₁.addPage vaddr frame j).framesFrom pf (vaddr + pgSize) n q ≤
        ((s₁.addPage vaddr frame j).bitmap q).free := by
    have htake := free_takeBit hi q
    have hadd := @free_addPage s₁ _ frame _ hj q
    have hcard : (s.missingTables vaddr (n + 1)).card = (if s.pdeAt vaddr % 2 = 0 then 1 else 0) +
        ((s₁.addPage vaddr frame j).missingTables (vaddr + pgSize) n).card :=
      card_missingTables (s := s₁)
    have hpde : s₁.pdeAt vaddr = s.pdeAt vaddr := rfl
    rw [hpde] at hadd
    simp only [Shared.framesFrom, hcard]
    change ((s₁.bitmap q).free + _ = _) at htake
    by_cases hq : q = pf
    · by_cases hk : q = .kernel
      · by_cases habsent : s.pdeAt vaddr % 2 = 0
        · simp only [if_pos hq, if_pos hk, habsent, and_true, if_true] at htake hadd ⊢
          omega
        · simp only [if_pos hq, if_pos hk, habsent, and_false, if_false] at htake hadd ⊢
          omega
      · simp only [if_pos hq, hk, false_and, if_false] at htake hadd ⊢
        omega
    · by_cases hk : q = .kernel
      · by_cases habsent : s.pdeAt vaddr % 2 = 0
        · simp only [if_neg hq, if_pos hk, habsent, and_true, if_true] at htake hadd ⊢
          omega
        · simp only [if_neg hq, if_pos hk, habsent, and_false, if_false] at htake hadd ⊢
          omega
      · simp only [if_neg hq, hk, false_and, if_false] at htake hadd ⊢
        omega
  have hothers (k : Nat) : (s₁.addPage vaddr frame j).walk ((vaddr + pgSize + k * pgSize) / pgSize) =
      s.walk ((vaddr + (k + 1) * pgSize) / pgSize) := by
    rw [next_page]
    apply walk_addPage
    simp only [pgSize]
    omega
  constructor
  · intro h
    have hfirst := h.unmapped 0 (Nat.succ_pos n)
    rw [Nat.zero_mul, Nat.add_zero] at hfirst
    refine ⟨hfirst, ⟨fun k hk => ?_, fun q => (hframes q).mp (h.frames q)⟩⟩
    rw [hothers]
    exact h.unmapped (k + 1) (Nat.succ_lt_succ hk)
  · rintro ⟨hfirst, h⟩
    refine ⟨fun k hk => ?_, fun q => (hframes q).mpr (h.frames q)⟩
    cases k with
    | zero =>
      rw [Nat.zero_mul, Nat.add_zero]
      exact hfirst
    | succ k =>
      rw [← hothers]
      exact h.unmapped k (by omega)

theorem mappable_of_safe (h : Safe (alone (Act.runs t) (Code.mapPages pf n vaddr)) s) : s.Mappable pf vaddr n := by
  induction n generalizing s vaddr with
  | zero =>
    refine ⟨fun k hk => absurd hk (Nat.not_lt_zero k), fun q => ?_⟩
    simp [Shared.framesFrom, Shared.missingTables]
  | succ n ih =>
    rw [Code.mapPages, safe_alone_bind] at h
    obtain ⟨i, hi⟩ := safe_palloc.mp h.1
    let frame := i * pgSize + (s.pool pf).phyAddrStart
    have hrest : Safe (alone (Act.runs t) (Code.pageTableAdd vaddr frame >>= fun _ => Code.mapPages pf n (vaddr + pgSize)))
        (s.takeBit pf i) := h.2 _ _ (returns_poolPalloc hi)
    rw [safe_alone_bind, safe_pageTableAdd] at hrest
    obtain ⟨⟨hwalk, hfree⟩, hrest⟩ := hrest
    obtain ⟨j, hj⟩ := exists_of_imp hfree
    rw [mappable_succ hi hj]
    exact ⟨hwalk, ih (hrest () _ (returns_pageTableAdd hwalk hj))⟩

theorem Shared.Mappable.first (h : s.Mappable pf vaddr (n + 1)) : s.walk (vaddr / pgSize) = none := by
  have hfirst := h.unmapped 0 (Nat.succ_pos n)
  rwa [Nat.zero_mul, Nat.add_zero] at hfirst

/-- There is a frame for the first page, and behind it one for the table. -/
theorem Shared.Mappable.exists_bits (h : s.Mappable pf vaddr (n + 1)) : ∃ i, (s.bitmap pf).IsFirstClear i ∧
    (s.pdeAt vaddr % 2 = 0 → ∃ j, ((s.takeBit pf i).bitmap .kernel).IsFirstClear j) := by
  have hown := h.frames pf
  simp only [Shared.framesFrom, if_true] at hown
  obtain ⟨i, hi⟩ := free_pos_iff.mp (show 0 < (s.bitmap pf).free by omega)
  refine ⟨i, hi, fun habsent => ?_⟩
  have hmissing : vaddr / 2 ^ 22 ∈ s.missingTables vaddr (n + 1) :=
    mem_missingTables.mpr ⟨⟨0, Nat.succ_pos n, by rw [Nat.zero_mul, Nat.add_zero]⟩, habsent⟩
  have hpos := Finset.card_pos.mpr ⟨_, hmissing⟩
  have hframes := h.frames .kernel
  have htake := free_takeBit hi .kernel
  rw [← free_pos_iff]
  simp only [Shared.framesFrom, if_true] at hframes
  split at hframes
  · next hpf =>
    rw [if_pos hpf] at htake
    omega
  · next hpf =>
    rw [if_neg hpf] at htake
    omega

/-- The locks are as they were. -/
structure SameLocks (s s' : Shared) : Prop where
  lock : ∀ q, s'.lock q = s.lock q
  blocked : s'.blocked = s.blocked

theorem SameLocks.trans {s'' : Shared} (h : SameLocks s s') (h' : SameLocks s' s'') : SameLocks s s'' :=
  ⟨fun q => (h'.lock q).trans (h.lock q), h'.blocked.trans h.blocked⟩

theorem sameLocks_takeBit {i : Nat} : SameLocks s (s.takeBit pf i) := by
  refine ⟨fun q => ?_, rfl⟩
  by_cases hq : q = pf
  · subst hq
    simp [Shared.takeBit, Shared.setBitmap, Shared.setPool, Shared.lock]
  · simp [Shared.takeBit, Shared.setBitmap, Shared.setPool, Shared.lock, hq]

theorem sameLocks_addPage {j : Nat} : SameLocks s (s.addPage vaddr frame j) := by
  rw [Shared.addPage]
  split
  · exact sameLocks_takeBit.trans ⟨fun _ => rfl, rfl⟩
  · exact ⟨fun _ => rfl, rfl⟩

theorem returns_mapPages (h : s.Mappable pf vaddr n) :
    ∃ s', Returns (alone (Act.runs t) (Code.mapPages pf n vaddr)) s true s' ∧ SameLocks s s' := by
  induction n generalizing s vaddr with
  | zero => exact ⟨s, returns_alone_pure.mpr ⟨rfl, rfl⟩, fun _ => rfl, rfl⟩
  | succ n ih =>
    obtain ⟨i, hi, hfree⟩ := h.exists_bits
    obtain ⟨j, hj⟩ := exists_of_imp hfree
    let frame := i * pgSize + (s.pool pf).phyAddrStart
    have hadd : Returns (alone (Act.runs t) (Code.pageTableAdd vaddr frame)) (s.takeBit pf i) ()
        ((s.takeBit pf i).addPage vaddr frame j) := returns_pageTableAdd h.first hj
    obtain ⟨s', hrest, hlocks⟩ := ih ((mappable_succ hi hj).mp h).2
    refine ⟨s', ?_, (sameLocks_takeBit.trans sameLocks_addPage).trans hlocks⟩
    rw [Code.mapPages, returns_alone_iff (returns_poolPalloc hi)]
    exact (returns_alone_iff hadd).mpr hrest

theorem mapPages_true {b : Bool} (h : Returns (alone (Act.runs t) (Code.mapPages pf n vaddr)) s b s') : b = true := by
  induction n generalizing s vaddr with
  | zero => exact (returns_alone_pure.mp h).1.symm
  | succ n ih =>
    rw [Code.mapPages, returns_alone_bind] at h
    obtain ⟨frame, s₁, hpalloc, h⟩ := h
    obtain ⟨i, hi⟩ := safe_palloc.mp (safe_of_returns hpalloc)
    obtain ⟨rfl, -⟩ := hpalloc.unique (returns_poolPalloc hi)
    obtain ⟨_, s₂, -, hrest⟩ := returns_alone_bind.mp h
    exact ih hrest

/-! ## vaddr_get -/

theorem returns_vaddrScan {cnt f : Nat} (hcnt : 0 < cnt) (hf : (s.vaddrPool t pf).vaddrBitmap.IsFirstClear f) :
    ∃ r, Returns (alone (Act.runs t) (perform (.vaddrScan pf cnt))) s ((r.map (· + 1)).getD 0) s ∧
      ∀ i, r = some i ↔ FirstStretch (s.vaddrPool t pf).vaddrBitmap.Clear cnt i ∧
        i + cnt ≤ (s.vaddrPool t pf).vaddrBitmap.size + 1 := by
  obtain ⟨r, hscan, hr⟩ := Bitmap.returns_bitmapScan (s := ()) hcnt hf
  have hresult := result?_eq_some.mpr ⟨(), hscan⟩
  refine ⟨r, ?_, hr⟩
  simp only [returns_alone_perform, returns_runs, Act.exec, hresult]
  cases r with
  | none => rfl
  | some i => rfl

theorem safe_vaddrScan {cnt : Nat} (h : Safe (alone (Act.runs t) (perform (.vaddrScan pf cnt))) s) :
    ∃ f, (s.vaddrPool t pf).vaddrBitmap.IsFirstClear f := by
  rw [safe_alone_perform, safe_runs] at h
  simp only [Act.exec] at h
  cases hscan : Exec.result? ((s.vaddrPool t pf).vaddrBitmap.bitmapScan cnt) () with
  | none =>
    rw [hscan] at h
    exact absurd rfl h
  | some r =>
    obtain ⟨s', hret⟩ := result?_eq_some.mp hscan
    exact Bitmap.isFirstClear_of_bitmapScan hret

/-- The pools and the page tables are the same. -/
structure SamePools (s s' : Shared) : Prop where
  pool : s'.pool = s.pool
  blocked : s'.blocked = s.blocked
  tables : SameTables s s'

/-- Bits of the pool of addresses are set, and nothing else is done. -/
theorem returns_setVaddrs {i : Nat} :
    ∃ s', Returns (alone (Act.runs t) (Code.setVaddrs pf n i)) s () s' ∧ SamePools s s' := by
  have hret : ∃ s', Returns (alone (Act.runs t) (Code.setVaddrs pf n i)) s () s' ∧ s'.pool = s.pool ∧
      s'.blocked = s.blocked := by
    induction n generalizing s i with
    | zero => exact ⟨s, returns_alone_pure.mpr ⟨rfl, rfl⟩, rfl, rfl⟩
    | succ n ih =>
      let v := s.vaddrPool t pf
      let s₁ := s.setVaddrPool t pf { v with vaddrBitmap := v.vaddrBitmap.bitmapSet i true }
      have hset : Returns (alone (Act.runs t) (perform (.vaddrSet pf i))) s 0 s₁ := by
        simp only [returns_alone_perform, returns_runs, Act.exec, s₁, v]
      have hpool₁ : s₁.pool = s.pool ∧ s₁.blocked = s.blocked := by
        cases pf with
        | kernel => exact ⟨rfl, rfl⟩
        | user => exact ⟨rfl, rfl⟩
      obtain ⟨s', hrest, hpool, hblocked⟩ := ih (s := s₁) (i := i + 1)
      refine ⟨s', ?_, hpool.trans hpool₁.1, hblocked.trans hpool₁.2⟩
      rw [Code.setVaddrs, returns_alone_iff hset]
      exact hrest
  obtain ⟨s', hret, hpool, hblocked⟩ := hret
  exact ⟨s', hret, hpool, hblocked, keeps_setVaddrs hret⟩

theorem SamePools.mappable_iff (h : SamePools s s') : s'.Mappable pf vaddr n ↔ s.Mappable pf vaddr n := by
  obtain ⟨hpool, -, hsame⟩ := h
  have hmissing : s'.missingTables vaddr n = s.missingTables vaddr n := by
    ext i
    rw [mem_missingTables, mem_missingTables, Shared.dirOf, Shared.dirOf, hsame.pde, hsame.cr3]
  have hbitmap (q : PoolFlag) : s'.bitmap q = s.bitmap q := by rw [Shared.bitmap, Shared.bitmap, hpool]
  constructor
  · rintro ⟨hunmapped, hframes⟩
    refine ⟨fun k hk => (hsame.walk _).symm.trans (hunmapped k hk), fun q => ?_⟩
    have := hframes q
    rwa [Shared.framesFrom, hmissing, hbitmap] at this
  · rintro ⟨hunmapped, hframes⟩
    refine ⟨fun k hk => (hsame.walk _).trans (hunmapped k hk), fun q => ?_⟩
    rw [Shared.framesFrom, hmissing, hbitmap]
    exact hframes q

/-- No run of bits is no address, and nothing has been done. -/
theorem returns_vaddrGet_none {cnt f : Nat} (hcnt : 0 < cnt) (hf : (s.vaddrPool t pf).vaddrBitmap.IsFirstClear f)
    (hnone : ∀ i, FirstStretch (s.vaddrPool t pf).vaddrBitmap.Clear cnt i →
      ¬ i + cnt ≤ (s.vaddrPool t pf).vaddrBitmap.size + 1) :
    Returns (alone (Act.runs t) (Code.vaddrGet pf cnt)) s none s := by
  obtain ⟨r, hscan, hr⟩ := returns_vaddrScan hcnt hf
  cases r with
  | none =>
    rw [Code.vaddrGet, returns_alone_iff hscan]
    exact returns_alone_pure.mpr ⟨rfl, rfl⟩
  | some i =>
    obtain ⟨hfirst, hend⟩ := (hr i).mp rfl
    exact absurd hend (hnone i hfirst)

/-- The range that is found: its bits are set; an address that is too high is a panic. -/
theorem vaddrGet_range {cnt i : Nat} (hcnt : 0 < cnt)
    (hfirst : FirstStretch (s.vaddrPool t pf).vaddrBitmap.Clear cnt i)
    (hend : i + cnt ≤ (s.vaddrPool t pf).vaddrBitmap.size + 1)
    (hclear : ∃ f, (s.vaddrPool t pf).vaddrBitmap.IsFirstClear f) :
    let vaddr := (s.vaddrPool t pf).vaddrStart + i * pgSize
    let high := pf = .user → vaddr < 0xc0000000 - pgSize
    (Safe (alone (Act.runs t) (Code.vaddrGet pf cnt)) s → high) ∧ (high →
      ∃ s', Returns (alone (Act.runs t) (Code.vaddrGet pf cnt)) s (some vaddr) s' ∧ SamePools s s') := by
  intro vaddr high
  obtain ⟨f, hf⟩ := hclear
  obtain ⟨r, hscan, hr⟩ := returns_vaddrScan hcnt hf
  obtain rfl := (hr i).mpr ⟨hfirst, hend⟩
  obtain ⟨s₁, hset, hsame⟩ : ∃ s₁, Returns (alone (Act.runs t) (Code.setVaddrs pf cnt i)) s () s₁ ∧ SamePools s s₁ :=
    returns_setVaddrs
  have hstart : Returns (alone (Act.runs t) (perform (.vaddrStart pf))) s₁ (s.vaddrPool t pf).vaddrStart s₁ := by
    simp only [returns_alone_perform, returns_runs, Act.exec, hsame.tables.start]
  have hindex : i + 1 - 1 = i := Nat.add_sub_cancel i 1
  constructor
  · intro h hpf
    subst hpf
    rw [Code.vaddrGet, safe_alone_of_returns hscan] at h
    simp only [Option.map_some, Option.getD_some, Nat.succ_ne_zero, if_false, hindex] at h
    rw [safe_alone_of_returns hset, safe_alone_of_returns hstart, safe_alone_bind, safe_assertCode] at h
    exact h.1
  · intro hhigh
    refine ⟨s₁, ?_, hsame⟩
    rw [Code.vaddrGet, returns_alone_iff hscan]
    simp only [Option.map_some, Option.getD_some, Nat.succ_ne_zero, if_false, hindex]
    rw [returns_alone_iff hset, returns_alone_iff hstart]
    cases pf with
    | kernel => exact returns_alone_pure.mpr ⟨rfl, rfl⟩
    | user =>
      have hlt : vaddr < 0xc0000000 - pgSize := hhigh rfl
      refine (returns_alone_iff (returns_assertCode_of hlt)).mpr ?_
      exact returns_alone_pure.mpr ⟨rfl, rfl⟩

/-! ## malloc_page -/

theorem enough_of_safe {cnt : Nat} (h : Safe (alone (Act.runs t) (Code.mallocPage pf cnt)) s) : s.Enough t pf cnt := by
  rw [Code.mallocPage, safe_alone_bind, safe_assertCode] at h
  obtain ⟨hcount, h⟩ := h
  obtain ⟨hvaddr, hmap⟩ := safe_alone_bind.mp (h () s (returns_assertCode_of hcount))
  have hclear : ∃ f, (s.vaddrPool t pf).vaddrBitmap.IsFirstClear f := by
    rw [Code.vaddrGet, safe_alone_bind] at hvaddr
    exact safe_vaddrScan hvaddr.1
  refine ⟨hcount.2, hclear, fun i hfirst hend => ?_⟩
  obtain ⟨hsafe, hret⟩ := vaddrGet_range hcount.1 hfirst hend hclear
  refine ⟨hsafe hvaddr, ?_⟩
  obtain ⟨s₁, hget, hsame⟩ := hret (hsafe hvaddr)
  have hpages := (safe_alone_bind.mp (hmap _ s₁ hget)).1
  exact hsame.mappable_iff.mp (mappable_of_safe hpages)

theorem returns_mallocPage {cnt : Nat} (hcnt : 0 < cnt) (h : s.Enough t pf cnt) :
    ∃ r s', Returns (alone (Act.runs t) (Code.mallocPage pf cnt)) s r s' ∧ SameLocks s s' := by
  obtain ⟨hcount, hclear, hrange⟩ := h
  have hassert : 0 < cnt ∧ cnt < 3840 := ⟨hcnt, hcount⟩
  simp only [Code.mallocPage, returns_alone_iff (returns_assertCode_of hassert)]
  by_cases hex : ∃ i, FirstStretch (s.vaddrPool t pf).vaddrBitmap.Clear cnt i ∧
      i + cnt ≤ (s.vaddrPool t pf).vaddrBitmap.size + 1
  · obtain ⟨i, hfirst, hend⟩ := hex
    obtain ⟨hhigh, hpages⟩ := hrange i hfirst hend
    obtain ⟨s₁, hget, hsame⟩ := (vaddrGet_range hcnt hfirst hend hclear).2 hhigh
    obtain ⟨s₂, hmap, hlocks⟩ := returns_mapPages (hsame.mappable_iff.mpr hpages)
    have hlocks₁ : SameLocks s s₁ := ⟨fun q => by rw [Shared.lock, Shared.lock, hsame.pool], hsame.blocked⟩
    refine ⟨some ((s.vaddrPool t pf).vaddrStart + i * pgSize), s₂, ?_, hlocks₁.trans hlocks⟩
    rw [returns_alone_iff hget]
    refine (returns_alone_iff hmap).mpr ?_
    exact returns_alone_pure.mpr ⟨rfl, rfl⟩
  · obtain ⟨f, hf⟩ := hclear
    have hnone := returns_vaddrGet_none hcnt hf fun i hfirst hend => hex ⟨i, hfirst, hend⟩
    refine ⟨none, s, ?_, fun _ => rfl, rfl⟩
    rw [returns_alone_iff hnone]
    exact returns_alone_pure.mpr ⟨rfl, rfl⟩

/-- Where `malloc_page` returns `NULL`, nothing has changed. -/
theorem mallocPage_none {cnt : Nat} (h : Returns (alone (Act.runs t) (Code.mallocPage pf cnt)) s none s') : s' = s := by
  rw [Code.mallocPage, returns_alone_bind] at h
  obtain ⟨_, _, hassert, h⟩ := h
  obtain ⟨⟨hcnt, -⟩, rfl⟩ := returns_assertCode_iff.mp hassert
  obtain ⟨r, s₁, hget, h⟩ := returns_alone_bind.mp h
  have hclear : ∃ f, (s.vaddrPool t pf).vaddrBitmap.IsFirstClear f := by
    have hsafe := safe_of_returns hget
    rw [Code.vaddrGet, safe_alone_bind] at hsafe
    exact safe_vaddrScan hsafe.1
  cases r with
  | none =>
    obtain ⟨-, rfl⟩ := returns_alone_pure.mp h
    by_cases hex : ∃ i, FirstStretch (s.vaddrPool t pf).vaddrBitmap.Clear cnt i ∧
        i + cnt ≤ (s.vaddrPool t pf).vaddrBitmap.size + 1
    · obtain ⟨i, hfirst, hend⟩ := hex
      obtain ⟨hsafe, hret⟩ := vaddrGet_range hcnt hfirst hend hclear
      obtain ⟨s₂, hsome, -⟩ := hret (hsafe (safe_of_returns hget))
      cases (hget.unique hsome).1
    · obtain ⟨f, hf⟩ := hclear
      exact (hget.unique (returns_vaddrGet_none hcnt hf fun i hfirst hend => hex ⟨i, hfirst, hend⟩)).2
  | some vaddr =>
    -- the pages are mapped, or there is a panic
    obtain ⟨b, s₂, hmap, h⟩ := returns_alone_bind.mp h
    obtain rfl := mapPages_true hmap
    cases (returns_alone_pure.mp h).1

/-! ## The lock -/

section Lock

variable {l l' : Lock}

theorem lock_setLock : (s.setLock pf l).lock pf = l := by
  simp [Shared.setLock, Shared.setPool, Shared.lock]

theorem setLock_setLock : (s.setLock pf l).setLock pf l' = s.setLock pf l' := by
  simp [Shared.setLock, Shared.setPool, Function.update_idem]

theorem setLock_lock : s.setLock pf (s.lock pf) = s := by
  simp [Shared.setLock, Shared.setPool, Shared.lock]

/-- The first act is known. -/
theorem returns_act_iff {α : Type} {a : Act} {k : Nat → Code α} {b : α} (n : Nat) (s₁ : Shared)
    (h : a.exec t 0 s = some (some n, s₁)) :
    Returns (alone (Act.runs t) (perform a >>= k)) s b s' ↔ Returns (alone (Act.runs t) (k n)) s₁ b s' :=
  returns_alone_iff (returns_alone_perform.mpr (returns_runs.mpr h))

/-- The lock once the thread has it. -/
def Lock.takenBy (l : Lock) (t : Nat) : Lock :=
  if l.holder = some t then { l with holderRepeatNr := l.holderRepeatNr + 1 }
  else { l with value := 0, holder := some t, holderRepeatNr := 1 }

theorem returns_lockAcquire (h : l.holder = some t ∨ l.holderRepeatNr = 0 ∧ l.value = 1) :
    Returns (alone (Act.runs t) (Code.lockAcquire pf)) (s.setLock pf l) () (s.setLock pf (l.takenBy t)) := by
  rw [Code.lockAcquire, Lock.takenBy]
  by_cases hself : l.holder = some t
  · refine (returns_act_iff 1 (s.setLock pf l) ?_).mpr ?_
    · simp only [Act.exec, lock_setLock, hself, if_true]
    rw [if_neg (by decide), if_pos hself]
    refine (returns_act_iff l.holderRepeatNr (s.setLock pf l) ?_).mpr ?_
    · simp only [Act.exec, lock_setLock]
    refine (returns_act_iff 0 (s.setLock pf { l with holderRepeatNr := l.holderRepeatNr + 1 }) ?_).mpr ?_
    · simp only [Act.exec, lock_setLock, setLock_setLock]
    exact returns_alone_pure.mpr ⟨rfl, rfl⟩
  · obtain ⟨hnr, hvalue⟩ := h.resolve_left hself
    refine (returns_act_iff 0 (s.setLock pf l) ?_).mpr ?_
    · simp only [Act.exec, lock_setLock, hself, if_false]
    rw [if_pos rfl, if_neg hself]
    refine (returns_act_iff 0 (s.setLock pf { l with value := 0 }) ?_).mpr ?_
    · simp only [Act.exec, lock_setLock, setLock_setLock, hvalue]
      rfl
    refine (returns_act_iff 0 (s.setLock pf { l with value := 0, holder := some t }) ?_).mpr ?_
    · simp only [Act.exec, lock_setLock, setLock_setLock]
    refine (returns_act_iff 0 (s.setLock pf { l with value := 0, holder := some t }) ?_).mpr ?_
    · simp only [Act.exec, lock_setLock, hnr]
    rw [returns_alone_iff (returns_assertCode_of rfl)]
    refine (returns_act_iff 0 (s.setLock pf { l with value := 0, holder := some t, holderRepeatNr := 1 }) ?_).mpr ?_
    · simp only [Act.exec, lock_setLock, setLock_setLock]
    exact returns_alone_pure.mpr ⟨rfl, rfl⟩

/-- The release undoes the acquisition, but for a thread that is woken. -/
theorem returns_lockRelease (h : l.holder = some t ∧ 0 < l.holderRepeatNr ∨
      l.holder = none ∧ l.holderRepeatNr = 0 ∧ l.value = 1 ∧ ∀ w ∈ l.waiters, s.blocked w = true) :
    ∃ l' blocked, Returns (alone (Act.runs t) (Code.lockRelease pf)) (s.setLock pf (l.takenBy t)) ()
        { s.setLock pf l' with blocked := blocked } ∧
      l'.holder = l.holder ∧ l'.holderRepeatNr = l.holderRepeatNr ∧ l'.value = l.value ∧
      (l.waiters.Nodup → l'.waiters.Nodup ∧ (l.holder ≠ some t → ∀ w ∈ l'.waiters, blocked w = true)) := by
  rw [Code.lockRelease, Lock.takenBy]
  by_cases hself : l.holder = some t
  · have hnr : 0 < l.holderRepeatNr := by
      rcases h with ⟨-, hnr⟩ | ⟨hnone, -⟩
      · exact hnr
      · rw [hnone] at hself
        cases hself
    refine ⟨l, s.blocked, ?_, rfl, rfl, rfl, fun hnodup => ⟨hnodup, fun hother => absurd hself hother⟩⟩
    rw [if_pos hself]
    let l₁ : Lock := { l with holderRepeatNr := l.holderRepeatNr + 1 }
    refine (returns_act_iff 1 (s.setLock pf l₁) ?_).mpr ?_
    · simp only [Act.exec, lock_setLock, l₁, hself, if_true]
    rw [returns_alone_iff (returns_assertCode_of Nat.one_ne_zero)]
    refine (returns_act_iff (l.holderRepeatNr + 1) (s.setLock pf l₁) ?_).mpr ?_
    · simp only [Act.exec, lock_setLock, l₁]
    rw [if_pos (by omega)]
    refine (returns_act_iff 0 (s.setLock pf l) ?_).mpr ?_
    · simp only [Act.exec, lock_setLock, setLock_setLock, l₁, Nat.add_sub_cancel]
    exact returns_alone_pure.mpr ⟨rfl, rfl⟩
  · obtain ⟨hnone, hnr, hvalue, hwaiters⟩ := h.resolve_left fun hheld => hself hheld.1
    let l₁ : Lock := { l with value := 0, holder := some t, holderRepeatNr := 1 }
    let l₂ : Lock := { l with value := 0, holder := none, holderRepeatNr := 0 }
    have hup : ∃ l' blocked, (Act.semaUp pf).exec t 0 (s.setLock pf l₂) =
        some (some 0, { s.setLock pf l' with blocked := blocked }) ∧
        l'.holder = l.holder ∧ l'.holderRepeatNr = l.holderRepeatNr ∧ l'.value = l.value ∧
        (l.waiters.Nodup → l'.waiters.Nodup ∧ (l.holder ≠ some t → ∀ w ∈ l'.waiters, blocked w = true)) := by
      cases hw : l.waiters with
      | nil =>
        refine ⟨{ l₂ with value := 1 }, s.blocked, ?_, hnone.symm, hnr.symm, hvalue.symm, fun _ => ⟨?_, fun _ => ?_⟩⟩
        · simp only [Act.exec, lock_setLock, setLock_setLock, l₂, hw, if_true]
          rfl
        · simp only [l₂, hw, List.nodup_nil]
        · simp only [l₂, hw, List.not_mem_nil, false_implies, implies_true]
      | cons w ws =>
        refine ⟨{ l₂ with value := 1, waiters := ws }, Function.update s.blocked w false, ?_, hnone.symm, hnr.symm,
          hvalue.symm, fun hnodup => ?_⟩
        swap
        · -- the one that is woken does not wait a second time
          obtain ⟨hnotin, hnodup⟩ := List.nodup_cons.mp hnodup
          refine ⟨hnodup, fun _ v hv => ?_⟩
          have hne : v ≠ w := fun heq => hnotin (heq ▸ hv)
          rw [Function.update_of_ne hne]
          exact hwaiters v (hw ▸ List.mem_cons_of_mem w hv)
        have hblocked : (s.setLock pf l₂).blocked w = true := hwaiters w (hw ▸ List.mem_cons_self)
        simp only [Act.exec, lock_setLock, setLock_setLock, l₂, hw, if_true] at hblocked ⊢
        rw [if_pos hblocked]
        rfl
    obtain ⟨l', blocked, hexec, hsame⟩ := hup
    refine ⟨l', blocked, ?_, hsame⟩
    rw [if_neg hself]
    refine (returns_act_iff 1 (s.setLock pf l₁) ?_).mpr ?_
    · simp only [Act.exec, lock_setLock, l₁, if_true]
    rw [returns_alone_iff (returns_assertCode_of Nat.one_ne_zero)]
    refine (returns_act_iff 1 (s.setLock pf l₁) ?_).mpr ?_
    · simp only [Act.exec, lock_setLock, l₁]
    rw [if_neg (by decide), returns_alone_iff (returns_assertCode_of rfl)]
    refine (returns_act_iff 0 (s.setLock pf { l₁ with holder := none }) ?_).mpr ?_
    · simp only [Act.exec, lock_setLock, setLock_setLock, l₁]
    refine (returns_act_iff 0 (s.setLock pf l₂) ?_).mpr ?_
    · simp only [Act.exec, lock_setLock, setLock_setLock, l₁, l₂]
    refine (returns_act_iff 0 _ hexec).mpr ?_
    exact returns_alone_pure.mpr ⟨rfl, rfl⟩

end Lock

theorem bitmap_setLock {l : Lock} (q : PoolFlag) : (s.setLock pf l).bitmap q = s.bitmap q := by
  by_cases hq : q = pf
  · subst hq
    simp [Shared.setLock, Shared.setPool, Shared.bitmap]
  · simp [Shared.setLock, Shared.setPool, Shared.bitmap, hq]

theorem lock_setLock_ne {l : Lock} {q : PoolFlag} (hq : q ≠ pf) : (s.setLock pf l).lock q = s.lock q := by
  simp [Shared.setLock, Shared.setPool, Shared.lock, hq]

theorem mappable_setLock {l : Lock} {q : PoolFlag} :
    (s.setLock q l).Mappable pf vaddr n ↔ s.Mappable pf vaddr n := by
  constructor
  · rintro ⟨hunmapped, hframes⟩
    refine ⟨hunmapped, fun r => ?_⟩
    rw [← bitmap_setLock r]
    exact hframes r
  · rintro ⟨hunmapped, hframes⟩
    refine ⟨hunmapped, fun r => ?_⟩
    rw [bitmap_setLock r]
    exact hframes r

/-- The lock has nothing to do with what there is. -/
theorem enough_setLock {l : Lock} {q : PoolFlag} : (s.setLock q l).Enough t pf n ↔ s.Enough t pf n := by
  have hpool : (s.setLock q l).vaddrPool t pf = s.vaddrPool t pf := by cases pf <;> rfl
  constructor
  · rintro ⟨hcount, hclear, hrange⟩
    rw [hpool] at hclear hrange
    refine ⟨hcount, hclear, fun i hfirst hend => ?_⟩
    obtain ⟨hhigh, hpages⟩ := hrange i hfirst hend
    exact ⟨hhigh, mappable_setLock.mp hpages⟩
  · rintro ⟨hcount, hclear, hrange⟩
    refine ⟨hcount, ?_, fun i hfirst hend => ?_⟩
    · rw [hpool]
      exact hclear
    · rw [hpool] at hfirst hend ⊢
      obtain ⟨hhigh, hpages⟩ := hrange i hfirst hend
      exact ⟨hhigh, mappable_setLock.mpr hpages⟩

/-! ## sys_malloc -/

/-- The lock is given back: what failed has left everything as it was. -/
theorem untouched_release {l l' : Lock} {blocked : Nat → Bool} (hlock : s.lock pf = l) (hholder : l'.holder = l.holder)
    (hnr : l'.holderRepeatNr = l.holderRepeatNr) (hvalue : l'.value = l.value) :
    s.Untouched { s.setLock pf l' with blocked := blocked } := by
  have hsame (q : PoolFlag) : ((s.setLock pf l').lock q).holder = (s.lock q).holder ∧
      ((s.setLock pf l').lock q).holderRepeatNr = (s.lock q).holderRepeatNr ∧
      ((s.setLock pf l').lock q).value = (s.lock q).value := by
    by_cases hq : q = pf
    · subst hq
      rw [lock_setLock, hlock]
      exact ⟨hholder, hnr, hvalue⟩
    · rw [lock_setLock_ne hq]
      exact ⟨rfl, rfl, rfl⟩
  exact
    { bitmap := bitmap_setLock
      kernelVaddr := rfl
      userprogVaddr := rfl
      pde := rfl
      pte := rfl
      holder := fun q => (hsame q).1
      holderRepeatNr := fun q => (hsame q).2.1
      value := fun q => (hsame q).2.2 }

/-- `malloc_page` behind the lock. -/
theorem returns_locked {cnt : Nat} (hcnt : 0 < cnt) (hgets : s.Gets t pf) (h : s.Enough t pf cnt) :
    ∃ r s', Returns (alone (Act.runs t) (do
        let a ← Code.mallocPage pf cnt
        Code.lockRelease pf
        return a.isSome)) (s.setLock pf ((s.lock pf).takenBy t)) r s' ∧ (r = false → s.Untouched s') := by
  obtain ⟨a, s₁, hmalloc, hlocks⟩ := returns_mallocPage (t := t) hcnt (enough_setLock.mpr h)
  have hlock : s₁.setLock pf ((s.lock pf).takenBy t) = s₁ := by
    have hl : s₁.lock pf = (s.lock pf).takenBy t := (hlocks.lock pf).trans lock_setLock
    rw [← hl, setLock_lock]
  have hgets₁ : (s.lock pf).holder = some t ∧ 0 < (s.lock pf).holderRepeatNr ∨ (s.lock pf).holder = none ∧
      (s.lock pf).holderRepeatNr = 0 ∧ (s.lock pf).value = 1 ∧ ∀ w ∈ (s.lock pf).waiters, s₁.blocked w = true := by
    rw [hlocks.blocked]
    exact hgets
  obtain ⟨l', blocked, hrelease, hholder, hnr, hvalue, -⟩ := returns_lockRelease hgets₁
  rw [hlock] at hrelease
  refine ⟨a.isSome, { s₁.setLock pf l' with blocked := blocked }, ?_, ?_⟩
  · rw [returns_alone_iff hmalloc, returns_alone_iff hrelease]
    exact returns_alone_pure.mpr ⟨rfl, rfl⟩
  · intro hfailed
    obtain rfl : a = none := by
      cases a with
      | none => rfl
      | some a => cases hfailed
    obtain rfl := mallocPage_none hmalloc
    rw [setLock_setLock]
    exact untouched_release rfl hholder hnr hvalue

/-- What comes before the lock. -/
theorem returns_hasPgdir : Returns (alone (Act.runs t) (perform .hasPgdir)) s (if (s.pgdir t).isSome then 1 else 0) s := by
  simp only [returns_alone_perform, returns_runs, Act.exec]

theorem returns_poolSize : Returns (alone (Act.runs t) (perform (.poolSize pf))) s (s.pool pf).poolSize s := by
  simp only [returns_alone_perform, returns_runs, Act.exec]

theorem poolOf_eq : (if (if (s.pgdir t).isSome then 1 else 0) = 0 then PoolFlag.kernel else PoolFlag.user) = s.poolOf t := by
  rw [Shared.poolOf]
  cases (s.pgdir t).isSome <;> rfl

theorem stops_lockAcquire (h : s.Waits t pf) : Stops (alone (Act.runs t) (Code.lockAcquire pf)) s .blocked := by
  obtain ⟨hholder, hvalue, hnot⟩ := h
  have hself : Returns (alone (Act.runs t) (perform (.holderIsSelf pf))) s 0 s := by
    simp only [returns_alone_perform, returns_runs, Act.exec, hholder, if_false]
  have hdown : Stops (alone (Act.runs t) (perform (.semaDown pf))) s .blocked := by
    apply stops_bind.mpr
    left
    simp only [Stops, Act.runs, Act.exec, hvalue, if_true, if_neg hnot]
  rw [Code.lockAcquire, stops_alone_bind]
  refine Or.inr ⟨0, s, hself, ?_⟩
  rw [if_pos rfl, stops_alone_bind]
  exact Or.inl hdown

theorem Shared.Gets.acquire (h : s.Gets t pf) :
    Returns (alone (Act.runs t) (Code.lockAcquire pf)) s () (s.setLock pf ((s.lock pf).takenBy t)) := by
  have hlock : (s.lock pf).holder = some t ∨ (s.lock pf).holderRepeatNr = 0 ∧ (s.lock pf).value = 1 := by
    rcases h with ⟨hheld, -⟩ | ⟨-, hnr, hvalue, -⟩
    · exact Or.inl hheld
    · exact Or.inr ⟨hnr, hvalue⟩
  have hacquire := @returns_lockAcquire s _ pf _ hlock
  rwa [setLock_lock] at hacquire

/-- What `sys_malloc` needs for not to panic. -/
def Shared.Suffices (s : Shared) (t size : Nat) (listEmpty : Bool) : Prop :=
  if 1024 < size then s.Enough t (s.poolOf t) ((size + 12 + pgSize - 1) / pgSize)
  else listEmpty = true → s.Enough t (s.poolOf t) 1

section Malloc

variable {size : Nat} {listEmpty : Bool}

theorem suffices_of_safe (hgets : s.Gets t (s.poolOf t)) (hsize : 0 < size ∧ size < (s.pool (s.poolOf t)).poolSize)
    (h : Safe (alone (Act.runs t) (Code.sysMallocServed size listEmpty)) s) : s.Suffices t size listEmpty := by
  rw [Code.sysMallocServed, safe_alone_of_returns returns_hasPgdir] at h
  simp only [poolOf_eq] at h
  rw [safe_alone_of_returns returns_poolSize, if_neg (not_not.mpr hsize), safe_alone_of_returns hgets.acquire] at h
  rw [Shared.Suffices]
  split at h
  · next hlarge =>
    rw [if_pos hlarge]
    exact enough_setLock.mp (enough_of_safe (safe_alone_bind.mp h).1)
  · next hsmall =>
    rw [if_neg hsmall]
    intro hempty
    rw [if_pos hempty] at h
    exact enough_setLock.mp (enough_of_safe (safe_alone_bind.mp h).1)

theorem returns_sysMallocServed (hgets : s.Gets t (s.poolOf t)) (hsize : 0 < size ∧ size < (s.pool (s.poolOf t)).poolSize)
    (h : s.Suffices t size listEmpty) :
    ∃ r s', Returns (alone (Act.runs t) (Code.sysMallocServed size listEmpty)) s r s' ∧
      (r = false → s.Untouched s') := by
  rw [Code.sysMallocServed]
  simp only [returns_alone_iff returns_hasPgdir, poolOf_eq]
  simp only [returns_alone_iff returns_poolSize, if_neg (not_not.mpr hsize), returns_alone_iff hgets.acquire]
  rw [Shared.Suffices] at h
  by_cases hlarge : 1024 < size
  · rw [if_pos hlarge] at h
    have hcnt : 0 < (size + 12 + pgSize - 1) / pgSize := Nat.div_pos (by omega) (by decide)
    simp only [if_pos hlarge]
    exact returns_locked hcnt hgets h
  · rw [if_neg hlarge] at h
    simp only [if_neg hlarge]
    cases listEmpty with
    | true =>
      simp only [if_true]
      exact returns_locked Nat.one_pos hgets (h rfl)
    | false =>
      obtain ⟨l', blocked, hrelease, -⟩ := @returns_lockRelease _ _ (s.poolOf t) _ hgets
      simp only [Bool.false_eq_true, if_false, returns_alone_iff hrelease]
      exact ⟨true, _, returns_alone_pure.mpr ⟨rfl, rfl⟩, nofun⟩

/-- A size that no pool has is refused. -/
theorem returns_sysMallocServed_size (hsize : ¬ (0 < size ∧ size < (s.pool (s.poolOf t)).poolSize)) :
    Returns (alone (Act.runs t) (Code.sysMallocServed size listEmpty)) s false s := by
  rw [Code.sysMallocServed, returns_alone_iff returns_hasPgdir]
  simp only [poolOf_eq]
  rw [returns_alone_iff returns_poolSize, if_pos hsize]
  exact returns_alone_pure.mpr ⟨rfl, rfl⟩

theorem stops_sysMallocServed (hwaits : s.Waits t (s.poolOf t))
    (hsize : 0 < size ∧ size < (s.pool (s.poolOf t)).poolSize) :
    Stops (alone (Act.runs t) (Code.sysMallocServed size listEmpty)) s .blocked := by
  rw [Code.sysMallocServed, stops_alone_bind]
  refine Or.inr ⟨_, s, returns_hasPgdir, ?_⟩
  simp only [poolOf_eq]
  rw [stops_alone_bind]
  refine Or.inr ⟨_, s, returns_poolSize, ?_⟩
  rw [if_neg (not_not.mpr hsize), stops_alone_bind]
  exact Or.inl (stops_lockAcquire hwaits)

/-! ## Failing cleanly -/

theorem Shared.Untouched.refl (s : Shared) : s.Untouched s :=
  ⟨fun _ => rfl, rfl, rfl, rfl, rfl, fun _ => rfl, fun _ => rfl, fun _ => rfl⟩

theorem FailsCleanly.safe {α : Type} {x : Exec Shared α} {failed : α} (h : FailsCleanly x failed s) : Safe x s := by
  rcases h with h | ⟨r, s', h, -⟩
  · intro e he
    exact Except.error.inj (he.symm.trans h)
  · exact safe_of_returns h

theorem mallocPage_failsCleanly_iff {cnt : Nat} (hcnt : 0 < cnt) :
    FailsCleanly (alone (Act.runs t) (Code.mallocPage pf cnt)) none s ↔ s.Enough t pf cnt := by
  constructor
  · exact fun h => enough_of_safe h.safe
  · intro h
    obtain ⟨r, s', hret, -⟩ := returns_mallocPage hcnt h
    refine Or.inr ⟨r, s', hret, ?_⟩
    rintro rfl
    rw [mallocPage_none hret]
    exact .refl s

theorem sysMalloc_failsCleanly_iff (hlock : s.Gets t (s.poolOf t) ∨ s.Waits t (s.poolOf t)) :
    FailsCleanly (alone (Act.runs t) (Code.sysMallocServed size listEmpty)) false s ↔
      ¬ (0 < size ∧ size < (s.pool (s.poolOf t)).poolSize) ∨ s.Waits t (s.poolOf t) ∨ s.Suffices t size listEmpty := by
  by_cases hsize : 0 < size ∧ size < (s.pool (s.poolOf t)).poolSize
  · by_cases hwaits : s.Waits t (s.poolOf t)
    · exact iff_of_true (Or.inl (stops_sysMallocServed hwaits hsize)) (Or.inr (Or.inl hwaits))
    · have hgets := hlock.resolve_right hwaits
      constructor
      · exact fun h => Or.inr (Or.inr (suffices_of_safe hgets hsize h.safe))
      · rintro (h | h | h)
        · exact absurd hsize h
        · exact absurd h hwaits
        · exact Or.inr (returns_sysMallocServed hgets hsize h)
  · exact iff_of_true (Or.inr ⟨false, s, returns_sysMallocServed_size hsize, fun _ => .refl s⟩) (Or.inl hsize)

end Malloc

end Calls

/-- `malloc_page` and `sys_malloc` fail cleanly where they have enough for not to panic: a clear
    bit in the pool of addresses and, where there is a run of them, a frame for each page and
    for each page table that is missing. -/
theorem failed_allocation_clean_iff (s : Shared) (t : Nat) :
    (∀ pf pageCount, 0 < pageCount →
      (FailsCleanly (alone (Act.runs t) (Code.mallocPage pf pageCount)) none s ↔ s.Enough t pf pageCount)) ∧
    ∀ size listEmpty, s.Gets t (s.poolOf t) ∨ s.Waits t (s.poolOf t) →
      (FailsCleanly (alone (Act.runs t) (Code.sysMallocServed size listEmpty)) false s ↔
        ¬ (0 < size ∧ size < (s.pool (s.poolOf t)).poolSize) ∨ s.Waits t (s.poolOf t) ∨
          s.Suffices t size listEmpty) :=
  ⟨fun _ _ hcnt => mallocPage_failsCleanly_iff hcnt, fun _ _ hlock => sysMalloc_failsCleanly_iff hlock⟩

/-- Ten pages are not to be had of eight: there is no run of bits, and `NULL` is returned.  For
    no bytes `sys_malloc` returns `NULL`. -/
theorem failed_allocation_clean_ten :
    FailsCleanly (alone (Act.runs 0xc009e000) (Code.mallocPage .kernel 10)) none freshMmu.shared ∧
      FailsCleanly (alone (Act.runs 0xc009e000) (Code.sysMallocServed 0 true)) false freshMmu.shared := by
  obtain ⟨hpages, hbytes⟩ := failed_allocation_clean_iff freshMmu.shared 0xc009e000
  constructor
  · refine (hpages .kernel 10 (by decide)).mpr ⟨by decide, ⟨0, by decide, rfl, nofun⟩, fun i _ hend => ?_⟩
    have hsize : (freshMmu.shared.vaddrPool 0xc009e000 .kernel).vaddrBitmap.size = 8 := rfl
    omega
  · exact (hbytes 0 true (Or.inl (Or.inr ⟨rfl, rfl, rfl, nofun⟩))).mpr (Or.inl (by decide))

/-- Once all frames are taken, one page more is a panic; too many pages at once are one, too,
    and a size for which there are addresses but not enough frames. -/
theorem allocation_panics :
    (∃ s a, Returns (alone (Act.runs 0xc009e000) (Code.mallocPage .kernel 8)) freshMmu.shared (some a) s ∧
      ¬ FailsCleanly (alone (Act.runs 0xc009e000) (Code.mallocPage .kernel 1)) none s) ∧
    ¬ FailsCleanly (alone (Act.runs 0xc009e000) (Code.mallocPage .user 3840)) none freshMmu.shared ∧
    ∃ size, freshMmu.shared.Gets 0xc009e000 .kernel ∧
      ¬ FailsCleanly (alone (Act.runs 0xc009e000) (Code.sysMallocServed size true)) false freshMmu.shared := by
  refine ⟨?_, fun h => ?_, 0x7fff, Or.inr ⟨rfl, rfl, rfl, nofun⟩, fun h => ?_⟩
  · have hend : (alone (Act.runs 0xc009e000) (Code.mallocPage .kernel 8)).checks freshMmu.shared (fun r s =>
        r.isSome && (alone (Act.runs 0xc009e000) (Code.mallocPage .kernel 1)).stopsFor s .panic) = true := by
      decide +kernel
    obtain ⟨r, s, hret, hval⟩ := checks_eq_true.mp hend
    rw [Bool.and_eq_true, Option.isSome_iff_exists, stopsFor_eq_true] at hval
    obtain ⟨⟨a, rfl⟩, hstop⟩ := hval
    refine ⟨s, a, hret, fun h => ?_⟩
    cases h.safe _ hstop
  · exact absurd (enough_of_safe h.safe).count (by decide)
  · have hstop : Stops (alone (Act.runs 0xc009e000) (Code.sysMallocServed 0x7fff true)) freshMmu.shared .panic := by
      rw [← stopsFor_eq_true]
      decide +kernel
    cases h.safe _ hstop

end ZxyOs
