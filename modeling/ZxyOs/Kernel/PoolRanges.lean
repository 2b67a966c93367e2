/-
  ZxyOs.Kernel.PoolRanges

  Where the pools and their bitmaps lie (`mem_pool_init` in `kernel/memory.c`).

  The number of free pages is cut to 16 bits, split in two and cut again to whole bytes of the
  bitmaps.  Each of these only makes less of the memory there is: the frames of both pools lie
  in it, one pool behind the other (`memPools_frames`), and however large the memory, the three
  bitmaps end before the control block of the main thread (`memPools_bitmaps`).
-/

import ZxyOs.Kernel.Pools

namespace ZxyOs

open Lib Lib.Exec

/-! ## The structures -/

/-- `MEM_BITMAP_BASE`. -/
def memBitmapBase : Nat := 0xc009a000

/-- `K_HEAP_START`. -/
def kHeapStart : Nat := 0xc0100000

/-- `struct bitmap`, as an address range. -/
structure BitmapRange where
  btmpBytesLen : Nat
  bits : Nat

/-- `struct pool` but for its lock. -/
structure PoolRange where
  poolBitmap : BitmapRange
  phyAddrStart : Nat
  poolSize : Nat

/-- `struct virtual_addr`. -/
structure VaddrRange where
  vaddrBitmap : BitmapRange
  vaddrStart : Nat

/-- `kernel_pool`, `user_pool` and `kernel_vaddr`. -/
structure MemPools where
  kernelPool : PoolRange
  userPool : PoolRange
  kernelVaddr : VaddrRange

/-- `mem_pool_init`. -/
def memPools (allMemory : Nat) : MemPools :=
  let pageTableSize := pgSize * 256
  let usedMem := pageTableSize + 0x100000
  let freeMem := (allMemory + 2 ^ 32 - usedMem) % 2 ^ 32
  let freePages := freeMem / pgSize % 2 ^ 16
  let kernelFreePages := freePages / 2 % 2 ^ 16
  let userFreePages := (freePages - kernelFreePages) % 2 ^ 16
  let kernelBitmapLength := kernelFreePages / 8
  let userBitmapLength := userFreePages / 8
  let kernelPoolStart := usedMem
  let userPoolStart := (kernelPoolStart + kernelFreePages * pgSize) % 2 ^ 32
  { kernelPool := {
      poolBitmap := { btmpBytesLen := kernelBitmapLength, bits := memBitmapBase }
      phyAddrStart := kernelPoolStart
      poolSize := kernelFreePages * pgSize }
    userPool := {
      poolBitmap := { btmpBytesLen := userBitmapLength, bits := (memBitmapBase + kernelBitmapLength) % 2 ^ 32 }
      phyAddrStart := userPoolStart
      poolSize := userFreePages * pgSize }
    kernelVaddr := {
      vaddrBitmap := {
        btmpBytesLen := kernelBitmapLength
        bits := (memBitmapBase + kernelBitmapLength + userBitmapLength) % 2 ^ 32 }
      vaddrStart := kHeapStart } }

def MemPools.pool (m : MemPools) : PoolFlag → PoolRange
  | .kernel => m.kernelPool
  | .user => m.userPool

/-- The three bitmaps. -/
def MemPools.bitmaps (m : MemPools) : List BitmapRange :=
  [m.kernelPool.poolBitmap, m.userPool.poolBitmap, m.kernelVaddr.vaddrBitmap]

/-- Where the self-mapped page tables begin. -/
def pageTableWindow : Nat := 0xffc00000

/-- The page of the stack that `__start` sets up at `0xc009f000`. -/
def mainThreadPcb : Nat := 0xc009f000 - pgSize

/-! ## The numbers -/

/-- The pages of the two pools for a memory of `allMemory` bytes. -/
structure PageSplit (allMemory kernel user : Nat) : Prop where
  fits : 0x200000 + (kernel + user) * pgSize ≤ allMemory
  few : kernel + user < 2 ^ 16
  half : kernel ≤ user ∧ user ≤ kernel + 1
  kernelPool : (memPools allMemory).kernelPool = ⟨⟨kernel / 8, memBitmapBase⟩, 0x200000, kernel * pgSize⟩
  userPool : (memPools allMemory).userPool =
    ⟨⟨user / 8, memBitmapBase + kernel / 8⟩, 0x200000 + kernel * pgSize, user * pgSize⟩
  kernelVaddr : (memPools allMemory).kernelVaddr =
    ⟨⟨kernel / 8, memBitmapBase + kernel / 8 + user / 8⟩, kHeapStart⟩
  bare : memPoolInit allMemory = ⟨0x200000, 0x200000 + kernel * pgSize, kernel / 8, user / 8⟩

/-- Both views of `mem_pool_init` have the pools in the same place. -/
theorem PageSplit.layout {allMemory kernel user : Nat} (hs : PageSplit allMemory kernel user) :
    memPoolInit allMemory =
      ⟨(memPools allMemory).kernelPool.phyAddrStart, (memPools allMemory).userPool.phyAddrStart,
        (memPools allMemory).kernelPool.poolBitmap.btmpBytesLen,
        (memPools allMemory).userPool.poolBitmap.btmpBytesLen⟩ := by
  rw [hs.kernelPool, hs.userPool]
  exact hs.bare

theorem exists_pageSplit {allMemory : Nat} (hlow : 0x200000 ≤ allMemory) (hhigh : allMemory < 2 ^ 32) :
    ∃ kernel user, PageSplit allMemory kernel user := by
  obtain ⟨free, hfree⟩ : ∃ free, free = (allMemory - 0x200000) / pgSize % 2 ^ 16 := ⟨_, rfl⟩
  have hlt : free < 2 ^ 16 := by
    rw [hfree]
    exact Nat.mod_lt _ (by decide)
  have hmem : 0x200000 + free * pgSize ≤ allMemory := by
    simp only [pgSize] at hfree ⊢
    omega
  have hpages : (allMemory + 2 ^ 32 - (pgSize * 256 + 0x100000)) % 2 ^ 32 / pgSize % 2 ^ 16 = free := by
    simp only [pgSize] at hfree ⊢
    omega
  have hkernel : free / 2 % 2 ^ 16 = free / 2 := Nat.mod_eq_of_lt (by omega)
  have huser : (free - free / 2) % 2 ^ 16 = free - free / 2 := Nat.mod_eq_of_lt (by omega)
  refine ⟨free / 2, free - free / 2, ?_, by omega, by omega, ?_, ?_, ?_, ?_⟩
  · rw [show free / 2 + (free - free / 2) = free by omega]
    exact hmem
  all_goals
    simp only [memPools, memPoolInit, hpages, hkernel, huser]
  · rfl
  · rw [Nat.mod_eq_of_lt (show memBitmapBase + free / 2 / 8 < 2 ^ 32 from ?_),
      Nat.mod_eq_of_lt (show pgSize * 256 + 0x100000 + free / 2 * pgSize < 2 ^ 32 from ?_)]
    · rfl
    · show 0x200000 + free / 2 * 4096 < 2 ^ 32
      omega
    · show 0xc009a000 + free / 2 / 8 < 2 ^ 32
      omega
  · rw [Nat.mod_eq_of_lt (show memBitmapBase + free / 2 / 8 + (free - free / 2) / 8 < 2 ^ 32 from ?_)]
    show 0xc009a000 + free / 2 / 8 + (free - free / 2) / 8 < 2 ^ 32
    omega
  · rfl

/-! ## Frames -/

section Ranges

variable {allMemory kernel user : Nat}

/-- The bitmap of a pool has no more bits than the pool has frames. -/
theorem PageSplit.frame_inside (hs : PageSplit allMemory kernel user) {pf : PoolFlag} {addr i : Nat}
    (h : (memPoolInit allMemory).Frame pf addr i) :
    addr % pgSize = 0 ∧ ((memPools allMemory).pool pf).phyAddrStart ≤ addr ∧
      addr + pgSize ≤ ((memPools allMemory).pool pf).phyAddrStart + ((memPools allMemory).pool pf).poolSize := by
  rw [hs.layout] at h
  cases pf with
  | kernel =>
    obtain ⟨hi, rfl⟩ := h
    simp only [MemPools.pool, hs.kernelPool, pgSize] at hi ⊢
    omega
  | user =>
    obtain ⟨hi, rfl⟩ := h
    simp only [MemPools.pool, hs.userPool, pgSize] at hi ⊢
    omega

/-- The range of a pool lies in the memory there is. -/
theorem PageSplit.pool_inside (hs : PageSplit allMemory kernel user) (pf : PoolFlag) :
    0x200000 ≤ ((memPools allMemory).pool pf).phyAddrStart ∧
      ((memPools allMemory).pool pf).phyAddrStart + ((memPools allMemory).pool pf).poolSize ≤ allMemory := by
  have hfits := hs.fits
  cases pf with
  | kernel =>
    simp only [MemPools.pool, hs.kernelPool, pgSize] at hfits ⊢
    omega
  | user =>
    simp only [MemPools.pool, hs.userPool, pgSize] at hfits ⊢
    omega

end Ranges

/-- Whatever the bits are, a frame that `palloc` hands out begins on a page, lies in the memory
    behind the first two megabytes and in the range of its pool; the ranges do not overlap.
    The kernel's heap ends before the page tables, and the bitmaps lie behind each other
    before the page of the main thread. -/
theorem memPoolInit_ranges (allMemory : Nat) (hlow : 0x300000 ≤ allMemory) (hhigh : allMemory < 2 ^ 32) :
    (∀ pf bits addr bits', Returns ((memPoolInit allMemory).palloc pf) bits (some addr) bits' →
      addr % pgSize = 0 ∧ 0x200000 ≤ addr ∧ addr + pgSize ≤ allMemory ∧
        ((memPools allMemory).pool pf).phyAddrStart ≤ addr ∧
        addr + pgSize ≤ ((memPools allMemory).pool pf).phyAddrStart + ((memPools allMemory).pool pf).poolSize) ∧
      (memPools allMemory).kernelPool.phyAddrStart + (memPools allMemory).kernelPool.poolSize ≤
        (memPools allMemory).userPool.phyAddrStart ∧
      (memPools allMemory).kernelVaddr.vaddrStart +
        8 * (memPools allMemory).kernelVaddr.vaddrBitmap.btmpBytesLen * pgSize ≤ pageTableWindow ∧
      (memPools allMemory).bitmaps.Pairwise (fun b c => b.bits + b.btmpBytesLen ≤ c.bits) ∧
      ∀ b ∈ (memPools allMemory).bitmaps, b.bits + b.btmpBytesLen < mainThreadPcb := by
  obtain ⟨kernel, user, hs⟩ := exists_pageSplit (Nat.le_trans (by decide) hlow) hhigh
  have hfew := hs.few
  obtain ⟨hle, hodd⟩ := hs.half
  have hkernel := hs.kernelPool
  have huser := hs.userPool
  have hvaddr := hs.kernelVaddr
  refine ⟨?_, ?_, ?_, ?_, ?_⟩
  · intro pf bits addr bits' hret
    obtain ⟨i, hframe, -⟩ := (memPoolInit_fits allMemory).palloc_frame hret
    obtain ⟨haligned, hstart, hend⟩ := hs.frame_inside hframe
    obtain ⟨hfirst, hlast⟩ := hs.pool_inside pf
    exact ⟨haligned, Nat.le_trans hfirst hstart, Nat.le_trans hend hlast, hstart, hend⟩
  · rw [hkernel, huser]
  · rw [hvaddr]
    simp only [kHeapStart, pageTableWindow, pgSize]
    omega
  · simp only [MemPools.bitmaps, List.pairwise_cons, List.mem_cons, List.not_mem_nil, or_false, forall_eq_or_imp,
      forall_eq, List.Pairwise.nil, and_true, false_implies, implies_true]
    rw [hkernel, huser, hvaddr]
    simp only []
    omega
  · simp only [MemPools.bitmaps, List.mem_cons, List.not_mem_nil, or_false, forall_eq_or_imp, forall_eq]
    rw [hkernel, huser, hvaddr]
    simp only [memBitmapBase, mainThreadPcb, pgSize]
    omega

/-- With 32 MB. -/
theorem memPoolInit_ranges_32MB :
    (memPools 0x2000000).userPool.poolBitmap = ⟨480, 0xc009a1e0⟩ ∧
      (memPools 0x2000000).kernelPool.phyAddrStart + (memPools 0x2000000).kernelPool.poolSize ≤
        (memPools 0x2000000).userPool.phyAddrStart :=
  ⟨rfl, (memPoolInit_ranges 0x2000000 (by decide) (by decide)).2.1⟩

end ZxyOs
