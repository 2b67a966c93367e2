/-
  ZxyOs.Kernel.Pools

  The pools of frames (`kernel/memory.c`).

  `mem_pool_init` splits the memory behind the first two megabytes into a pool for the
  kernel and one for the processes, and puts their bitmaps behind each other.  `palloc`
  sets the bit of a frame; `pfree` and `free_a_phy_page` each find it again from the
  frame's address.  `pfree` takes the first frame of the user pool for one of the kernel
  pool, and clears the bit behind the kernel pool's frames: the right one only where the
  bitmap of the kernel pool has no bits to spare (`frees_invert_palloc_iff`).
-/

import ZxyOs.Kernel.Arena
import ZxyOs.Kernel.PageThreads

namespace ZxyOs

open Lib Lib.Exec

/-! ## The pools -/

/-- Where the pools begin, and the bytes of their bitmaps, which lie behind each other from
    `MEM_BITMAP_BASE` on. -/
structure PoolLayout where
  kernelStart : Nat
  userStart : Nat
  kernelBytes : Nat
  userBytes : Nat

/-- `mem_pool_init`, with `free_pages` in 16 bits. -/
def memPoolInit (allMemory : Nat) : PoolLayout :=
  let pageTableSize := pgSize * 256
  let usedMem := pageTableSize + 0x100000
  let freeMem := (allMemory + 2 ^ 32 - usedMem) % 2 ^ 32
  let freePages := freeMem / pgSize % 2 ^ 16
  let kernelFreePages := freePages / 2
  let userFreePages := freePages - kernelFreePages
  { kernelStart := usedMem
    userStart := usedMem + kernelFreePages * pgSize
    kernelBytes := kernelFreePages / 8
    userBytes := userFreePages / 8 }

namespace PoolLayout

/-- The bit `free_a_phy_page` clears, counted from the start of the kernel pool's bitmap. -/
def bitOf (l : PoolLayout) (pgPhyAddr : Nat) : Nat :=
  if l.userStart ≤ pgPhyAddr then
    8 * l.kernelBytes + (pgPhyAddr - l.userStart) / pgSize
  else
    (pgPhyAddr + 2 ^ 32 - l.kernelStart) % 2 ^ 32 / pgSize

/-- `free_a_phy_page`, on the bits from `MEM_BITMAP_BASE` on. -/
def freeAPhyPage (l : PoolLayout) (pgPhyAddr : Nat) (bits : Nat → Bool) : Nat → Bool :=
  Function.update bits (l.bitOf pgPhyAddr) false

/-- `addr` is the address of frame `j` of the kernel pool. -/
def KernelFrame (l : PoolLayout) (addr j : Nat) : Prop := j < 8 * l.kernelBytes ∧ addr = l.kernelStart + pgSize * j

/-- `addr` is the address of frame `j` of the user pool. -/
def UserFrame (l : PoolLayout) (addr j : Nat) : Prop := j < 8 * l.userBytes ∧ addr = l.userStart + pgSize * j

instance (l : PoolLayout) (addr j : Nat) : Decidable (l.KernelFrame addr j) := inferInstanceAs (Decidable (_ ∧ _))

instance (l : PoolLayout) (addr j : Nat) : Decidable (l.UserFrame addr j) := inferInstanceAs (Decidable (_ ∧ _))

/-- Where the bitmap of a pool begins, counted from the start of the kernel pool's. -/
def firstBit (l : PoolLayout) : PoolFlag → Nat
  | .kernel => 0
  | .user => 8 * l.kernelBytes

/-- `phy_addr_start` of a pool. -/
def phyAddrStart (l : PoolLayout) : PoolFlag → Nat
  | .kernel => l.kernelStart
  | .user => l.userStart

/-- `pool_bitmap` of a pool. -/
def poolBitmap (l : PoolLayout) (pf : PoolFlag) (bits : Nat → Bool) : Bitmap where
  btmpBytesLen := match pf with
    | .kernel => l.kernelBytes
    | .user => l.userBytes
  bit := fun i => bits (l.firstBit pf + i)

/-- `palloc`, on the bits from `MEM_BITMAP_BASE` on. -/
def palloc (l : PoolLayout) (pf : PoolFlag) : Exec (Nat → Bool) (Option Nat) := do
  let bits ← query id
  let bitIndex ← (l.poolBitmap pf bits).bitmapScan 1
  match bitIndex with
  | none => return none
  | some i =>
    update fun bits => Function.update bits (l.firstBit pf + i) true
    return some ((i * pgSize + l.phyAddrStart pf) % 2 ^ 32)

/-- The bit `pfree` clears. -/
def pfreeBit (l : PoolLayout) (pgPhyAddr : Nat) : Nat :=
  if l.userStart < pgPhyAddr then
    8 * l.kernelBytes + (pgPhyAddr - l.userStart) / pgSize
  else
    (pgPhyAddr + 2 ^ 32 - l.kernelStart) % 2 ^ 32 / pgSize

/-- `pfree`, on the bits from `MEM_BITMAP_BASE` on. -/
def pfree (l : PoolLayout) (pgPhyAddr : Nat) (bits : Nat → Bool) : Nat → Bool :=
  Function.update bits (l.pfreeBit pgPhyAddr) false

end PoolLayout

/-! ## The bits of the frames -/

/-- The pools follow each other behind the first two megabytes, and have less than 2^16 frames together. -/
structure PoolLayout.Fits (l : PoolLayout) : Prop where
  kernelStart : l.kernelStart = 0x200000
  userStart : ∃ k, l.userStart = 0x200000 + pgSize * k ∧ 8 * l.kernelBytes ≤ k ∧ k + 8 * l.userBytes < 2 ^ 16

theorem memPoolInit_fits (allMemory : Nat) : (memPoolInit allMemory).Fits := by
  refine ⟨rfl, ?_⟩
  generalize hfree : (allMemory + 2 ^ 32 - (pgSize * 256 + 0x100000)) % 2 ^ 32 / pgSize % 2 ^ 16 = free
  have hlt : free < 2 ^ 16 := by
    rw [← hfree]
    exact Nat.mod_lt _ (by decide)
  refine ⟨free / 2, ?_, ?_, ?_⟩
  · show 4096 * 256 + 0x100000 + _ / 2 * 4096 = 0x200000 + 4096 * _
    rw [hfree]
    omega
  · show 8 * (_ / 2 / 8) ≤ _
    rw [hfree]
    omega
  · show _ + 8 * ((_ - _ / 2) / 8) < _
    rw [hfree]
    omega

namespace PoolLayout.Fits

variable {l : PoolLayout} {w addr j : Nat}

theorem bitOf_kernelFrame (h : l.Fits) (hframe : l.KernelFrame addr j) : l.bitOf addr = j := by
  obtain ⟨hj, rfl⟩ := hframe
  obtain ⟨k, hstart, hle, hsum⟩ := h.userStart
  have hkernel := h.kernelStart
  simp only [pgSize] at hstart ⊢
  rw [bitOf, if_neg (by omega)]
  simp only [pgSize]
  omega

theorem bitOf_userFrame (h : l.Fits) (hframe : l.UserFrame addr j) : l.bitOf addr = 8 * l.kernelBytes + j := by
  obtain ⟨hj, rfl⟩ := hframe
  obtain ⟨k, hstart, hle, hsum⟩ := h.userStart
  simp only [pgSize] at hstart ⊢
  rw [bitOf, if_pos (by omega)]
  simp only [pgSize]
  omega

/-- `pfree` finds a frame of the kernel pool. -/
theorem pfreeBit_kernelFrame (h : l.Fits) (hframe : l.KernelFrame addr j) : l.pfreeBit addr = j := by
  obtain ⟨hj, rfl⟩ := hframe
  obtain ⟨k, hstart, hle, hsum⟩ := h.userStart
  have hkernel := h.kernelStart
  simp only [pgSize] at hstart ⊢
  rw [pfreeBit, if_neg (by omega)]
  simp only [pgSize]
  omega

/-- It finds a frame of the user pool unless that is the first one and the bitmap of the
    kernel pool ends before its frames do. -/
theorem pfreeBit_userFrame_iff (h : l.Fits) (hframe : l.UserFrame addr j) :
    l.pfreeBit addr = 8 * l.kernelBytes + j ↔
      addr ≠ l.userStart ∨ l.userStart = l.kernelStart + 8 * l.kernelBytes * pgSize := by
  obtain ⟨hj, rfl⟩ := hframe
  obtain ⟨k, hstart, hle, hsum⟩ := h.userStart
  have hkernel := h.kernelStart
  simp only [pgSize] at hstart ⊢
  rw [pfreeBit]
  by_cases hzero : j = 0
  · rw [if_neg (by omega)]
    simp only [pgSize]
    omega
  · rw [if_pos (by omega)]
    simp only [pgSize]
    omega

end PoolLayout.Fits

/-! ## palloc -/

/-- `addr` is the address of frame `j` of a pool. -/
def PoolLayout.Frame (l : PoolLayout) : PoolFlag → Nat → Nat → Prop
  | .kernel => l.KernelFrame
  | .user => l.UserFrame

section Palloc

variable {l : PoolLayout} {pf : PoolFlag} {bits bits' : Nat → Bool} {addr : Nat}

/-- `palloc` sets the bit of the frame it hands out, which was clear. -/
theorem PoolLayout.Fits.palloc_frame (hl : l.Fits) (h : Returns (l.palloc pf) bits (some addr) bits') :
    ∃ i, l.Frame pf addr i ∧ bits (l.firstBit pf + i) = false ∧
      bits' = Function.update bits (l.firstBit pf + i) true := by
  simp only [PoolLayout.palloc, returns_bind, returns_query, Bitmap.returns_bitmapScan_one] at h
  obtain ⟨_, _, ⟨rfl, rfl⟩, _, _, ⟨rfl, i, rfl, hlt, hclear, -⟩, h⟩ := h
  simp only [returns_bind, returns_update, returns_pure, Option.some.injEq] at h
  obtain ⟨-, _, rfl, rfl, rfl⟩ := h
  refine ⟨i, ?_, hclear, rfl⟩
  obtain ⟨k, hstart, hle, hsum⟩ := hl.userStart
  have hkernel := hl.kernelStart
  simp only [pgSize] at hstart
  cases pf with
  | kernel =>
    have hi : i < 8 * l.kernelBytes := hlt
    refine ⟨hi, ?_⟩
    simp only [PoolLayout.phyAddrStart, pgSize]
    omega
  | user =>
    have hi : i < 8 * l.userBytes := hlt
    refine ⟨hi, ?_⟩
    simp only [PoolLayout.phyAddrStart, pgSize]
    omega

/-- Two stores that clear one bit each are the same where the bits are. -/
theorem clears_iff {i j : Nat} :
    (∀ bits : Nat → Bool, Function.update bits i false = Function.update bits j false) ↔ i = j := by
  constructor
  · intro h
    by_contra hne
    have hi := congrFun (h fun _ => true) i
    rw [Function.update_self, Function.update_of_ne hne] at hi
    cases hi
  · rintro rfl _
    rfl

end Palloc

/-- `free_a_phy_page` clears the bit that `palloc` has set; `pfree` does too, and so the two
    agree, unless the frame is the first one of the user pool and the bitmap of the kernel pool
    has a bit for not all of its frames. -/
theorem frees_invert_palloc_iff (allMemory : Nat) (pf : PoolFlag) (bits bits' : Nat → Bool) (addr : Nat)
    (h : Returns ((memPoolInit allMemory).palloc pf) bits (some addr) bits') :
    let l := memPoolInit allMemory
    let found := addr ≠ l.userStart ∨ l.userStart = l.kernelStart + 8 * l.kernelBytes * pgSize
    ∃ i < (l.poolBitmap pf bits).size, bits (l.firstBit pf + i) = false ∧
      bits' = Function.update bits (l.firstBit pf + i) true ∧
      (∀ b, l.freeAPhyPage addr b = Function.update b (l.firstBit pf + i) false) ∧
      ((∀ b, l.pfree addr b = Function.update b (l.firstBit pf + i) false) ↔ found) ∧
      ((∀ b, l.pfree addr b = l.freeAPhyPage addr b) ↔ found) := by
  intro l found
  have hl : l.Fits := memPoolInit_fits allMemory
  obtain ⟨i, hframe, hclear, hset⟩ := hl.palloc_frame h
  have hall : i < (l.poolBitmap pf bits).size ∧ l.bitOf addr = l.firstBit pf + i ∧
      (l.pfreeBit addr = l.firstBit pf + i ↔ found) := by
    cases pf with
    | kernel =>
      have hkernel : l.KernelFrame addr i := hframe
      refine ⟨hkernel.1, (hl.bitOf_kernelFrame hkernel).trans (Nat.zero_add i).symm, ?_⟩
      refine iff_of_true ((hl.pfreeBit_kernelFrame hkernel).trans (Nat.zero_add i).symm) (Or.inl ?_)
      obtain ⟨hi, rfl⟩ := hkernel
      obtain ⟨k, hstart, hle, -⟩ := hl.userStart
      rw [hstart, hl.kernelStart]
      simp only [pgSize]
      omega
    | user =>
      have huser : l.UserFrame addr i := hframe
      exact ⟨huser.1, hl.bitOf_userFrame huser, hl.pfreeBit_userFrame_iff huser⟩
  obtain ⟨hi, hbit, hpfree⟩ := hall
  refine ⟨i, hi, hclear, hset, fun b => by rw [PoolLayout.freeAPhyPage, hbit], ?_, ?_⟩
  · rw [← hpfree]
    exact clears_iff
  · rw [← hpfree, ← hbit]
    exact clears_iff

/-- With 32 MB both are right about the first frame of the user pool. -/
theorem frees_invert_palloc_32MB : ∃ bits' : Nat → Bool,
    Returns ((memPoolInit 0x2000000).palloc .user) (fun _ => false) (some 0x1100000) bits' ∧
      ∀ b, (memPoolInit 0x2000000).pfree 0x1100000 b = (memPoolInit 0x2000000).freeAPhyPage 0x1100000 b := by
  have hend : ((memPoolInit 0x2000000).palloc .user).checks (fun _ => false)
      (fun r _ => r = some 0x1100000) = true := by
    decide +kernel
  obtain ⟨r, bits', hret, hr⟩ := checks_eq_true.mp hend
  obtain rfl := of_decide_eq_true hr
  obtain ⟨-, -, -, -, -, -, hagree⟩ := frees_invert_palloc_iff _ _ _ _ _ hret
  exact ⟨bits', hret, hagree.mpr (Or.inr (by decide))⟩

/-- With four pages more, `pfree` leaves the bit of that frame set. -/
theorem pfree_misses_first_frame : ∃ (allMemory addr : Nat) (bits' : Nat → Bool),
    Returns ((memPoolInit allMemory).palloc .user) (fun _ => false) (some addr) bits' ∧
      (memPoolInit allMemory).pfree addr bits' ≠ fun _ => false := by
  have hend : ((memPoolInit 0x2004000).palloc .user).checks (fun _ => false)
      (fun r bits' => r = some 0x1102000 ∧ (memPoolInit 0x2004000).pfree 0x1102000 bits' 3840 = true) =
        true := by
    decide +kernel
  obtain ⟨r, bits', hret, hval⟩ := checks_eq_true.mp hend
  obtain ⟨rfl, hset⟩ := of_decide_eq_true hval
  refine ⟨_, _, bits', hret, fun heq => ?_⟩
  rw [heq] at hset
  cases hset

end ZxyOs
