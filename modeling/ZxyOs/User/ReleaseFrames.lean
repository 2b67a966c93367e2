/-
  ZxyOs.User.ReleaseFrames

  The frames an exiting process gives back (`user/wait_exit.c`).

  `release_prog_resource` goes through the user half of the page directory, page table by
  page table, and has the bit of every frame it finds cleared in the pool the frame's
  address says it is from.  Which bits these are is a matter of arithmetic on the addresses
  `mem_pool_init` chose: the mask for an entry of a page table has a digit too few, and so a
  frame from 256 MB on is looked for in the first two (`release_exactly_iff`).
-/

import ZxyOs.Kernel.Pools
import ZxyOs.Lib.Masks

namespace ZxyOs

open Lib

/-! ## The walk -/

/-- The directory of the running process and, by the address of their frames, the tables it leads to. -/
structure UserTables where
  pde : Nat → Nat
  table : Nat → Nat → Nat

/-- The loop over a page table, with `n` entries left. -/
def releasePtes (l : PoolLayout) (pte : Nat → Nat) : Nat → Nat → (Nat → Bool) → (Nat → Bool)
  | 0, _, bits => bits
  | n + 1, pteIdx, bits =>
    releasePtes l pte n (pteIdx + 1)
      (if pte pteIdx &&& 1 ≠ 0 then l.freeAPhyPage (pte pteIdx &&& 0xfffff00) bits else bits)

namespace UserTables

/-- Entry `pteIdx` of the table that entry `pdeIdx` of the directory leads to, which is what `pte_ptr` finds through
    the last entry of the directory. -/
def pte (u : UserTables) (pdeIdx pteIdx : Nat) : Nat := u.table (u.pde pdeIdx &&& 0xfffff000) pteIdx

/-- The loop over the directory, with `n` entries left. -/
def releasePdes (u : UserTables) (l : PoolLayout) : Nat → Nat → (Nat → Bool) → (Nat → Bool)
  | 0, _, bits => bits
  | n + 1, pdeIdx, bits =>
    u.releasePdes l n (pdeIdx + 1)
      (if u.pde pdeIdx &&& 1 ≠ 0 then
        l.freeAPhyPage (u.pde pdeIdx &&& 0xfffff000) (releasePtes l (u.pte pdeIdx) 1024 0 bits)
      else bits)

/-- The first part of `release_prog_resource`: the frames of the user half. -/
def releaseProgResource (u : UserTables) (l : PoolLayout) (bits : Nat → Bool) : Nat → Bool :=
  u.releasePdes l 768 0 bits

/-- `w` is an entry of the user half of the directory that leads to a page table. -/
def HasTable (u : UserTables) (w : Nat) : Prop := ∃ i < 768, u.pde i = w ∧ w &&& 1 ≠ 0

/-- `w` is an entry of such a table that leads to a page. -/
def Maps (u : UserTables) (w : Nat) : Prop :=
  ∃ i < 768, u.pde i &&& 1 ≠ 0 ∧ ∃ j < 1024, u.pte i j = w ∧ w &&& 1 ≠ 0

/-- The user half maps frames of the user pool through page tables from the kernel pool. -/
structure FromPools (u : UserTables) (l : PoolLayout) : Prop where
  table : ∀ w, u.HasTable w → ∃ j, l.KernelFrame (w &&& 0xfffff000) j
  page : ∀ w, u.Maps w → ∃ j, l.UserFrame (w &&& 0xfffff000) j

/-- The bits that are cleared are those of the page tables and of the pages. -/
structure ReleasesExactly (u : UserTables) (l : PoolLayout) (bits : Nat → Bool) : Prop where
  kernel : ∀ j < 8 * l.kernelBytes, u.releaseProgResource l bits j = true ↔
    bits j = true ∧ ¬ ∃ w, u.HasTable w ∧ l.KernelFrame (w &&& 0xfffff000) j
  user : ∀ j < 8 * l.userBytes, u.releaseProgResource l bits (8 * l.kernelBytes + j) = true ↔
    bits (8 * l.kernelBytes + j) = true ∧ ¬ ∃ w, u.Maps w ∧ l.UserFrame (w &&& 0xfffff000) j

/-- The pages whose bits are still set lie in the first 256 MB. -/
def TakenBelow256 (u : UserTables) (l : PoolLayout) (bits : Nat → Bool) : Prop :=
  ∀ w j, u.Maps w → l.UserFrame (w &&& 0xfffff000) j → bits (8 * l.kernelBytes + j) = true →
    w &&& 0xfffff000 < 2 ^ 28

end UserTables

/-! ## The masks -/

/-- What the mask of the inner loop leaves of an address. -/
theorem and_short (w : Nat) : w &&& 0xfffff00 = w % 2 ^ 28 / 256 * 256 := by
  have hmask : 0xfffff00 = (2 ^ 20 - 1) <<< 8 := by decide
  rw [hmask, and_shifted_mask]
  omega

/-! ## What is cleared -/

section Walk

variable {l : PoolLayout} {u : UserTables} {bits : Nat → Bool} {x n k : Nat}

theorem freeAPhyPage_eq_true {addr : Nat} : l.freeAPhyPage addr bits x = true ↔ bits x = true ∧ l.bitOf addr ≠ x := by
  rw [PoolLayout.freeAPhyPage]
  by_cases hx : x = l.bitOf addr
  · rw [hx, Function.update_self]
    simp
  · rw [Function.update_of_ne hx]
    exact (and_iff_left (Ne.symm hx)).symm

theorem releasePtes_eq_true {pte : Nat → Nat} : releasePtes l pte n k bits x = true ↔ bits x = true ∧
    ∀ j, k ≤ j → j < k + n → pte j &&& 1 ≠ 0 → l.bitOf (pte j &&& 0xfffff00) ≠ x := by
  induction n generalizing k bits with
  | zero => exact (and_iff_left fun j h₁ h₂ => by omega).symm
  | succ n ih =>
    rw [releasePtes, ih]
    have hfirst : (if pte k &&& 1 ≠ 0 then l.freeAPhyPage (pte k &&& 0xfffff00) bits else bits) x = true ↔
        bits x = true ∧ (pte k &&& 1 ≠ 0 → l.bitOf (pte k &&& 0xfffff00) ≠ x) := by
      split
      · next hpresent => rw [freeAPhyPage_eq_true, imp_iff_right hpresent]
      · next habsent => exact (and_iff_left fun h => absurd h habsent).symm
    rw [hfirst, and_assoc]
    refine and_congr_right fun _ => ⟨fun ⟨hk, hrest⟩ j h₁ h₂ => ?_, fun h => ⟨h k (Nat.le_refl k) (by omega), fun j h₁ h₂ => ?_⟩⟩
    · rcases Nat.eq_or_lt_of_le h₁ with rfl | hlt
      · exact hk
      · exact hrest j hlt (by omega)
    · exact h j (by omega) (by omega)

namespace UserTables

/-- No frame that entry `i` of the directory leads to, nor the page table itself, has bit `x`. -/
def Spares (u : UserTables) (l : PoolLayout) (x i : Nat) : Prop :=
  u.pde i &&& 1 ≠ 0 → l.bitOf (u.pde i &&& 0xfffff000) ≠ x ∧
    ∀ j < 1024, u.pte i j &&& 1 ≠ 0 → l.bitOf (u.pte i j &&& 0xfffff00) ≠ x

theorem releasePdes_eq_true : u.releasePdes l n k bits x = true ↔ bits x = true ∧
    ∀ i, k ≤ i → i < k + n → u.Spares l x i := by
  induction n generalizing k bits with
  | zero => exact (and_iff_left fun j h₁ h₂ => by omega).symm
  | succ n ih =>
    rw [releasePdes, ih]
    have hfirst : (if u.pde k &&& 1 ≠ 0 then
        l.freeAPhyPage (u.pde k &&& 0xfffff000) (releasePtes l (u.pte k) 1024 0 bits) else bits) x = true ↔
        bits x = true ∧ u.Spares l x k := by
      rw [Spares]
      split
      · next hpresent =>
        rw [freeAPhyPage_eq_true, releasePtes_eq_true, imp_iff_right hpresent, and_assoc, and_comm (a := ∀ j, _)]
        refine and_congr_right fun _ => and_congr_right fun _ => ⟨fun h j hj => ?_, fun h j _ hj => ?_⟩
        · exact h j (Nat.zero_le j) (by omega)
        · exact h j (by omega)
      · next habsent => exact (and_iff_left fun h => absurd h habsent).symm
    rw [hfirst, and_assoc]
    refine and_congr_right fun _ => ⟨fun ⟨hk, hrest⟩ j h₁ h₂ => ?_, fun h => ⟨h k (Nat.le_refl k) (by omega), fun j h₁ h₂ => ?_⟩⟩
    · rcases Nat.eq_or_lt_of_le h₁ with rfl | hlt
      · exact hk
      · exact hrest j hlt (by omega)
    · exact h j (by omega) (by omega)

/-- A bit is left alone unless the walk comes to it. -/
theorem releaseProgResource_eq_true : u.releaseProgResource l bits x = true ↔ bits x = true ∧
    (∀ w, u.HasTable w → l.bitOf (w &&& 0xfffff000) ≠ x) ∧ ∀ w, u.Maps w → l.bitOf (w &&& 0xfffff00) ≠ x := by
  rw [releaseProgResource, releasePdes_eq_true]
  refine and_congr_right fun _ => ⟨fun h => ⟨?_, ?_⟩, fun h i _ hi hpresent => ⟨?_, fun j hj hpte => ?_⟩⟩
  · rintro w ⟨i, hi, rfl, hpresent⟩
    exact (h i (Nat.zero_le i) (by omega) hpresent).1
  · rintro w ⟨i, hi, hpresent, j, hj, rfl, hpte⟩
    exact (h i (Nat.zero_le i) (by omega) hpresent).2 j hj hpte
  · exact h.1 _ ⟨i, by omega, rfl, hpresent⟩
  · exact h.2 _ ⟨i, by omega, hpresent, j, hj, rfl, hpte⟩

end UserTables

end Walk

/-! ## Which bits these are -/

namespace PoolLayout.Fits

variable {l : PoolLayout} {w addr j : Nat}

/-- Below 256 MB the short mask does no harm. -/
theorem bitOf_short (h : l.Fits) (hframe : l.UserFrame (w &&& 0xfffff000) j) (hlt : w &&& 0xfffff000 < 2 ^ 28) :
    l.bitOf (w &&& 0xfffff00) = 8 * l.kernelBytes + j := by
  obtain ⟨hj, haddr⟩ := hframe
  obtain ⟨k, hstart, hle, hsum⟩ := h.userStart
  rw [and_page] at haddr hlt
  simp only [pgSize] at hstart haddr
  rw [and_short, bitOf, if_pos (by omega)]
  simp only [pgSize]
  omega

/-- Above, it leads to a bit that belongs to neither pool. -/
theorem bitOf_short_ge (h : l.Fits) (hframe : l.UserFrame (w &&& 0xfffff000) j) (hge : 2 ^ 28 ≤ w &&& 0xfffff000) :
    8 * l.kernelBytes + 8 * l.userBytes ≤ l.bitOf (w &&& 0xfffff00) := by
  obtain ⟨hj, haddr⟩ := hframe
  obtain ⟨k, hstart, hle, hsum⟩ := h.userStart
  have hkernel := h.kernelStart
  rw [and_page] at haddr hge
  simp only [pgSize] at hstart haddr
  rw [and_short, bitOf, if_neg (by omega)]
  simp only [pgSize]
  omega

end PoolLayout.Fits

section Exactly

variable {l : PoolLayout} {u : UserTables} {bits : Nat → Bool}

/-- The walk comes to the bit of a frame of the user pool through a page in that frame, below 256 MB. -/
theorem short_bit_iff (h : l.Fits) (hu : u.FromPools l) {j : Nat} (hj : j < 8 * l.userBytes) :
    (∃ w, u.Maps w ∧ l.bitOf (w &&& 0xfffff00) = 8 * l.kernelBytes + j) ↔
      ∃ w, u.Maps w ∧ l.UserFrame (w &&& 0xfffff000) j ∧ w &&& 0xfffff000 < 2 ^ 28 := by
  constructor
  · rintro ⟨w, hw, hbit⟩
    obtain ⟨i, hi⟩ := hu.page w hw
    by_cases hlt : w &&& 0xfffff000 < 2 ^ 28
    · rw [h.bitOf_short hi hlt] at hbit
      obtain rfl : i = j := by omega
      exact ⟨w, hw, hi, hlt⟩
    · have hge := h.bitOf_short_ge hi (Nat.not_lt.mp hlt)
      omega
  · rintro ⟨w, hw, hframe, hlt⟩
    exact ⟨w, hw, h.bitOf_short hframe hlt⟩

theorem releasesExactly_iff (h : l.Fits) (hu : u.FromPools l) : u.ReleasesExactly l bits ↔ u.TakenBelow256 l bits := by
  -- no page is taken for a frame of the kernel pool
  have hpage {w j : Nat} (hw : u.Maps w) (hj : j < 8 * l.kernelBytes) : l.bitOf (w &&& 0xfffff00) ≠ j := by
    obtain ⟨i, hi⟩ := hu.page w hw
    by_cases hlt : w &&& 0xfffff000 < 2 ^ 28
    · rw [h.bitOf_short hi hlt]
      omega
    · have hge := h.bitOf_short_ge hi (Nat.not_lt.mp hlt)
      omega
  have htable {w j : Nat} (hw : u.HasTable w) : l.bitOf (w &&& 0xfffff000) = j ↔ l.KernelFrame (w &&& 0xfffff000) j := by
    obtain ⟨i, hi⟩ := hu.table w hw
    refine ⟨fun hbit => ?_, h.bitOf_kernelFrame⟩
    rw [h.bitOf_kernelFrame hi] at hbit
    exact hbit ▸ hi
  have huser {j : Nat} (hj : j < 8 * l.userBytes) : u.releaseProgResource l bits (8 * l.kernelBytes + j) = true ↔
      bits (8 * l.kernelBytes + j) = true ∧
        ¬ ∃ w, u.Maps w ∧ l.UserFrame (w &&& 0xfffff000) j ∧ w &&& 0xfffff000 < 2 ^ 28 := by
    rw [UserTables.releaseProgResource_eq_true, ← short_bit_iff h hu hj]
    refine and_congr_right fun _ => ⟨fun hspared => ?_, fun hspared => ⟨fun w hw hbit => ?_, fun w hw hbit => ?_⟩⟩
    · rintro ⟨w, hw, hbit⟩
      exact hspared.2 w hw hbit
    · have := ((htable hw).mp hbit).1
      omega
    · exact hspared ⟨w, hw, hbit⟩
  constructor
  · intro hexact w j hw hframe htaken
    by_contra hge
    have hcleared := hexact.user j hframe.1
    rw [huser hframe.1] at hcleared
    refine (hcleared.mp ⟨htaken, ?_⟩).2 ⟨w, hw, hframe⟩
    rintro ⟨w', -, hframe', hlt⟩
    rw [hframe'.2, ← hframe.2] at hlt
    exact hge hlt
  · intro hbelow
    refine ⟨fun j hj => ?_, fun j hj => ?_⟩
    · rw [UserTables.releaseProgResource_eq_true]
      refine and_congr_right fun _ => ⟨fun hspared => ?_, fun hspared => ⟨fun w hw hbit => ?_, fun w hw => hpage hw hj⟩⟩
      · rintro ⟨w, hw, hframe⟩
        exact hspared.1 w hw ((htable hw).mpr hframe)
      · exact hspared ⟨w, hw, (htable hw).mp hbit⟩
    · rw [huser hj]
      refine and_congr_right fun htaken => not_congr ⟨?_, ?_⟩
      · rintro ⟨w, hw, hframe, -⟩
        exact ⟨w, hw, hframe⟩
      · rintro ⟨w, hw, hframe⟩
        exact ⟨w, hw, hframe, hbelow w j hw hframe htaken⟩

end Exactly

/-- Of the pages an exiting process maps, those whose bits are still set must lie below 256 MB for exactly their bits
    and those of its page tables to be cleared. -/
theorem release_exactly_iff (allMemory : Nat) (u : UserTables) (bits : Nat → Bool)
    (hu : u.FromPools (memPoolInit allMemory)) :
    u.ReleasesExactly (memPoolInit allMemory) bits ↔ u.TakenBelow256 (memPoolInit allMemory) bits :=
  releasesExactly_iff (memPoolInit_fits allMemory) hu

/-- One page table in the first frame of the kernel pool, with one page, at `addr`. -/
def onePage (addr : Nat) : UserTables where
  pde := fun i => if i = 0 then 0x200007 else 0
  table := fun _ j => if j = 0 then addr + 7 else 0

theorem onePage_hasTable {addr w : Nat} (h : (onePage addr).HasTable w) : w = 0x200007 := by
  obtain ⟨i, -, rfl, hpresent⟩ := h
  show (if i = 0 then 0x200007 else 0) = 0x200007
  by_cases hi : i = 0
  · rw [if_pos hi]
  · have hzero : (onePage addr).pde i = 0 := if_neg hi
    rw [hzero] at hpresent
    exact absurd rfl hpresent

theorem onePage_maps {addr w : Nat} (h : (onePage addr).Maps w) : w = addr + 7 := by
  obtain ⟨i, -, -, j, -, rfl, hpresent⟩ := h
  show (if j = 0 then addr + 7 else 0) = addr + 7
  by_cases hj : j = 0
  · rw [if_pos hj]
  · have hzero : (onePage addr).pte i j = 0 := if_neg hj
    rw [hzero] at hpresent
    exact absurd rfl hpresent

/-- With 257 MB, of which the user pool has its first frame at 0x8180000. -/
theorem onePage_fromPools {addr j : Nat} (hj : j < 32640) (haddr : addr = 0x8180000 + 4096 * j) :
    (onePage addr).FromPools (memPoolInit 0x10100000) where
  table := by
    intro w hw
    rw [onePage_hasTable hw]
    exact ⟨0, by decide⟩
  page := by
    intro w hw
    refine ⟨j, hj, ?_⟩
    rw [onePage_maps hw, and_page]
    show _ = 0x8180000 + 4096 * j
    omega

/-- A page in the first frame of the user pool. -/
theorem release_exactly_first : (onePage 0x8180000).ReleasesExactly (memPoolInit 0x10100000) fun _ => true :=
  (release_exactly_iff 0x10100000 (onePage 0x8180000) (fun _ => true) (onePage_fromPools (j := 0) (by decide) rfl)).mpr
    fun w _ hw _ _ => by
      rw [onePage_maps hw]
      decide

/-- A page in the frame at 256 MB. -/
theorem release_misses_frame : ∃ (allMemory : Nat) (u : UserTables) (bits : Nat → Bool),
    u.FromPools (memPoolInit allMemory) ∧ ¬ u.ReleasesExactly (memPoolInit allMemory) bits := by
  have hpools := @onePage_fromPools 0x10000000 32384 (by decide) (by decide)
  refine ⟨0x10100000, onePage 0x10000000, fun _ => true, hpools, fun h => ?_⟩
  rw [releasesExactly_iff (memPoolInit_fits _) hpools] at h
  have hlt := h 0x10000007 32384 ⟨0, by decide, by decide, 0, by decide, rfl, by decide⟩ (by decide) rfl
  exact absurd hlt (by decide)

end ZxyOs
