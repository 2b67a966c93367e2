/-
  ZxyOs.Fs.Release

  What `inode_release` gives back.

  Each block is given back by clearing its bit and writing the sector of the bitmap that
  holds it, so bits are described by the set that is cleared (`Cleared`), and the disk by
  what lies outside the bitmap and by the bitmap being on disk as it is in memory
  (`Bitmap.OnDisk`).  The loop over the block list ends before its last entry, and the
  buffers the call asks for are not checked; where there is memory and the last entry is
  empty, nothing is left and nothing else is touched.
-/

import ZxyOs.Fs.DirInsert
import ZxyOs.Fs.OpenUndo

namespace ZxyOs

open Lib Lib.Exec

/-! ## Bitmaps on disk -/

namespace Bitmap

variable {b c : Bitmap} {disk : Bytes} {lo hi i : Nat}

theorem byteAt_congr {k : Nat} (h : ∀ j < 8, b.bit (8 * k + j) = c.bit (8 * k + j)) : b.byteAt k = c.byteAt k := by
  have hmap : ((List.range 8).map fun j => if b.bit (8 * k + j) then 2 ^ j else 0) =
      (List.range 8).map fun j => if c.bit (8 * k + j) then 2 ^ j else 0 := by
    apply List.map_congr_left
    intro j hj
    rw [h j (List.mem_range.mp hj)]
  rw [byteAt, byteAt, hmap]

/-- The sectors from `lo` up to `hi` hold the bitmap. -/
def OnDisk (b : Bitmap) (disk : Bytes) (lo hi : Nat) : Prop :=
  ∀ k, 512 * lo + k < 512 * hi → disk (512 * lo + k) = b.byteAt k

/-- `bitmap_sync` after a bit has been set. -/
theorem OnDisk.bitmapSet {v : Bool} (h : b.OnDisk disk lo hi) :
    (b.bitmapSet i v).OnDisk
      (writeSector disk (lo + i / 4096) ((b.bitmapSet i v).bytesFrom (i / 4096 * 512))) lo hi := by
  intro k hk
  rw [writeSector]
  rcases Nat.lt_or_ge (512 * lo + k) (512 * (lo + i / 4096)) with hlt | hge
  · rw [Bytes.splice_outside (Or.inl hlt), h k hk]
    exact byteAt_congr fun j hj => (bitmapSet_bit_ne (by omega)).symm
  · rcases Nat.lt_or_ge (512 * lo + k) (512 * (lo + i / 4096) + 512) with hin | hout
    · rw [Bytes.splice_inside hge hin, bytesFrom]
      congr 1
      omega
    · rw [Bytes.splice_outside (Or.inr hout), h k hk]
      exact byteAt_congr fun j hj => (bitmapSet_bit_ne (by omega)).symm

/-- What is written elsewhere does not matter. -/
theorem OnDisk.congr {disk' : Bytes} (h : b.OnDisk disk lo hi)
    (hsame : ∀ x, 512 * lo ≤ x → x < 512 * hi → disk' x = disk x) : b.OnDisk disk' lo hi :=
  fun k hk => (hsame _ (Nat.le_add_right _ _) hk).trans (h k hk)

end Bitmap

/-! ## Clearing bits -/

section Release

variable {s s' t u : Fs} {I J : Nat → Prop} {i j lba : Nat} {v : Inode}

/-- The block bitmap on disk is the one in memory. -/
def Fs.BlocksOnDisk (s : Fs) : Prop :=
  s.blockBitmap.OnDisk s.disk s.part.sb.blockBitmapLba s.part.sb.inodeBitmapLba

/-- And so is the bitmap of the inodes. -/
def Fs.InodesOnDisk (s : Fs) : Prop :=
  s.inodeMap.OnDisk s.disk s.part.sb.inodeBitmapLba s.part.sb.inodeTableLba

/-- The bits in `I` have been cleared in the block bitmap, in memory and on disk. -/
structure Cleared (s t : Fs) (I : Nat → Prop) : Prop where
  rest : t = { s with blockBitmap := t.blockBitmap, disk := t.disk }
  len : t.blockBitmap.btmpBytesLen = s.blockBitmap.btmpBytesLen
  bit : ∀ j, t.blockBitmap.bit j = true ↔ s.blockBitmap.bit j = true ∧ ¬ I j
  elsewhere : ∀ x, x < 512 * s.part.sb.blockBitmapLba ∨ 512 * s.part.sb.inodeBitmapLba ≤ x → t.disk x = s.disk x
  onDisk : s.BlocksOnDisk → t.BlocksOnDisk

namespace Cleared

theorem part (h : Cleared s t I) : t.part = s.part := by rw [h.rest]

theorem size (h : Cleared s t I) : t.blockBitmap.size = s.blockBitmap.size := by
  rw [Bitmap.size, Bitmap.size, h.len]

theorem refl (hI : ∀ j, ¬ I j) : Cleared s s I where
  rest := rfl
  len := rfl
  bit := fun j => ⟨fun h => ⟨h, hI j⟩, fun h => h.1⟩
  elsewhere := fun _ _ => rfl
  onDisk := fun h => h

theorem trans {K : Nat → Prop} (h : Cleared s t I) (h' : Cleared t u J) (hK : ∀ j, K j ↔ I j ∨ J j) :
    Cleared s u K where
  rest := by rw [h'.rest, h.rest]
  len := h'.len.trans h.len
  bit := by
    intro j
    rw [h'.bit, h.bit, hK, not_or, and_assoc]
  elsewhere := by
    intro x hx
    rw [h'.elsewhere x (by rwa [h.part]), h.elsewhere x hx]
  onDisk := fun hs => h'.onDisk (h.onDisk hs)

end Cleared

/-- Block `lba` can be given back: it is a data block, and not the first. -/
structure Fs.Releasable (s : Fs) (lba : Nat) : Prop where
  onDisk : lba ≤ maxLba
  first : s.part.sb.dataStartLba < lba
  inMap : lba - s.part.sb.dataStartLba < s.blockBitmap.size

theorem Fs.Releasable.idx (h : s.Releasable lba) :
    blockBitmapIdx s.part.sb lba = lba - s.part.sb.dataStartLba := by
  have hfirst := h.first
  have heq : s.part.sb.dataStartLba + (lba - s.part.sb.dataStartLba) = lba := by omega
  have hidx := blockBitmapIdx_data (i := lba - s.part.sb.dataStartLba)
    (by rw [heq]; exact h.onDisk)
  rwa [heq] at hidx

/-- A block is given back, and its bit alone is cleared. -/
theorem releaseBlock_cleared (hl : s.Layout) (htable : s.part.sb.inodeTableLba ≤ maxLba) (h : s.Releasable lba) :
    ∃ t, Returns (releaseBlock lba) s () t ∧
      Cleared s t (fun b => b = lba - s.part.sb.dataStartLba) := by
  set idx := lba - s.part.sb.dataStartLba with hidx
  have hsector := hl.blockBitmap idx h.inMap
  have hbelow := hl.inodeBitmap 0 hl.nonempty.2
  have hfirst := h.first
  refine ⟨{ s with
      blockBitmap := s.blockBitmap.bitmapSet idx false
      disk := s.syncedBlockBitmap s.disk (s.blockBitmap.bitmapSet idx false) idx }, ?_, ?_⟩
  · simp only [releaseBlock, blockBitmapSet, returns_bind, returns_query, returns_assert, returns_require,
      returns_update, returns_bitmapSync_block, id]
    refine ⟨s, s, ⟨rfl, rfl⟩, ?_⟩
    rw [h.idx]
    refine ⟨(), s, ⟨by omega, rfl⟩, (), _, ⟨s, s, ⟨rfl, rfl⟩, (), s, ⟨h.inMap, rfl⟩, rfl⟩, ?_, rfl⟩
    show s.part.sb.blockBitmapLba + idx / 4096 ≤ maxLba
    omega
  · refine ⟨rfl, rfl, fun j => ?_, fun x hx => ?_, fun hon => ?_⟩
    · show (s.blockBitmap.bitmapSet idx false).bit j = true ↔ _
      by_cases hj : j = idx
      · rw [hj, Bitmap.bitmapSet_bit_self]
        simp
      · rw [Bitmap.bitmapSet_bit_ne hj]
        simp [hj]
    · exact Bytes.splice_outside (by omega)
    · exact Bitmap.OnDisk.bitmapSet hon

theorem Fs.Releasable.cleared (h : s.Releasable lba) (hc : Cleared s t I) : t.Releasable lba where
  onDisk := h.onDisk
  first := by
    rw [hc.part]
    exact h.first
  inMap := by
    rw [hc.part, hc.size]
    exact h.inMap

theorem Fs.Layout.cleared (hl : s.Layout) (hc : Cleared s t I) : t.Layout := by
  have hmap : t.inodeMap = s.inodeMap := by rw [hc.rest]
  refine ⟨?_, ?_, ?_, ?_, ?_⟩
  · rw [hc.part]
    exact hl.entrySize
  · rw [hc.part, hc.size]
    exact hl.blockBitmap
  · rw [hc.part, hmap]
    exact hl.inodeBitmap
  · rw [hc.part]
    exact hl.inodeTable
  · rw [hc.size, hmap]
    exact hl.nonempty

/-- The block loop clears the bits of the entries it comes to. -/
theorem releaseBlocks_cleared {allBlocks : Nat → Nat} (n k : Nat) (hl : s.Layout)
    (htable : s.part.sb.inodeTableLba ≤ maxLba)
    (h : ∀ j, k ≤ j → j < k + n → allBlocks j ≠ 0 → s.Releasable (allBlocks j)) :
    ∃ t, Returns (releaseBlocks allBlocks n k) s () t ∧
      Cleared s t fun b => ∃ j, k ≤ j ∧ j < k + n ∧ allBlocks j ≠ 0 ∧ b = allBlocks j - s.part.sb.dataStartLba := by
  induction n generalizing s k with
  | zero =>
    refine ⟨s, returns_pure.mpr ⟨rfl, rfl⟩, .refl ?_⟩
    rintro b ⟨j, hk, hj, -⟩
    omega
  | succ n ih =>
    simp only [releaseBlocks]
    by_cases h0 : allBlocks k = 0
    · -- a hole
      obtain ⟨t, hrun, hc⟩ := ih (k + 1) hl htable fun j hk hj => h j (by omega) (by omega)
      refine ⟨t, ?_, (Cleared.refl (I := fun _ => False) fun _ => id).trans hc ?_⟩
      · rw [if_neg (not_not.mpr h0)]
        exact hrun
      · intro b
        rw [false_or]
        constructor
        · rintro ⟨j, hk, hj, hne, hb⟩
          have hjk : j ≠ k := fun heq => hne (heq ▸ h0)
          exact ⟨j, by omega, by omega, hne, hb⟩
        · rintro ⟨j, hk, hj, hne, hb⟩
          exact ⟨j, by omega, by omega, hne, hb⟩
    · have hgood := h k le_rfl (by omega) h0
      obtain ⟨s₁, hblock, hc₁⟩ := releaseBlock_cleared hl htable hgood
      obtain ⟨t, hrun, hc⟩ := ih (k + 1) (hl.cleared hc₁) (by rwa [hc₁.part])
        fun j hk hj hne => (h j (by omega) (by omega) hne).cleared hc₁
      refine ⟨t, ?_, hc₁.trans hc ?_⟩
      · rw [if_pos h0]
        exact returns_bind.mpr ⟨(), s₁, hblock, hrun⟩
      · intro b
        rw [hc₁.part]
        constructor
        · rintro ⟨j, hk, hj, hne, hb⟩
          rcases Nat.eq_or_lt_of_le hk with rfl | hlt
          · exact Or.inl hb
          · exact Or.inr ⟨j, hlt, by omega, hne, hb⟩
        · rintro (hb | ⟨j, hk, hj, hne, hb⟩)
          · exact ⟨k, le_rfl, by omega, h0, hb⟩
          · exact ⟨j, by omega, by omega, hne, hb⟩

/-! ## Opening and closing the inode -/

/-- The disk and the bitmaps are as they were. -/
structure SameStore (s t : Fs) : Prop where
  part : t.part = s.part
  disk : t.disk = s.disk
  blockBitmap : t.blockBitmap = s.blockBitmap
  inodeMap : t.inodeMap = s.inodeMap

theorem SameStore.trans (h : SameStore s t) (h' : SameStore t u) : SameStore s u :=
  ⟨h'.part.trans h.part, h'.disk.trans h.disk, h'.blockBitmap.trans h.blockBitmap, h'.inodeMap.trans h.inodeMap⟩

/-- `v` is what `inode_open` finds as inode `i`: the cached inode, or the one in the table. -/
def Fs.Opens (s : Fs) (i : Nat) (v : Inode) : Prop :=
  (∃ a, s.cached i = some a ∧ s.inodes a = some v) ∨ s.cached i = none ∧ v = s.slot i

/-- What `inode_open` asks of the heap. -/
def Fs.openRequests (s : Fs) (i : Nat) : Nat := if (s.cached i).isSome then 0 else 2

theorem findOpenInode_runs {l : List Nat} (hl : ∀ a ∈ l, s.inodes a ≠ none) :
    Returns (findOpenInode i l) s (l.find? (s.holdsNo i)) s := by
  induction l with
  | nil => exact returns_pure.mpr ⟨rfl, rfl⟩
  | cons a l ih =>
    obtain ⟨v, hv⟩ := Option.ne_none_iff_exists'.mp (hl a List.mem_cons_self)
    refine returns_bind.mpr ⟨v, s, returns_getInode.mpr ⟨hv, rfl⟩, ?_⟩
    by_cases hno : v.iNo = i
    · rw [if_pos hno, List.find?_cons_of_pos (Fs.holdsNo_iff.mpr ⟨v, hv, hno⟩)]
      exact returns_pure.mpr ⟨rfl, rfl⟩
    · have hother : ¬ s.holdsNo i a = true := by
        intro hholds
        obtain ⟨w, hw, hwno⟩ := Fs.holdsNo_iff.mp hholds
        rw [hv] at hw
        exact hno (Option.some.inj hw ▸ hwno)
      rw [if_neg hno, List.find?_cons_of_neg hother]
      exact ih fun b hb => hl b (List.mem_cons_of_mem _ hb)

/-- An inode from the table takes two requests. -/
theorem inodeOpen_served {a : Nat} (hcached : s.cached i = none) (h : Returns (inodeOpen i) s a t) :
    s.HasMemory 2 ∧ t.heap.next = s.heap.next + 2 := by
  simp only [inodeOpen, returns_bind, returns_query] at h
  obtain ⟨_, _, ⟨rfl, rfl⟩, o, _, hfind, h⟩ := h
  obtain ⟨rfl, rfl⟩ := returns_findOpenInode hfind
  rw [show (id s).openInodes.find? (s.holdsNo i) = none from hcached] at h
  simp only [returns_bind, returns_locateInode, returns_fits] at h
  obtain ⟨_, _, ⟨-, rfl, rfl⟩, inodeFound, t₁, h₁, inodeBuf, t₂, h₂, -, _, ⟨hbuf, rfl⟩, w, t₃, hread, h⟩ := h
  obtain rfl := keeps_readSlot (R := Eq) hread
  rcases mallocFrom_inv h₁ with ⟨rfl, -⟩ | ⟨rfl, rfl⟩
  · exact absurd h (returns_stop _)
  · simp only [returns_bind, returns_putInode, returns_update, returns_pure] at h
    obtain ⟨-, _, rfl, -, _, rfl, _, t₃, hfree, rfl, rfl⟩ := h
    obtain ⟨b, rfl⟩ := Option.ne_none_iff_exists'.mp hbuf
    obtain ⟨hrun, hfull₂⟩ := served_of_sysMalloc h₂
    have hnext := (returns_sysMalloc h₂).2.1
    have hfull₁ : s.heap.full s.heap.next = false := by
      simp only [mallocFrom, returns_bind, returns_query] at h₁
      obtain ⟨_, _, ⟨rfl, rfl⟩, h₁⟩ := h₁
      by_contra hfull
      rw [Bool.not_eq_false] at hfull
      rw [if_pos hfull] at h₁
      simp only [returns_bind, returns_pure] at h₁
      obtain ⟨_, _, -, hnone, -⟩ := h₁
      cases hnone
    refine ⟨⟨hrun, fun k hk => ?_⟩, ?_⟩
    · rcases Nat.lt_succ_iff_lt_or_eq.mp hk with hk | rfl
      · obtain rfl : k = 0 := by omega
        exact hfull₁
      · exact hfull₂
    · exact (returns_sysFree hfree).2.trans hnext

/-- The inode that has been opened, and what opening it leaves alone. -/
theorem inodeOpen_same {a : Nat} (hopens : s.Opens i v) (h : Returns (inodeOpen i) s a t) :
    (∃ c, t.inodes a = some { v with iOpenCnt := c }) ∧ SameStore s t ∧ t.tasks = s.tasks ∧ t.cur = s.cur ∧
      t.heap.full = s.heap.full ∧ t.heap.next = s.heap.next + s.openRequests i := by
  rcases inodeOpen_inv h with ⟨w, hcached, hw, -, rfl⟩ | ⟨h', hcached, -, rfl, -, hfull, rfl⟩
  · obtain rfl : w = v := by
      rcases hopens with ⟨a', ha', hv⟩ | ⟨hnone, -⟩
      · rw [hcached] at ha'
        obtain rfl := Option.some.inj ha'
        exact Option.some.inj (hw.symm.trans hv)
      · rw [hcached] at hnone
        cases hnone
    refine ⟨⟨_, Fs.setInode_self⟩, ⟨rfl, rfl, rfl, rfl⟩, rfl, rfl, rfl, ?_⟩
    rw [Fs.openRequests, hcached]
    rfl
  · obtain rfl : v = s.slot i := by
      rcases hopens with ⟨a', ha', -⟩ | ⟨-, hv⟩
      · rw [hcached] at ha'
        cases ha'
      · exact hv
    refine ⟨⟨1, Function.update_self _ _ _⟩, ⟨rfl, rfl, rfl, rfl⟩, rfl, rfl, hfull, ?_⟩
    rw [Fs.openRequests, hcached]
    exact (inodeOpen_served hcached h).2

/-- A request to the kernel pool that is served. -/
theorem mallocFrom_runs {user : Bool} (hfull : s.heap.full s.heap.next = false) :
    Returns (mallocFrom user) s (some s.heap.next) { s with heap := s.heap.alloc user } := by
  simp only [mallocFrom, returns_bind, returns_query]
  refine ⟨s.heap, s, ⟨rfl, rfl⟩, ?_⟩
  rw [if_neg (by rw [hfull]; decide)]
  simp only [returns_bind, returns_update, returns_pure]
  exact ⟨(), _, rfl, trivial, rfl⟩

/-- Where there is memory the inode is opened. -/
theorem inodeOpen_runs (hok : s.CacheOk) (htable : s.TableFits) (hi : i < 4096)
    (hmem : s.HasMemory (s.openRequests i)) : ∃ a t, Returns (inodeOpen i) s a t := by
  have hfind := findOpenInode_runs (i := i) fun a ha => (hok.mem a).mp ha
  rw [show s.openInodes.find? (s.holdsNo i) = s.cached i from rfl] at hfind
  cases hcached : s.cached i with
  | some a =>
    obtain ⟨-, v, hv, -⟩ := Fs.cached_some hcached
    rw [hcached] at hfind
    refine ⟨a, s.setInode a { v with iOpenCnt := v.iOpenCnt + 1 }, ?_⟩
    simp only [inodeOpen, returns_bind, returns_query]
    refine ⟨s, s, ⟨rfl, rfl⟩, some a, s, hfind, ?_⟩
    simp only [returns_bind, returns_getInode, returns_putInode, returns_pure]
    exact ⟨v, s, ⟨hv, rfl⟩, (), _, rfl, trivial, rfl⟩
  | none =>
    rw [hcached] at hfind
    rw [Fs.openRequests, hcached] at hmem
    obtain ⟨⟨k, hk⟩, hfull⟩ := hmem
    have h₁ := @mallocFrom_runs _ false (hfull 0 (by decide))
    have h₂ : ∃ t, Returns sysMalloc { s with heap := s.heap.alloc false } (some (s.heap.next + 1)) t ∧
        t = { s with heap := t.heap } := by
      have hmem₁ : Fs.HasMemory { s with heap := s.heap.alloc false } 1 := by
        refine ⟨⟨k, hk⟩, fun j hj => ?_⟩
        obtain rfl : j = 0 := by omega
        exact hfull 1 (by decide)
      obtain ⟨t, ht, -, hsame⟩ := sysMalloc_returns hmem₁
      exact ⟨t, ht, hsame⟩
    obtain ⟨t₂, h₂, hsame⟩ := h₂
    have hpos : t₂.inodePos i = s.inodePos i := by
      rw [hsame]
      rfl
    have hread : Returns (readSlot (s.inodePos i)) t₂ (t₂.slot i) t₂ := by
      rw [← hpos]
      refine returns_readSlot.mpr ⟨?_, rfl, rfl⟩
      rw [hpos]
      exact (htable.secLba_le hi).1
    obtain ⟨t₃, h₃⟩ := sysFree_returns { t₂ with
      inodes := Function.update t₂.inodes s.heap.next (some { t₂.slot i with iOpenCnt := 1 })
      openInodes := s.heap.next :: t₂.openInodes } (s.heap.next + 1)
    refine ⟨s.heap.next, t₃, ?_⟩
    simp only [inodeOpen, returns_bind, returns_query]
    refine ⟨s, s, ⟨rfl, rfl⟩, none, s, hfind, ?_⟩
    simp only [returns_bind, returns_locateInode, returns_fits]
    refine ⟨_, s, ⟨hi, rfl, rfl⟩, _, _, h₁, _, t₂, h₂, (), t₂, ⟨by simp, rfl⟩, _, t₂, hread, ?_⟩
    simp only [returns_bind, returns_putInode, returns_update, returns_pure]
    exact ⟨(), _, rfl, (), _, rfl, (), t₃, h₃, trivial, rfl⟩

/-- Closing an inode is always possible. -/
theorem inodeClose_runs {a : Nat} (hv : s.inodes a = some v) :
    ∃ t, Returns (inodeClose a) s () t ∧ SameStore s t := by
  simp only [inodeClose, returns_bind, returns_getInode, returns_putInode]
  generalize hcnt : (if v.iOpenCnt = 0 then 2 ^ 32 - 1 else v.iOpenCnt - 1) = c
  by_cases hc : c = 0
  · obtain ⟨t, ht⟩ := sysFree_returns { s with
      openInodes := s.openInodes.filter (· ≠ a)
      inodes := Function.update (Function.update s.inodes a (some { v with iOpenCnt := c })) a none } a
    refine ⟨t, ⟨v, s, ⟨hv, rfl⟩, (), _, rfl, ?_⟩, ?_⟩
    · rw [hcnt, if_pos hc]
      exact returns_bind.mpr ⟨(), _, (returns_update _ _).mpr rfl, ht⟩
    · have hsame := (returns_sysFree ht).1
      rw [hsame]
      exact ⟨rfl, rfl, rfl, rfl⟩
  · refine ⟨s.setInode a { v with iOpenCnt := c }, ⟨v, s, ⟨hv, rfl⟩, (), _, rfl, ?_⟩, ⟨rfl, rfl, rfl, rfl⟩⟩
    rw [hcnt, if_neg hc]
    exact returns_pure.mpr ⟨rfl, rfl⟩

/-- The inode that is opened is the one in the cache, or comes to a new address. -/
theorem inodeOpen_at {a : Nat} (hok : s.CacheOk) (h : Returns (inodeOpen i) s a t) :
    (∀ b, b ≠ a → t.inodes b = s.inodes b) ∧ (s.cached i = some a ∨ s.cached i = none ∧ s.inodes a = none) := by
  rcases inodeOpen_inv h with ⟨v, hcached, -, -, rfl⟩ | ⟨h', hcached, -, rfl, -, -, rfl⟩
  · exact ⟨fun b hb => Fs.setInode_of_ne hb, Or.inl hcached⟩
  · refine ⟨fun b hb => Function.update_of_ne hb _ _, Or.inr ⟨hcached, ?_⟩⟩
    by_contra hsome
    exact absurd (hok.inode_lt _ hsome) (Nat.lt_irrefl _)

/-- Closing an inode takes a reference away, and the inode with the last. -/
theorem inodeClose_at {a : Nat} {x : Unit} (hv : s.inodes a = some v) (h : Returns (inodeClose a) s x t) :
    (∀ b, b ≠ a → t.inodes b = s.inodes b) ∧ (t.inodes a = none ∨ ∃ c, t.inodes a = some { v with iOpenCnt := c }) ∧
      t.dirs = s.dirs ∧ t.rootDir = s.rootDir := by
  simp only [inodeClose, returns_bind, returns_getInode, returns_putInode] at h
  obtain ⟨w, _, ⟨hw, rfl⟩, _, _, rfl, h⟩ := h
  obtain rfl : v = w := Option.some.inj (hv.symm.trans hw)
  generalize (if v.iOpenCnt = 0 then 2 ^ 32 - 1 else v.iOpenCnt - 1) = c at h
  split at h
  · simp only [returns_bind, returns_update] at h
    obtain ⟨_, _, rfl, hfree⟩ := h
    rw [(returns_sysFree hfree).1]
    refine ⟨fun b hb => ?_, Or.inl (Function.update_self _ _ _), rfl, rfl⟩
    show Function.update (Function.update s.inodes a _) a none b = _
    rw [Function.update_of_ne hb, Function.update_of_ne hb]
  · obtain ⟨-, rfl⟩ := returns_pure.mp h
    exact ⟨fun b hb => Function.update_of_ne hb _ _, Or.inr ⟨c, Function.update_self _ _ _⟩, rfl, rfl⟩

/-- A directory handle can be closed as well. -/
theorem dirClose_runs {p : DirPtr} {a : Nat} (ha : s.handle p = some a) (hv : s.inodes a = some v) :
    ∃ t, Returns (dirClose p) s () t ∧ SameStore s t ∧ (∀ b, b ≠ a → t.inodes b = s.inodes b) ∧
      (t.inodes a = none ∨ ∃ c, t.inodes a = some { v with iOpenCnt := c }) := by
  cases p with
  | root => exact ⟨s, returns_pure.mpr ⟨rfl, rfl⟩, ⟨rfl, rfl, rfl, rfl⟩, fun _ _ => rfl, Or.inr ⟨v.iOpenCnt, hv⟩⟩
  | heap d =>
    obtain ⟨dir, hdir, rfl⟩ := Option.map_eq_some_iff.mp ha
    obtain ⟨t₁, hclose, hst⟩ := inodeClose_runs hv
    obtain ⟨hother, hself, -⟩ := inodeClose_at hv hclose
    obtain ⟨t₂, hfree⟩ := sysFree_returns { t₁ with dirs := Function.update t₁.dirs d none } d
    have hfreed := (returns_sysFree hfree).1
    refine ⟨t₂, ?_, ?_, ?_, ?_⟩
    · simp only [dirClose, getDir, returns_bind, returns_query, returns_deref, returns_update]
      exact ⟨dir, s, ⟨_, s, ⟨rfl, rfl⟩, hdir, rfl⟩, (), t₁, hclose, (), _, rfl, hfree⟩
    · rw [hfreed]
      exact ⟨hst.part, hst.disk, hst.blockBitmap, hst.inodeMap⟩
    · rw [hfreed]
      exact hother
    · rw [hfreed]
      exact hself

/-! ## Releasing an inode -/

/-- Inode `i`, which `inode_open` finds as `v`, has a well-formed block map: its blocks are
    data blocks in use, all different, and none is the first, which the root has. -/
structure Fs.ReleaseOk (s : Fs) (i : Nat) (v : Inode) : Prop where
  cache : s.CacheOk
  layout : s.Layout
  table : s.TableFits
  number : i < 4096
  inMap : i < s.inodeMap.size
  opens : s.Opens i v
  own : v.iNo = i
  blocks : s.BlocksOk v
  notFirst : ∀ k < 140, v.blockAddr s.disk k ≠ s.part.sb.dataStartLba
  tableNotFirst : v.sector 12 ≠ s.part.sb.dataStartLba

/-- Bit `b` stands for the index table of `v` or for one of its first `n` blocks. -/
def Fs.BlockBelow (s : Fs) (v : Inode) (n b : Nat) : Prop :=
  v.sector 12 ≠ 0 ∧ b = v.sector 12 - s.part.sb.dataStartLba ∨
    ∃ k < n, v.blockAddr s.disk k ≠ 0 ∧ b = v.blockAddr s.disk k - s.part.sb.dataStartLba

/-- The bits in `I` and inode `i` have been given back: their bits are clear, the slot of
    the inode is zero, and there is nothing else that has changed. -/
structure Releases (s s' : Fs) (i : Nat) (I : Nat → Prop) : Prop where
  blockLen : s'.blockBitmap.btmpBytesLen = s.blockBitmap.btmpBytesLen
  blocks : ∀ b, s'.blockBitmap.bit b = true ↔ s.blockBitmap.bit b = true ∧ ¬ I b
  inodeLen : s'.inodeMap.btmpBytesLen = s.inodeMap.btmpBytesLen
  inodes : ∀ j, s'.inodeMap.bit j = true ↔ s.inodeMap.bit j = true ∧ j ≠ i
  slot : ∀ k < 76, s'.disk (s.slotAddr i + k) = 0
  elsewhere : ∀ x, x < 512 * s.part.sb.blockBitmapLba ∨ 512 * s.part.sb.inodeTableLba ≤ x →
    x < s.slotAddr i ∨ s.slotAddr i + 76 ≤ x → s'.disk x = s.disk x
  blocksOnDisk : s.BlocksOnDisk → s'.BlocksOnDisk
  inodesOnDisk : s.InodesOnDisk → s'.InodesOnDisk

/-- The end of `inode_release`, once the blocks are given back. -/
def releaseSlot (iNo inodeToDel : Nat) : FsM Unit := do
  inodeMapSet iNo false
  bitmapSync iNo .inodeBitmap
  let ioBuf ← sysMalloc
  fits (ioBuf ≠ none)
  inodeDelete iNo 1024
  sysFree ioBuf
  inodeClose inodeToDel

theorem Fs.InUse.releasable (h : s.InUse lba) (hne : lba ≠ s.part.sb.dataStartLba) : s.Releasable lba := by
  obtain ⟨hle, b, hb, -, rfl⟩ := h
  refine ⟨hle, by omega, ?_⟩
  rwa [Nat.add_sub_cancel_left]

theorem Fs.Releasable.same (h : s.Releasable lba) (hst : SameStore s t) : t.Releasable lba where
  onDisk := h.onDisk
  first := by
    rw [hst.part]
    exact h.first
  inMap := by
    rw [hst.part, hst.blockBitmap]
    exact h.inMap

theorem Fs.Layout.same (hl : s.Layout) (hst : SameStore s t) : t.Layout := by
  refine ⟨?_, ?_, ?_, ?_, ?_⟩
  · rw [hst.part]
    exact hl.entrySize
  · rw [hst.part, hst.blockBitmap]
    exact hl.blockBitmap
  · rw [hst.part, hst.inodeMap]
    exact hl.inodeBitmap
  · rw [hst.part]
    exact hl.inodeTable
  · rw [hst.blockBitmap, hst.inodeMap]
    exact hl.nonempty

/-- The blocks of the open inode are given back, but for the last. -/
theorem inodeRelease_blocks {a : Nat} (hok : s.ReleaseOk i v) (hopen : Returns (inodeOpen i) s a t) :
    ∃ u, (∀ s', Returns (inodeRelease i) s () s' ↔ Returns (releaseSlot i a) u () s') ∧
      Cleared t u (s.BlockBelow v 139) := by
  obtain ⟨⟨c, hc⟩, hst, -⟩ := inodeOpen_same hok.opens hopen
  have hlba : t.part.sb.inodeTableLba ≤ maxLba := by
    rw [hst.part]
    exact Nat.le_trans (Nat.le_add_right _ _) hok.table.onDisk
  have hlayout := hok.layout.same hst
  -- the blocks can be given back, one after the other
  have hgood (j : Nat) (hj : j < 140) (hne : v.blockAddr s.disk j ≠ 0) : t.Releasable (v.blockAddr s.disk j) :=
    ((hok.blocks.inUse j hj hne).releasable (hok.notFirst j hj)).same hst
  generalize hw : ({ v with iOpenCnt := c } : Inode) = w at hc
  have hsec : w.sector 12 = v.sector 12 := by rw [← hw]; rfl
  have hall (tbl : Bytes) : w.allBlocks tbl = v.allBlocks tbl := by rw [← hw]; rfl
  have hread : Returns (getInode a) t w t := returns_getInode.mpr ⟨hc, rfl⟩
  have hassert : Returns (assert (w.iNo = i) : FsM Unit) t () t := by
    rw [← hw]
    exact (returns_assert _ _).mpr ⟨hok.own, rfl⟩
  by_cases h12 : v.sector 12 = 0
  · have haddr : w.allBlocks Bytes.zero = v.blockAddr s.disk := by
      rw [hall, Inode.blockAddr, if_pos h12]
    obtain ⟨u, hrun, hcl⟩ := releaseBlocks_cleared 139 0 hlayout hlba fun j _ hj => hgood j (by omega)
    refine ⟨u, fun s' => ?_, (Cleared.refl (I := fun _ => False) fun _ => id).trans hcl fun b => ?_⟩
    · rw [inodeRelease, returns_bind_iff hopen, returns_bind_iff hread, returns_bind_iff hassert,
        if_neg (by rw [hsec]; exact not_not.mpr h12), returns_bind_iff (returns_pure.mpr ⟨rfl, rfl⟩), haddr,
        returns_bind_iff hrun]
      rfl
    · rw [hst.part, Fs.BlockBelow, false_or]
      constructor
      · rintro (⟨hne, -⟩ | ⟨k, hk, hne, hb⟩)
        · exact absurd h12 hne
        · exact ⟨k, Nat.zero_le _, by omega, hne, hb⟩
      · rintro ⟨k, -, hk, hne, hb⟩
        exact Or.inr ⟨k, by omega, hne, hb⟩
  · have htable := ((hok.blocks.table h12).releasable hok.tableNotFirst).same hst
    have haddr : w.allBlocks (t.disk.window (512 * v.sector 12) (512 * 1)) = v.blockAddr s.disk := by
      rw [hall, Inode.blockAddr, if_neg h12, hst.disk]
      rfl
    have hideRead : Returns (ideRead (v.sector 12) 1 512) t (t.disk.window (512 * v.sector 12) (512 * 1)) t :=
      returns_ideRead.mpr ⟨le_rfl, htable.onDisk, by decide, rfl, rfl⟩
    obtain ⟨t₁, hblock, hcl₁⟩ := releaseBlock_cleared hlayout hlba htable
    obtain ⟨u, hrun, hcl⟩ := releaseBlocks_cleared 139 0 (hlayout.cleared hcl₁) (by rwa [hcl₁.part])
      fun j _ hj hne => (hgood j (by omega) hne).cleared hcl₁
    refine ⟨u, fun s' => ?_, hcl₁.trans hcl fun b => ?_⟩
    · rw [inodeRelease, returns_bind_iff hopen, returns_bind_iff hread, returns_bind_iff hassert, hsec, if_pos h12,
        returns_bind_iff hideRead, returns_bind_iff hblock, returns_bind_iff (returns_pure.mpr ⟨rfl, rfl⟩), haddr,
        returns_bind_iff hrun]
      rfl
    · rw [hcl₁.part, hst.part, Fs.BlockBelow]
      constructor
      · rintro (⟨-, hb⟩ | ⟨k, hk, hne, hb⟩)
        · exact Or.inl hb
        · exact Or.inr ⟨k, Nat.zero_le _, by omega, hne, hb⟩
      · rintro (hb | ⟨k, -, hk, hne, hb⟩)
        · exact Or.inl ⟨h12, hb⟩
        · exact Or.inr ⟨k, by omega, hne, hb⟩

/-- The disk once the number and the slot of inode `i` have been given back. -/
def Fs.slotReleased (s : Fs) (i : Nat) : Bytes :=
  (writeSector s.disk (s.part.sb.inodeBitmapLba + i / 4096)
    ((s.inodeMap.bitmapSet i false).bytesFrom (i / 4096 * 512))).splice (s.slotAddr i) 76 Bytes.zero

/-- The request in the end is served. -/
theorem releaseSlot_served {a : Nat} (h : Returns (releaseSlot i a) s () s') : s.HasMemory 1 := by
  simp only [releaseSlot, returns_bind, returns_inodeMapSet, returns_bitmapSync_inode, returns_fits] at h
  obtain ⟨-, _, ⟨-, rfl⟩, -, _, ⟨-, rfl⟩, ioBuf, t, hmalloc, -, _, ⟨hbuf, rfl⟩, -⟩ := h
  obtain ⟨b, rfl⟩ := Option.ne_none_iff_exists'.mp hbuf
  obtain ⟨hrun, hfull⟩ := served_of_sysMalloc hmalloc
  refine ⟨hrun, fun k hk => ?_⟩
  obtain rfl : k = 0 := by omega
  exact hfull

theorem releaseSlot_runs {a : Nat} (hl : s.Layout) (htable : s.TableFits) (hi : i < 4096)
    (hmap : i < s.inodeMap.size) (hv : s.inodes a = some v) (hmem : s.HasMemory 1) :
    ∃ s', Returns (releaseSlot i a) s () s' ∧ s'.part = s.part ∧ s'.blockBitmap = s.blockBitmap ∧
      s'.inodeMap = s.inodeMap.bitmapSet i false ∧ s'.disk = s.slotReleased i := by
  have hbitmap := hl.inodeBitmap i hmap
  have hlba := htable.onDisk
  set t : Fs := { s with
    inodeMap := s.inodeMap.bitmapSet i false
    disk := writeSector s.disk (s.part.sb.inodeBitmapLba + i / 4096)
      ((s.inodeMap.bitmapSet i false).bytesFrom (i / 4096 * 512)) } with ht
  have hsync : Returns (bitmapSync i .inodeBitmap) { s with inodeMap := s.inodeMap.bitmapSet i false } () t := by
    refine returns_bitmapSync_inode.mpr ⟨?_, rfl⟩
    show s.part.sb.inodeBitmapLba + i / 4096 ≤ maxLba
    omega
  have hmem' : t.HasMemory (0 + 1) := hmem
  obtain ⟨t₁, hmalloc, -, hsame⟩ := sysMalloc_returns hmem'
  have hfits : t₁.TableFits := by
    rw [hsame]
    exact ⟨htable.onDisk, htable.inPart⟩
  have hdelete := returns_inodeDelete
    (u := ()) |>.mpr
      ⟨hi, (hfits.secLba_le hi).2, InodePos.secs_bytes _ le_rfl, (hfits.secLba_le hi).1, rfl⟩
  obtain ⟨t₃, hfree⟩ := sysFree_returns { t₁ with disk := t₁.disk.splice (t₁.slotAddr i) 76 Bytes.zero } t.heap.next
  have hfreed := (returns_sysFree hfree).1
  have hv₃ : t₃.inodes a = some v := by
    rw [hfreed, hsame]
    exact hv
  obtain ⟨s', hclose, hst⟩ := inodeClose_runs hv₃
  refine ⟨s', ?_, ?_, ?_, ?_, ?_⟩
  · rw [releaseSlot, returns_bind_iff (a := ()) (returns_inodeMapSet.mpr ⟨hmap, rfl⟩),
      returns_bind_iff hsync, returns_bind_iff hmalloc, returns_bind_iff ((returns_fits _ ()).mpr ⟨by simp, rfl⟩),
      returns_bind_iff hdelete, returns_bind_iff hfree]
    exact hclose
  · rw [hst.part, hfreed, hsame]
  · rw [hst.blockBitmap, hfreed, hsame]
  · rw [hst.inodeMap, hfreed, hsame]
  · rw [hst.disk, hfreed, hsame]
    rfl

/-- Where there is memory everything is given back but the last block. -/
theorem inodeRelease_runs (hok : s.ReleaseOk i v) (hmem : s.HasMemory (s.openRequests i + 1)) :
    ∃ s', Returns (inodeRelease i) s () s' ∧ Releases s s' i (s.BlockBelow v 139) := by
  obtain ⟨hrun, hserved⟩ := hmem
  obtain ⟨a, t, hopen⟩ := inodeOpen_runs hok.cache hok.table hok.number
    ⟨hrun, fun k hk => hserved k (Nat.lt_succ_of_lt hk)⟩
  obtain ⟨⟨c, hc⟩, hst, htasks, hcur, hfull, hnext⟩ := inodeOpen_same hok.opens hopen
  obtain ⟨u, hiff, hcl⟩ := inodeRelease_blocks hok hopen
  have hlayout := (hok.layout.same hst).cleared hcl
  have hpart : u.part = s.part := hcl.part.trans hst.part
  have hmap : u.inodeMap = s.inodeMap := by
    rw [hcl.rest]
    exact hst.inodeMap
  have hfits : u.TableFits := by
    refine ⟨?_, ?_⟩
    · rw [hpart]
      exact hok.table.onDisk
    · rw [hpart]
      exact hok.table.inPart
  have hmem' : u.HasMemory 1 := by
    rw [hcl.rest]
    refine ⟨?_, fun k hk => ?_⟩
    · show ∃ k, t.tasks t.cur = some k
      rw [htasks, hcur]
      exact hrun
    · obtain rfl : k = 0 := by omega
      show t.heap.full t.heap.next = false
      rw [hfull, hnext]
      exact hserved _ (Nat.lt_succ_self _)
  have hv : u.inodes a = some { v with iOpenCnt := c } := by
    rw [hcl.rest]
    exact hc
  obtain ⟨s', hend, hpart', hblocks, hinodes, hdisk⟩ :=
    releaseSlot_runs hlayout hfits hok.number (by rw [hmap]; exact hok.inMap) hv hmem'
  refine ⟨s', (hiff s').mpr hend, ?_⟩
  have hpart'' := hpart'.trans hpart
  have hslot : u.slotAddr i = s.slotAddr i := by rw [Fs.slotAddr, Fs.slotAddr, hpart]
  have hbelow := hok.layout.inodeBitmap i hok.inMap
  have hfirst := hok.layout.blockBitmap 0 hok.layout.nonempty.1
  rw [Fs.slotReleased, hslot, hmap, hpart] at hdisk
  have haddr : 512 * s.part.sb.inodeTableLba ≤ s.slotAddr i := Nat.le_add_right _ _
  refine ⟨?_, ?_, ?_, ?_, ?_, ?_, ?_, ?_⟩
  · rw [hblocks, hcl.len, hst.blockBitmap]
  · intro b
    rw [hblocks, hcl.bit, hst.blockBitmap]
  · rw [hinodes, hmap]
    rfl
  · intro j
    rw [hinodes, hmap]
    by_cases hj : j = i
    · rw [hj, Bitmap.bitmapSet_bit_self]
      simp
    · rw [Bitmap.bitmapSet_bit_ne hj]
      simp [hj]
  · intro k hk
    rw [hdisk]
    exact Bytes.splice_inside (Nat.le_add_right _ _) (by omega)
  · intro x hx hout
    rw [hdisk, Bytes.splice_outside hout, writeSector, Bytes.splice_outside (by omega),
      hcl.elsewhere x (by rw [hst.part]; omega), hst.disk]
  · intro hon
    have hon' : u.BlocksOnDisk := by
      apply hcl.onDisk
      rw [Fs.BlocksOnDisk, hst.blockBitmap, hst.disk, hst.part]
      exact hon
    rw [Fs.BlocksOnDisk, hpart] at hon'
    rw [Fs.BlocksOnDisk, hblocks, hpart'']
    -- the sectors written behind the block bitmap leave it alone
    refine hon'.congr fun x hlo hhi => ?_
    rw [hdisk, Bytes.splice_outside (by omega), writeSector, Bytes.splice_outside (by omega)]
  · intro hon
    have hon' : s.inodeMap.OnDisk u.disk s.part.sb.inodeBitmapLba s.part.sb.inodeTableLba := by
      refine Bitmap.OnDisk.congr hon fun x hlo hhi => ?_
      rw [hcl.elsewhere x (by rw [hst.part]; omega), hst.disk]
    rw [Fs.InodesOnDisk, hinodes, hmap, hpart'']
    refine (hon'.bitmapSet (i := i) (v := false)).congr fun x hlo hhi => ?_
    rw [hdisk, Bytes.splice_outside (by omega)]

/-- The inodes of other numbers are where they were. -/
theorem inodeRelease_others (hok : s.ReleaseOk i v) (h : Returns (inodeRelease i) s () s') :
    (∀ b w, w.iNo ≠ i → (s'.inodes b = some w ↔ s.inodes b = some w)) ∧ s'.dirs = s.dirs ∧
      s'.rootDir = s.rootDir ∧ s'.part = s.part := by
  obtain ⟨a, t, hopen, -⟩ := returns_bind.mp h
  obtain ⟨⟨c, hc⟩, hst, -⟩ := inodeOpen_same hok.opens hopen
  obtain ⟨hothers, hwas⟩ := inodeOpen_at hok.cache hopen
  obtain ⟨hstep, hdirs, -⟩ := inodeOpen_step hok.cache hopen
  obtain ⟨u, hiff, hcl⟩ := inodeRelease_blocks hok hopen
  have hend := (hiff s').mp h
  -- the inode is closed in the end, and what comes before leaves the cache alone
  simp only [releaseSlot, returns_bind, returns_inodeMapSet, returns_bitmapSync_inode, returns_fits,
    returns_inodeDelete] at hend
  obtain ⟨-, _, ⟨-, rfl⟩, -, _, ⟨-, rfl⟩, ioBuf, t₁, hmalloc, -, _, ⟨-, rfl⟩, -, _, ⟨-, -, -, -, rfl⟩, _, t₂, hfree,
    hclose⟩ := hend
  have hsame₁ := (returns_sysMalloc hmalloc).1
  have hsame₂ := (returns_sysFree hfree).1
  have hinodes : t₂.inodes = t.inodes := by
    rw [hsame₂, hsame₁, hcl.rest]
  have hat : t₂.inodes a = some { v with iOpenCnt := c } := by
    rw [hinodes]
    exact hc
  obtain ⟨hother, hself, hdirs', hroot'⟩ := inodeClose_at hat hclose
  have hno : v.iNo = i := hok.own
  refine ⟨fun b w hw => ?_, ?_, ?_, ?_⟩
  · by_cases hb : b = a
    · subst hb
      constructor
      · intro hin
        rcases hself with hnone | ⟨c', hsome⟩
        · rw [hnone] at hin
          cases hin
        · rw [hsome] at hin
          obtain rfl := Option.some.inj hin
          exact absurd hno hw
      · intro hin
        rcases hwas with hcached | ⟨-, hnone⟩
        · obtain ⟨-, w', hw', hno'⟩ := Fs.cached_some hcached
          rw [hin] at hw'
          obtain rfl := Option.some.inj hw'
          exact absurd hno' hw
        · rw [hnone] at hin
          cases hin
    · rw [hother b hb, hinodes, hothers b hb]
  · rw [hdirs', hsame₂, hsame₁, hcl.rest]
    exact hdirs
  · rw [hroot', hsame₂, hsame₁, hcl.rest]
    exact hstep.rootDir
  · obtain ⟨t₃, hclose', hst'⟩ := inodeClose_runs hat
    obtain ⟨-, rfl⟩ := hclose.unique hclose'
    rw [hst'.part, hsame₂, hsame₁, hcl.rest]
    exact hst.part

/-- Where the call returns its requests have been served. -/
theorem inodeRelease_served (hok : s.ReleaseOk i v) (h : Returns (inodeRelease i) s () s') :
    s.HasMemory (s.openRequests i + 1) := by
  obtain ⟨a, t, hopen, -⟩ := returns_bind.mp h
  obtain ⟨-, -, htasks, hcur, hfull, hnext⟩ := inodeOpen_same hok.opens hopen
  obtain ⟨u, hiff, hcl⟩ := inodeRelease_blocks hok hopen
  obtain ⟨hrun, hlast⟩ := releaseSlot_served ((hiff s').mp h)
  rw [hcl.rest] at hrun hlast
  have hlast' : t.heap.full t.heap.next = false := hlast 0 (by decide)
  rw [hfull, hnext] at hlast'
  rw [show ({ t with blockBitmap := u.blockBitmap, disk := u.disk } : Fs).tasks = s.tasks from htasks,
    show ({ t with blockBitmap := u.blockBitmap, disk := u.disk } : Fs).cur = s.cur from hcur] at hrun
  refine ⟨hrun, fun k hk => ?_⟩
  rcases Nat.lt_succ_iff_lt_or_eq.mp hk with hk | rfl
  · -- the requests of `inode_open`
    cases hcached : s.cached i with
    | some b =>
      rw [Fs.openRequests, hcached] at hk
      exact absurd hk (Nat.not_lt_zero _)
    | none =>
      rw [Fs.openRequests, hcached] at hk
      exact (inodeOpen_served hcached hopen).1.2 k hk
  · exact hlast'

/-- The last block of the list is not given back. -/
theorem blockBelow_last (hok : s.ReleaseOk i v) (h : v.blockAddr s.disk 139 ≠ 0) :
    ¬ s.BlockBelow v 139 (v.blockAddr s.disk 139 - s.part.sb.dataStartLba) := by
  have hge := (hok.blocks.inUse 139 (by decide) h).ge
  rintro (⟨h12, heq⟩ | ⟨k, hk, hne, heq⟩)
  · have hge' := (hok.blocks.table h12).ge
    exact hok.blocks.tableNe 139 (by decide) h12 (by omega)
  · have hge' := (hok.blocks.inUse k (by omega) hne).ge
    have hsame := hok.blocks.inj k (by omega) 139 (by decide) hne (by omega)
    omega

/-- Where there is no last block the list ends before it. -/
theorem blockBelow_iff {b : Nat} (hlast : v.blockAddr s.disk 139 = 0) : s.BlockBelow v 139 b ↔ s.BlockBelow v 140 b := by
  apply or_congr_right
  constructor
  · rintro ⟨k, hk, hne, hb⟩
    exact ⟨k, Nat.lt_succ_of_lt hk, hne, hb⟩
  · rintro ⟨k, hk, hne, hb⟩
    rcases Nat.lt_succ_iff_lt_or_eq.mp hk with hk | rfl
    · exact ⟨k, hk, hne, hb⟩
    · exact absurd hlast hne

/-- Where the bits of all blocks are clear there was no last block. -/
theorem no_last_block (hok : s.ReleaseOk i v) (hret : Returns (inodeRelease i) s () s')
    (hbits : ∀ b, s'.blockBitmap.bit b = true ↔ s.blockBitmap.bit b = true ∧ ¬ s.BlockBelow v 140 b) :
    v.blockAddr s.disk 139 = 0 := by
  by_contra hlast
  obtain ⟨t, hret', hrel⟩ := inodeRelease_runs hok (inodeRelease_served hok hret)
  obtain ⟨-, rfl⟩ := hret.unique hret'
  set b := v.blockAddr s.disk 139 - s.part.sb.dataStartLba with hb
  -- its bit was set, and still is
  have hset : s.blockBitmap.bit b = true := by
    obtain ⟨-, k, -, hk, heq⟩ := hok.blocks.inUse 139 (by decide) hlast
    rw [hb, heq, Nat.add_sub_cancel_left]
    exact hk
  have hkept := (hrel.blocks b).mpr ⟨hset, blockBelow_last hok hlast⟩
  exact ((hbits b).mp hkept).2 (Or.inr ⟨139, by decide, hlast, rfl⟩)

end Release

/-- Releasing an inode frees all and only its blocks, its number and its slot, exactly where
    the heap serves the requests of the call and the inode has no block in the last of the
    140 entries. -/
theorem inode_release_exact_iff (s : Fs) (i : Nat) (v : Inode) (hok : s.ReleaseOk i v) :
    (∃ s', Returns (inodeRelease i) s () s' ∧ Releases s s' i (s.BlockBelow v 140)) ↔
      s.HasMemory (s.openRequests i + 1) ∧ v.blockAddr s.disk 139 = 0 := by
  constructor
  · rintro ⟨s', hret, hrel⟩
    exact ⟨inodeRelease_served hok hret, no_last_block hok hret hrel.blocks⟩
  · rintro ⟨hmem, hlast⟩
    obtain ⟨s', hret, hrel⟩ := inodeRelease_runs hok hmem
    refine ⟨s', hret, { hrel with blocks := fun b => ?_ }⟩
    rw [hrel.blocks, blockBelow_iff hlast]

theorem smallTree_releaseOk : SmallTree.fs.ReleaseOk 3 (SmallTree.fs.slot 3) := by
  have hno : ∀ k < 140, (SmallTree.fs.slot 3).blockAddr SmallTree.fs.disk k = 0 := by decide +kernel
  have h12 : (SmallTree.fs.slot 3).sector 12 = 0 := by decide +kernel
  refine ⟨SmallTree.cacheOk, ⟨rfl, by decide, by decide, by decide, by decide⟩, ⟨by decide, by decide⟩, by decide,
    by decide, Or.inr ⟨by decide, rfl⟩, by decide +kernel, ⟨?_, ?_, ?_, ?_⟩, ?_, ?_⟩
  · exact fun k hk hne => absurd (hno k hk) hne
  · exact fun hne => absurd h12 hne
  · exact fun j hj k hk hne => absurd (hno j hj) hne
  · exact fun k hk hne => absurd h12 hne
  · intro k hk
    rw [hno k hk]
    decide
  · rw [h12]
    decide

/-- An empty file is released. -/
theorem inode_release_empty : ∃ s', Returns (inodeRelease 3) SmallTree.fs () s' ∧
    Releases SmallTree.fs s' 3 (SmallTree.fs.BlockBelow (SmallTree.fs.slot 3) 140) :=
  (inode_release_exact_iff SmallTree.fs 3 (SmallTree.fs.slot 3) smallTree_releaseOk).mpr
    ⟨⟨⟨_, rfl⟩, fun _ _ => rfl⟩, by decide +kernel⟩

namespace LastBlock

/-- Inode 2, with an index table in sector 1002. -/
def inode : Inode :=
  { iNo := 2, iSize := 24, iOpenCnt := 1, writeDeny := false, iSectors := fun k => if k = 12 then 1002 else 0 }

/-- The last entry of the table leads to sector 1003. -/
def disk : Bytes := fun a =>
  if a = 512 * 1002 + 508 then 0xEB
  else if a = 512 * 1002 + 509 then 0x03
  else 0

/-- The mounted partition, with the inode open. -/
def fs : Fs :=
  { SmallTree.fs with
    disk := disk
    blockBitmap := { btmpBytesLen := 4, bit := fun i => i < 4 }
    openInodes := [1]
    inodes := fun a => if a = 1 then some inode else none
    heap := { next := 2, live := [], full := fun _ => false } }

theorem blockAddr : ∀ k < 140, inode.blockAddr disk k = if k = 139 then 1003 else 0 := by decide +kernel

theorem only_last {k : Nat} (hk : k < 140) (hne : inode.blockAddr disk k ≠ 0) : k = 139 := by
  by_contra hne'
  rw [blockAddr k hk, if_neg hne'] at hne
  exact hne rfl

theorem cacheOk : fs.CacheOk where
  nodup := by decide
  mem := by
    intro a
    by_cases ha : a = 1
    · subst ha
      decide
    · show a ∈ [1] ↔ (if a = 1 then _ else none) ≠ none
      simp [ha]
  pos := by
    intro a v hv
    by_cases ha : a = 1
    · subst ha
      obtain rfl := Option.some.inj hv
      decide
    · have hnone : fs.inodes a = none := if_neg ha
      rw [hnone] at hv
      cases hv
  inode_lt := by
    intro a ha
    by_cases ha1 : a = 1
    · subst ha1
      decide
    · exact absurd (if_neg ha1) ha
  dir_lt := fun _ hd => absurd rfl hd

theorem releaseOk : fs.ReleaseOk 2 inode := by
  refine ⟨cacheOk, ⟨rfl, by decide, by decide, by decide, by decide⟩, ⟨by decide, by decide⟩, by decide,
    by decide, Or.inl ⟨1, by decide, rfl⟩, rfl, ⟨?_, ?_, ?_, ?_⟩, ?_, by decide⟩
  · intro k hk hne
    obtain rfl := only_last hk hne
    rw [show inode.blockAddr fs.disk 139 = 1003 from blockAddr 139 hk]
    exact ⟨by decide, 3, by decide, rfl, rfl⟩
  · exact fun _ => ⟨by decide, 2, by decide, rfl, rfl⟩
  · intro j hj k hk hne heq
    rw [only_last hj hne, only_last hk (heq ▸ hne)]
  · intro k hk _
    rw [show inode.blockAddr fs.disk k = _ from blockAddr k hk]
    split <;> decide
  · intro k hk
    rw [show inode.blockAddr fs.disk k = _ from blockAddr k hk]
    split <;> decide

end LastBlock

/-- A directory that has kept the last of its 140 blocks does not get rid of it. -/
theorem inode_release_keeps_last : LastBlock.fs.ReleaseOk 2 LastBlock.inode ∧ LastBlock.fs.HasMemory 1 ∧
    ¬ ∃ s', Returns (inodeRelease 2) LastBlock.fs () s' ∧
      Releases LastBlock.fs s' 2 (LastBlock.fs.BlockBelow LastBlock.inode 140) := by
  refine ⟨LastBlock.releaseOk, ⟨⟨_, rfl⟩, fun _ _ => rfl⟩, ?_⟩
  rintro ⟨s', hret, hrel⟩
  have hzero := no_last_block LastBlock.releaseOk hret hrel.blocks
  rw [show LastBlock.inode.blockAddr LastBlock.fs.disk 139 = 1003 from LastBlock.blockAddr 139 (by decide)] at hzero
  cases hzero

end ZxyOs
