/-
  ZxyOs.Fs.DirGrow

  What adding an entry takes, and what it leaves alone.

  `sync_dir_entry` comes back exactly where the block bitmap supplies the blocks it asks for
  (`syncDirEntry_runs_iff`): none where it meets an empty slot first, one where a direct block is
  missing, two for an index table and its first block.  Apart from what it takes it writes one block
  of the directory (`SyncResult.grows`), so that every other inode keeps its slot and its blocks.
-/

import ZxyOs.Fs.DirInsert
import ZxyOs.Fs.Store

namespace ZxyOs

open Lib Lib.Exec

/-! ## The supply of blocks -/

/-- `n` blocks can be taken one after the other, and each lies on the disk; `base` is the address
    of the first data block. -/
def Bitmap.Supplies (base : Nat) : Nat → Bitmap → Prop
  | 0, _ => True
  | n + 1, b => ∃ i, b.IsFirstClear i ∧ base + i ≤ maxLba ∧ Supplies base n (b.bitmapSet i true)

/-- The number of blocks `sync_dir_entry` takes where it has come to direct block `k`, with `n` more
    of them to go. -/
def Fs.wanted (s : Fs) (v : Inode) : Nat → Nat → Nat
  | 0, _ => 2
  | n + 1, k =>
    if v.sector k = 0 then 1
    else if (findFreeSlot (sectorAt s.disk (v.sector k)) 21 0).isSome then 0
    else s.wanted v n (k + 1)

section Supply

variable {s t : Fs} {a : Nat} {v : Inode} {e : DirEntry} {p : DirPtr}

/-- What is wanted depends on the direct blocks alone. -/
theorem wanted_congr {w : Inode} {n k : Nat} (hsec : ∀ j, k ≤ j → j < k + n → w.sector j = v.sector j)
    (hblock : ∀ j, k ≤ j → j < k + n → v.sector j ≠ 0 → sectorAt t.disk (v.sector j) = sectorAt s.disk (v.sector j)) :
    t.wanted w n k = s.wanted v n k := by
  induction n generalizing k with
  | zero => rfl
  | succ n ih =>
    have hk := hsec k le_rfl (by omega)
    have hrest : t.wanted w n (k + 1) = s.wanted v n (k + 1) :=
      ih (fun j h₁ h₂ => hsec j (by omega) (by omega)) fun j h₁ h₂ => hblock j (by omega) (by omega)
    rw [Fs.wanted, Fs.wanted, hk, hrest]
    by_cases h0 : v.sector k = 0
    · rw [if_pos h0, if_pos h0]
    · rw [if_neg h0, if_neg h0, hblock k le_rfl (by omega) h0]

/-- A sector of the block bitmap lies on the disk with the data blocks. -/
theorem Fs.Layout.bitmapSector_le {i : Nat} (hl : s.Layout) (hi : i < s.blockBitmap.size)
    (hlba : s.part.sb.dataStartLba + i ≤ maxLba) : s.part.sb.blockBitmapLba + i / 4096 ≤ maxLba := by
  have hlt := hl.blockBitmap_lt_data hi
  omega

/-- A missing direct block is one block to be taken. -/
theorem syncDirEntryNewBlock_direct_iff {all : Nat → Nat} {k : Nat} (hl : s.Layout) (hv : s.inodes a = some v) (hk : k < 12) :
    (∃ r t, Returns (syncDirEntryNewBlock a e all k) s r t) ↔ s.blockBitmap.Supplies s.part.sb.dataStartLba 1 := by
  constructor
  · rintro ⟨r, t, h⟩
    simp only [syncDirEntryNewBlock, returns_bind, returns_query, returns_blockBitmapAlloc] at h
    obtain ⟨_, _, ⟨rfl, rfl⟩, o, _, ⟨i, rfl, hi, rfl⟩, h⟩ := h
    simp only [id, returns_bind, returns_bitmapSync_block, if_pos hk, returns_setInodeSector, returns_pure] at h
    obtain ⟨-, _, ⟨-, rfl⟩, -, _, ⟨_, _, rfl⟩, _, _, ⟨rfl, rfl⟩, h⟩ := h
    simp only [returns_bind, returns_ideWrite] at h
    obtain ⟨-, _, ⟨hlba, -, rfl⟩, -⟩ := h
    exact ⟨i, hi, hlba, trivial⟩
  · rintro ⟨i, hi, hlba, -⟩
    refine ⟨true, ?_⟩
    apply Exists.intro
    simp only [syncDirEntryNewBlock, returns_bind, returns_query, returns_blockBitmapAlloc]
    refine ⟨s, s, ⟨rfl, rfl⟩, _, _, ⟨i, rfl, hi, rfl⟩, ?_⟩
    simp only [returns_bind, returns_bitmapSync_block, if_pos hk, returns_setInodeSector, returns_pure]
    refine ⟨(), _, ⟨?_, rfl⟩, (), _, ⟨v, hv, rfl⟩, some _, _, ⟨rfl, rfl⟩, ?_⟩
    · rw [blockBitmapIdx_data hlba]
      exact hl.bitmapSector_le hi.1 hlba
    · simp only [returns_bind, returns_ideWrite, returns_setInodeSize, returns_pure]
      exact ⟨(), _, ⟨hlba, by decide, rfl⟩, (), _, ⟨_, Function.update_self _ _ _, rfl⟩, trivial, rfl⟩

/-- With all direct blocks full it takes two, for an index table and for the entry. -/
theorem syncDirEntryNewBlock_table_iff {all : Nat → Nat} (hl : s.Layout) (hv : s.inodes a = some v) :
    (∃ r t, Returns (syncDirEntryNewBlock a e all 12) s r t) ↔ s.blockBitmap.Supplies s.part.sb.dataStartLba 2 := by
  constructor
  · rintro ⟨r, t, h⟩
    simp only [syncDirEntryNewBlock, returns_bind, returns_query, returns_blockBitmapAlloc] at h
    obtain ⟨_, _, ⟨rfl, rfl⟩, o, _, ⟨i, rfl, hi, rfl⟩, h⟩ := h
    simp only [id, returns_bind, returns_bitmapSync_block, if_neg (Nat.lt_irrefl 12), if_true,
      returns_setInodeSector, returns_blockBitmapAlloc] at h
    obtain ⟨-, _, ⟨-, rfl⟩, -, _, ⟨_, _, rfl⟩, _, _, ⟨i', rfl, hi', rfl⟩, h⟩ := h
    simp only [returns_bind, returns_bitmapSync_block, returns_ideWrite, returns_pure] at h
    obtain ⟨-, _, ⟨-, rfl⟩, -, _, ⟨hlba, -, rfl⟩, _, _, ⟨rfl, rfl⟩, h⟩ := h
    simp only [returns_bind, returns_ideWrite] at h
    obtain ⟨-, _, ⟨hlba', -, rfl⟩, -⟩ := h
    exact ⟨i, hi, hlba, i', hi', hlba', trivial⟩
  · rintro ⟨i, hi, hlba, i', hi', hlba', -⟩
    refine ⟨true, ?_⟩
    apply Exists.intro
    simp only [syncDirEntryNewBlock, returns_bind, returns_query, returns_blockBitmapAlloc]
    refine ⟨s, s, ⟨rfl, rfl⟩, _, _, ⟨i, rfl, hi, rfl⟩, ?_⟩
    simp only [returns_bind, returns_bitmapSync_block, if_neg (Nat.lt_irrefl 12), if_true,
      returns_setInodeSector, returns_blockBitmapAlloc]
    refine ⟨(), _, ⟨?_, rfl⟩, (), _, ⟨v, hv, rfl⟩, some _, _, ⟨i', rfl, hi', rfl⟩, ?_⟩
    · rw [blockBitmapIdx_data hlba]
      exact hl.bitmapSector_le hi.1 hlba
    · simp only [returns_bind, returns_bitmapSync_block, returns_ideWrite, returns_pure]
      refine ⟨(), _, ⟨?_, rfl⟩, (), _, ⟨hlba, by decide, rfl⟩, some _, _, ⟨rfl, rfl⟩, ?_⟩
      · rw [blockBitmapIdx_data hlba']
        exact hl.bitmapSector_le hi'.1 hlba'
      · simp only [returns_bind, returns_ideWrite, returns_setInodeSize, returns_pure]
        exact ⟨(), _, ⟨hlba', by decide, rfl⟩, (), _, ⟨_, Function.update_self _ _ _, rfl⟩, trivial, rfl⟩

theorem syncDirEntryLoop_runs_iff {all : Nat → Nat} {n k : Nat} (hl : s.Layout) (hv : s.inodes a = some v)
    (hdirect : ∀ k < 12, all k = v.sector k) (hall : ∀ k, 12 ≤ k → all k = 0)
    (hmax : ∀ k < 12, v.sector k ≤ maxLba) (hn : k + n = 12) :
    (∃ r t, Returns (syncDirEntryLoop a e all 21 (n + 128) k) s r t) ↔
      s.blockBitmap.Supplies s.part.sb.dataStartLba (s.wanted v n k) := by
  induction n generalizing k with
  | zero =>
    obtain rfl : k = 12 := hn
    show (∃ r t, Returns (syncDirEntryLoop a e all 21 (127 + 1) 12) s r t) ↔ _
    rw [syncDirEntryLoop, if_pos (hall 12 le_rfl)]
    exact syncDirEntryNewBlock_table_iff hl hv
  | succ n ih =>
    rw [show n + 1 + 128 = n + 128 + 1 by omega, syncDirEntryLoop, hdirect k (by omega), Fs.wanted]
    by_cases h0 : v.sector k = 0
    · rw [if_pos h0, if_pos h0]
      exact syncDirEntryNewBlock_direct_iff hl hv (by omega)
    · have hread : Returns (ideRead (v.sector k) 1 512) s (sectorAt s.disk (v.sector k)) s :=
        returns_ideRead_sector.mpr ⟨hmax k (by omega), by decide, rfl, rfl⟩
      rw [if_neg h0, if_neg h0]
      simp only [returns_bind_iff hread]
      cases hfree : findFreeSlot (sectorAt s.disk (v.sector k)) 21 0 with
      | some j =>
        -- an empty slot takes the entry
        simp only [Option.isSome_some, if_true]
        refine iff_of_true ⟨true, ?_⟩ trivial
        apply Exists.intro
        simp only [returns_bind, returns_query, returns_ideWrite, returns_setInodeSize, returns_pure]
        exact ⟨s, s, ⟨rfl, rfl⟩, (), _, ⟨hmax k (by omega), by decide, rfl⟩, (), _, ⟨v, hv, rfl⟩, trivial, rfl⟩
      | none =>
        simp only [Option.isSome_none, Bool.false_eq_true, if_false]
        exact ih (by omega)

/-- `sync_dir_entry` comes back exactly where the blocks it wants are supplied. -/
theorem syncDirEntry_runs_iff (hl : s.Layout) (ha : s.handle p = some a) (hv : s.inodes a = some v) (hd : s.DirOk v) :
    (∃ r t, Returns (syncDirEntry p e) s r t) ↔ s.blockBitmap.Supplies s.part.sb.dataStartLba (s.wanted v 12 0) := by
  have hloop := @syncDirEntryLoop_runs_iff _ _ _ e (fun k => if k < 12 then v.sector k else 0) 12 _ hl hv
    (fun k hk => if_pos hk) (fun k hk => if_neg (by omega))
    (fun k hk => by
      have hblock := hd.toEntriesOk.listed.blocks k (by omega)
      rwa [Inode.blockAddr_direct hk] at hblock) rfl
  rw [← hloop]
  have hdir : Returns (dirInode p) s a s := returns_dirInode.mpr ⟨ha, rfl⟩
  have hget : Returns (getInode a) s v s := returns_getInode.mpr ⟨hv, rfl⟩
  have hquery : Returns (query id) s s s := (returns_query _).mpr ⟨rfl, rfl⟩
  have hassert : Returns (assert (v.iSize % s.part.sb.dirEntrySize = 0)) s () s := by
    refine (returns_assert _ _).mpr ⟨?_, rfl⟩
    rw [hl.entrySize, hd.size]
    omega
  have hcnt : 512 / s.part.sb.dirEntrySize = 21 := by rw [hl.entrySize]
  simp only [syncDirEntry, returns_bind_iff hdir, returns_bind_iff hget, returns_bind_iff hquery,
    returns_bind_iff hassert, hcnt]

end Supply

/-! ## What is left alone -/

/-- From `s` to `s'` the directory with inode `v` at `a` has taken blocks and written some of its own:
    the inode is `w` now, the bits of the blocks that were taken are set, and no other data block and
    nothing between the block bitmap and the data blocks has been written. -/
structure Grown (s s' : Fs) (a : Nat) (v w : Inode) : Prop where
  rest : s' = { s with disk := s'.disk, blockBitmap := s'.blockBitmap, inodes := Function.update s.inodes a (some w) }
  number : w.iNo = v.iNo
  wordSized : v.pureInode.WordSized → w.pureInode.WordSized
  bitmapSize : s'.blockBitmap.size = s.blockBitmap.size
  kept : ∀ b, s.blockBitmap.bit b = true → s'.blockBitmap.bit b = true
  taken : ∀ b, s'.blockBitmap.bit b = true → s.blockBitmap.bit b = true ∨
    w.sector 12 = s.part.sb.dataStartLba + b ∨ ∃ k < 140, w.blockAddr s'.disk k = s.part.sb.dataStartLba + b
  others : ∀ lba, s.InUse lba → (∀ k < 12, v.sector k ≠ lba) → sectorAt s'.disk lba = sectorAt s.disk lba
  between : ∀ x, 512 * s.part.sb.inodeBitmapLba ≤ x → x < 512 * s.part.sb.dataStartLba → s'.disk x = s.disk x

section Grows

variable {s s' : Fs} {a : Nat} {v : Inode} {e : DirEntry} {disk buf : Bytes} {b : Bitmap} {i lba x : Nat}

/-- Writing a data block leaves everything before the data blocks alone. -/
theorem writeSector_between (hlba : s.part.sb.dataStartLba ≤ lba) (hx : x < 512 * s.part.sb.dataStartLba) :
    writeSector disk lba buf x = disk x :=
  Bytes.splice_outside (Or.inl (by omega))

/-- Writing a sector of the block bitmap leaves everything behind the bitmap alone. -/
theorem Fs.Layout.syncedBlockBitmap_behind (hl : s.Layout) (hi : i < s.blockBitmap.size)
    (hx : 512 * s.part.sb.inodeBitmapLba ≤ x) : s.syncedBlockBitmap disk b i x = disk x := by
  have hsec := hl.blockBitmap i hi
  exact Bytes.splice_outside (Or.inr (by omega))

theorem Bitmap.bit_of_bitmapSet {j : Nat} (h : (b.bitmapSet i true).bit j = true) : b.bit j = true ∨ j = i := by
  by_cases hj : j = i
  · exact Or.inr hj
  · rw [Bitmap.bitmapSet_bit_ne hj] at h
    exact Or.inl h

theorem Bitmap.bit_bitmapSet_of_bit {j : Nat} (h : b.bit j = true) : (b.bitmapSet i true).bit j = true := by
  rw [Bitmap.bitmapSet_bit, h, ite_self]

theorem Inode.wordSized_grow (h : v.pureInode.WordSized) : v.grow.pureInode.WordSized where
  iNo := h.iNo
  iSize := Nat.mod_lt _ (by decide)
  iOpenCnt := h.iOpenCnt
  iSectors := h.iSectors

theorem Inode.wordSized_setSector {k : Nat} (h : v.pureInode.WordSized) (hlba : lba ≤ maxLba) :
    (v.setSector k lba).pureInode.WordSized where
  iNo := h.iNo
  iSize := h.iSize
  iOpenCnt := h.iOpenCnt
  iSectors := by
    intro j
    show (if j.val = k then lba else v.iSectors j) < 2 ^ 32
    split
    · exact lt_of_le_of_lt hlba (by decide)
    · exact h.iSectors j

/-- Whatever `sync_dir_entry` does, it keeps to the directory and to what it takes. -/
theorem SyncResult.grows (h : SyncResult s a v e s') (hl : s.Layout) (hd : s.BlocksOk v) : ∃ w, Grown s s' a v w := by
  cases h with
  | reuse k j hk hne hj hfree =>
    have hblock := hd.inUse k (by omega)
    rw [Inode.blockAddr_direct hk] at hblock
    refine ⟨v.grow, rfl, rfl, Inode.wordSized_grow, rfl, fun b hb => hb, fun b hb => Or.inl hb, ?_, ?_⟩
    · intro lba _ hother
      exact sectorAt_writeSector_ne (hother k hk).symm
    · intro x _ hx
      exact writeSector_between (hblock hne).ge hx
  | direct k i hk hzero hi hlba =>
    refine ⟨(v.setSector k (s.part.sb.dataStartLba + i)).grow, rfl, rfl,
      fun hw => Inode.wordSized_grow (Inode.wordSized_setSector hw hlba), rfl, ?_, ?_, ?_, ?_⟩
    · exact fun b hb => Bitmap.bit_bitmapSet_of_bit hb
    · intro b hb
      rcases Bitmap.bit_of_bitmapSet hb with hold | rfl
      · exact Or.inl hold
      · refine Or.inr (Or.inr ⟨k, by omega, ?_⟩)
        rw [Inode.blockAddr_direct hk]
        exact Inode.sector_setSector_self (by omega)
    · intro lba huse _
      have hne := huse.ne_of_free hi.2.1
      exact (sectorAt_writeSector_ne hne).trans (hl.sectorAt_syncedBlockBitmap hi.1 huse.ge)
    · intro x hfrom hx
      exact (writeSector_between (Nat.le_add_right _ _) hx).trans (hl.syncedBlockBitmap_behind hi.1 hfrom)
  | table i i' hfull hi hlba hi' hlba' =>
    have hii : i' ≠ i := by
      rintro rfl
      have hclear := hi'.2.1
      rw [Bitmap.bitmapSet_bit_self] at hclear
      cases hclear
    have hclear : s.blockBitmap.bit i' = false := by
      have hclear := hi'.2.1
      rwa [Bitmap.bitmapSet_bit_ne hii] at hclear
    have h12 : ((v.setSector 12 (s.part.sb.dataStartLba + i)).grow).sector 12 = s.part.sb.dataStartLba + i :=
      Inode.sector_setSector_self (v := v) (by omega)
    have hpos := hl.data_pos
    refine ⟨(v.setSector 12 (s.part.sb.dataStartLba + i)).grow, rfl, rfl,
      fun hw => Inode.wordSized_grow (Inode.wordSized_setSector hw hlba), rfl, ?_, ?_, ?_, ?_⟩
    · exact fun b hb => Bitmap.bit_bitmapSet_of_bit (Bitmap.bit_bitmapSet_of_bit hb)
    · intro b hb
      rcases Bitmap.bit_of_bitmapSet hb with hb | rfl
      · rcases Bitmap.bit_of_bitmapSet hb with hold | rfl
        · exact Or.inl hold
        · exact Or.inr (Or.inl h12)
      · -- the first word of the table is the block of the entry
        refine Or.inr (Or.inr ⟨12, by omega, ?_⟩)
        rw [Inode.blockAddr_indirect le_rfl (by omega), h12]
        have hmax : s.part.sb.dataStartLba + b < 2 ^ 32 := lt_of_le_of_lt hlba' (by decide)
        have hne : s.part.sb.dataStartLba + i ≠ s.part.sb.dataStartLba + b := by omega
        show Bytes.u32At (sectorAt (writeSector (writeSector _ _ _) _ _) _) (4 * 0) = _
        rw [sectorAt_writeSector_ne hne, sectorAt_writeSector_self, u32At_wordsOf (by decide), if_pos rfl,
          Nat.mod_eq_of_lt hmax]
    · intro lba huse _
      have hne := huse.ne_of_free hclear
      have hne' := huse.ne_of_free hi.2.1
      calc _ = _ := (sectorAt_writeSector_ne hne).trans (sectorAt_writeSector_ne hne')
        _ = _ := hl.sectorAt_syncedBlockBitmap hi'.1 huse.ge
        _ = _ := hl.sectorAt_syncedBlockBitmap hi.1 huse.ge
    · intro x hfrom hx
      calc _ = _ := writeSector_between (Nat.le_add_right _ _) hx
        _ = _ := writeSector_between (Nat.le_add_right _ _) hx
        _ = _ := hl.syncedBlockBitmap_behind hi'.1 hfrom
        _ = _ := hl.syncedBlockBitmap_behind hi.1 hfrom

end Grows

end ZxyOs
