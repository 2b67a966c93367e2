/-
  ZxyOs.Fs.MkdirKeeps

  Making a directory keeps the file system in order.

  `sync_dir_entry` leaves each block of the parent as it was, fills a free slot of it, or has
  taken it and put the entry into its first slot (`SyncedBlock`).  So the parent stays well
  formed slot by slot, and what it owns now it owned before or was free; the new directory owns
  the one block that was taken for it.
-/

import ZxyOs.Fs.InOrder
import ZxyOs.Fs.OpenBalance
import ZxyOs.Fs.OpenFrame

namespace ZxyOs

open Lib Lib.Exec

/-! ## The parent, block by block -/

/-- What `sync_dir_entry` leaves in block `k` of the directory, at `lba`. -/
inductive SyncedBlock (s s' : Fs) (v : Inode) (e : DirEntry) (k lba : Nat) : Prop where
  | kept (haddr : v.blockAddr s.disk k = lba) (hsame : sectorAt s'.disk lba = sectorAt s.disk lba)
  | filled (j : Nat) (haddr : v.blockAddr s.disk k = lba)
      (hfree : DirEntry.fTypeAt (sectorAt s.disk lba) j = ftUnkown)
      (hentry : sectorAt s'.disk lba = ((sectorAt s.disk lba).splice (24 * j) 24 e.encode).window 0 512)
  | fresh (i : Nat) (hclear : s.blockBitmap.bit i = false) (hlba : lba = s.part.sb.dataStartLba + i)
      (hwas : k < 12 → v.sector k = 0) (hentry : sectorAt s'.disk lba = (firstEntryBlock e).window 0 512)

section Blocks

variable {s s' : Fs} {a k j lba : Nat} {v w : Inode} {e : DirEntry} {disk : Bytes}

theorem eq_of_update {f : Nat → Option Inode} (h : Function.update f a (some v) a = some w) : v = w := by
  rw [Function.update_self] at h
  exact Option.some.inj h

/-- A second bit is taken where it was free at first. -/
theorem Bitmap.IsFirstClear.second {b : Bitmap} {i i' : Nat} (h : (b.bitmapSet i true).IsFirstClear i') :
    i' ≠ i ∧ b.bit i' = false := by
  have hclear := h.2.1
  have hne : i' ≠ i := by
    rintro rfl
    rw [Bitmap.bitmapSet_bit_self] at hclear
    cases hclear
  exact ⟨hne, by rwa [Bitmap.bitmapSet_bit_ne hne] at hclear⟩

/-- Behind `sync_dir_entry` every block of the directory is of one of the three kinds. -/
theorem SyncResult.block (h : SyncResult s a v e s') (hl : s.Layout) (hd : s.BlocksOk v) (hw : s'.inodes a = some w)
    (hk : k < 140) (hne : w.blockAddr s'.disk k ≠ 0) : SyncedBlock s s' v e k (w.blockAddr s'.disk k) := by
  cases h with
  | reuse m j hm hne' hj hfree =>
    obtain rfl : v.grow = w := eq_of_update hw
    have haddr : v.blockAddr s.disk m = v.sector m := Inode.blockAddr_direct hm
    have hblock : v.grow.blockAddr (writeSector s.disk (v.sector m)
        ((sectorAt s.disk (v.sector m)).splice (24 * j) 24 e.encode)) k = v.blockAddr s.disk k := by
      by_cases hk12 : k < 12
      · rw [Inode.blockAddr_direct hk12, Inode.blockAddr_direct hk12, Inode.sector_grow]
      · exact Inode.blockAddr_congr_indirect (by omega) rfl fun h12 =>
          sectorAt_writeSector_ne fun heq => hd.tableNe m (by omega) h12 (haddr.trans heq.symm)
    rw [hblock] at hne ⊢
    by_cases hkm : k = m
    · subst hkm
      rw [haddr]
      exact .filled j haddr hfree sectorAt_writeSector_self
    · exact .kept rfl (sectorAt_writeSector_ne fun heq => hkm (hd.inj k hk m (by omega) hne (heq.trans haddr.symm)))
  | direct m i hm hzero hi hlba =>
    obtain rfl : (v.setSector m (s.part.sb.dataStartLba + i)).grow = w := eq_of_update hw
    have hkeep (lba : Nat) (huse : s.InUse lba) :
        sectorAt (writeSector (s.syncedBlockBitmap s.disk (s.blockBitmap.bitmapSet i true) i)
          (s.part.sb.dataStartLba + i) (firstEntryBlock e)) lba = sectorAt s.disk lba :=
      (sectorAt_writeSector_ne (huse.ne_of_free hi.2.1)).trans (hl.sectorAt_syncedBlockBitmap hi.1 huse.ge)
    by_cases hkm : k = m
    · subst hkm
      have haddr : (v.setSector k (s.part.sb.dataStartLba + i)).grow.blockAddr (writeSector
          (s.syncedBlockBitmap s.disk (s.blockBitmap.bitmapSet i true) i) (s.part.sb.dataStartLba + i) (firstEntryBlock e)) k =
            s.part.sb.dataStartLba + i := by
        rw [Inode.blockAddr_direct hm]
        exact Inode.sector_setSector_self (by omega)
      rw [haddr]
      exact .fresh i hi.2.1 rfl (fun _ => hzero) sectorAt_writeSector_self
    · have hblock : (v.setSector m (s.part.sb.dataStartLba + i)).grow.blockAddr (writeSector
          (s.syncedBlockBitmap s.disk (s.blockBitmap.bitmapSet i true) i) (s.part.sb.dataStartLba + i) (firstEntryBlock e)) k =
            v.blockAddr s.disk k := by
        by_cases hk12 : k < 12
        · rw [Inode.blockAddr_direct hk12, Inode.blockAddr_direct hk12]
          exact Inode.sector_setSector_ne hkm
        · exact Inode.blockAddr_congr_indirect (by omega) (Inode.sector_setSector_ne (by omega)) fun h12 =>
            hkeep _ (hd.table h12)
      rw [hblock] at hne ⊢
      exact .kept rfl (hkeep _ (hd.inUse k hk hne))
  | table i i' hfull hi hlba hi' hlba' =>
    obtain rfl : (v.setSector 12 (s.part.sb.dataStartLba + i)).grow = w := eq_of_update hw
    obtain ⟨hii, hclear⟩ := hi'.second
    have hpos := hl.data_pos
    have h12 : (v.setSector 12 (s.part.sb.dataStartLba + i)).grow.sector 12 = s.part.sb.dataStartLba + i :=
      Inode.sector_setSector_self (v := v) (by omega)
    by_cases hk12 : k < 12
    · -- the direct blocks are as they were
      have haddr : v.blockAddr s.disk k = v.sector k := Inode.blockAddr_direct hk12
      have hsec : (v.setSector 12 (s.part.sb.dataStartLba + i)).grow.sector k = v.sector k :=
        Inode.sector_setSector_ne (by omega)
      rw [Inode.blockAddr_direct hk12, hsec] at hne ⊢
      have huse := hd.inUse k hk (by rwa [haddr])
      rw [haddr] at huse
      refine .kept haddr ?_
      calc _ = _ := (sectorAt_writeSector_ne (huse.ne_of_free hclear)).trans (sectorAt_writeSector_ne (huse.ne_of_free hi.2.1))
        _ = _ := hl.sectorAt_syncedBlockBitmap hi'.1 huse.ge
        _ = _ := hl.sectorAt_syncedBlockBitmap hi.1 huse.ge
    · -- the first word of the table is the block of the entry, the others are zero
      have htable : s.part.sb.dataStartLba + i ≠ s.part.sb.dataStartLba + i' := by omega
      rw [Inode.blockAddr_indirect (by omega) (by rw [h12]; omega), h12] at hne ⊢
      have hword {D : Bytes} : Bytes.u32At (sectorAt (writeSector (writeSector D (s.part.sb.dataStartLba + i)
          (wordsOf fun j => if j = 0 then s.part.sb.dataStartLba + i' else 0)) (s.part.sb.dataStartLba + i')
            (firstEntryBlock e)) (s.part.sb.dataStartLba + i)) (4 * (k - 12)) =
          (if k - 12 = 0 then s.part.sb.dataStartLba + i' else 0) % 2 ^ 32 := by
        rw [sectorAt_writeSector_ne htable, sectorAt_writeSector_self, u32At_wordsOf (by omega)]
      have hmax : s.part.sb.dataStartLba + i' < 2 ^ 32 := lt_of_le_of_lt hlba' (by decide)
      rw [hword] at hne ⊢
      by_cases hk0 : k - 12 = 0
      · rw [if_pos hk0, Nat.mod_eq_of_lt hmax]
        exact .fresh i' hclear rfl (fun hlt => absurd hlt hk12) sectorAt_writeSector_self
      · rw [if_neg hk0] at hne
        exact absurd rfl hne

/-- The index table is the old one, or was free. -/
theorem SyncResult.indexTable (h : SyncResult s a v e s') (hw : s'.inodes a = some w) :
    w.sector 12 = v.sector 12 ∨ ∃ i, s.blockBitmap.bit i = false ∧ w.sector 12 = s.part.sb.dataStartLba + i := by
  cases h with
  | reuse m j hm hne' hj hfree =>
    obtain rfl : v.grow = w := eq_of_update hw
    exact Or.inl rfl
  | direct m i hm hzero hi hlba =>
    obtain rfl : (v.setSector m (s.part.sb.dataStartLba + i)).grow = w := eq_of_update hw
    exact Or.inl (Inode.sector_setSector_ne (by omega))
  | table i i' hfull hi hlba hi' hlba' =>
    obtain rfl : (v.setSector 12 (s.part.sb.dataStartLba + i)).grow = w := eq_of_update hw
    exact Or.inr ⟨i, hi.2.1, Inode.sector_setSector_self (v := v) (by omega)⟩

/-- A direct block that is there stays in its place. -/
theorem SyncResult.sector_kept (h : SyncResult s a v e s') {k : Nat} (hne : v.sector k ≠ 0) (hw : s'.inodes a = some w)
    (hk : k < 12) : w.sector k = v.sector k := by
  cases h with
  | reuse m j hm hne' hj hfree =>
    obtain rfl : v.grow = w := eq_of_update hw
    rfl
  | direct m i hm hzero hi hlba =>
    obtain rfl : (v.setSector m (s.part.sb.dataStartLba + i)).grow = w := eq_of_update hw
    have hkm : k ≠ m := by
      rintro rfl
      exact hne hzero
    exact Inode.sector_setSector_ne hkm
  | table i i' hfull hi hlba hi' hlba' =>
    obtain rfl : (v.setSector 12 (s.part.sb.dataStartLba + i)).grow = w := eq_of_update hw
    exact Inode.sector_setSector_ne (by omega)

/-- What the directory owns it owned before, or it was free. -/
theorem SyncResult.owned (h : SyncResult s a v e s') (hl : s.Layout) (hd : s.BlocksOk v) (hw : s'.inodes a = some w)
    (hlba : lba ≠ 0) (hown : lba = w.sector 12 ∨ ∃ k < 140, w.blockAddr s'.disk k = lba) :
    (lba = v.sector 12 ∨ ∃ k < 140, v.blockAddr s.disk k = lba) ∨
      ∃ i, s.blockBitmap.bit i = false ∧ lba = s.part.sb.dataStartLba + i := by
  rcases hown with rfl | ⟨k, hk, rfl⟩
  · exact (h.indexTable hw).imp Or.inl id
  · cases h.block hl hd hw hk hlba with
    | kept haddr hsame => exact Or.inl (Or.inr ⟨k, hk, haddr⟩)
    | filled j haddr hfree hentry => exact Or.inl (Or.inr ⟨k, hk, haddr⟩)
    | fresh i hclear hlba hwas hentry => exact Or.inr ⟨i, hclear, hlba⟩

/-- The free slots of the directory are zero still. -/
theorem SyncResult.freeZero (h : SyncResult s a v e s') (hl : s.Layout) (hd : s.BlocksOk v) (he : e.Valid)
    (hw : s'.inodes a = some w) (hzero : FreeZero s.disk v) : FreeZero s'.disk w := by
  intro k hk hne
  cases h.block hl hd hw hk hne with
  | kept haddr hsame =>
    rw [hsame, ← haddr]
    rw [← haddr] at hne
    exact hzero k hk hne
  | filled j haddr hfree hentry =>
    rw [hentry, ← haddr]
    rw [← haddr] at hne
    exact slotsZero_window (slotsZero_splice_encode he (hzero k hk hne))
  | fresh i hclear hlba hwas hentry =>
    rw [hentry]
    exact slotsZero_window (slotsZero_splice_encode (j := 0) he slotsZero_zero)

/-- And it begins with `"."` and `".."` still. -/
theorem SyncResult.dotsFirst (h : SyncResult s a v e s') (hl : s.Layout) (hd : s.BlocksOk v)
    (hw : s'.inodes a = some w) (hdots : s.DotsFirst v) : s'.DotsFirst w := by
  have hvaddr : v.blockAddr s.disk 0 = v.sector 0 := Inode.blockAddr_direct (by decide)
  have hwaddr : w.blockAddr s'.disk 0 = w.sector 0 := Inode.blockAddr_direct (by decide)
  have hsec : w.sector 0 = v.sector 0 := h.sector_kept hdots.block hw (by decide)
  have hne : w.blockAddr s'.disk 0 ≠ 0 := by
    rw [hwaddr, hsec]
    exact hdots.block
  have hslots : ∀ j < 2, DirEntry.decode (sectorAt s'.disk (v.sector 0)) j = DirEntry.decode (sectorAt s.disk (v.sector 0)) j := by
    intro j hj
    have hblock := h.block hl hd hw (by decide) hne
    rw [hwaddr, hsec] at hblock
    cases hblock with
    | kept haddr hsame => rw [hsame]
    | filled i haddr hfree hentry =>
      -- the slot that is filled was free
      have hij : j ≠ i := by
        rintro rfl
        exact hdots.full j hj hfree
      have hwindow : DirEntry.decode (((sectorAt s.disk (v.sector 0)).splice (24 * i) 24 e.encode).window 0 512) j =
          DirEntry.decode ((sectorAt s.disk (v.sector 0)).splice (24 * i) 24 e.encode) j :=
        DirEntry.decode_congr fun m hm => by rw [Bytes.window_apply (by omega), Nat.zero_add]
      rw [hentry, hwindow, decode_splice_ne hij]
    | fresh i hclear hlba hwas hentry => exact absurd (hwas (by decide)) hdots.block
  refine ⟨hsec ▸ hdots.block, fun j hj => ?_, ?_, ?_⟩
  · have hty : DirEntry.fTypeAt (sectorAt s'.disk (v.sector 0)) j = DirEntry.fTypeAt (sectorAt s.disk (v.sector 0)) j :=
      congrArg DirEntry.fType (hslots j hj)
    rw [hsec, hty]
    exact hdots.full j hj
  · rw [hsec]
    exact (congrArg DirEntry.filename (hslots 0 (by decide))).trans hdots.dot
  · rw [hsec]
    exact (congrArg DirEntry.filename (hslots 1 (by decide))).trans hdots.dotDot

end Blocks

/-! ## The parent and the new directory -/

/-- The directory has been made, with numbers that fit a byte and no entry of the parent lost. -/
structure MkdirDone (s t u s' : Fs) (p : DirPtr) (d a i b : Nat) (v w : Inode) (name : CStr) : Prop
    extends MkdirRun s t u s' p d a i b v w name where
  result : SyncResult (t.mkdirTaken i b d) a v ⟨name, i, ftDir⟩ u
  small : d < 256 ∧ i < 256
  fresh : ∀ e ∈ s.entries d, e.filename ≠ name
  added : dirEntries u.disk w = ⟨name, i, ftDir⟩ ::ₘ s.entries d

namespace MkdirDone

variable {s t u s' : Fs} {p : DirPtr} {d a i b j k n lba : Nat} {v w : Inode} {name c : CStr}

theorem isMade (h : MkdirDone s t u s' p d a i b v w name) : Made s s' d i name :=
  h.made h.small.1 h.small.2 h.fresh h.added

theorem slot_at_dir (h : MkdirDone s t u s' p d a i b v w name) : s'.slot d = w.pureInode := by
  have hslot := h.slot_dir (by
    rw [Nat.mod_eq_of_lt h.small.1, Nat.mod_eq_of_lt h.small.2]
    exact (h.making.number_ne h.takes).symm)
  rwa [Nat.mod_eq_of_lt h.small.1] at hslot

theorem slot_at_new (h : MkdirDone s t u s' p d a i b v w name) : s'.slot i = mkdirInode i (s.part.sb.dataStartLba + b) := by
  have hslot := h.slot_new
  rwa [Nat.mod_eq_of_lt h.small.2] at hslot

theorem coherent (h : MkdirDone s t u s' p d a i b v w name) (hlt : ∀ c x, s'.inodes c = some x → x.iNo < 4096) :
    s'.Coherent j := by
  intro c x hx hno
  by_cases hjd : j = d
  · exact h.coherent_dir (by rw [h.slot_at_dir]; rfl) c x hx (hno.trans hjd) |>.trans (by rw [hjd])
  by_cases hji : j = i
  · exact (h.coherent_new c x hx (hno.trans hji)).trans (by rw [hji])
  · have hj : j < 4096 := hno ▸ hlt c x hx
    exact h.coherent_other hjd (h.isMade.table j hj hjd hji) c x hx hno

theorem content_dir (h : MkdirDone s t u s' p d a i b v w name) : s'.content d = w.pureInode := by
  rw [(h.coherent_dir (by rw [h.slot_at_dir]; rfl)).content, h.slot_at_dir]
  rfl

theorem content_new (h : MkdirDone s t u s' p d a i b v w name) :
    s'.content i = mkdirInode i (s.part.sb.dataStartLba + b) := by
  rw [h.coherent_new.content, h.slot_at_new]
  rfl

/-- What is in use behind the entry is in use in the end. -/
theorem inUse_end (h : MkdirDone s t u s' p d a i b v w name) (huse : u.InUse lba) : s'.InUse lba := by
  obtain ⟨hmax, c, hc, hbit, hlba⟩ := huse
  rw [h.part_u] at hlba
  refine ⟨hmax, c, ?_, ?_, ?_⟩
  · rw [h.blockBitmap]
    exact hc
  · rw [h.blockBitmap]
    exact hbit
  · rw [h.part]
    exact hlba

theorem inUse_kept (h : MkdirDone s t u s' p d a i b v w name) (huse : s.InUse lba) : s'.InUse lba := by
  obtain ⟨hmax, c, hc, hbit, hlba⟩ := h.making.inUse_taken (i := i) (b := b) (d := d) huse
  refine h.inUse_end ⟨hmax, c, ?_, h.grown.kept c hbit, ?_⟩
  · rw [h.grown.bitmapSize]
    exact hc
  · rw [hlba, h.part_u]
    show t.part.sb.dataStartLba + c = _
    rw [h.making.same.part]

theorem blockAddr_dir (h : MkdirDone s t u s' p d a i b v w name) :
    (s'.content d).blockAddr s'.disk = w.blockAddr u.disk := by
  rw [← h.entries_dir.1, h.content_dir]
  rfl

/-- The blocks of the parent have been left alone since. -/
theorem sectorAt_dir (h : MkdirDone s t u s' p d a i b v w name) (huse : u.InUse lba) :
    sectorAt s'.disk lba = sectorAt u.disk lba := by
  apply h.sectorAt_stored
  rw [← h.part_u]
  exact huse.ge

theorem inodeOk_dir (h : MkdirDone s t u s' p d a i b v w name) : s'.InodeOk d := by
  have haddr := h.blockAddr_dir
  have hsec : (s'.content d).sector 12 = w.sector 12 := by
    rw [h.content_dir]
    rfl
  have hin := h.making.store.inMap d (Or.inl h.making.dir)
  refine ⟨⟨hin.1, ?_⟩, h.inode_bits.mpr (Or.inl (h.making.numbers.used d (Or.inl h.making.dir))), h.isMade.number,
    ⟨fun k hk hne => ?_, fun h12 => ?_, ?_, ?_⟩⟩
  · rw [h.inodeMap]
    exact hin.2
  · rw [haddr] at hne ⊢
    exact h.inUse_end (h.synced.blocks.inUse k hk hne)
  · rw [hsec] at h12 ⊢
    exact h.inUse_end (h.synced.blocks.table h12)
  · rw [haddr]
    exact h.synced.blocks.inj
  · rw [haddr, hsec]
    exact h.synced.blocks.tableNe

theorem dirAt_dir (h : MkdirDone s t u s' p d a i b v w name) (hs : s.InOrder) : s'.DirAt d := by
  have hblocks := (h.making.dirOk_taken (i := i) h.takes).toBlocksOk
  have hold := hs.dirAt h.making.dir
  have haddr := h.blockAddr_dir
  have hsec : (s'.content d).sector 0 = w.sector 0 := by
    rw [h.content_dir]
    rfl
  have hentries : dirEntries s'.disk (s'.content d) = ⟨name, i, ftDir⟩ ::ₘ s.entries d := h.isMade.entry
  -- the parent before the entry was added
  have hdots : (t.mkdirTaken i b d).DotsFirst v := by
    have hne : v.sector 0 ≠ 0 := by
      rw [h.making.sector_eq]
      exact hold.dots.block
    have hdirect := h.making.direct_taken h.takes (by decide) hne
    refine ⟨hne, ?_, ?_, ?_⟩
    · rw [hdirect, h.making.sector_eq]
      exact hold.dots.full
    · rw [hdirect, h.making.sector_eq]
      exact hold.dots.dot
    · rw [hdirect, h.making.sector_eq]
      exact hold.dots.dotDot
  have hzero : FreeZero (t.mkdirTaken i b d).disk v := by
    intro k hk hne
    rw [(h.making.frame_taken h.takes).1] at hne ⊢
    rw [h.making.sectorAt_taken h.takes (h.making.inUse_block hk hne)]
    exact hold.zero k hk hne
  have hw := h.synced.inode
  have hvalid := h.making.entry_valid h.takes
  have hdots' := h.result.dotsFirst h.making.layout_taken hblocks hw hdots
  have hzero' := h.result.freeZero h.making.layout_taken hblocks hvalid hw hzero
  have hfirst : sectorAt s'.disk (w.sector 0) = sectorAt u.disk (w.sector 0) := by
    have hwaddr : w.blockAddr u.disk 0 = w.sector 0 := Inode.blockAddr_direct (by decide)
    have huse := h.synced.blocks.inUse 0 (by decide)
    rw [hwaddr] at huse
    exact h.sectorAt_dir (huse hdots'.block)
  refine ⟨⟨⟨h.inodeOk_dir.blocks, fun k hk hne => ?_, ?_⟩, ?_⟩, ?_, fun e he => ?_, fun k hk hne => ?_⟩
  · rw [haddr] at hne ⊢
    rw [h.sectorAt_dir (h.synced.blocks.inUse k hk hne)]
    exact h.synced.slots k hk hne
  · rw [hentries, Multiset.map_cons, Multiset.nodup_cons]
    refine ⟨fun hmem => ?_, hold.dirOk.names⟩
    obtain ⟨e, he, hname⟩ := Multiset.mem_map.mp hmem
    exact h.fresh e he hname
  · rw [hentries, Multiset.card_cons, h.isMade.size, hold.dirOk.size]
    exact (Nat.mul_succ 24 _).symm
  · refine ⟨hsec ▸ hdots'.block, ?_, ?_, ?_⟩
    · rw [hsec, hfirst]
      exact hdots'.full
    · rw [hsec, hfirst]
      exact hdots'.dot
    · rw [hsec, hfirst]
      exact hdots'.dotDot
  · rw [h.isMade.entry, Multiset.mem_cons] at he
    rcases he with rfl | he
    · exact Or.inl rfl
    · exact hold.types e he
  · rw [haddr] at hne ⊢
    rw [h.sectorAt_dir (h.synced.blocks.inUse k hk hne)]
    exact hzero' k hk hne

/-- The block of the new directory is in use. -/
theorem inUse_new (h : MkdirDone s t u s' p d a i b v w name) : s'.InUse (s.part.sb.dataStartLba + b) := by
  refine h.inUse_end ⟨h.takes.lba, b, ?_, h.grown.kept b (Bitmap.bitmapSet_bit_self _ _ _), by rw [h.part_u]⟩
  rw [h.grown.bitmapSize]
  show b < t.blockBitmap.size
  rw [h.making.same.blockBitmap]
  exact h.takes.block.1

/-- The new directory has its entries for itself and for its parent. -/
theorem newDir (h : MkdirDone s t u s' p d a i b v w name) : s'.NewDir i d (s.part.sb.dataStartLba + b) where
  content := h.content_new
  sector := h.sectorAt_new
  inUse := h.inUse_new
  pos := by
    have hpos := h.making.store.layout.data_pos
    omega
  word := by
    have hd := h.making.number_lt
    exact ⟨h.making.number_word h.takes, show d < 2 ^ 32 by omega⟩

theorem inodeOk_new (h : MkdirDone s t u s' p d a i b v w name) : s'.InodeOk i := by
  have hlt := h.small.2
  refine ⟨⟨by omega, ?_⟩, h.inode_bits.mpr (Or.inr rfl), h.isMade.inode.1, h.newDir.blocksOk⟩
  rw [h.inodeMap]
  exact h.takes.inode.1

end MkdirDone

/-! ## The tree behind the call -/

namespace Made

variable {s s' : Fs} {d i j n : Nat} {name c : CStr}

/-- The new number is none of the tree's. -/
theorem not_inTree (h : Made s s' d i name) (hs : s.NumbersOk) : ¬ s.InTree i := by
  intro hi
  have hused := hs.used i hi
  rw [h.inodes.1] at hused
  cases hused

theorem ne_of_inTree (h : Made s s' d i name) (hs : s.NumbersOk) (hj : s.InTree j) : j ≠ i := by
  rintro rfl
  exact h.not_inTree hs hj

theorem entries_kept (h : Made s s' d i name) (hj : s.InTree j) (hjd : j ≠ d) : s'.entries j = s.entries j :=
  (h.others j hj hjd).2.2

theorem entries_sub (h : Made s s' d i name) (hj : s.InTree j) {e : DirEntry} (he : e ∈ s.entries j) : e ∈ s'.entries j := by
  by_cases hjd : j = d
  · subst hjd
    rw [h.entry]
    exact Multiset.mem_cons_of_mem he
  · rw [h.entries_kept hj hjd]
    exact he

/-- The directories are those there were and the new one. -/
theorem isDir_iff (h : Made s s' d i name) (hd : s.IsDir d) : s'.IsDir j ↔ s.IsDir j ∨ j = i := by
  have hold : ∀ n, s.IsDir n → s'.IsDir n := by
    intro n hn
    induction hn with
    | root => exact .root
    | child hn he hty ih => exact ih.child (h.entries_sub (Or.inl hn) he) hty
  constructor
  · intro hj
    induction hj with
    | root => exact Or.inl .root
    | @child n e hn he hty ih =>
      rcases ih with hn' | rfl
      · by_cases hnd : n = d
        · subst hnd
          rw [h.entry, Multiset.mem_cons] at he
          rcases he with rfl | he
          · exact Or.inr rfl
          · exact Or.inl (hn'.child he hty)
        · rw [h.entries_kept (Or.inl hn') hnd] at he
          exact Or.inl (hn'.child he hty)
      · -- the entries of the new directory lead to itself and to its parent
        rw [h.dots] at he
        simp only [Multiset.insert_eq_cons, Multiset.mem_cons, Multiset.mem_singleton] at he
        rcases he with rfl | rfl
        · exact Or.inr rfl
        · exact Or.inl hd
  · rintro (hj | rfl)
    · exact hold j hj
    · have hentry : (⟨name, j, ftDir⟩ : DirEntry) ∈ s'.entries d := by
        rw [h.entry]
        exact Multiset.mem_cons_self _ _
      exact (hold d hd).child hentry rfl

/-- A regular file is named where it was. -/
theorem file_entry (h : Made s s' d i name) (hd : s.IsDir d) (hj : s'.IsDir j) {e : DirEntry}
    (he : e ∈ s'.entries j) (hty : e.fType = ftRegular) : s.IsDir j ∧ e ∈ s.entries j := by
  have hne : ftDir ≠ ftRegular := by decide
  rcases (h.isDir_iff hd).mp hj with hj | rfl
  · refine ⟨hj, ?_⟩
    by_cases hjd : j = d
    · subst hjd
      rw [h.entry, Multiset.mem_cons] at he
      rcases he with rfl | he
      · exact absurd hty hne
      · exact he
    · rwa [h.entries_kept (Or.inl hj) hjd] at he
  · rw [h.dots] at he
    simp only [Multiset.insert_eq_cons, Multiset.mem_cons, Multiset.mem_singleton] at he
    rcases he with rfl | rfl
    · exact absurd hty hne
    · exact absurd hty hne

theorem isFile_iff (h : Made s s' d i name) (hd : s.IsDir d) : s'.IsFile j ↔ s.IsFile j := by
  constructor
  · rintro ⟨n, hn, e, he, hty, hno⟩
    obtain ⟨hn', he'⟩ := h.file_entry hd hn he hty
    exact ⟨n, hn', e, he', hty, hno⟩
  · rintro ⟨n, hn, e, he, hty, hno⟩
    exact ⟨n, (h.isDir_iff hd).mpr (Or.inl hn), e, h.entries_sub (Or.inl hn) he, hty, hno⟩

theorem inTree_iff (h : Made s s' d i name) (hd : s.IsDir d) : s'.InTree j ↔ s.InTree j ∨ j = i := by
  unfold Fs.InTree
  rw [h.isDir_iff hd, h.isFile_iff hd, or_right_comm]

/-! ### Names -/

/-- The name is new, so it is none of the two every directory has. -/
theorem name_ne (h : Made s s' d i name) (hs : s.StoreOk) (hd : s.IsDir d) : name ≠ dot ∧ name ≠ dotDot := by
  have hno (c : CStr) (ch : Child Nat) (hc : s.names d c = some ch) : name ≠ c := by
    obtain ⟨e, he, hname, -⟩ := Fs.exists_of_names hc
    exact fun heq => h.fresh e he (hname.trans heq.symm)
  obtain ⟨j, hj⟩ := hs.up d hd
  exact ⟨hno _ _ (hs.self d hd), hno _ _ hj⟩

theorem names_kept (h : Made s s' d i name) (hj : s.InTree j) (hjd : j ≠ d) : s'.names j = s.names j := by
  unfold Fs.names
  rw [h.entries_kept hj hjd]

/-- The parent names the new directory, and everything else as before. -/
theorem names_parent (h : Made s s' d i name) (hnode : s'.DirNode d) :
    s'.names d c = if c = name then some (.dir i) else s.names d c := by
  have hin (e : DirEntry) (he : e ∈ s.entries d) : e ∈ s'.entries d := by
    rw [h.entry]
    exact Multiset.mem_cons_of_mem he
  have hnew : (⟨name, i, ftDir⟩ : DirEntry) ∈ s'.entries d := by
    rw [h.entry]
    exact Multiset.mem_cons_self _ _
  split
  · next hc =>
    rw [hc]
    exact (hnode.names_eq hnew).trans (congrArg some (DirEntry.child_dir rfl))
  · next hc =>
    cases hold : s.names d c with
    | some ch =>
      obtain ⟨e, he, rfl, rfl⟩ := Fs.exists_of_names hold
      exact hnode.names_eq (hin e he)
    | none =>
      rw [Fs.names_eq_none] at hold ⊢
      intro e he
      rw [h.entry, Multiset.mem_cons] at he
      rcases he with rfl | he
      · exact fun heq => hc heq.symm
      · exact hold e he

end Made

/-! ## Everything is in order -/

namespace MkdirDone

variable {s t u s' : Fs} {p : DirPtr} {d a i b j k n lba : Nat} {v w : Inode} {name c : CStr}

theorem isDir_iff (h : MkdirDone s t u s' p d a i b v w name) : s'.IsDir j ↔ s.IsDir j ∨ j = i :=
  h.isMade.isDir_iff h.making.dir

theorem ne_new (h : MkdirDone s t u s' p d a i b v w name) (hj : s.InTree j) : j ≠ i :=
  h.isMade.ne_of_inTree h.making.numbers hj

theorem inodeOk (h : MkdirDone s t u s' p d a i b v w name) (hs : s.InOrder) (hj : s'.InTree j) : s'.InodeOk j := by
  rcases (h.isMade.inTree_iff h.making.dir).mp hj with hold | rfl
  · by_cases hjd : j = d
    · rw [hjd]
      exact h.inodeOk_dir
    · obtain ⟨hspared, hcontent, -⟩ := h.isMade.others j hold hjd
      refine hspared.inodeOk hcontent ?_ (h.inode_bits.mpr (Or.inl (hs.used j hold)))
        (fun lba hown => h.inUse_kept (hs.toStoreOk.inUse hold hown)) (hs.inodeOk hold)
      rw [h.inodeMap]
      rfl
  · exact h.inodeOk_new

theorem dirAt (h : MkdirDone s t u s' p d a i b v w name) (hs : s.InOrder) (hj : s'.IsDir j) : s'.DirAt j := by
  rcases h.isDir_iff.mp hj with hold | rfl
  · by_cases hjd : j = d
    · rw [hjd]
      exact h.dirAt_dir hs
    · obtain ⟨hspared, hcontent, hentries⟩ := h.isMade.others j (Or.inl hold) hjd
      exact hspared.dirAt hcontent hentries (h.inodeOk hs (Or.inl hj)) (hs.dirAt hold)
  · exact h.newDir.dirAt

theorem node (h : MkdirDone s t u s' p d a i b v w name) (hs : s.InOrder) (hj : s'.IsDir j) : s'.DirNode j :=
  (h.dirAt hs hj).node (h.inodeOk hs (Or.inl hj))

/-! ### Blocks -/

/-- What an inode of the tree owns it owned before; or it is the parent's and was free; or it is the block of
    the new directory. -/
theorem owner (h : MkdirDone s t u s' p d a i b v w name) (hj : s'.InTree j) (hown : s'.Owns j lba) :
    s.InTree j ∧ s.Owns j lba ∨ j = d ∧ (∃ m, s.blockBitmap.bit m = false ∧ m ≠ b ∧ lba = s.part.sb.dataStartLba + m) ∨
      j = i ∧ lba = s.part.sb.dataStartLba + b := by
  obtain ⟨hne, hown⟩ := hown
  rcases (h.isMade.inTree_iff h.making.dir).mp hj with hold | rfl
  · by_cases hjd : j = d
    · subst hjd
      have hsec : (s'.content j).sector 12 = w.sector 12 := by
        rw [h.content_dir]
        rfl
      rw [hsec, h.blockAddr_dir] at hown
      have hblocks := (h.making.dirOk_taken (i := i) h.takes).toBlocksOk
      rcases h.result.owned h.making.layout_taken hblocks h.synced.inode hne hown with hwas | ⟨m, hclear, hlba⟩
      · rw [h.making.sector_eq, (h.making.frame_taken h.takes).1] at hwas
        exact Or.inl ⟨hold, hne, hwas⟩
      · -- a free block, and not the one that was taken first
        have hmb : m ≠ b := by
          rintro rfl
          have hset : (t.mkdirTaken i m j).blockBitmap.bit m = true := Bitmap.bitmapSet_bit_self _ _ _
          rw [hclear] at hset
          cases hset
        have hbit : (t.blockBitmap.bitmapSet b true).bit m = false := hclear
        rw [Bitmap.bitmapSet_bit_ne hmb, h.making.same.blockBitmap] at hbit
        have hlba' : lba = t.part.sb.dataStartLba + m := hlba
        rw [h.making.same.part] at hlba'
        exact Or.inr (Or.inl ⟨rfl, m, hbit, hmb, hlba'⟩)
    · obtain ⟨hspared, hcontent, -⟩ := h.isMade.others j hold hjd
      rw [hcontent, hspared.blockAddr] at hown
      exact Or.inl ⟨hold, hne, hown⟩
  · right
    right
    rw [h.content_new] at hown
    rcases hown with htable | ⟨k, hk, hblock⟩
    · exact absurd htable hne
    · rw [MkdirRun.blockAddr_new] at hblock
      split at hblock
      · exact ⟨rfl, hblock.symm⟩
      · exact absurd hblock.symm hne

/-- No block is owned twice. -/
theorem apart (h : MkdirDone s t u s' p d a i b v w name) (hs : s.InOrder) (hj : s'.InTree j) (hn : s'.InTree n)
    (hown : s'.Owns j lba) (hown' : s'.Owns n lba) : j = n := by
  have hfree (m : Nat) (hm : s.blockBitmap.bit m = false) (hlba : lba = s.part.sb.dataStartLba + m) {q : Nat}
      (hq : s.InTree q) (hq' : s.Owns q lba) : False := (hs.toStoreOk.inUse hq hq').ne_of_free hm hlba
  rcases h.owner hj hown with ⟨hold, howned⟩ | ⟨rfl, m, hclear, hmb, hlba⟩ | ⟨rfl, hlba⟩
  · rcases h.owner hn hown' with ⟨hold', howned'⟩ | ⟨rfl, m, hclear, hmb, hlba⟩ | ⟨rfl, hlba⟩
    · exact hs.apart j n lba hold hold' howned howned'
    · exact (hfree m hclear hlba hold howned).elim
    · exact (hfree b h.takes.block.2.1 hlba hold howned).elim
  · rcases h.owner hn hown' with ⟨hold', howned'⟩ | ⟨rfl, m', -, -, -⟩ | ⟨rfl, hlba'⟩
    · exact (hfree m hclear hlba hold' howned').elim
    · rfl
    · omega
  · rcases h.owner hn hown' with ⟨hold', howned'⟩ | ⟨rfl, m, hclear, hmb, hlba'⟩ | ⟨rfl, -⟩
    · exact (hfree b h.takes.block.2.1 hlba hold' howned').elim
    · omega
    · rfl

/-! ### Names -/

theorem names_kept (h : MkdirDone s t u s' p d a i b v w name) (hj : s.IsDir j) (hjd : j ≠ d) : s'.names j = s.names j :=
  h.isMade.names_kept (Or.inl hj) hjd

theorem names_parent (h : MkdirDone s t u s' p d a i b v w name) (hs : s.InOrder) :
    s'.names d c = if c = name then some (.dir i) else s.names d c :=
  h.isMade.names_parent (h.node hs (h.isDir_iff.mpr (Or.inl h.making.dir)))

theorem names_new (h : MkdirDone s t u s' p d a i b v w name) (hs : s.InOrder) :
    s'.names i dot = some (.dir i) ∧ s'.names i dotDot = some (.dir d) ∧ ∀ c, Downward c → s'.names i c = none :=
  (h.node hs (h.isDir_iff.mpr (Or.inr rfl))).names_new h.isMade.dots

/-- The two names every directory has stand for what they stood for. -/
theorem names_dots (h : MkdirDone s t u s' p d a i b v w name) (hs : s.InOrder) (hj : s.IsDir j)
    (hc : c = dot ∨ c = dotDot) : s'.names j c = s.names j c := by
  by_cases hjd : j = d
  · subst hjd
    obtain ⟨hdot, hdotDot⟩ := h.isMade.name_ne hs.toStoreOk hj
    rw [h.names_parent hs, if_neg]
    rintro rfl
    rcases hc with rfl | rfl
    · exact hdot rfl
    · exact hdotDot rfl
  · rw [h.names_kept hj hjd]

/-- What a name other than these leads down to: what it led to before, or the new directory in its parent. -/
theorem names_down (h : MkdirDone s t u s' p d a i b v w name) (hs : s.InOrder) (hj : s'.IsDir j) (hc : Downward c)
    (hnames : s'.names j c = some (.dir n)) :
    s.IsDir j ∧ (s.names j c = some (.dir n) ∨ j = d ∧ c = name ∧ n = i) := by
  rcases h.isDir_iff.mp hj with hold | rfl
  · refine ⟨hold, ?_⟩
    by_cases hjd : j = d
    · subst hjd
      rw [h.names_parent hs] at hnames
      split at hnames
      · next hcn => exact Or.inr ⟨rfl, hcn, by simpa using hnames.symm⟩
      · exact Or.inl hnames
    · rw [h.names_kept hold hjd] at hnames
      exact Or.inl hnames
  · rw [(h.names_new hs).2.2 c hc] at hnames
    cases hnames

/-- Making a directory keeps the file system in order. -/
theorem inOrder (h : MkdirDone s t u s' p d a i b v w name) (hs : s.InOrder) (hset : Settled s s') : s'.InOrder where
  cache := hset.ok
  live := hset.live
  entrySize := by rw [hset.part]; exact hs.entrySize
  table := hset.table hs.toStoreOk
  running := hset.running hs.toStoreOk
  root := hset.root hs.toStoreOk
  node := fun j hj => h.node hs hj
  self := by
    intro j hj
    rcases h.isDir_iff.mp hj with hold | rfl
    · rw [h.names_dots hs hold (Or.inl rfl)]
      exact hs.self j hold
    · exact (h.names_new hs).1
  rootUp := by
    rw [h.names_dots hs .root (Or.inr rfl)]
    exact hs.rootUp
  layout := hset.layout hs.toStoreOk
  coherent := fun j => h.coherent (hset.numberLt hs)
  single := hset.single hs.toStoreOk
  dirOk := fun j hj => (h.dirAt hs hj).dirOk
  dotsFirst := fun j hj => (h.dirAt hs hj).dots
  up := by
    intro j hj
    rcases h.isDir_iff.mp hj with hold | rfl
    · rw [h.names_dots hs hold (Or.inr rfl)]
      exact hs.up j hold
    · exact ⟨d, (h.names_new hs).2.1⟩
  inMap := fun j hj => (h.inodeOk hs hj).inMap
  own := fun j hj => (h.inodeOk hs hj).own
  blocks := fun j hj => (h.inodeOk hs hj).blocks
  apart := fun j n lba hj hn => h.apart hs hj hn
  notDir := by
    intro j hfile hdir
    have hold := (h.isMade.isFile_iff h.making.dir).mp hfile
    rcases h.isDir_iff.mp hdir with hdir | rfl
    · exact hs.notDir j hold hdir
    · exact h.isMade.not_inTree h.making.numbers (Or.inr hold)
  once := by
    intro j n e e' hj hn he he' hty hty' hno
    obtain ⟨hj', hold⟩ := h.isMade.file_entry h.making.dir hj he hty
    obtain ⟨hn', hold'⟩ := h.isMade.file_entry h.making.dir hn he' hty'
    exact hs.once j n e e' hj' hn' hold hold' hty hty' hno
  rootFirst := by
    have hdata : s'.part.sb.dataStartLba = s.part.sb.dataStartLba := by rw [hset.part]
    rw [hdata]
    by_cases hd : d = 0
    · -- the root has got the entry
      subst hd
      have hsec : (s'.content 0).sector 0 = w.sector 0 := by
        rw [h.content_dir]
        rfl
      have hroot := hs.rootFirst
      rw [← h.making.sector_eq] at hroot
      have hpos := hs.layout.data_pos
      rw [hsec, h.result.sector_kept (by omega) h.synced.inode (by decide), hroot]
    · rw [(h.isMade.others 0 (Or.inl .root) (Ne.symm hd)).2.1]
      exact hs.rootFirst
  slots := hset.slots hs.toStoreOk
  parent := by
    intro j c n hj hc hnames
    obtain ⟨hold, hwas | ⟨rfl, rfl, rfl⟩⟩ := h.names_down hs hj hc hnames
    · rw [h.names_dots hs (hold.names hwas) (Or.inr rfl)]
      exact hs.parent j c n hold hc hwas
    · exact (h.names_new hs).2.1
  distinct := by
    intro j c c' n hj hc hc' hnames hnames'
    obtain ⟨hold, hwas | ⟨hjd, hcn, hni⟩⟩ := h.names_down hs hj hc hnames
    · obtain ⟨-, hwas' | ⟨-, -, rfl⟩⟩ := h.names_down hs hj hc' hnames'
      · exact hs.distinct j c c' n hold hc hc' hwas hwas'
      · exact absurd rfl (h.ne_new (Or.inl (hold.names hwas)))
    · obtain ⟨-, hwas' | ⟨-, hcn', -⟩⟩ := h.names_down hs hj hc' hnames'
      · exact absurd hni (h.ne_new (Or.inl (hold.names hwas')))
      · rw [hcn, hcn']
  top := by
    intro j c hj hc hnames
    obtain ⟨hold, hwas | ⟨-, -, hzero⟩⟩ := h.names_down hs hj hc hnames
    · exact hs.top j c hold hc hwas
    · exact absurd hzero (h.ne_new (Or.inl .root))
  free := fun j hj => (h.dirAt hs hj).zero
  used := fun j hj => (h.inodeOk hs hj).used
  held := by
    intro c x hx
    obtain ⟨x', hx', hno⟩ := hset.cachedAs hs.cache hx
    rw [← hno]
    exact h.inode_bits.mpr (Or.inl (hs.held c x' hx'))
  slotNo := by
    intro j hj hbit
    rcases h.inode_bits.mp hbit with hbit | rfl
    · by_cases hjd : j = d
      · rw [hjd, h.slot_at_dir]
        exact h.number
      · have hji : j ≠ i := by
          rintro rfl
          rw [h.takes.inode.2.1] at hbit
          cases hbit
        rw [h.isMade.table j hj hjd hji]
        exact hs.slotNo j hj hbit
    · rw [h.slot_at_new]
      rfl
  numberLt := hset.numberLt hs
  cachedFor := hset.cachedFor hs fun j hj => h.isDir_iff.mpr (Or.inl hj)
  cwd := hset.cwd hs fun j hj => h.isDir_iff.mpr (Or.inl hj)

end MkdirDone

/-! ## sys_mkdir -/

section Call

variable {s s₁ s' t : Fs} {path : CStr} {user : Bool} {out : Option Nat × PathSearchRecord} {k : Nat}

/-- Every request to the heap is served. -/
def Fs.Serves (s : Fs) : Prop := ∀ j, s.heap.full (s.heap.next + j) = false

/-- A call that holds nothing and moves neither layout nor bitmaps. -/
theorem HoldsDir.settled (h : HoldsDir s t .root) (hlive : t.heap.LiveBelow) (hpart : t.part = s.part)
    (hblock : t.blockBitmap.size = s.blockBitmap.size) (hinode : t.inodeMap.size = s.inodeMap.size) : Settled s t where
  toCacheStep := h.toCacheStep
  part := hpart
  blockLen := hblock
  inodeLen := hinode
  live := hlive

theorem Settled.serves (h : Settled s t) (hserves : s.Serves) : t.Serves := by
  intro j
  obtain ⟨m, hm⟩ := Nat.exists_eq_add_of_le h.next
  rw [h.full, hm, Nat.add_assoc]
  exact hserves _

theorem Restored.serves (h : Restored s t) (hserves : s.Serves) : t.Serves := by
  obtain ⟨n, hn, rfl⟩ := h
  intro j
  obtain ⟨m, rfl⟩ := Nat.exists_eq_add_of_le hn
  show s.heap.full (s.heap.next + m + j) = false
  rw [Nat.add_assoc]
  exact hserves _

theorem MkdirDone.settled {u : Fs} {p : DirPtr} {d a i b : Nat} {v w : Inode} {name : CStr}
    (h : MkdirDone s t u s' p d a i b v w name) (hholds : HoldsDir s s' .root) (hlive : s'.heap.LiveBelow) : Settled s s' := by
  refine hholds.settled hlive h.part ?_ ?_
  · rw [h.blockBitmap, h.grown.bitmapSize]
    show (t.blockBitmap.bitmapSet b true).size = _
    rw [Bitmap.bitmapSet_size, h.making.same.blockBitmap]
  · rw [h.inodeMap]
    rfl

theorem sysMalloc_serves {c : Task} (hrun : s.tasks s.cur = some c) (hserves : s.Serves) :
    Returns sysMalloc s (some s.heap.next) (s.buffered c.userSpace) ∧ (s.buffered c.userSpace).Serves := by
  have hfirst : ¬ s.heap.full s.heap.next = true := by
    have h0 := hserves 0
    rw [Nat.add_zero] at h0
    rw [h0]
    decide
  constructor
  · simp only [sysMalloc, mallocFrom, returns_bind, returns_runningThread, returns_query]
    refine ⟨c, s, ⟨hrun, rfl⟩, s.heap, s, ⟨rfl, rfl⟩, ?_⟩
    rw [if_neg hfirst]
    simp only [returns_bind, returns_update, returns_pure]
    exact ⟨(), _, rfl, trivial, rfl⟩
  · intro j
    have hj := hserves (1 + j)
    rwa [← Nat.add_assoc] at hj

/-- The names the search has looked up, and those it has not. -/
theorem Arrives.searched_split (harr : Arrives (s.buffered user) s₁ (s.walkPath path) k out)
    (hnone : (s.walkPath path).found = none) :
    ∃ upto, out.2.searchedPath = spell slash upto ∧ components slash path = upto ++ (s.walkPath path).rest ∧ upto ≠ [] := by
  obtain ⟨upto, hseen, hcs, hupto⟩ := @arrive_seen _ _ s.names 0 (components slash path) 0 []
  rw [List.nil_append] at hseen
  exact ⟨upto, harr.searched.trans (congrArg (spell slash) hseen), hcs.symm, hupto hnone⟩

/-- Behind a search that has come to something, or has not looked up the last name, the call gives up. -/
theorem mkdirSearched_refuses (hlive : s.heap.LiveBelow) (habs : path.head? = some slash)
    (hfit : AllFit (components slash path)) (harr : Arrives (s.buffered user) s₁ (s.walkPath path) k out)
    (hnot : (s.walkPath path).found ≠ none ∨ (s.walkPath path).rest ≠ []) :
    ∃ s', Returns (mkdirSearched path (some s.heap.next) out) s₁ (-1) s' ∧ Restored s s' := by
  have hnumber := harr.number
  cases hfound : (s.walkPath path).found with
  | some child =>
    rw [hfound] at hnumber
    exact mkdirSearched_found hlive harr.parent (by rw [hnumber]; simp)
  | none =>
    rw [hfound] at hnumber
    obtain ⟨upto, hsearched, hcs, hupto⟩ := harr.searched_split hfound
    obtain ⟨s', hstop, hrest⟩ := gives_up hlive harr.parent
    exact ⟨s', (mkdirSearched_missing habs hnumber hsearched hcs hupto).mpr
      ⟨hfit, Or.inl ⟨hnot.resolve_left (not_not.mpr hfound), hstop⟩⟩, hrest⟩

/-- Behind a search that has missed the last name, the directory is made. -/
theorem mkdirSearched_makes (hs : s.NumbersOk) (habs : path.head? = some slash) (hnul : ∀ b ∈ path, b ≠ 0)
    (hne : components slash path ≠ []) (hfit : AllFit (components slash path))
    (harr : Arrives (s.buffered user) s₁ (s.walkPath path) k out) (hnone : (s.walkPath path).found = none)
    (hrest : (s.walkPath path).rest = []) (hroom : s.MkdirRoom (s.walkPath path).above) :
    ∃ t u s' p a i b v w, Returns (mkdirSearched path (some s.heap.next) out) s₁ 0 s' ∧
      MkdirDone s t u s' p (s.walkPath path).above a i b v w ((components slash path).getLastD []) := by
  have hnumber := harr.number
  rw [hnone] at hnumber
  obtain ⟨upto, hsearched, hcs, hupto⟩ := harr.searched_split hnone
  have hlast : lastName out.2.searchedPath = (components slash path).getLastD [] := by
    have hall := hcs
    rw [hrest, List.append_nil] at hall
    rw [hsearched, ← hall]
    exact lastName_spell hne fun c hc => (mem_components hc).2.1
  have hfresh : ∀ e ∈ s.entries (s.walkPath path).above, e.filename ≠ (components slash path).getLastD [] :=
    Fs.names_eq_none.mp ((arrive_last (i := 0) hne hrest []).trans hnone)
  obtain ⟨a, v, hm⟩ := hs.making harr.parent (dir_arrive .root .root) (lastName_ok hnul hne hfit)
  obtain ⟨i, b, w, x, u, s', hi, hfirst, hinstall, hentry, hrun, hadd⟩ := hm.installs (m := s.heap.next) hroom rfl hlast
  refine ⟨s₁, u, s', out.2.parentDir, a, i, b, v, w, (mkdirSearched_missing habs hnumber hsearched hcs hupto).mpr
    ⟨hfit, Or.inr ⟨hrest, i, hfirst, hinstall⟩⟩, hrun, ?_, ⟨hroom.1, hi⟩, hfresh, hadd⟩
  exact (returns_syncDirEntry hm.layout_taken.entrySize hm.handle_taken hm.inode_taken hentry).2

/-- A path that `sys_mkdir` can follow to its end. -/
structure PathFits (path : CStr) : Prop where
  abs : path.head? = some slash
  nul : ∀ b ∈ path, b ≠ 0
  short : path.length < 512
  fit : AllFit (components slash path)

/-- The search on behalf of `sys_mkdir`. -/
theorem sysMkdir_search (hs : s.InOrder) (hserves : s.Serves) (hpath : PathFits path) (hroot : ¬ RootAlias path)
    (hne : components slash path ≠ []) :
    ∃ user s₁ out k, Arrives (s.buffered user) s₁ (s.walkPath path) k out ∧ ∀ r s', Returns (sysMkdir path) s r s' ↔
      Returns (mkdirSearched path (some s.heap.next) out) s₁ r s' := by
  obtain ⟨c, hc⟩ := hs.running
  obtain ⟨hmalloc, hserves'⟩ := sysMalloc_serves hc hserves
  obtain ⟨hhead, hclear⟩ := (clear_of_fits hserves' hpath.fit : HeadFits _ ∧ Fs.Clear _ 0 0 0 _)
  obtain ⟨out, s₁, hsearch, harr⟩ := searchFile_arrives hs.toStoreOk.buffered.toTreeOk hpath.abs hpath.short hpath.nul
    hroot hne hhead hclear
  exact ⟨_, s₁, out, _, harr, fun r s' => returns_sysMkdir hmalloc hsearch⟩

/-- The root is there already. -/
theorem sysMkdir_root (hs : s.InOrder) (hserves : s.Serves) (hroot : RootAlias path) :
    ∃ s', Returns (sysMkdir path) s (-1) s' ∧ Restored s s' := by
  obtain ⟨c, hc⟩ := hs.running
  obtain ⟨hmalloc, -⟩ := sysMalloc_serves hc hserves
  have hsearch : Returns (searchFile path) (s.buffered c.userSpace)
      (some 0, { searchedPath := [], parentDir := .root, fType := ftDir }) (s.buffered c.userSpace) := by
    rw [searchFile_root hroot]
    exact returns_pure.mpr ⟨rfl, rfl⟩
  obtain ⟨s', hrun, hrest⟩ := @mkdirSearched_found _ _ path _
    (some 0, { searchedPath := [], parentDir := .root, fType := ftDir }) _ _ hs.live (.root hs.toStoreOk.buffered.toTreeOk)
    (by simp)
  exact ⟨s', (returns_sysMkdir hmalloc hsearch).mpr hrun, hrest⟩

/-- Where the path names something, or leads nowhere, `sys_mkdir` fails and changes nothing. -/
theorem sysMkdir_refuses (hs : s.InOrder) (hserves : s.Serves) (hpath : PathFits path) (hroot : ¬ RootAlias path)
    (hne : components slash path ≠ []) (hnot : (s.walkPath path).found ≠ none ∨ (s.walkPath path).rest ≠ []) :
    ∃ s', Returns (sysMkdir path) s (-1) s' ∧ Restored s s' := by
  obtain ⟨user, s₁, out, k, harr, hcall⟩ := sysMkdir_search hs hserves hpath hroot hne
  obtain ⟨s', hrun, hrest⟩ := mkdirSearched_refuses hs.live hpath.abs hpath.fit harr hnot
  exact ⟨s', (hcall _ _).mpr hrun, hrest⟩

/-- Where its last name is missing and there is room, the directory is made. -/
theorem sysMkdir_makes (hs : s.InOrder) (hserves : s.Serves) (hpath : PathFits path) (hroot : ¬ RootAlias path)
    (hne : components slash path ≠ []) (hnone : (s.walkPath path).found = none) (hrest : (s.walkPath path).rest = [])
    (hroom : s.MkdirRoom (s.walkPath path).above) :
    ∃ t u s' p a i b v w, Returns (sysMkdir path) s 0 s' ∧
      MkdirDone s t u s' p (s.walkPath path).above a i b v w ((components slash path).getLastD []) ∧ Settled s s' := by
  obtain ⟨user, s₁, out, k, harr, hcall⟩ := sysMkdir_search hs hserves hpath hroot hne
  obtain ⟨t, u, s', p, a, i, b, v, w, hrun, hdone⟩ := mkdirSearched_makes hs.toNumbersOk hpath.abs hpath.nul hne hpath.fit
    harr hnone hrest hroom
  have hmkdir := (hcall _ _).mpr hrun
  exact ⟨t, u, s', p, a, i, b, v, w, hmkdir, hdone, hdone.settled (sysMkdir_holds hs.cache hmkdir)
    (keeps_sysMkdir (R := KeepsLive) hmkdir hs.live)⟩

end Call

end ZxyOs
