/-
  ZxyOs.Fs.Saved

  What of a partition is on its disk.

  The kernel keeps the super block and both bitmaps in memory, and writes the sector of a
  bitmap in which it has changed a bit.  `Fs.Saved` says that the disk is up to date.  The
  calls that change the tree leave it so when they come back (`MkdirDone.saved`,
  `UnlinkDone.saved`), though in between a number is taken in memory before it is on disk.
-/

import ZxyOs.Fs.Format
import ZxyOs.Fs.UnlinkKeeps

namespace ZxyOs

open Lib Lib.Exec

/-! ## The metadata of a partition -/

/-- A partition with a file system: the super block, the bitmaps, the inode table and the data blocks lie in this
    order, the bitmaps are not empty, and inode 0 is the root. -/
structure Partition.Sound (p : Partition) : Prop where
  magic : p.sb.magic = 0x19590318
  superBlock : p.startLba + 1 < p.sb.blockBitmapLba
  inodeBitmap : p.sb.inodeBitmapLba = p.sb.blockBitmapLba + p.sb.blockBitmapSecs
  inodeTable : p.sb.inodeTableLba = p.sb.inodeBitmapLba + p.sb.inodeBitmapSecs
  data : p.sb.inodeTableLba + 608 ≤ p.sb.dataStartLba
  nonempty : 0 < p.sb.blockBitmapSecs ∧ 0 < p.sb.inodeBitmapSecs
  onDisk : p.sb.inodeTableLba + 607 ≤ maxLba
  inPart : p.sb.inodeTableLba + 607 ≤ p.startLba + p.secCnt
  rootNo : p.sb.rootInodeNo = 0
  entrySize : p.sb.dirEntrySize = 24

/-- The disk has the super block of partition `p` and its two bitmaps. -/
structure Recorded (p : Partition) (disk : Bytes) (blocks inodes : Bitmap) : Prop where
  superBlock : SuperBlock.decode (sectorAt disk (p.startLba + 1)) = p.sb
  blocks : blocks.OnDisk disk p.sb.blockBitmapLba p.sb.inodeBitmapLba
  inodes : inodes.OnDisk disk p.sb.inodeBitmapLba p.sb.inodeTableLba

/-- All that is known about the partition in memory is on the disk. -/
structure Fs.Saved (s : Fs) : Prop extends s.part.Sound where
  blockLen : s.blockBitmap.btmpBytesLen = 512 * s.part.sb.blockBitmapSecs
  inodeLen : s.inodeMap.btmpBytesLen = 512 * s.part.sb.inodeBitmapSecs
  recorded : Recorded s.part s.disk s.blockBitmap s.inodeMap

section Writes

variable {p : Partition} {disk disk' buf : Bytes} {b m : Bitmap} {i lba : Nat} {v : Bool}

/-- What is written behind the bitmaps does not matter. -/
theorem Recorded.congr (h : Recorded p disk b m) (hp : p.Sound)
    (hsame : ∀ x, x < 512 * p.sb.inodeTableLba → disk' x = disk x) : Recorded p disk' b m := by
  have hsuper := hp.superBlock
  have hinode := hp.inodeBitmap
  have htable := hp.inodeTable
  refine ⟨?_, h.blocks.congr fun x _ hx => hsame x (by omega), h.inodes.congr fun x _ hx => hsame x hx⟩
  rw [← h.superBlock]
  exact congrArg SuperBlock.decode (Bytes.window_congr fun k hk => hsame _ (by omega))

theorem Recorded.writeData (h : Recorded p disk b m) (hp : p.Sound) (hlba : p.sb.dataStartLba ≤ lba) :
    Recorded p (writeSector disk lba buf) b m := by
  have hdata := hp.data
  exact h.congr hp fun x hx => Bytes.splice_outside (Or.inl (by omega))

/-- A bit of the block bitmap has been set, and its sector written. -/
theorem Recorded.setBlock (h : Recorded p disk b m) (hp : p.Sound) (hi : i / 4096 < p.sb.blockBitmapSecs) :
    Recorded p (writeSector disk (p.sb.blockBitmapLba + i / 4096) ((b.bitmapSet i v).bytesFrom (i / 4096 * 512)))
      (b.bitmapSet i v) m := by
  have hsuper := hp.superBlock
  have hinode := hp.inodeBitmap
  refine ⟨?_, h.blocks.bitmapSet, h.inodes.congr fun x hx _ => Bytes.splice_outside (Or.inr (by omega))⟩
  rw [sectorAt_writeSector_ne (by omega)]
  exact h.superBlock

/-- And one of the bitmap of the inodes. -/
theorem Recorded.setInode (h : Recorded p disk b m) (hp : p.Sound) :
    Recorded p (writeSector disk (p.sb.inodeBitmapLba + i / 4096) ((m.bitmapSet i v).bytesFrom (i / 4096 * 512)))
      b (m.bitmapSet i v) := by
  have hsuper := hp.superBlock
  have hinode := hp.inodeBitmap
  refine ⟨?_, h.blocks.congr fun x _ hx => Bytes.splice_outside (Or.inl (by omega)), h.inodes.bitmapSet⟩
  rw [sectorAt_writeSector_ne (by omega)]
  exact h.superBlock

end Writes

section Calls

variable {s t u s' : Fs} {q : DirPtr} {a d i b n c j : Nat} {v w : Inode} {e : DirEntry} {name : CStr} {m : Bitmap}

/-- A bit of the block bitmap lies in a sector of it. -/
theorem Fs.Saved.block_lt (h : s.Saved) (hi : i < s.blockBitmap.size) : i / 4096 < s.part.sb.blockBitmapSecs := by
  rw [Bitmap.size, h.blockLen] at hi
  omega

/-- A call that changes neither the disk nor the bitmaps. -/
theorem Fs.Saved.same (h : s.Saved) (hst : SameStore s t) : t.Saved := by
  refine ⟨hst.part ▸ h.toSound, ?_, ?_, ?_⟩
  · rw [hst.blockBitmap, hst.part]
    exact h.blockLen
  · rw [hst.inodeMap, hst.part]
    exact h.inodeLen
  · rw [hst.part, hst.disk, hst.blockBitmap, hst.inodeMap]
    exact h.recorded

/-- An entry has been entered into a directory. -/
theorem SyncResult.recorded (h : SyncResult s a v e u) (hp : s.part.Sound)
    (hl : s.blockBitmap.btmpBytesLen = 512 * s.part.sb.blockBitmapSecs)
    (hdata : ∀ k < 12, v.sector k ≠ 0 → s.part.sb.dataStartLba ≤ v.sector k)
    (hrec : Recorded s.part s.disk s.blockBitmap m) :
    u.part = s.part ∧ u.blockBitmap.btmpBytesLen = s.blockBitmap.btmpBytesLen ∧ Recorded s.part u.disk u.blockBitmap m := by
  have hsec {i : Nat} (hi : i < s.blockBitmap.size) : i / 4096 < s.part.sb.blockBitmapSecs := by
    rw [Bitmap.size, hl] at hi
    omega
  cases h with
  | reuse k j hk hne hj hfree => exact ⟨rfl, rfl, hrec.writeData hp (hdata k hk hne)⟩
  | direct k i hk hzero hi hlba =>
    exact ⟨rfl, rfl, (hrec.setBlock hp (hsec hi.1)).writeData hp (Nat.le_add_right _ _)⟩
  | table i i' hfull hi hlba hi' hlba' =>
    have hi'' : i' < s.blockBitmap.size := hi'.1
    have hboth := (hrec.setBlock (v := true) hp (hsec hi.1)).setBlock (v := true) hp (hsec hi'')
    exact ⟨rfl, rfl, (hboth.writeData hp (Nat.le_add_right _ _)).writeData hp (Nat.le_add_right _ _)⟩

/-- A directory has been made: its number, its block and the entry are on the disk. -/
theorem MkdirDone.saved (h : MkdirDone s t u s' q d a i b v w name) (hs : s.Saved) : s'.Saved := by
  have ht := hs.same h.making.same
  have hp := ht.toSound
  have hb : b < t.blockBitmap.size := by
    rw [h.making.same.blockBitmap]
    exact h.takes.block.1
  -- the block is taken and written, the number is taken in memory only
  have htaken : Recorded t.part (t.mkdirTaken i b d).disk (t.mkdirTaken i b d).blockBitmap t.inodeMap :=
    (ht.recorded.setBlock hp (ht.block_lt hb)).writeData hp (Nat.le_add_right _ _)
  have hdata (k : Nat) (hk : k < 12) (hne : v.sector k ≠ 0) : t.part.sb.dataStartLba ≤ v.sector k := by
    have hblock := h.making.inUse_block (k := k) (by omega)
    rw [Inode.blockAddr_direct hk, ← h.making.sector_eq] at hblock
    rw [h.making.same.part]
    exact (hblock hne).ge
  obtain ⟨hpart, hlen, hu⟩ := h.result.recorded hp ht.blockLen hdata htaken
  have hpart' : u.part = t.part := hpart
  have hmap : u.inodeMap = t.inodeMap.bitmapSet i true := by rw [h.grown.rest]; rfl
  -- two inodes, and the sector of the bitmap with the number
  have hstored : Recorded t.part (u.mkdirStored w (mkdirInode i (s.part.sb.dataStartLba + b)) i).disk u.blockBitmap u.inodeMap := by
    rw [Fs.mkdirStored, hmap, hpart']
    refine Recorded.setInode ?_ hp
    have hslot (k x : Nat) (hx : x < 512 * t.part.sb.inodeTableLba) : x < u.slotAddr k := by
      rw [Fs.slotAddr, hpart']
      omega
    refine hu.congr hp fun x hx => ?_
    rw [Bytes.splice_outside (Or.inl (hslot _ x hx)), Bytes.splice_outside (Or.inl (hslot _ x hx))]
  refine Fs.Saved.same ⟨?_, ?_, ?_, ?_⟩ h.final
  · show u.part.Sound
    rw [hpart']
    exact hp
  · show u.blockBitmap.btmpBytesLen = 512 * u.part.sb.blockBitmapSecs
    rw [hlen, hpart']
    exact ht.blockLen
  · show u.inodeMap.btmpBytesLen = 512 * u.part.sb.inodeBitmapSecs
    rw [hmap, hpart']
    exact ht.inodeLen
  · show Recorded u.part _ u.blockBitmap u.inodeMap
    rw [hpart']
    exact hstored

/-- A file has been removed: its blocks, its number and the entry are given back on the disk as well. -/
theorem UnlinkDone.saved (h : UnlinkDone s t u s' q d a n c j v w e) (hs : s.Saved) : s'.Saved := by
  have ht := hs.same h.unlinking.same
  have hp := ht.toSound
  have hsuper := hp.superBlock
  have hinode := hp.inodeBitmap
  have htable := hp.inodeTable
  have hge := h.ge_data
  rw [← h.unlinking.same.part] at hge
  -- the entry is cleared, and the inode of the directory synchronised
  have hcleared : Recorded t.part (t.clearEntry a v (v.sector c) j).disk t.blockBitmap t.inodeMap := by
    have hwritten : Recorded t.part (writeSector t.disk (v.sector c) ((sectorAt t.disk (v.sector c)).splice (24 * j) 24 Bytes.zero))
        t.blockBitmap t.inodeMap := ht.recorded.writeData hp hge
    refine hwritten.congr hp fun x hx => Bytes.splice_outside (Or.inl ?_)
    rw [Fs.slotAddr]
    omega
  have hpart : u.part = t.part := h.toUnlinkRun.part.trans h.unlinking.same.part.symm
  have hrel := h.released
  have hblocks : u.BlocksOnDisk := hrel.blocksOnDisk hcleared.blocks
  have hinodes : u.InodesOnDisk := hrel.inodesOnDisk hcleared.inodes
  rw [Fs.BlocksOnDisk, hpart] at hblocks
  rw [Fs.InodesOnDisk, hpart] at hinodes
  refine Fs.Saved.same ⟨?_, ?_, ?_, ?_⟩ h.final
  · rw [hpart]
    exact hp
  · rw [hpart, hrel.blockLen]
    exact ht.blockLen
  · rw [hpart, hrel.inodeLen]
    exact ht.inodeLen
  · rw [hpart]
    refine ⟨?_, hblocks, hinodes⟩
    rw [← hcleared.superBlock]
    refine congrArg SuperBlock.decode (Bytes.window_congr fun k hk => ?_)
    have hx : 512 * (t.part.startLba + 1) + k < 512 * t.part.sb.blockBitmapLba := by omega
    refine hrel.elsewhere _ (Or.inl hx) (Or.inl ?_)
    show 512 * (t.part.startLba + 1) + k < 512 * t.part.sb.inodeTableLba + 76 * n
    omega

/-! ## What a call leaves behind -/

/-- The partition is the same, and the disk is up to date if it was. -/
structure Saves (s t : Fs) : Prop where
  part : t.part = s.part
  saved : s.Saved → t.Saved

theorem Saves.trans (h : Saves s t) (h' : Saves t u) : Saves s u :=
  ⟨h'.part.trans h.part, fun hs => h'.saved (h.saved hs)⟩

theorem SameStore.saves (h : SameStore s t) : Saves s t := ⟨h.part, fun hs => hs.same h⟩

theorem Restored.saves (h : Restored s t) : Saves s t := by
  obtain ⟨m, -, rfl⟩ := h
  exact SameStore.saves ⟨rfl, rfl, rfl, rfl⟩

theorem Beside.saves (h : Beside s t) : Saves s t := by
  rw [h.rest]
  exact SameStore.saves ⟨rfl, rfl, rfl, rfl⟩

theorem MkdirDone.saves (h : MkdirDone s t u s' q d a i b v w name) : Saves s s' := ⟨h.part, h.saved⟩

theorem UnlinkDone.saves (h : UnlinkDone s t u s' q d a n c j v w e) : Saves s s' :=
  ⟨h.final.part.trans h.toUnlinkRun.part, h.saved⟩

end Calls

end ZxyOs
