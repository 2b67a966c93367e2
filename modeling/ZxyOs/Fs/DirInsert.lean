/-
  ZxyOs.Fs.DirInsert

  Adding an entry to a directory.  `sync_dir_entry` puts it into the first empty
  slot, or into a new block where a block is missing before that.  It never reads
  the index table: with all twelve direct blocks full it starts a new table, and
  whatever an old table led to is no longer part of the directory.
-/

import ZxyOs.Fs.DirEntries
import ZxyOs.Fs.Format

namespace ZxyOs

open Lib Lib.Exec

/-! ## What `sync_dir_entry` does -/

/-- All 21 slots of a block are taken. -/
def BlockFull (buf : Bytes) : Prop := ∀ j < 21, DirEntry.fTypeAt buf j ≠ ftUnkown

/-- The inode of a directory that has got one more entry. -/
def Inode.grow (v : Inode) : Inode := { v with iSize := (v.iSize + 24) % 2 ^ 32 }

/-- The disk after `bitmap_sync` of bit `i` of the block bitmap `b`. -/
def Fs.syncedBlockBitmap (s : Fs) (disk : Bytes) (b : Bitmap) (i : Nat) : Bytes :=
  writeSector disk (s.part.sb.blockBitmapLba + i / 4096) (b.bytesFrom (i / 4096 * 512))

/-- The block `sync_dir_entry` writes where it had to allocate one. -/
def firstEntryBlock (e : DirEntry) : Bytes := Bytes.zero.splice 0 24 e.encode

/-- The states `sync_dir_entry` can leave when it enters `e` into the directory
    whose inode `v` is at `a`. -/
inductive SyncResult (s : Fs) (a : Nat) (v : Inode) (e : DirEntry) : Fs → Prop where
  /-- an empty slot of block `k` is filled -/
  | reuse (k j : Nat) (hk : k < 12) (hne : v.sector k ≠ 0) (hj : j < 21)
      (hfree : DirEntry.fTypeAt (sectorAt s.disk (v.sector k)) j = ftUnkown) :
      SyncResult s a v e
        { s with
          disk := writeSector s.disk (v.sector k)
            ((sectorAt s.disk (v.sector k)).splice (24 * j) 24 e.encode)
          inodes := Function.update s.inodes a (some v.grow) }
  /-- block `k` is allocated -/
  | direct (k i : Nat) (hk : k < 12) (hzero : v.sector k = 0)
      (hi : s.blockBitmap.IsFirstClear i) (hlba : s.part.sb.dataStartLba + i ≤ maxLba) :
      SyncResult s a v e
        { s with
          disk := writeSector
            (s.syncedBlockBitmap s.disk (s.blockBitmap.bitmapSet i true) i)
            (s.part.sb.dataStartLba + i) (firstEntryBlock e)
          blockBitmap := s.blockBitmap.bitmapSet i true
          inodes := Function.update s.inodes a
            (some (v.setSector k (s.part.sb.dataStartLba + i)).grow) }
  /-- an index table and block 12 are allocated -/
  | table (i i' : Nat)
      (hfull : ∀ k < 12, v.sector k ≠ 0 ∧ BlockFull (sectorAt s.disk (v.sector k)))
      (hi : s.blockBitmap.IsFirstClear i) (hlba : s.part.sb.dataStartLba + i ≤ maxLba)
      (hi' : (s.blockBitmap.bitmapSet i true).IsFirstClear i')
      (hlba' : s.part.sb.dataStartLba + i' ≤ maxLba) :
      SyncResult s a v e
        { s with
          disk := writeSector
            (writeSector
              (s.syncedBlockBitmap
                (s.syncedBlockBitmap s.disk (s.blockBitmap.bitmapSet i true) i)
                ((s.blockBitmap.bitmapSet i true).bitmapSet i' true) i')
              (s.part.sb.dataStartLba + i)
              (wordsOf fun j => if j = 0 then s.part.sb.dataStartLba + i' else 0))
            (s.part.sb.dataStartLba + i') (firstEntryBlock e)
          blockBitmap := (s.blockBitmap.bitmapSet i true).bitmapSet i' true
          inodes := Function.update s.inodes a
            (some (v.setSector 12 (s.part.sb.dataStartLba + i)).grow) }

section Inversion

variable {s s' : Fs} {a : Nat} {v : Inode} {e : DirEntry} {b : Bool}

theorem findFreeSlot_some {buf : Bytes} {n idx j : Nat} (h : findFreeSlot buf n idx = some j) :
    idx ≤ j ∧ j < idx + n ∧ DirEntry.fTypeAt buf j = ftUnkown := by
  induction n generalizing idx with
  | zero => simp [findFreeSlot] at h
  | succ n ih =>
    simp only [findFreeSlot] at h
    split at h
    · next hn =>
      cases h
      exact ⟨le_refl _, by omega, hn⟩
    · obtain ⟨h1, h2, h3⟩ := ih h
      exact ⟨by omega, by omega, h3⟩

theorem findFreeSlot_none {buf : Bytes} {n idx : Nat} (h : findFreeSlot buf n idx = none) :
    ∀ j, idx ≤ j → j < idx + n → DirEntry.fTypeAt buf j ≠ ftUnkown := by
  induction n generalizing idx with
  | zero =>
    intro j h1 h2
    omega
  | succ n ih =>
    simp only [findFreeSlot] at h
    split at h
    · cases h
    · next hn =>
      intro j h1 h2
      rcases Nat.eq_or_lt_of_le h1 with rfl | hlt
      · exact hn
      · exact ih h j hlt (by omega)

theorem blockBitmapIdx_data {sb : SuperBlock} {i : Nat} (h : sb.dataStartLba + i ≤ maxLba) :
    blockBitmapIdx sb (sb.dataStartLba + i) = i := by
  simp only [maxLba] at h
  simp only [blockBitmapIdx]
  omega

theorem returns_setInodeSector {k lba : Nat} {u : Unit} :
    Returns (setInodeSector a k lba) s u s' ↔ ∃ v, s.inodes a = some v ∧
      { s with inodes := Function.update s.inodes a (some (v.setSector k lba)) } = s' := by
  simp only [setInodeSector, returns_bind, returns_getInode, returns_putInode]
  constructor
  · rintro ⟨v, _, ⟨hv, rfl⟩, rfl⟩
    exact ⟨v, hv, rfl⟩
  · rintro ⟨v, hv, rfl⟩
    exact ⟨v, s, ⟨hv, rfl⟩, rfl⟩

theorem returns_setInodeSize {f : Nat → Nat} {u : Unit} :
    Returns (setInodeSize a f) s u s' ↔ ∃ v, s.inodes a = some v ∧
      { s with inodes := Function.update s.inodes a (some { v with iSize := f v.iSize }) }
        = s' := by
  simp only [setInodeSize, returns_bind, returns_getInode, returns_putInode]
  constructor
  · rintro ⟨v, _, ⟨hv, rfl⟩, rfl⟩
    exact ⟨v, hv, rfl⟩
  · rintro ⟨v, hv, rfl⟩
    exact ⟨v, s, ⟨hv, rfl⟩, rfl⟩

theorem syncDirEntryNewBlock_direct {allBlocks : Nat → Nat} {k : Nat}
    (hsize : s.part.sb.dirEntrySize = 24) (hv : s.inodes a = some v) (hk : k < 12)
    (hzero : v.sector k = 0) (h : Returns (syncDirEntryNewBlock a e allBlocks k) s b s') :
    b = true ∧ SyncResult s a v e s' := by
  simp only [syncDirEntryNewBlock, returns_bind, returns_query, returns_blockBitmapAlloc] at h
  obtain ⟨_, _, ⟨rfl, rfl⟩, r, _, ⟨i, rfl, hi, rfl⟩, h⟩ := h
  simp only [id, returns_bind, returns_bitmapSync_block, if_pos hk, returns_setInodeSector,
    returns_pure] at h
  obtain ⟨-, _, ⟨-, rfl⟩, -, _, ⟨v', hv', rfl⟩, _, _, ⟨rfl, rfl⟩, h⟩ := h
  obtain rfl : v = v' := by simpa [hv] using hv'
  simp only [returns_bind, returns_ideWrite, returns_setInodeSize, returns_pure] at h
  obtain ⟨-, _, ⟨hlba, -, rfl⟩, -, _, ⟨w, hw, rfl⟩, rfl, rfl⟩ := h
  obtain rfl : v.setSector k (s.part.sb.dataStartLba + i) = w := by simpa using hw
  refine ⟨rfl, ?_⟩
  have := SyncResult.direct (s := s) (a := a) (v := v) (e := e) k i hk hzero hi hlba
  simpa [hsize, Inode.grow, Inode.setSector, writeSector, Fs.syncedBlockBitmap,
    firstEntryBlock, blockBitmapIdx_data hlba] using this

theorem syncDirEntryNewBlock_table {allBlocks : Nat → Nat}
    (hsize : s.part.sb.dirEntrySize = 24) (hv : s.inodes a = some v)
    (hall : ∀ k, 12 ≤ k → allBlocks k = 0)
    (hfull : ∀ k < 12, v.sector k ≠ 0 ∧ BlockFull (sectorAt s.disk (v.sector k)))
    (h : Returns (syncDirEntryNewBlock a e allBlocks 12) s b s') :
    b = true ∧ SyncResult s a v e s' := by
  simp only [syncDirEntryNewBlock, returns_bind, returns_query, returns_blockBitmapAlloc] at h
  obtain ⟨_, _, ⟨rfl, rfl⟩, r, _, ⟨i, rfl, hi, rfl⟩, h⟩ := h
  simp only [id, returns_bind, returns_bitmapSync_block, if_neg (Nat.lt_irrefl 12), if_true,
    returns_setInodeSector, returns_blockBitmapAlloc] at h
  obtain ⟨-, _, ⟨-, rfl⟩, -, _, ⟨v', hv', rfl⟩, _, _, ⟨i', rfl, hi', rfl⟩, h⟩ := h
  obtain rfl : v = v' := by simpa [hv] using hv'
  simp only [returns_bind, returns_bitmapSync_block, returns_ideWrite, returns_pure] at h
  obtain ⟨-, _, ⟨-, rfl⟩, -, _, ⟨hlba, -, rfl⟩, _, _, ⟨rfl, rfl⟩, h⟩ := h
  simp only [returns_bind, returns_ideWrite, returns_setInodeSize, returns_pure] at h
  obtain ⟨-, _, ⟨hlba', -, rfl⟩, -, _, ⟨w, hw, rfl⟩, rfl, rfl⟩ := h
  obtain rfl : v.setSector 12 (s.part.sb.dataStartLba + i) = w := by simpa using hw
  refine ⟨rfl, ?_⟩
  have := SyncResult.table (s := s) (a := a) (v := v) (e := e) i i' hfull hi hlba hi' hlba'
  have hrest (j : Nat) : allBlocks (12 + j) = 0 := hall _ (by omega)
  simpa [hsize, Inode.grow, Inode.setSector, writeSector, Fs.syncedBlockBitmap,
    firstEntryBlock, blockBitmapIdx_data hlba, blockBitmapIdx_data hlba', hrest] using this

theorem syncDirEntryLoop_result {allBlocks : Nat → Nat} {n k : Nat}
    (hsize : s.part.sb.dirEntrySize = 24) (hv : s.inodes a = some v)
    (hdirect : ∀ k < 12, allBlocks k = v.sector k) (hall : ∀ k, 12 ≤ k → allBlocks k = 0)
    (hn : k + n = 140) (hk : k ≤ 12)
    (hfull : ∀ i < k, v.sector i ≠ 0 ∧ BlockFull (sectorAt s.disk (v.sector i)))
    (h : Returns (syncDirEntryLoop a e allBlocks 21 n k) s b s') :
    b = true ∧ SyncResult s a v e s' := by
  induction n generalizing k with
  | zero => omega
  | succ n ih =>
    simp only [syncDirEntryLoop] at h
    rcases Nat.lt_or_eq_of_le hk with hk12 | rfl
    · rw [hdirect k hk12] at h
      split at h
      · next hzero => exact syncDirEntryNewBlock_direct hsize hv hk12 hzero h
      · next hne =>
        simp only [returns_bind, returns_ideRead_sector] at h
        obtain ⟨block, _, ⟨-, -, rfl, rfl⟩, h⟩ := h
        split at h
        · next j hj =>
          obtain ⟨-, hj21, hfree⟩ := findFreeSlot_some hj
          simp only [returns_bind, returns_query, returns_ideWrite, returns_setInodeSize,
            returns_pure] at h
          obtain ⟨_, _, ⟨rfl, rfl⟩, -, _, ⟨-, -, rfl⟩, -, _, ⟨w, hw, rfl⟩, rfl, rfl⟩ := h
          obtain rfl : v = w := by simpa [hv] using hw
          refine ⟨rfl, ?_⟩
          have := SyncResult.reuse (s := s) (a := a) (v := v) (e := e) k j hk12 hne (by omega)
            hfree
          simpa [hsize, Inode.grow, writeSector, sectorAt] using this
        · next hj =>
          -- a full block: the search goes on behind it
          refine ih (by omega) (by omega) (fun i hi => ?_) h
          rcases Nat.lt_or_eq_of_le (Nat.lt_succ_iff.mp hi) with hlt | rfl
          · exact hfull i hlt
          · exact ⟨hne, fun j h21 => findFreeSlot_none hj j (by omega) (by omega)⟩
    · rw [if_pos (hall 12 (le_refl _))] at h
      exact syncDirEntryNewBlock_table hsize hv hall hfull h

/-- `sync_dir_entry` always returns `true` when it returns. -/
theorem returns_syncDirEntry {d : DirPtr} (hsize : s.part.sb.dirEntrySize = 24)
    (ha : s.handle d = some a) (hv : s.inodes a = some v)
    (h : Returns (syncDirEntry d e) s b s') : b = true ∧ SyncResult s a v e s' := by
  simp only [syncDirEntry, returns_bind, returns_dirInode, returns_getInode, returns_query,
    returns_assert] at h
  obtain ⟨a', _, ⟨ha', rfl⟩, v', _, ⟨hv', rfl⟩, _, _, ⟨rfl, rfl⟩, -, _, ⟨-, rfl⟩, h⟩ := h
  obtain rfl : a = a' := by simpa [ha] using ha'
  obtain rfl : v = v' := by simpa [hv] using hv'
  have hcnt : 512 / (id s).part.sb.dirEntrySize = 21 := by simp [hsize]
  rw [hcnt] at h
  exact syncDirEntryLoop_result hsize hv (fun k hk => if_pos hk)
    (fun k hk => if_neg (by omega)) rfl (by omega) (fun i hi => by omega) h

end Inversion

/-! ## Addresses of blocks -/

namespace Inode

variable {v w : Inode} {disk disk' : Bytes} {k lba : Nat}

@[simp] theorem sector_grow : v.grow.sector k = v.sector k := rfl

theorem sector_setSector_self (hk : k < 13) : (v.setSector k lba).sector k = lba := by
  simp [sector, setSector, hk]

theorem sector_setSector_ne {j : Nat} (hj : j ≠ k) :
    (v.setSector k lba).sector j = v.sector j := by
  simp [sector, setSector, hj]

theorem blockAddr_direct (hk : k < 12) : v.blockAddr disk k = v.sector k := by
  simp [blockAddr, allBlocks, hk]

theorem blockAddr_indirect (hk : 12 ≤ k) (h : v.sector 12 ≠ 0) :
    v.blockAddr disk k = Bytes.u32At (sectorAt disk (v.sector 12)) (4 * (k - 12)) := by
  simp [blockAddr, allBlocks, h, Nat.not_lt.mpr hk]

theorem blockAddr_no_table (hk : 12 ≤ k) (h : v.sector 12 = 0) : v.blockAddr disk k = 0 := by
  simp [blockAddr, allBlocks, h, Nat.not_lt.mpr hk]

/-- An address beyond the direct blocks depends on the index table alone. -/
theorem blockAddr_congr_indirect (hk : 12 ≤ k) (h12 : w.sector 12 = v.sector 12)
    (htable : v.sector 12 ≠ 0 → sectorAt disk' (v.sector 12) = sectorAt disk (v.sector 12)) :
    w.blockAddr disk' k = v.blockAddr disk k := by
  by_cases h : v.sector 12 = 0
  · rw [blockAddr_no_table hk h, blockAddr_no_table hk (h12.trans h)]
  · rw [blockAddr_indirect hk h, blockAddr_indirect hk (h12 ▸ h), h12, htable h]

end Inode

theorem entriesAt_congr {disk disk' : Bytes} {lba : Nat}
    (h : lba ≠ 0 → sectorAt disk' lba = sectorAt disk lba) :
    entriesAt disk' lba = entriesAt disk lba := by
  by_cases h0 : lba = 0
  · simp [entriesAt, h0]
  · simp [entriesAt, h0, h h0]

section Sectors

variable {s : Fs} {disk : Bytes} {b : Bitmap} {i lba : Nat}

theorem Fs.Layout.blockBitmap_lt_data (h : s.Layout) (hi : i < s.blockBitmap.size) :
    s.part.sb.blockBitmapLba + i / 4096 < s.part.sb.dataStartLba := by
  have h1 := h.blockBitmap i hi
  have h2 := h.inodeBitmap 0 h.nonempty.2
  have h3 := h.inodeTable
  omega

theorem Fs.InUse.ge (h : s.InUse lba) : s.part.sb.dataStartLba ≤ lba := by
  obtain ⟨-, i, -, -, rfl⟩ := h
  omega

/-- A free block is none of those in use. -/
theorem Fs.InUse.ne_of_free (h : s.InUse lba) (hi : s.blockBitmap.bit i = false) :
    lba ≠ s.part.sb.dataStartLba + i := by
  rintro rfl
  obtain ⟨-, j, -, hj, hij⟩ := h
  obtain rfl : i = j := by omega
  rw [hi] at hj
  cases hj

theorem Fs.Layout.data_pos (h : s.Layout) : 0 < s.part.sb.dataStartLba := by
  have := h.inodeTable
  omega

/-- Writing a sector of the block bitmap leaves the data blocks alone. -/
theorem Fs.Layout.sectorAt_syncedBlockBitmap (h : s.Layout) (hi : i < s.blockBitmap.size)
    (hlba : s.part.sb.dataStartLba ≤ lba) :
    sectorAt (s.syncedBlockBitmap disk b i) lba = sectorAt disk lba := by
  have := h.blockBitmap_lt_data hi
  exact sectorAt_writeSector_ne (by omega)

end Sectors

/-! ## The block of a new entry -/

section NewBlock

variable {e : DirEntry}

theorem firstEntryBlock_entries (he : e.Valid) : blockEntries (firstEntryBlock e) = {e} := by
  have hzero : DirEntry.fTypeAt Bytes.zero 0 = ftUnkown := by simp [DirEntry.fTypeAt]
  have hput : blockEntries (Bytes.zero.splice (24 * 0) 24 e.encode)
      = e ::ₘ blockEntries Bytes.zero := blockEntries_splice_encode (by omega) he hzero
  rw [blockEntries_zero] at hput
  exact hput

theorem blockEntries_window {buf : Bytes} : blockEntries (buf.window 0 512) = blockEntries buf :=
  blockEntries_congr fun k hk => by rw [Bytes.window_apply (by omega), Nat.zero_add]

theorem slotsOk_firstEntryBlock (he : e.Valid) : SlotsOk (firstEntryBlock e) :=
  @slotsOk_splice_encode Bytes.zero e 0 he slotsOk_zero

end NewBlock

/-! ## The directory afterwards -/

/-- A direct block of the directory is missing or has an empty slot. -/
def Fs.DirectRoom (s : Fs) (v : Inode) : Prop :=
  ∃ k < 12, v.sector k = 0 ∨
    ∃ j < 21, DirEntry.fTypeAt (sectorAt s.disk (v.sector k)) j = ftUnkown

/-- The entries in the direct blocks of a directory. -/
def directEntries (disk : Bytes) (v : Inode) : Multiset DirEntry :=
  contents 12 fun k => entriesAt disk (v.sector k)

/-- The entries in the blocks the index table leads to. -/
def indirectEntries (disk : Bytes) (v : Inode) : Multiset DirEntry :=
  contents 128 fun k => entriesAt disk (v.blockAddr disk (12 + k))

theorem dirEntries_eq_add (disk : Bytes) (v : Inode) :
    dirEntries disk v = directEntries disk v + indirectEntries disk v := by
  have hdirect : contents 12 (fun k => entriesAt disk (v.blockAddr disk k))
      = directEntries disk v :=
    contents_congr fun k hk => by rw [Inode.blockAddr_direct hk]
  rw [dirEntries, show (140 : Nat) = 12 + 128 by rfl, contents_add, hdirect]
  rfl

/-- What a state `s'` that `sync_dir_entry` leaves has in common with `s`, apart
    from the entries: the directory's inode `w`, with one entry more, and its
    blocks. -/
structure Synced (s s' : Fs) (a : Nat) (v w : Inode) : Prop where
  inode : s'.inodes a = some w
  size : w.iSize = (v.iSize + 24) % 2 ^ 32
  part : s'.part = s.part
  heap : s'.heap = s.heap ∧ s'.tasks = s.tasks ∧ s'.cur = s.cur
  handle : s'.handle = s.handle
  blocks : s'.BlocksOk w
  slots : ∀ k < 140, w.blockAddr s'.disk k ≠ 0 → SlotsOk (sectorAt s'.disk (w.blockAddr s'.disk k))

section After

variable {s : Fs} {a : Nat} {v : Inode} {e : DirEntry}

theorem synced_reuse {k j : Nat} (hd : s.EntriesOk v) (he : e.Valid) (hk : k < 12)
    (hne : v.sector k ≠ 0) (hj : j < 21)
    (hfree : DirEntry.fTypeAt (sectorAt s.disk (v.sector k)) j = ftUnkown) :
    let s' : Fs := { s with
      disk := writeSector s.disk (v.sector k)
        ((sectorAt s.disk (v.sector k)).splice (24 * j) 24 e.encode)
      inodes := Function.update s.inodes a (some v.grow) }
    Synced s s' a v v.grow ∧ dirEntries s'.disk v.grow = e ::ₘ dirEntries s.disk v := by
  intro s'
  have hk140 : k < 140 := by omega
  have haddr : v.blockAddr s.disk k = v.sector k := Inode.blockAddr_direct hk
  have hother {i : Nat} (hi : i < 140) (hik : i ≠ k) (hi0 : v.blockAddr s.disk i ≠ 0) :
      sectorAt s'.disk (v.blockAddr s.disk i) = sectorAt s.disk (v.blockAddr s.disk i) :=
    sectorAt_writeSector_ne fun heq => hik (hd.inj i hi k hk140 hi0 (heq.trans haddr.symm))
  have hself : sectorAt s'.disk (v.sector k)
      = ((sectorAt s.disk (v.sector k)).splice (24 * j) 24 e.encode).window 0 512 :=
    sectorAt_writeSector_self
  have hblocks (i : Nat) : v.grow.blockAddr s'.disk i = v.blockAddr s.disk i := by
    by_cases hi : i < 12
    · rw [Inode.blockAddr_direct hi, Inode.blockAddr_direct hi, Inode.sector_grow]
    · refine Inode.blockAddr_congr_indirect (by omega) rfl fun h12 => ?_
      exact sectorAt_writeSector_ne fun heq => hd.tableNe k hk140 h12 (haddr.trans heq.symm)
  have hslot (i : Nat) (hi : i < 140) (hi0 : v.blockAddr s.disk i ≠ 0) :
      SlotsOk (sectorAt s'.disk (v.blockAddr s.disk i)) := by
    by_cases hik : i = k
    · subst hik
      rw [haddr, hself]
      refine slotsOk_window (slotsOk_splice_encode he ?_)
      have := hd.slots i hi hi0
      rwa [haddr] at this
    · rw [hother hi hik hi0]
      exact hd.slots i hi hi0
  refine ⟨⟨by simp [s'], rfl, rfl, ⟨rfl, rfl, rfl⟩, rfl, ⟨?_, ?_, ?_, ?_⟩, ?_⟩, ?_⟩
  · intro i hi hi0
    rw [hblocks] at hi0 ⊢
    exact hd.inUse i hi hi0
  · exact hd.table
  · intro i hi i' hi' hi0 heq
    rw [hblocks] at hi0
    rw [hblocks, hblocks] at heq
    exact hd.inj i hi i' hi' hi0 heq
  · intro i hi h12
    rw [hblocks]
    exact hd.tableNe i hi h12
  · intro i hi hi0
    rw [hblocks] at hi0 ⊢
    exact hslot i hi hi0
  · refine contents_cons hk140 ?_ fun i hi hik => ?_
    · simp only [hblocks, haddr, entriesAt, if_neg hne]
      rw [hself, blockEntries_window]
      exact blockEntries_splice_encode hj he hfree
    · rw [hblocks]
      exact entriesAt_congr fun hi0 => hother hi hik hi0

theorem synced_direct {k i : Nat} (hl : s.Layout) (hd : s.EntriesOk v) (he : e.Valid)
    (hk : k < 12) (hzero : v.sector k = 0) (hi : s.blockBitmap.IsFirstClear i)
    (hlba : s.part.sb.dataStartLba + i ≤ maxLba) :
    let w := (v.setSector k (s.part.sb.dataStartLba + i)).grow
    let s' : Fs := { s with
      disk := writeSector
        (s.syncedBlockBitmap s.disk (s.blockBitmap.bitmapSet i true) i)
        (s.part.sb.dataStartLba + i) (firstEntryBlock e)
      blockBitmap := s.blockBitmap.bitmapSet i true
      inodes := Function.update s.inodes a (some w) }
    Synced s s' a v w ∧ dirEntries s'.disk w = e ::ₘ dirEntries s.disk v := by
  intro w s'
  set new := s.part.sb.dataStartLba + i with hnew
  have hk140 : k < 140 := by omega
  have hpos := hl.data_pos
  have hnew0 : new ≠ 0 := by omega
  have haddr : v.blockAddr s.disk k = 0 := by rw [Inode.blockAddr_direct hk, hzero]
  have hsector (lba : Nat) (hlba : s.InUse lba) : sectorAt s'.disk lba = sectorAt s.disk lba := by
    have h1 : lba ≠ new := hlba.ne_of_free hi.2.1
    exact (sectorAt_writeSector_ne h1).trans (hl.sectorAt_syncedBlockBitmap hi.1 hlba.ge)
  have hself : sectorAt s'.disk new = (firstEntryBlock e).window 0 512 :=
    sectorAt_writeSector_self
  have hinUse (lba : Nat) (hlba : s.InUse lba) : s'.InUse lba := by
    obtain ⟨h1, j, hj, hbit, rfl⟩ := hlba
    refine ⟨h1, j, hj, ?_, rfl⟩
    show (s.blockBitmap.bitmapSet i true).bit j = true
    rw [Bitmap.bitmapSet_bit, hbit, ite_self]
  have hinUseNew : s'.InUse new := ⟨hlba, i, hi.1, Bitmap.bitmapSet_bit_self _ _ _, rfl⟩
  have h12 : w.sector 12 = v.sector 12 := Inode.sector_setSector_ne (by omega)
  have hblockk : w.blockAddr s'.disk k = new := by
    rw [Inode.blockAddr_direct hk]
    exact Inode.sector_setSector_self (by omega)
  have hblocks (j : Nat) (hj : j ≠ k) : w.blockAddr s'.disk j = v.blockAddr s.disk j := by
    by_cases hj12 : j < 12
    · rw [Inode.blockAddr_direct hj12, Inode.blockAddr_direct hj12]
      exact Inode.sector_setSector_ne hj
    · exact Inode.blockAddr_congr_indirect (by omega) h12 fun h => hsector _ (hd.table h)
  have hfresh (j : Nat) (hj : j < 140) : v.blockAddr s.disk j ≠ new := by
    by_cases h0 : v.blockAddr s.disk j = 0
    · rw [h0]
      exact hnew0.symm
    · exact (hd.inUse j hj h0).ne_of_free hi.2.1
  refine ⟨⟨by simp [s'], rfl, rfl, ⟨rfl, rfl, rfl⟩, rfl, ⟨?_, ?_, ?_, ?_⟩, ?_⟩, ?_⟩
  · intro j hj hj0
    by_cases hjk : j = k
    · rw [hjk, hblockk]
      exact hinUseNew
    · rw [hblocks j hjk] at hj0 ⊢
      exact hinUse _ (hd.inUse j hj hj0)
  · rw [h12]
    exact fun h => hinUse _ (hd.table h)
  · intro j hj j' hj' hj0 heq
    by_cases hjk : j = k
    · by_cases hjk' : j' = k
      · rw [hjk, hjk']
      · rw [hjk, hblockk, hblocks j' hjk'] at heq
        exact absurd heq.symm (hfresh j' hj')
    · rw [hblocks j hjk] at hj0
      by_cases hjk' : j' = k
      · rw [hjk', hblockk, hblocks j hjk] at heq
        exact absurd heq (hfresh j hj)
      · rw [hblocks j hjk, hblocks j' hjk'] at heq
        exact hd.inj j hj j' hj' hj0 heq
  · intro j hj h
    rw [h12] at h ⊢
    by_cases hjk : j = k
    · rw [hjk, hblockk]
      exact ((hd.table h).ne_of_free hi.2.1).symm
    · rw [hblocks j hjk]
      exact hd.tableNe j hj h
  · intro j hj hj0
    by_cases hjk : j = k
    · rw [hjk, hblockk, hself]
      exact slotsOk_window (slotsOk_firstEntryBlock he)
    · rw [hblocks j hjk] at hj0 ⊢
      rw [hsector _ (hd.inUse j hj hj0)]
      exact hd.slots j hj hj0
  · refine contents_cons hk140 ?_ fun j hj hjk => ?_
    · simp only [hblockk, haddr, entriesAt, if_neg hnew0, if_true]
      rw [hself, blockEntries_window, firstEntryBlock_entries he]
      rfl
    · rw [hblocks j hjk]
      exact entriesAt_congr fun hj0 => hsector _ (hd.inUse j hj hj0)

theorem u32At_wordsOf {f : Nat → Nat} {j : Nat} (hj : j < 128) :
    Bytes.u32At ((wordsOf f).window 0 512) (4 * j) = f j % 2 ^ 32 := by
  refine Bytes.u32At_of_wordByte fun k hk => ?_
  rw [Bytes.window_apply (by omega), wordsOf, Nat.zero_add, show (4 * j + k) / 4 = j by omega,
    show (4 * j + k) % 4 = k by omega]

theorem synced_table {i i' : Nat} (hl : s.Layout) (hd : s.EntriesOk v) (he : e.Valid)
    (hi : s.blockBitmap.IsFirstClear i) (hlba : s.part.sb.dataStartLba + i ≤ maxLba)
    (hi' : (s.blockBitmap.bitmapSet i true).IsFirstClear i')
    (hlba' : s.part.sb.dataStartLba + i' ≤ maxLba) :
    let w := (v.setSector 12 (s.part.sb.dataStartLba + i)).grow
    let s' : Fs := { s with
      disk := writeSector
        (writeSector
          (s.syncedBlockBitmap
            (s.syncedBlockBitmap s.disk (s.blockBitmap.bitmapSet i true) i)
            ((s.blockBitmap.bitmapSet i true).bitmapSet i' true) i')
          (s.part.sb.dataStartLba + i)
          (wordsOf fun j => if j = 0 then s.part.sb.dataStartLba + i' else 0))
        (s.part.sb.dataStartLba + i') (firstEntryBlock e)
      blockBitmap := (s.blockBitmap.bitmapSet i true).bitmapSet i' true
      inodes := Function.update s.inodes a (some w) }
    Synced s s' a v w ∧ dirEntries s'.disk w = e ::ₘ directEntries s.disk v := by
  intro w s'
  set tbl := s.part.sb.dataStartLba + i with htbl
  set new := s.part.sb.dataStartLba + i' with hnew
  have hpos := hl.data_pos
  have hii : i' ≠ i := by
    rintro rfl
    have := hi'.2.1
    rw [Bitmap.bitmapSet_bit_self] at this
    cases this
  have hclear : s.blockBitmap.bit i' = false := by
    have := hi'.2.1
    rwa [Bitmap.bitmapSet_bit_ne hii] at this
  have hsector (lba : Nat) (hlba : s.InUse lba) : sectorAt s'.disk lba = sectorAt s.disk lba := by
    have h1 : lba ≠ new := hlba.ne_of_free hclear
    have h2 : lba ≠ tbl := hlba.ne_of_free hi.2.1
    calc sectorAt s'.disk lba
        = sectorAt (s.syncedBlockBitmap
            (s.syncedBlockBitmap s.disk (s.blockBitmap.bitmapSet i true) i)
            ((s.blockBitmap.bitmapSet i true).bitmapSet i' true) i') lba :=
          (sectorAt_writeSector_ne h1).trans (sectorAt_writeSector_ne h2)
      _ = sectorAt (s.syncedBlockBitmap s.disk (s.blockBitmap.bitmapSet i true) i) lba :=
          hl.sectorAt_syncedBlockBitmap hi'.1 hlba.ge
      _ = sectorAt s.disk lba := hl.sectorAt_syncedBlockBitmap hi.1 hlba.ge
  have hself : sectorAt s'.disk new = (firstEntryBlock e).window 0 512 :=
    sectorAt_writeSector_self
  have hwords : sectorAt s'.disk tbl
      = (wordsOf fun j => if j = 0 then new else 0).window 0 512 :=
    (sectorAt_writeSector_ne (by omega)).trans sectorAt_writeSector_self
  have hinUse (lba : Nat) (hlba : s.InUse lba) : s'.InUse lba := by
    obtain ⟨h1, j, hj, hbit, rfl⟩ := hlba
    refine ⟨h1, j, hj, ?_, rfl⟩
    show ((s.blockBitmap.bitmapSet i true).bitmapSet i' true).bit j = true
    rw [Bitmap.bitmapSet_bit, Bitmap.bitmapSet_bit, hbit, ite_self, ite_self]
  have h12 : w.sector 12 = tbl := Inode.sector_setSector_self (v := v) (by omega)
  have hdirect (j : Nat) (hj : j < 12) : w.blockAddr s'.disk j = v.blockAddr s.disk j := by
    rw [Inode.blockAddr_direct hj, Inode.blockAddr_direct hj]
    exact Inode.sector_setSector_ne (by omega)
  have hindirect (j : Nat) (hj : 12 ≤ j) (hj' : j < 140) :
      w.blockAddr s'.disk j = if j = 12 then new else 0 := by
    rw [Inode.blockAddr_indirect hj (by omega), h12, hwords, u32At_wordsOf (by omega)]
    have hmax : new < 2 ^ 32 := lt_of_le_of_lt hlba' (by decide)
    by_cases h : j = 12
    · rw [if_pos h, if_pos (by omega), Nat.mod_eq_of_lt hmax]
    · rw [if_neg h, if_neg (by omega), Nat.zero_mod]
  have hinUseNew : s'.InUse new := ⟨hlba', i', hi'.1, Bitmap.bitmapSet_bit_self _ _ _, rfl⟩
  have hinUseTbl : s'.InUse tbl := by
    refine ⟨hlba, i, hi.1, ?_, rfl⟩
    show ((s.blockBitmap.bitmapSet i true).bitmapSet i' true).bit i = true
    rw [Bitmap.bitmapSet_bit, Bitmap.bitmapSet_bit_self, ite_self]
  have hold (j : Nat) (hj : j < 12) (h0 : w.blockAddr s'.disk j ≠ 0) :
      s.InUse (w.blockAddr s'.disk j) := by
    rw [hdirect j hj] at h0 ⊢
    exact hd.inUse j (by omega) h0
  refine ⟨⟨by simp [s'], rfl, rfl, ⟨rfl, rfl, rfl⟩, rfl, ⟨?_, ?_, ?_, ?_⟩, ?_⟩, ?_⟩
  · intro j hj hj0
    by_cases hj12 : j < 12
    · exact hinUse _ (hold j hj12 hj0)
    · rw [hindirect j (by omega) hj] at hj0 ⊢
      by_cases h : j = 12
      · rw [if_pos h]
        exact hinUseNew
      · exact absurd (if_neg h) hj0
  · rw [h12]
    exact fun _ => hinUseTbl
  · intro j hj j' hj' hj0 heq
    by_cases hj12 : j < 12
    · have hne : w.blockAddr s'.disk j ≠ new := (hold j hj12 hj0).ne_of_free hclear
      by_cases hj12' : j' < 12
      · rw [hdirect j hj12] at hj0
        rw [hdirect j hj12, hdirect j' hj12'] at heq
        exact hd.inj j hj j' hj' hj0 heq
      · rw [heq, hindirect j' (by omega) hj'] at hj0 hne
        split at hj0
        · next h => simp [h] at hne
        · exact absurd rfl hj0
    · rw [hindirect j (by omega) hj] at hj0 heq
      split at hj0
      · next h =>
        rw [if_pos h] at heq
        by_cases hj12' : j' < 12
        · exact absurd heq.symm ((hold j' hj12' (by omega)).ne_of_free hclear)
        · rw [hindirect j' (by omega) hj'] at heq
          split at heq
          · omega
          · omega
      · exact absurd rfl hj0
  · intro j hj _
    rw [h12]
    by_cases hj12 : j < 12
    · by_cases h0 : w.blockAddr s'.disk j = 0
      · omega
      · exact (hold j hj12 h0).ne_of_free hi.2.1
    · rw [hindirect j (by omega) hj]
      split <;> omega
  · intro j hj hj0
    by_cases hj12 : j < 12
    · rw [hsector _ (hold j hj12 hj0)]
      rw [hdirect j hj12] at hj0 ⊢
      exact hd.slots j hj hj0
    · rw [hindirect j (by omega) hj] at hj0 ⊢
      by_cases h : j = 12
      · rw [if_pos h, hself]
        exact slotsOk_window (slotsOk_firstEntryBlock he)
      · exact absurd (if_neg h) hj0
  · set f : Nat → Multiset DirEntry :=
      fun j => if j < 12 then entriesAt s.disk (v.sector j) else 0 with hf
    have hbefore : contents 140 f = directEntries s.disk v := by
      rw [contents_eq_of_zero (m := 12) (by omega) fun j _ hj => if_neg (by omega)]
      exact contents_congr fun j hj => if_pos hj
    rw [← hbefore]
    refine contents_cons (k := 12) (by omega) ?_ fun j hj hj12 => ?_
    · rw [hindirect 12 (by omega) (by omega), if_pos rfl, entriesAt, if_neg (by omega), hself,
        blockEntries_window, firstEntryBlock_entries he, hf]
      rfl
    · by_cases hlt : j < 12
      · rw [hf]
        simp only [if_pos hlt]
        have haddr : v.blockAddr s.disk j = v.sector j := Inode.blockAddr_direct hlt
        rw [← haddr, ← hdirect j hlt]
        exact entriesAt_congr fun h0 => hsector _ (hold j hlt h0)
      · rw [hindirect j (by omega) hj, if_neg hj12, hf]
        simp [entriesAt, hlt]

end After

/-! ## Insertion -/

/-- Whatever `sync_dir_entry` does, the new entry joins the directory.  Where a
    direct block had room nothing is lost, elsewhere the entries behind the index
    table are. -/
theorem SyncResult.synced {s s' : Fs} {a : Nat} {v : Inode} {e : DirEntry}
    (h : SyncResult s a v e s') (hl : s.Layout) (hd : s.EntriesOk v) (he : e.Valid) :
    ∃ w, Synced s s' a v w ∧
      ((s.DirectRoom v ∧ dirEntries s'.disk w = e ::ₘ dirEntries s.disk v) ∨
        (¬ s.DirectRoom v ∧ dirEntries s'.disk w = e ::ₘ directEntries s.disk v)) := by
  cases h with
  | reuse k j hk hne hj hfree =>
    obtain ⟨hsync, hentries⟩ := synced_reuse (a := a) hd he hk hne hj hfree
    exact ⟨_, hsync, Or.inl ⟨⟨k, hk, Or.inr ⟨j, hj, hfree⟩⟩, hentries⟩⟩
  | direct k i hk hzero hi hlba =>
    obtain ⟨hsync, hentries⟩ := synced_direct (a := a) hl hd he hk hzero hi hlba
    exact ⟨_, hsync, Or.inl ⟨⟨k, hk, Or.inl hzero⟩, hentries⟩⟩
  | table i i' hfull hi hlba hi' hlba' =>
    obtain ⟨hsync, hentries⟩ := synced_table (a := a) hl hd he hi hlba hi' hlba'
    refine ⟨_, hsync, Or.inr ⟨?_, hentries⟩⟩
    rintro ⟨k, hk, hzero | ⟨j, hj, hfree⟩⟩
    · exact (hfull k hk).1 hzero
    · exact (hfull k hk).2 j hj hfree

/-- From `s` to `s'` the entry `e` was inserted into the directory `d`: searches that
    get memory find `e` and for other names what they found before, and the size of
    the directory counts its entries. -/
structure InsertsEntry (s s' : Fs) (d : DirPtr) (e : DirEntry) : Prop where
  finds : s'.HasMemory 2 → ∃ t, Returns (searchDirEntry d e.filename) s' (some e) t
  others : s.HasMemory 2 → s'.HasMemory 2 → ∀ name, DirEntry.NameOk name → name ≠ e.filename →
    ∀ r, (∃ t, Returns (searchDirEntry d name) s' r t) ↔
      ∃ t, Returns (searchDirEntry d name) s r t
  size : ∀ a v, s'.handle d = some a → s'.inodes a = some v →
    v.iSize = 24 * (dirEntries s'.disk v).card

section Insertion

variable {s s' : Fs} {d : DirPtr} {a : Nat} {v w : Inode} {e : DirEntry}

theorem directEntries_le (disk : Bytes) (v : Inode) :
    directEntries disk v ≤ dirEntries disk v := by
  rw [dirEntries_eq_add]
  exact Multiset.le_add_right _ _

/-- The names stay different when an entry with a new name joins some of them. -/
theorem Synced.entriesOk (h : Synced s s' a v w) (hd : s.EntriesOk v)
    (hfresh : ∀ e' ∈ dirEntries s.disk v, e'.filename ≠ e.filename) {m : Multiset DirEntry}
    (hm : m ≤ dirEntries s.disk v) (hentries : dirEntries s'.disk w = e ::ₘ m) :
    s'.EntriesOk w where
  toBlocksOk := h.blocks
  slots := h.slots
  names := by
    rw [hentries, Multiset.map_cons, Multiset.nodup_cons]
    refine ⟨fun hmem => ?_, Multiset.nodup_of_le (Multiset.map_le_map hm) hd.names⟩
    obtain ⟨e', he', hfn⟩ := Multiset.mem_map.mp hmem
    exact hfresh e' (Multiset.mem_of_le hm he') hfn

theorem Synced.insertsEntry (h : Synced s s' a v w) (hsize : s.part.sb.dirEntrySize = 24)
    (ha : s.handle d = some a) (hv : s.inodes a = some v) (hd : s.DirOk v) (he : e.Valid)
    (hfresh : ∀ e' ∈ dirEntries s.disk v, e'.filename ≠ e.filename)
    (hentries : dirEntries s'.disk w = e ::ₘ dirEntries s.disk v) : InsertsEntry s s' d e := by
  have hok := h.entriesOk hd.toEntriesOk hfresh (le_refl _) hentries
  have ha' : s'.handle d = some a := by rw [h.handle]; exact ha
  have hsize' : s'.part.sb.dirEntrySize = 24 := by rw [h.part]; exact hsize
  refine ⟨fun hmem => ?_, fun hmem hmem' name hname hne r => ?_, fun a' v' hha hvv => ?_⟩
  · obtain ⟨r, t, hret, hr⟩ := searchDirEntry_spec hsize' ha' h.inode hok he.name hmem
    have := (hr e).mpr ⟨by rw [hentries]; exact Multiset.mem_cons_self _ _, rfl⟩
    exact ⟨t, this ▸ hret⟩
  · obtain ⟨r1, t1, hret1, hr1⟩ := searchDirEntry_spec hsize ha hv hd.toEntriesOk hname hmem
    obtain ⟨r2, t2, hret2, hr2⟩ := searchDirEntry_spec hsize' ha' h.inode hok hname hmem'
    have heq : r1 = r2 := by
      refine Option.ext fun e' => ?_
      rw [hr1, hr2, hentries, Multiset.mem_cons]
      refine ⟨fun ⟨hm, hfn⟩ => ⟨Or.inr hm, hfn⟩, fun ⟨hm, hfn⟩ => ⟨?_, hfn⟩⟩
      exact hm.resolve_left fun hee => hne (by rw [← hfn, hee])
    constructor
    · rintro ⟨t, ht⟩
      exact ⟨t1, by rw [(ht.unique hret2).1, ← heq]; exact hret1⟩
    · rintro ⟨t, ht⟩
      exact ⟨t2, by rw [(ht.unique hret1).1, heq]; exact hret2⟩
  · obtain rfl : a = a' := by simpa [ha'] using hha
    obtain rfl : w = v' := by simpa [h.inode] using hvv
    have hcard := card_dirEntries_le s.disk v
    rw [h.size, hd.size, hentries, Multiset.card_cons]
    omega

theorem SyncResult.insertsEntry_iff (h : SyncResult s a v e s') (hl : s.Layout)
    (ha : s.handle d = some a) (hv : s.inodes a = some v) (hd : s.DirOk v) (he : e.Valid)
    (hfresh : ∀ e' ∈ dirEntries s.disk v, e'.filename ≠ e.filename) :
    InsertsEntry s s' d e ↔ s.DirectRoom v ∨ indirectEntries s.disk v = 0 := by
  obtain ⟨w, hsync, hcase⟩ := h.synced hl hd.toEntriesOk he
  have hadd := dirEntries_eq_add s.disk v
  constructor
  · intro hins
    rcases hcase with ⟨hroom, -⟩ | ⟨-, hentries⟩
    · exact Or.inl hroom
    · -- the size counts the entries that got lost
      right
      have hcard := card_dirEntries_le s.disk v
      have hlt : 24 * (dirEntries s.disk v).card + 24 < 2 ^ 32 := by omega
      have hcount := hins.size a w (by rw [hsync.handle]; exact ha) hsync.inode
      rw [hsync.size, hd.size, Nat.mod_eq_of_lt hlt, hentries, Multiset.card_cons, hadd,
        Multiset.card_add] at hcount
      exact Multiset.card_eq_zero.mp (by omega)
  · intro hcond
    refine hsync.insertsEntry hl.entrySize ha hv hd he hfresh ?_
    rcases hcase with ⟨-, hentries⟩ | ⟨hroom, hentries⟩
    · exact hentries
    · rw [hentries, hadd, hcond.resolve_left hroom, add_zero]

/-- Adding an entry to a well-formed directory is inserting it into the map from
    names to inodes exactly where a direct block has room or nothing lies behind the
    index table. -/
theorem syncDirEntry_insertsEntry_iff (s s' : Fs) (d : DirPtr) (a : Nat) (v : Inode)
    (e : DirEntry) (hl : s.Layout) (ha : s.handle d = some a) (hv : s.inodes a = some v)
    (hd : s.DirOk v) (he : e.Valid)
    (hfresh : ∀ e' ∈ dirEntries s.disk v, e'.filename ≠ e.filename)
    (h : Returns (syncDirEntry d e) s true s') :
    InsertsEntry s s' d e ↔ s.DirectRoom v ∨ indirectEntries s.disk v = 0 :=
  (returns_syncDirEntry hl.entrySize ha hv h).2.insertsEntry_iff hl ha hv hd he hfresh

end Insertion

/-! ## A directory whose direct blocks are full -/

namespace FullDir

/-- The entry in slot `j` of block `k`. -/
def entry (k j : Nat) : DirEntry :=
  { filename := [UInt8.ofNat (k + 1), UInt8.ofNat (j + 1)], iNo := 1, fType := ftRegular }

/-- The one entry behind the index table. -/
def lastEntry : DirEntry := { filename := [100], iNo := 1, fType := ftRegular }

/-- The entry to be added. -/
def newEntry : DirEntry := { filename := [101], iNo := 2, fType := ftRegular }

/-- A disk with full direct blocks in the sectors 1001 to 1012, an index table in
    sector 1013 and the block it leads to in sector 1014. -/
def disk : Bytes := fun a =>
  let lba := a / 512
  let off := a % 512
  if 1001 ≤ lba ∧ lba < 1013 ∧ off < 504 then (entry (lba - 1001) (off / 24)).encode (off % 24)
  else if lba = 1013 ∧ off < 4 then Bytes.wordByte 1014 off
  else if lba = 1014 ∧ off < 24 then lastEntry.encode off
  else 0

/-- The inode of the directory, with its index table in sector `tbl`. -/
def inode (tbl size : Nat) : Inode where
  iNo := 0
  iSize := size
  iOpenCnt := 1
  writeDeny := false
  iSectors := fun k => if k.val < 12 then 1001 + k else tbl

/-- The file system with that directory as its root. -/
def fs (tbl size : Nat) : Fs :=
  { Fs.boot disk fun _ => false with
    part :=
      { startLba := 0, secCnt := 4096
        sb :=
          { magic := 0x19590318, secCnt := 4096, inodeCnt := 4096, partLbaBase := 0
            blockBitmapLba := 2, blockBitmapSecs := 1, inodeBitmapLba := 3
            inodeBitmapSecs := 1, inodeTableLba := 4, inodeTableSecs := 608
            dataStartLba := 1000, rootInodeNo := 0, dirEntrySize := 24 } }
    blockBitmap := { btmpBytesLen := 4, bit := fun i => i < 15 }
    inodeMap := { btmpBytesLen := 1, bit := fun i => i = 0 }
    openInodes := [0]
    inodes := fun a => if a = 0 then some (inode tbl size) else none }

theorem layout (tbl size : Nat) : (fs tbl size).Layout where
  entrySize := rfl
  blockBitmap := fun i hi => by
    have : i < 32 := hi
    show 2 + i / 4096 < 3
    omega
  inodeBitmap := fun i hi => by
    have : i < 8 := hi
    show 3 + i / 4096 < 4
    omega
  inodeTable := by show 4 + 608 ≤ 1000; omega
  nonempty := ⟨show 0 < 32 by omega, show 0 < 8 by omega⟩

theorem entry_valid {k j : Nat} (hk : k < 12) (hj : j < 21) : (entry k j).Valid where
  name :=
    { pos := by simp [entry]
      lt := by simp [entry]
      noNul := by
        have h : ∀ k < 12, ∀ j < 21, ∀ c ∈ (entry k j).filename, c ≠ 0 := by decide
        exact h k hk j hj }
  iNo := show 1 < 2 ^ 32 by decide
  fType := ⟨show 1 ≠ 0 by decide, show 1 < 2 ^ 32 by decide⟩

theorem lastEntry_valid : lastEntry.Valid where
  name := { pos := by decide, lt := by decide, noNul := by decide }
  iNo := by decide
  fType := by decide

theorem newEntry_valid : newEntry.Valid where
  name := { pos := by decide, lt := by decide, noNul := by decide }
  iNo := by decide
  fType := by decide

theorem sectorAt_direct {k j i : Nat} (hk : k < 12) (hj : j < 21) (hi : i < 24) :
    sectorAt disk (1001 + k) (24 * j + i) = (entry k j).encode i := by
  have hoff : 24 * j + i < 504 := by omega
  have hdiv : (512 * (1001 + k) + (24 * j + i)) / 512 = 1001 + k := by omega
  have hmod : (512 * (1001 + k) + (24 * j + i)) % 512 = 24 * j + i := by omega
  rw [sectorAt, Bytes.window_apply (by omega)]
  unfold disk
  dsimp only
  rw [hdiv, hmod, if_pos (by omega), show 1001 + k - 1001 = k by omega,
    show (24 * j + i) / 24 = j by omega, show (24 * j + i) % 24 = i by omega]

theorem sectorAt_last {i : Nat} (hi : i < 512) :
    sectorAt disk 1014 i = if i < 24 then lastEntry.encode i else 0 := by
  have hdiv : (512 * 1014 + i) / 512 = 1014 := by omega
  have hmod : (512 * 1014 + i) % 512 = i := by omega
  rw [sectorAt, Bytes.window_apply hi]
  unfold disk
  dsimp only
  rw [hdiv, hmod, if_neg (by omega), if_neg (by omega)]
  simp

theorem blockEntries_last : blockEntries (sectorAt disk 1014) = {lastEntry} := by
  have hzero : contents 21 (fun _ => (0 : Multiset DirEntry)) = 0 := by simp [contents]
  have hcons : blockEntries (sectorAt disk 1014)
      = lastEntry ::ₘ contents 21 (fun _ => (0 : Multiset DirEntry)) := by
    refine contents_cons (k := 0) (by omega) ?_ fun j hj hj0 => ?_
    · refine slotEntry_of_encode lastEntry_valid fun i hi => ?_
      rw [sectorAt_last (by omega), if_pos (by omega), Nat.mul_zero, Nat.zero_add]
    · refine slotEntry_of_zero fun i hi => ?_
      rw [sectorAt_last (by omega), if_neg (by omega)]
  rw [hcons, hzero]
  rfl

@[simp] theorem sector_twelve {tbl size : Nat} : (inode tbl size).sector 12 = tbl := rfl

theorem blockAddr_eq {tbl size k : Nat} (htbl : tbl = 0 ∨ tbl = 1013) (hk : k < 140) :
    (inode tbl size).blockAddr disk k
      = if k < 12 then 1001 + k else if k = 12 ∧ tbl = 1013 then 1014 else 0 := by
  by_cases hk12 : k < 12
  · rw [Inode.blockAddr_direct hk12, if_pos hk12, Inode.sector, dif_pos (by omega)]
    exact if_pos hk12
  · rw [if_neg hk12]
    rcases htbl with rfl | rfl
    · rw [Inode.blockAddr_no_table (by omega) sector_twelve, if_neg (by omega)]
    · rw [Inode.blockAddr_indirect (by omega) (by rw [sector_twelve]; omega), sector_twelve]
      by_cases h : k = 12
      · subst h
        rw [if_pos ⟨rfl, rfl⟩]
        decide
      · rw [if_neg (by omega)]
        have hz (j : Nat) (hj : j < 4) : sectorAt disk 1013 (4 * (k - 12) + j) = 0 := by
          have hoff : 4 ≤ 4 * (k - 12) + j ∧ 4 * (k - 12) + j < 512 := by omega
          generalize 4 * (k - 12) + j = off at hoff
          have hdiv : (512 * 1013 + off) / 512 = 1013 := by omega
          have hmod : (512 * 1013 + off) % 512 = off := by omega
          rw [sectorAt, Bytes.window_apply hoff.2]
          unfold disk
          dsimp only
          rw [hdiv, hmod, if_neg (by omega), if_neg (by omega), if_neg (by omega)]
        have hword : Bytes.u32At (sectorAt disk 1013) (4 * (k - 12)) = Bytes.u32At Bytes.zero 0 :=
          Bytes.u32At_congr hz
        rw [hword, Bytes.u32At_zero]

/-- The entries of the twelve full blocks. -/
def directOnes : Multiset DirEntry := contents 12 fun k => contents 21 fun j => {entry k j}

theorem directEntries_eq (tbl size : Nat) : directEntries disk (inode tbl size) = directOnes := by
  refine contents_congr fun k hk => ?_
  have hsec : (inode tbl size).sector k = 1001 + k := by
    rw [Inode.sector, dif_pos (by omega)]
    exact if_pos hk
  rw [hsec, entriesAt, if_neg (by omega)]
  exact contents_congr fun j hj =>
    slotEntry_of_encode (entry_valid hk hj) fun i hi => sectorAt_direct hk hj hi

theorem indirectEntries_eq {tbl : Nat} (size : Nat) (htbl : tbl = 0 ∨ tbl = 1013) :
    indirectEntries disk (inode tbl size) = if tbl = 1013 then {lastEntry} else 0 := by
  have hrest (j : Nat) (hj : j < 128) (h : 1 ≤ j ∨ tbl = 0) :
      entriesAt disk ((inode tbl size).blockAddr disk (12 + j)) = 0 := by
    rw [blockAddr_eq htbl (by omega), if_neg (by omega), if_neg (by omega), entriesAt, if_pos rfl]
  rcases htbl with rfl | rfl
  · rw [if_neg (by omega), indirectEntries,
      contents_eq_of_zero (m := 0) (by omega) fun j hj _ => hrest j hj (Or.inr rfl)]
    simp [contents]
  · rw [if_pos rfl, indirectEntries,
      contents_eq_of_zero (m := 1) (by omega) fun j hj h1 => hrest j hj (Or.inl h1)]
    simp only [contents, Finset.range_one, Finset.sum_singleton, Nat.add_zero]
    rw [blockAddr_eq (Or.inr rfl) (by omega), if_neg (by omega), if_pos ⟨rfl, rfl⟩, entriesAt,
      if_neg (by omega), blockEntries_last]

/-- The position of the entry with a given name. -/
def position : CStr → Nat
  | [a, b] => 21 * (a.toNat - 1) + (b.toNat - 1)
  | _ => 252

theorem names_position :
    ((directOnes + {lastEntry}).map DirEntry.filename).map position = Multiset.range 253 := by
  decide +kernel

theorem directOnes_card : directOnes.card = 252 := by
  have h := congrArg Multiset.card names_position
  rw [Multiset.card_map, Multiset.card_map, Multiset.card_add, Multiset.card_singleton,
    Multiset.card_range] at h
  exact Nat.add_right_cancel h

theorem names_nodup : ((directOnes + {lastEntry}).map DirEntry.filename).Nodup :=
  Multiset.Nodup.of_map position (names_position ▸ Multiset.nodup_range 253)

theorem inUse {tbl size lba : Nat} (h : 1000 ≤ lba ∧ lba < 1015) : (fs tbl size).InUse lba := by
  obtain ⟨i, rfl⟩ := Nat.exists_eq_add_of_le h.1
  have hi : i < 15 := by omega
  have hmax : (1015 : Nat) ≤ maxLba := by decide
  exact ⟨le_trans (by omega) hmax, i, lt_trans hi (show 15 < 32 by omega), decide_eq_true hi, rfl⟩

theorem blockAddr_cases {tbl size k : Nat} (htbl : tbl = 0 ∨ tbl = 1013) (hk : k < 140) :
    (inode tbl size).blockAddr disk k = 0 ∨
      (k < 12 ∧ (inode tbl size).blockAddr disk k = 1001 + k) ∨
      (k = 12 ∧ tbl = 1013 ∧ (inode tbl size).blockAddr disk k = 1014) := by
  rw [blockAddr_eq htbl hk]
  by_cases h : k < 12
  · rw [if_pos h]
    omega
  · rw [if_neg h]
    by_cases h' : k = 12 ∧ tbl = 1013
    · rw [if_pos h']
      omega
    · rw [if_neg h']
      omega

theorem blocksOk {tbl size : Nat} (htbl : tbl = 0 ∨ tbl = 1013) :
    (fs tbl size).BlocksOk (inode tbl size) where
  inUse := fun k hk (h0 : (inode tbl size).blockAddr disk k ≠ 0) => by
    have := @blockAddr_cases tbl size _ htbl hk
    exact inUse (show 1000 ≤ (inode tbl size).blockAddr disk k ∧
      (inode tbl size).blockAddr disk k < 1015 by omega)
  table := fun h0 => inUse (by rw [sector_twelve] at h0 ⊢; omega)
  inj := fun j hj k hk (h0 : (inode tbl size).blockAddr disk j ≠ 0)
      (heq : (inode tbl size).blockAddr disk j = (inode tbl size).blockAddr disk k) => by
    have h1 := @blockAddr_cases tbl size _ htbl hj
    have h2 := @blockAddr_cases tbl size _ htbl hk
    omega
  tableNe := fun k hk h0 (heq : (inode tbl size).blockAddr disk k = _) => by
    have := @blockAddr_cases tbl size _ htbl hk
    rw [sector_twelve] at h0 heq
    omega

theorem slotsOk_blocks {tbl size k : Nat} (htbl : tbl = 0 ∨ tbl = 1013) (hk : k < 140)
    (h0 : (inode tbl size).blockAddr disk k ≠ 0) :
    SlotsOk (sectorAt disk ((inode tbl size).blockAddr disk k)) := by
  intro j hj
  rcases blockAddr_cases htbl hk with h | ⟨hk12, h⟩ | ⟨-, -, h⟩
  · exact absurd h h0
  · rw [h]
    exact slotOk_of_encode (entry_valid hk12 hj) fun i hi => sectorAt_direct hk12 hj hi
  · rw [h]
    by_cases hj0 : j = 0
    · refine slotOk_of_encode lastEntry_valid fun i hi => ?_
      rw [sectorAt_last (by omega), if_pos (by omega), hj0, Nat.mul_zero, Nat.zero_add]
    · refine slotOk_of_zero fun i hi => ?_
      rw [sectorAt_last (by omega), if_neg (by omega)]

/-- How many entries the directory has. -/
def count (tbl : Nat) : Nat := if tbl = 1013 then 253 else 252

theorem dirEntries_le {tbl : Nat} (size : Nat) (htbl : tbl = 0 ∨ tbl = 1013) :
    dirEntries disk (inode tbl size) ≤ directOnes + {lastEntry} := by
  rw [dirEntries_eq_add, directEntries_eq, indirectEntries_eq size htbl]
  split
  · exact le_refl _
  · rw [add_zero]
    exact Multiset.le_add_right _ _

theorem dirOk {tbl : Nat} (htbl : tbl = 0 ∨ tbl = 1013) :
    (fs tbl (24 * count tbl)).DirOk (inode tbl (24 * count tbl)) where
  toBlocksOk := blocksOk htbl
  slots := fun _ hk h0 => slotsOk_blocks htbl hk h0
  names := Multiset.nodup_of_le (Multiset.map_le_map (dirEntries_le _ htbl)) names_nodup
  size := by
    have hcard : (dirEntries disk (inode tbl (24 * count tbl))).card = count tbl := by
      rw [dirEntries_eq_add, directEntries_eq, indirectEntries_eq _ htbl, Multiset.card_add,
        directOnes_card, count]
      split <;> simp
    exact congrArg (24 * ·) hcard.symm

theorem fresh {tbl : Nat} (size : Nat) (htbl : tbl = 0 ∨ tbl = 1013) :
    ∀ e ∈ dirEntries (fs tbl size).disk (inode tbl size), e.filename ≠ newEntry.filename := by
  intro e he heq
  have hmem : newEntry.filename ∈ (directOnes + {lastEntry}).map DirEntry.filename :=
    heq ▸ Multiset.mem_map_of_mem _ (Multiset.mem_of_le (dirEntries_le size htbl) he)
  exact absurd hmem (by decide +kernel)

theorem sync_returns (tbl : Nat) (htbl : tbl = 0 ∨ tbl = 1013) :
    ∃ s', Returns (syncDirEntry .root newEntry) (fs tbl (24 * count tbl)) true s' := by
  rw [← result?_eq_some]
  rcases htbl with rfl | rfl
  · decide +kernel
  · decide +kernel

theorem no_directRoom (tbl size : Nat) : ¬ (fs tbl size).DirectRoom (inode tbl size) := by
  rintro ⟨k, hk, hroom⟩
  have hsec : (inode tbl size).sector k = 1001 + k := by
    rw [Inode.sector, dif_pos (by omega)]
    exact if_pos hk
  rw [hsec] at hroom
  rcases hroom with h | ⟨j, hj, hfree⟩
  · omega
  · have hdec := DirEntry.decode_of_encode (entry_valid hk hj) fun i hi => sectorAt_direct hk hj hi
    have hty : DirEntry.fTypeAt (sectorAt disk (1001 + k)) j = ftRegular :=
      congrArg DirEntry.fType hdec
    exact absurd (hfree.symm.trans hty) (by decide)

end FullDir

open FullDir in
theorem syncDirEntry_insertsEntry_full :
    ∃ s', InsertsEntry (fs 0 (24 * count 0)) s' .root newEntry := by
  obtain ⟨s', h⟩ := sync_returns 0 (Or.inl rfl)
  refine ⟨s', (syncDirEntry_insertsEntry_iff (fs 0 (24 * count 0)) s' .root 0
    (inode 0 (24 * count 0)) newEntry (layout _ _) rfl rfl (dirOk (Or.inl rfl)) newEntry_valid
    (fresh _ (Or.inl rfl)) h).mpr (Or.inr ?_)⟩
  exact indirectEntries_eq _ (Or.inl rfl)

open FullDir in
/-- With full direct blocks and an entry behind the index table, the new entry takes
    the place of the table and the old entry is lost. -/
theorem syncDirEntry_loses_entry :
    ∃ s', (fs 1013 (24 * count 1013)).DirOk (inode 1013 (24 * count 1013)) ∧
      (∀ e ∈ dirEntries (fs 1013 (24 * count 1013)).disk (inode 1013 (24 * count 1013)),
        e.filename ≠ newEntry.filename) ∧
      Returns (syncDirEntry .root newEntry) (fs 1013 (24 * count 1013)) true s' ∧
      ¬ InsertsEntry (fs 1013 (24 * count 1013)) s' .root newEntry := by
  have htbl : (1013 : Nat) = 0 ∨ (1013 : Nat) = 1013 := Or.inr rfl
  obtain ⟨s', h⟩ := sync_returns 1013 htbl
  refine ⟨s', dirOk htbl, fresh _ htbl, h, fun hins => ?_⟩
  have hres := (returns_syncDirEntry (s := fs 1013 (24 * count 1013)) (a := 0) rfl rfl rfl h).2
  rcases (hres.insertsEntry_iff (layout _ _) rfl rfl (dirOk htbl) newEntry_valid
    (fresh _ htbl)).mp hins with hroom | hnone
  · exact no_directRoom _ _ hroom
  · have hlast := indirectEntries_eq (24 * count 1013) htbl
    rw [if_pos rfl] at hlast
    exact absurd (hlast.symm.trans hnone) (by simp)

end ZxyOs
