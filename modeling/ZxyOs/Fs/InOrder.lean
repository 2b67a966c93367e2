/-
  ZxyOs.Fs.InOrder

  A file system in order, and what keeps it so.

  `Fs.InOrder` is the invariant of the calls that change the tree: the directories form a tree
  and every inode of it has its number, its slot and its blocks to itself (`Fs.ChainOk`,
  `Fs.NumbersOk`), what is cached is a directory or an open file, and every process works in a
  directory of the tree.

  It is taken apart into what it says of one inode (`Fs.InodeOk`) and of one directory
  (`Fs.DirAt`), which an inode keeps whose slot and blocks are spared, and into what it says of
  the cache, which a call keeps that holds no references when it comes back (`Settled`).
-/

import ZxyOs.Fs.Getcwd
import ZxyOs.Fs.Mkdir
import ZxyOs.Fs.Unlink

namespace ZxyOs

open Lib Lib.Exec

/-! ## The invariant -/

/-- The tree, the numbers, the cache and the processes are in order. -/
structure Fs.InOrder (s : Fs) : Prop extends s.ChainOk, s.NumbersOk where
  numberLt : ∀ a v, s.inodes a = some v → v.iNo < 4096
  cachedFor : ∀ a v, s.inodes a = some v → s.IsDir v.iNo ∨ ∃ g < 32, (s.fileTable g).fdInode = some a ∧ s.rings a = none
  cwd : ∀ t k, s.tasks t = some k → s.IsDir k.cwdInodeNr

/-- Inode `i` has a number in use and its blocks. -/
structure Fs.InodeOk (s : Fs) (i : Nat) : Prop where
  inMap : i < 4096 ∧ i < s.inodeMap.size
  used : s.inodeMap.bit i = true
  own : (s.content i).iNo = i
  blocks : s.BlocksOk (s.content i)

/-- The number in a free slot of a block is zero. -/
def SlotsZero (buf : Bytes) : Prop := ∀ j < 21, DirEntry.fTypeAt buf j = ftUnkown → DirEntry.iNoAt buf j = 0

/-- And so it is in every block of a directory. -/
def FreeZero (disk : Bytes) (v : Inode) : Prop :=
  ∀ k < 140, v.blockAddr disk k ≠ 0 → SlotsZero (sectorAt disk (v.blockAddr disk k))

/-- Directory `i` is well formed. -/
structure Fs.DirAt (s : Fs) (i : Nat) : Prop where
  dirOk : s.DirOk (s.content i)
  dots : s.DotsFirst (s.content i)
  types : ∀ e ∈ s.entries i, e.fType = ftDir ∨ e.fType = ftRegular
  zero : FreeZero s.disk (s.content i)

/-- A call that comes back holds no references, and has not moved what the cache, the layout and the heap
    rest on. -/
structure Settled (s t : Fs) : Prop extends CacheStep s t 0 where
  part : t.part = s.part
  blockLen : t.blockBitmap.size = s.blockBitmap.size
  inodeLen : t.inodeMap.size = s.inodeMap.size
  live : t.heap.LiveBelow

section Slots

variable {b c src : Bytes} {i j : Nat} {e : DirEntry}

theorem slotsZero_congr (h : ∀ k < 504, b k = c k) (hc : SlotsZero c) : SlotsZero b := by
  intro j hj hfree
  have hdecode : DirEntry.decode b j = DirEntry.decode c j := DirEntry.decode_congr fun k hk => h _ (by omega)
  have hty : DirEntry.fTypeAt b j = DirEntry.fTypeAt c j := congrArg DirEntry.fType hdecode
  have hno : DirEntry.iNoAt b j = DirEntry.iNoAt c j := congrArg DirEntry.iNo hdecode
  rw [hno]
  exact hc j hj (hty ▸ hfree)

theorem slotsZero_window (h : SlotsZero b) : SlotsZero (b.window 0 512) :=
  slotsZero_congr (fun k hk => by rw [Bytes.window_apply (by omega), Nat.zero_add]) h

/-- Every slot but the one that is written stays. -/
theorem decode_splice_ne (hij : i ≠ j) : DirEntry.decode (b.splice (24 * j) 24 src) i = DirEntry.decode b i :=
  DirEntry.decode_congr fun k hk => Bytes.splice_outside (by omega)

theorem slotsZero_splice (h : SlotsZero b)
    (hnew : DirEntry.fTypeAt (b.splice (24 * j) 24 src) j = ftUnkown → DirEntry.iNoAt (b.splice (24 * j) 24 src) j = 0) :
    SlotsZero (b.splice (24 * j) 24 src) := by
  intro i hi hfree
  by_cases hij : i = j
  · rw [hij] at hfree ⊢
    exact hnew hfree
  · have hkept : DirEntry.decode (b.splice (24 * j) 24 src) i = DirEntry.decode b i := decode_splice_ne hij
    have hty : DirEntry.fTypeAt (b.splice (24 * j) 24 src) i = DirEntry.fTypeAt b i := congrArg DirEntry.fType hkept
    have hno : DirEntry.iNoAt (b.splice (24 * j) 24 src) i = DirEntry.iNoAt b i := congrArg DirEntry.iNo hkept
    rw [hno]
    exact h i hi (hty ▸ hfree)

theorem slotsZero_splice_encode (he : e.Valid) (h : SlotsZero b) : SlotsZero (b.splice (24 * j) 24 e.encode) := by
  refine slotsZero_splice h fun hfree => absurd hfree ?_
  have hdecode : DirEntry.decode (b.splice (24 * j) 24 e.encode) j = e := DirEntry.decode_of_encode he fun k hk => by
    rw [Bytes.splice_inside (by omega) (by omega), Nat.add_sub_cancel_left]
  have hty : DirEntry.fTypeAt (b.splice (24 * j) 24 e.encode) j = e.fType := congrArg DirEntry.fType hdecode
  rw [hty]
  exact he.fType.1

theorem slotsZero_splice_zero (h : SlotsZero b) : SlotsZero (b.splice (24 * j) 24 Bytes.zero) := by
  refine slotsZero_splice h fun _ => ?_
  have hdecode : DirEntry.iNoAt (b.splice (24 * j) 24 Bytes.zero) j = Bytes.u32At Bytes.zero 0 :=
    Bytes.u32At_congr fun m hm => Bytes.splice_inside (by omega) (by omega)
  rw [hdecode, Bytes.u32At_zero]

theorem slotsZero_zero : SlotsZero Bytes.zero := fun _ _ _ => Bytes.u32At_zero _

end Slots

section Parts

variable {s t : Fs} {i j a : Nat}

theorem Fs.InOrder.inodeOk (hs : s.InOrder) (hi : s.InTree i) : s.InodeOk i :=
  ⟨hs.inMap i hi, hs.used i hi, hs.own i hi, hs.blocks i hi⟩

theorem Fs.InOrder.dirAt (hs : s.InOrder) (hi : s.IsDir i) : s.DirAt i :=
  ⟨hs.dirOk i hi, hs.dotsFirst i hi, (hs.node i hi).types, hs.free i hi⟩

theorem Fs.DirAt.node (hd : s.DirAt i) (hi : s.InodeOk i) : s.DirNode i where
  number := hi.inMap.1
  own := hi.own
  listed := hd.dirOk.toEntriesOk.listed
  block := ⟨0, by decide, by
    rw [Inode.blockAddr_direct (by decide)]
    exact hd.dots.block⟩
  types := hd.types

/-! ## What is spared -/

theorem Spared.blockAddr (h : Spared s t i) : (s.content i).blockAddr t.disk = (s.content i).blockAddr s.disk :=
  (dirEntries_frame (fun h12 => h.owned _ ⟨h12, Or.inl rfl⟩) fun k hk hne => h.owned _ ⟨hne, Or.inr ⟨k, hk, rfl⟩⟩).1

theorem Spared.inodeOk (h : Spared s t i) (hcontent : t.content i = s.content i) (hlen : t.inodeMap.size = s.inodeMap.size)
    (hused : t.inodeMap.bit i = true) (huse : ∀ lba, s.Owns i lba → t.InUse lba) (hi : s.InodeOk i) : t.InodeOk i where
  inMap := ⟨hi.inMap.1, by rw [hlen]; exact hi.inMap.2⟩
  used := hused
  own := by rw [hcontent]; exact hi.own
  blocks := by
    have haddr := h.blockAddr
    rw [hcontent]
    refine ⟨fun k hk hne => ?_, fun h12 => huse _ ⟨h12, Or.inl rfl⟩, ?_, ?_⟩
    · rw [haddr] at hne ⊢
      exact huse _ ⟨hne, Or.inr ⟨k, hk, rfl⟩⟩
    · rw [haddr]
      exact hi.blocks.inj
    · rw [haddr]
      exact hi.blocks.tableNe

theorem Spared.dirAt (h : Spared s t i) (hcontent : t.content i = s.content i) (hentries : t.entries i = s.entries i)
    (hi : t.InodeOk i) (hd : s.DirAt i) : t.DirAt i := by
  have haddr := h.blockAddr
  have hsector (k : Nat) (hk : k < 140) (hne : (s.content i).blockAddr s.disk k ≠ 0) :
      sectorAt t.disk ((s.content i).blockAddr s.disk k) = sectorAt s.disk ((s.content i).blockAddr s.disk k) :=
    h.owned _ ⟨hne, Or.inr ⟨k, hk, rfl⟩⟩
  have hfirst : sectorAt t.disk ((s.content i).sector 0) = sectorAt s.disk ((s.content i).sector 0) := by
    have h0 := hsector 0 (by decide)
    rw [Inode.blockAddr_direct (by decide)] at h0
    exact h0 hd.dots.block
  have hlist : dirEntries t.disk (t.content i) = dirEntries s.disk (s.content i) := hentries
  refine ⟨⟨⟨hi.blocks, fun k hk hne => ?_, ?_⟩, ?_⟩, ?_, fun e he => hd.types e (hentries ▸ he), fun k hk hne => ?_⟩
  · rw [hcontent, haddr] at hne ⊢
    rw [hsector k hk hne]
    exact hd.dirOk.slots k hk hne
  · rw [hlist]
    exact hd.dirOk.names
  · rw [hlist, hcontent]
    exact hd.dirOk.size
  · rw [hcontent]
    refine ⟨hd.dots.block, ?_, ?_, ?_⟩
    · rw [hfirst]
      exact hd.dots.full
    · rw [hfirst]
      exact hd.dots.dot
    · rw [hfirst]
      exact hd.dots.dotDot
  · rw [hcontent, haddr] at hne ⊢
    rw [hsector k hk hne]
    exact hd.zero k hk hne

/-! ## A new directory -/

/-- The block of a new directory, slot by slot. -/
theorem mkdirBlock_slots {i d : Nat} (hi : i < 2 ^ 32) (hd : d < 2 ^ 32) :
    SlotsOk (mkdirBlock i d) ∧ SlotsZero (mkdirBlock i d) ∧ DirEntry.decode (mkdirBlock i d) 0 = ⟨dot, i, ftDir⟩ ∧
      DirEntry.decode (mkdirBlock i d) 1 = ⟨dotDot, d, ftDir⟩ := by
  have hself : (⟨dot, i, ftDir⟩ : DirEntry).Valid :=
    ⟨(by decide : DirEntry.NameOk dot), hi, (by decide : ftDir ≠ ftUnkown ∧ ftDir < 2 ^ 32)⟩
  have hup : (⟨dotDot, d, ftDir⟩ : DirEntry).Valid :=
    ⟨(by decide : DirEntry.NameOk dotDot), hd, (by decide : ftDir ≠ ftUnkown ∧ ftDir < 2 ^ 32)⟩
  have hblock : mkdirBlock i d = (Bytes.zero.splice (24 * 0) 24 (⟨dot, i, ftDir⟩ : DirEntry).encode).splice (24 * 1) 24
    (⟨dotDot, d, ftDir⟩ : DirEntry).encode := rfl
  rw [hblock]
  refine ⟨slotsOk_splice_encode hup (slotsOk_splice_encode hself slotsOk_zero),
    slotsZero_splice_encode hup (slotsZero_splice_encode hself slotsZero_zero), ?_, ?_⟩
  · rw [decode_splice_ne (by decide)]
    exact DirEntry.decode_of_encode hself fun k hk => by
      rw [Bytes.splice_inside (by omega) (by omega), Nat.add_sub_cancel_left]
  · exact DirEntry.decode_of_encode hup fun k hk => by
      rw [Bytes.splice_inside (by omega) (by omega), Nat.add_sub_cancel_left]

/-- A directory with no other entries names itself and its parent. -/
theorem Fs.DirNode.names_new {d : Nat} (hnode : s.DirNode i) (hdots : s.entries i = {⟨dot, i, ftDir⟩, ⟨dotDot, d, ftDir⟩}) :
    s.names i dot = some (.dir i) ∧ s.names i dotDot = some (.dir d) ∧ ∀ c, Downward c → s.names i c = none := by
  have hself : (⟨dot, i, ftDir⟩ : DirEntry) ∈ s.entries i := by
    rw [hdots]
    simp
  have hup : (⟨dotDot, d, ftDir⟩ : DirEntry) ∈ s.entries i := by
    rw [hdots]
    simp
  refine ⟨(hnode.names_eq hself).trans (congrArg some (DirEntry.child_dir rfl)),
    (hnode.names_eq hup).trans (congrArg some (DirEntry.child_dir rfl)), fun c hc => ?_⟩
  rw [Fs.names_eq_none]
  intro e he
  rw [hdots] at he
  simp only [Multiset.insert_eq_cons, Multiset.mem_cons, Multiset.mem_singleton] at he
  rcases he with rfl | rfl
  · exact hc.1.symm
  · exact hc.2.symm

/-- Directory `i` is new: its one block, at `lba`, has its entries for itself and for its parent `d`. -/
structure Fs.NewDir (s : Fs) (i d lba : Nat) : Prop where
  content : s.content i = mkdirInode i lba
  sector : sectorAt s.disk lba = (mkdirBlock i d).window 0 512
  inUse : s.InUse lba
  pos : lba ≠ 0
  word : i < 2 ^ 32 ∧ d < 2 ^ 32

namespace Fs.NewDir

variable {d lba k : Nat}

theorem blockAddr (h : s.NewDir i d lba) : (s.content i).blockAddr s.disk k = if k = 0 then lba else 0 := by
  rw [h.content]
  exact MkdirRun.blockAddr_new

theorem table (h : s.NewDir i d lba) : (s.content i).sector 12 = 0 := by
  rw [h.content]
  rfl

theorem blocksOk (h : s.NewDir i d lba) : s.BlocksOk (s.content i) := by
  refine ⟨fun k hk hne => ?_, fun hne => absurd h.table hne, ?_, fun k hk hne => absurd h.table hne⟩
  · rw [h.blockAddr] at hne ⊢
    split at hne
    · next hk0 =>
      rw [if_pos hk0]
      exact h.inUse
    · exact absurd rfl hne
  · -- there is one block only
    intro j hj k hk hne heq
    rw [h.blockAddr] at hne heq
    rw [h.blockAddr] at heq
    by_cases hj0 : j = 0
    · by_cases hk0 : k = 0
      · rw [hj0, hk0]
      · rw [if_neg hk0] at heq
        exact absurd heq hne
    · rw [if_neg hj0] at hne
      exact absurd rfl hne

theorem entries (h : s.NewDir i d lba) : s.entries i = {⟨dot, i, ftDir⟩, ⟨dotDot, d, ftDir⟩} := by
  rw [Fs.entries, ← mkdirBlock_entries h.word.1 h.word.2, dirEntries, contents_eq_of_zero (m := 1) (by omega) fun k hk _ => ?_]
  · rw [contents, Finset.sum_range_one, h.blockAddr, if_pos rfl, entriesAt, if_neg h.pos, h.sector, blockEntries_window]
  · rw [h.blockAddr, if_neg (by omega), entriesAt, if_pos rfl]

theorem dirAt (h : s.NewDir i d lba) : s.DirAt i := by
  obtain ⟨hslots, hzero, hself, hup⟩ := mkdirBlock_slots h.word.1 h.word.2
  have hentries : dirEntries s.disk (s.content i) = {⟨dot, i, ftDir⟩, ⟨dotDot, d, ftDir⟩} := h.entries
  have hsec : (s.content i).sector 0 = lba := by
    rw [h.content]
    rfl
  -- the slots as they are read back
  have hread (j : Nat) (hj : j < 21) : DirEntry.decode ((mkdirBlock i d).window 0 512) j = DirEntry.decode (mkdirBlock i d) j :=
    DirEntry.decode_congr fun m hm => by rw [Bytes.window_apply (by omega), Nat.zero_add]
  have hfirst := (hread 0 (by decide)).trans hself
  have hsecond := (hread 1 (by decide)).trans hup
  refine ⟨⟨⟨h.blocksOk, fun k hk hne => ?_, ?_⟩, ?_⟩, ?_, fun e he => ?_, fun k hk hne => ?_⟩
  · rw [h.blockAddr] at hne ⊢
    split at hne
    · next hk0 =>
      rw [if_pos hk0, h.sector]
      exact slotsOk_window hslots
    · exact absurd rfl hne
  · rw [hentries]
    show Multiset.Nodup {dot, dotDot}
    decide
  · rw [hentries, h.content]
    rfl
  · rw [← h.sector, ← hsec] at hfirst hsecond
    refine ⟨by rw [hsec]; exact h.pos, fun j hj => ?_, congrArg DirEntry.filename hfirst, congrArg DirEntry.filename hsecond⟩
    obtain rfl | rfl : j = 0 ∨ j = 1 := by omega
    · rw [show DirEntry.fTypeAt _ 0 = ftDir from congrArg DirEntry.fType hfirst]
      decide
    · rw [show DirEntry.fTypeAt _ 1 = ftDir from congrArg DirEntry.fType hsecond]
      decide
  · rw [h.entries] at he
    have htypes : ∀ e ∈ ({⟨dot, i, ftDir⟩, ⟨dotDot, d, ftDir⟩} : Multiset DirEntry), e.fType = ftDir := by simp
    exact Or.inl (htypes e he)
  · rw [h.blockAddr] at hne ⊢
    split at hne
    · next hk0 =>
      rw [if_pos hk0, h.sector]
      exact slotsZero_window hzero
    · exact absurd rfl hne

end Fs.NewDir

/-! ## What a call settles -/

namespace Settled

/-- The cache holds the same numbers at the same addresses. -/
theorem number_eq (h : Settled s t) (hs : s.CacheOk) (a : Nat) :
    (t.inodes a).map Inode.iNo = (s.inodes a).map Inode.iNo := by
  have hcnt := h.cnt a
  rw [Pi.zero_apply, add_zero, Nat.cast_inj] at hcnt
  cases hv : s.inodes a with
  | none =>
    cases hw : t.inodes a with
    | none => rfl
    | some w =>
      have hpos := h.ok.pos a w hw
      rw [Fs.openCnt_eq hw, Fs.openCnt_none hv] at hcnt
      omega
  | some v =>
    cases hw : t.inodes a with
    | none =>
      have hpos := hs.pos a v hv
      rw [Fs.openCnt_eq hv, Fs.openCnt_none hw] at hcnt
      omega
    | some w => exact congrArg some (h.number a v w hv hw)

theorem cachedAs (h : Settled s t) (hs : s.CacheOk) {w : Inode} (hw : t.inodes a = some w) :
    ∃ v, s.inodes a = some v ∧ v.iNo = w.iNo := by
  have hnumber := h.number_eq hs a
  rw [hw, Option.map_some, eq_comm, Option.map_eq_some_iff] at hnumber
  exact hnumber

theorem cachedStill (h : Settled s t) (hs : s.CacheOk) {v : Inode} (hv : s.inodes a = some v) :
    ∃ w, t.inodes a = some w ∧ w.iNo = v.iNo := by
  have hnumber := h.number_eq hs a
  rw [hv, Option.map_some, Option.map_eq_some_iff] at hnumber
  exact hnumber

theorem single (h : Settled s t) (hs : s.StoreOk) (a b : Nat) (v w : Inode) (hv : t.inodes a = some v)
    (hw : t.inodes b = some w) (hno : v.iNo = w.iNo) : a = b := by
  obtain ⟨v', hv', hvno⟩ := h.cachedAs hs.cache hv
  obtain ⟨w', hw', hwno⟩ := h.cachedAs hs.cache hw
  exact hs.single a b v' w' hv' hw' (by rw [hvno, hwno, hno])

/-- An inode is cached where it was. -/
theorem cached (h : Settled s t) (hs : s.StoreOk) (hc : s.cached i = some a) : t.cached i = some a := by
  obtain ⟨-, v, hv, hno⟩ := Fs.cached_some hc
  obtain ⟨w, hw, hwno⟩ := h.cachedStill hs.cache hv
  have hsome := (h.ok.cached_isSome (i := i)).mpr ⟨a, w, hw, hwno.trans hno⟩
  obtain ⟨b, hb⟩ := Option.isSome_iff_exists.mp hsome
  obtain ⟨-, x, hx, hxno⟩ := Fs.cached_some hb
  rw [hb, h.single hs b a x w hx hw (hxno.trans (hwno.trans hno).symm)]

theorem root (h : Settled s t) (hs : s.StoreOk) : t.cached 0 = some t.rootDir.inode := by
  rw [h.rootDir]
  exact h.cached hs hs.root

theorem table (h : Settled s t) (hs : s.StoreOk) : t.TableFits := by
  have hpart := h.part
  exact ⟨by rw [hpart]; exact hs.table.onDisk, by rw [hpart]; exact hs.table.inPart⟩

theorem running (h : Settled s t) (hs : s.StoreOk) : ∃ k, t.tasks t.cur = some k := by
  rw [h.tasks, h.cur]
  exact hs.running

theorem layout (h : Settled s t) (hs : s.StoreOk) : t.Layout := by
  have hl := hs.layout
  have hpart := h.part
  refine ⟨by rw [hpart]; exact hl.entrySize, ?_, ?_, by rw [hpart]; exact hl.inodeTable, ?_, ?_⟩
  · rw [hpart, h.blockLen]
    exact hl.blockBitmap
  · rw [hpart, h.inodeLen]
    exact hl.inodeBitmap
  · rw [h.blockLen]
    exact hl.nonempty.1
  · rw [h.inodeLen]
    exact hl.nonempty.2

theorem slots (h : Settled s t) (hs : s.StoreOk) (g : Nat) (hg : g < 32) (a : Nat) (ha : (t.fileTable g).fdInode = some a) :
    t.rings a ≠ none ∨ t.inodes a ≠ none := by
  rw [h.fileTable] at ha
  rw [h.rings]
  refine (hs.slots g hg a ha).imp_right fun hne => ?_
  obtain ⟨v, hv⟩ := Option.ne_none_iff_exists'.mp hne
  obtain ⟨w, hw, -⟩ := h.cachedStill hs.cache hv
  rw [hw]
  simp

theorem numberLt (h : Settled s t) (hs : s.InOrder) (a : Nat) (v : Inode) (hv : t.inodes a = some v) : v.iNo < 4096 := by
  obtain ⟨w, hw, hno⟩ := h.cachedAs hs.cache hv
  rw [← hno]
  exact hs.numberLt a w hw

theorem cachedFor (h : Settled s t) (hs : s.InOrder) (hdir : ∀ i, s.IsDir i → t.IsDir i) (a : Nat) (v : Inode)
    (hv : t.inodes a = some v) : t.IsDir v.iNo ∨ ∃ g < 32, (t.fileTable g).fdInode = some a ∧ t.rings a = none := by
  obtain ⟨w, hw, hno⟩ := h.cachedAs hs.cache hv
  rw [h.fileTable, h.rings, ← hno]
  exact (hs.cachedFor a w hw).imp_left (hdir _)

theorem cwd (h : Settled s t) (hs : s.InOrder) (hdir : ∀ i, s.IsDir i → t.IsDir i) (n : Nat) (k : Task)
    (hk : t.tasks n = some k) : t.IsDir k.cwdInodeNr := by
  rw [h.tasks] at hk
  exact hdir _ (hs.cwd n k hk)

end Settled

/-! ## The processes and the heap -/

/-- A file system stays in order while other processes run and the heap is asked, as long as every process
    works in a directory. -/
theorem Fs.InOrder.moved {heap : Heap} {tasks : Nat → Option Task} {cur : Nat} (hs : s.InOrder) (hlive : heap.LiveBelow)
    (hnext : s.heap.next ≤ heap.next) (hrun : ∃ k, tasks cur = some k)
    (hcwd : ∀ t k, tasks t = some k → s.IsDir k.cwdInodeNr) :
    ({ s with heap := heap, tasks := tasks, cur := cur } : Fs).InOrder := by
  have hdir {i : Nat} : ({ s with heap := heap, tasks := tasks, cur := cur } : Fs).IsDir i ↔ s.IsDir i :=
    ⟨isDir_congr fun _ => rfl, isDir_congr fun _ => rfl⟩
  have hfile {i : Nat} : ({ s with heap := heap, tasks := tasks, cur := cur } : Fs).IsFile i ↔ s.IsFile i :=
    exists_congr fun d => and_congr_left fun _ => hdir
  have htree {i : Nat} : ({ s with heap := heap, tasks := tasks, cur := cur } : Fs).InTree i ↔ s.InTree i :=
    or_congr hdir hfile
  have hstore := hs.toStoreOk.beside (b := s.blockBitmap) hlive hnext rfl fun _ hj => hj
  exact
    { cache := ⟨hstore.cache.nodup, hstore.cache.mem, hstore.cache.pos, hstore.cache.inode_lt, hstore.cache.dir_lt⟩
      live := hlive
      entrySize := hs.entrySize
      table := ⟨hs.table.onDisk, hs.table.inPart⟩
      running := hrun
      root := hs.root
      node := by
        intro i hi
        have hnode := hs.node i (hdir.mp hi)
        exact ⟨hnode.number, hnode.own,
          ⟨hnode.listed.blocks, hnode.listed.table, hnode.listed.slots, hnode.listed.names⟩, hnode.block, hnode.types⟩
      self := fun i hi => hs.self i (hdir.mp hi)
      rootUp := hs.rootUp
      layout := by
        have hl := hs.layout
        exact ⟨hl.entrySize, hl.blockBitmap, hl.inodeBitmap, hl.inodeTable, hl.nonempty⟩
      coherent := hs.coherent
      single := hs.single
      dirOk := by
        intro i hi
        have hd := hs.dirOk i (hdir.mp hi)
        exact ⟨⟨⟨hd.inUse, hd.table, hd.inj, hd.tableNe⟩, hd.slots, hd.names⟩, hd.size⟩
      dotsFirst := by
        intro i hi
        have hd := hs.dotsFirst i (hdir.mp hi)
        exact ⟨hd.block, hd.full, hd.dot, hd.dotDot⟩
      up := fun i hi => hs.up i (hdir.mp hi)
      inMap := fun i hi => hs.inMap i (htree.mp hi)
      own := fun i hi => hs.own i (htree.mp hi)
      blocks := by
        intro i hi
        have hb := hs.blocks i (htree.mp hi)
        exact ⟨hb.inUse, hb.table, hb.inj, hb.tableNe⟩
      apart := fun i j lba hi hj => hs.apart i j lba (htree.mp hi) (htree.mp hj)
      notDir := fun i hi hd => hs.notDir i (hfile.mp hi) (hdir.mp hd)
      once := fun d d' e e' hd hd' => hs.once d d' e e' (hdir.mp hd) (hdir.mp hd')
      rootFirst := hs.rootFirst
      slots := hs.slots
      parent := fun i c n hi => hs.parent i c n (hdir.mp hi)
      distinct := fun i c d n hi => hs.distinct i c d n (hdir.mp hi)
      top := fun i c hi => hs.top i c (hdir.mp hi)
      free := fun i hi => hs.free i (hdir.mp hi)
      used := fun i hi => hs.used i (htree.mp hi)
      held := hs.held
      slotNo := hs.slotNo
      numberLt := hs.numberLt
      cachedFor := fun a v hv => (hs.cachedFor a v hv).imp_left hdir.mpr
      cwd := fun t k hk => hdir.mpr (hcwd t k hk) }

/-- And so it does where a call has changed nothing. -/
theorem Restored.inOrder (h : Restored s t) (hs : s.InOrder) : t.InOrder := by
  obtain ⟨n, hn, rfl⟩ := h
  exact hs.moved (hs.live.goOn hn) hn hs.running hs.cwd

end Parts

/-! ## A heap that serves every request -/

section Served

variable {s : Fs} {i k above : Nat} {cs : List CStr}

/-- Where every request is served and every name fits the way is clear, whatever it leads to. -/
theorem clear_of_fits (hserved : ∀ j, s.heap.full (s.heap.next + j) = false) (hfit : ∀ c ∈ cs, c.length < 16) :
    HeadFits cs ∧ s.Clear k above i cs := by
  induction cs generalizing k above i with
  | nil =>
    have hnone : HeadFits [] := by decide
    exact ⟨hnone, fun j _ => hserved _⟩
  | cons c cs ih =>
    have hrest := fun d hd => hfit d (List.mem_cons_of_mem c hd)
    refine ⟨fun d hd => ?_, ?_⟩
    · obtain rfl : c = d := by simpa using hd
      exact hfit c List.mem_cons_self
    · cases hnames : s.names i c with
      | none =>
        simp only [Fs.Clear, hnames]
        exact Or.inr fun j _ => hserved _
      | some child =>
        cases child with
        | file m =>
          simp only [Fs.Clear, hnames]
          exact ⟨fun j _ => hserved _, (@ih 0 0 0 hrest).1⟩
        | dir m =>
          simp only [Fs.Clear, hnames]
          exact ⟨fun j _ => hserved _, (@ih 0 0 0 hrest).1, fun j _ => hserved _, (ih hrest).2⟩

end Served

end ZxyOs
