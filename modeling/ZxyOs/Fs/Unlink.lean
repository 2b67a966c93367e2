/-
  ZxyOs.Fs.Unlink

  What `sys_unlink` removes.

  The call leaves the question whether the path has been used up to nobody: `search_file` stops
  at the first regular file it meets, and that file is removed.  Where the path ends there, the
  entry goes out of the directory (`Fs.Unlinking.cleared`), the inode and its blocks are given
  back (`inodeRelease_runs`), and nothing else of the tree is written, as no two inodes share a
  block and the slots of the inode table are apart.
-/

import ZxyOs.Fs.Resolve
import ZxyOs.Fs.Store

namespace ZxyOs

open Lib Lib.Exec

/-! ## What is asked of the call -/

/-- `file_table` refers to inode `n`. -/
def Fs.IsOpenFile (s : Fs) (n : Nat) : Prop :=
  ∃ g < 32, ∃ a v, (s.fileTable g).fdInode = some a ∧ s.rings a = none ∧ s.inodes a = some v ∧ v.iNo = n

/-- The path leads to file `n`, which is not open, and ends there. -/
def Fs.NamesClosed (s : Fs) (path : CStr) (n : Nat) : Prop :=
  (s.walkPath path).found = some (.file n) ∧ (s.walkPath path).rest = [] ∧ ¬ s.IsOpenFile n

/-- File `n` and its entry in directory `d` are gone: the entry and no other is out of the
    directory, on disk as well; the number, the slot and the blocks of the inode and no others are
    given back; and every other inode of the tree is as it was, with what it owns. -/
structure Removed (s s' : Fs) (d n : Nat) : Prop where
  part : s'.part = s.part
  entry : ∃ e, e.fType = ftRegular ∧ e.iNo = n ∧ s.entries d = e ::ₘ s'.entries d
  content : s'.content d = (s.content d).shrink
  slot : (s'.slot d).pureInode = (s.content d).shrink
  inodes : ∀ i, s'.inodeMap.bit i = true ↔ s.inodeMap.bit i = true ∧ i ≠ n
  blocks : ∀ b, s'.blockBitmap.bit b = true ↔ s.blockBitmap.bit b = true ∧ ¬ s.BlockBelow (s.content n) 140 b
  erased : ∀ k < 76, s'.disk (s.slotAddr n + k) = 0
  others : ∀ i, s.InTree i → i ≠ d → i ≠ n → Spared s s' i ∧ s'.content i = s.content i ∧ s'.entries i = s.entries i

/-- `sys_unlink` does what is asked of it: a closed file the path names is removed; in every other
    case the call fails and everything is as it was, but for the addresses the heap has handed out. -/
def UnlinksExactly (s : Fs) (path : CStr) : Prop :=
  ∃ r s', Returns (sysUnlink path) s r s' ∧
    (∀ n, s.NamesClosed path n → r = 0 ∧ Removed s s' (s.walkPath path).above n) ∧
    ((∀ n, ¬ s.NamesClosed path n) → r = -1 ∧ Restored s s')

/-- The search has come to something the rest of the call can deal with after `k` requests: nothing,
    a directory other than the root, an open file; a closed file, with memory to remove it, a
    directory without an index table and with a slot of its own to be synchronised to, and no block
    in the last place of the file's list; or a file in the middle of the path, and no memory. -/
def Fs.UnlinkFits (s : Fs) (w : Arrival Nat CStr) (k : Nat) : Prop :=
  match w.found with
  | none => True
  | some (.dir n) => n ≠ 0
  | some (.file n) => s.IsOpenFile n ∨
      w.rest = [] ∧ s.Grants k (s.openRequests n + 2) ∧ (s.content w.above).sector 12 = 0 ∧ w.above < 256 ∧
        (s.content n).blockAddr s.disk 139 = 0 ∨
      w.rest ≠ [] ∧ s.heap.full (s.heap.next + k) = true

/-! ## The entry to be removed -/

/-- In `t`, where only the handle `p` on directory `d` is new, the entry `e` for file `n` is about
    to be removed. -/
structure Unlinking (s t : Fs) (p : DirPtr) (d a n : Nat) (v : Inode) (e : DirEntry) : Prop where
  store : s.StoreOk
  same : SameStore s t
  cache : t.CacheOk
  on : OnDir s t p d a v
  dir : s.IsDir d
  mem : e ∈ s.entries d
  file : e.fType = ftRegular
  number : e.iNo = n

namespace Unlinking

variable {s t : Fs} {p : DirPtr} {d a n i k j lba : Nat} {v w : Inode} {e : DirEntry}

theorem isFile (h : Unlinking s t p d a n v e) : s.IsFile n := ⟨d, h.dir, e, h.mem, h.file, h.number⟩

theorem ne (h : Unlinking s t p d a n v e) : n ≠ d := by
  rintro rfl
  exact h.store.notDir n h.isFile h.dir

theorem iNo (h : Unlinking s t p d a n v e) : v.iNo = d := by
  have hown := h.store.own d (Or.inl h.dir)
  rwa [← h.on.content] at hown

theorem layout (h : Unlinking s t p d a n v e) : t.Layout := h.store.layout.same h.same

theorem table (h : Unlinking s t p d a n v e) : t.TableFits := by
  refine ⟨?_, ?_⟩
  · rw [h.same.part]
    exact h.store.table.onDisk
  · rw [h.same.part]
    exact h.store.table.inPart

theorem blockAddr (h : Unlinking s t p d a n v e) : v.blockAddr t.disk = (s.content d).blockAddr s.disk := by
  rw [← h.on.content, h.same.disk]
  rfl

theorem entries (h : Unlinking s t p d a n v e) : dirEntries t.disk v = s.entries d := by
  rw [Fs.entries, ← h.on.content, h.same.disk]
  rfl

theorem inUse_iff (h : Unlinking s t p d a n v e) : t.InUse lba ↔ s.InUse lba := by
  unfold Fs.InUse
  rw [h.same.blockBitmap, h.same.part]

/-- The directory is well formed where it stands. -/
theorem dirOk (h : Unlinking s t p d a n v e) : t.DirOk v := by
  have hd := h.store.dirOk d h.dir
  have hdisk := h.same.disk
  rw [← h.on.content] at hd
  refine ⟨⟨⟨?_, ?_, ?_, ?_⟩, ?_, ?_⟩, ?_⟩
  · intro k hk hne
    rw [h.inUse_iff]
    rw [hdisk] at hne ⊢
    exact hd.inUse k hk hne
  · intro h12
    rw [h.inUse_iff]
    exact hd.table h12
  · rw [hdisk]
    exact hd.inj
  · rw [hdisk]
    exact hd.tableNe
  · rw [hdisk]
    exact hd.slots
  · rw [hdisk]
    exact hd.names
  · rw [hdisk]
    exact hd.size

theorem dotsFirst (h : Unlinking s t p d a n v e) : t.DotsFirst v := by
  have hd := h.store.dotsFirst d h.dir
  rw [← h.on.content] at hd
  refine ⟨hd.block, ?_, ?_, ?_⟩
  · rw [h.same.disk]
    exact hd.full
  · rw [h.same.disk]
    exact hd.dot
  · rw [h.same.disk]
    exact hd.dotDot

/-- The entry is the one with the number of the file. -/
theorem names_iff (h : Unlinking s t p d a n v e) {e' : DirEntry} (he' : e' ∈ s.entries d) : e'.Names n ↔ e' = e := by
  have hnode := h.store.node d h.dir
  constructor
  · rintro ⟨hno, -, -⟩
    rcases hnode.types e' he' with hty | hty
    · -- a directory is no file
      have hdir := h.dir.child he' hty
      rw [hno] at hdir
      exact absurd hdir (h.store.notDir n h.isFile)
    · exact (h.store.once d d e' e h.dir h.dir he' h.mem hty h.file (hno.trans h.number.symm)).2
  · rintro rfl
    have hchild := hnode.names_eq h.mem
    rw [DirEntry.child_file h.file] at hchild
    refine ⟨h.number, fun hdot => ?_, fun hdot => ?_⟩
    · rw [hdot, h.store.self d h.dir] at hchild
      cases hchild
    · obtain ⟨j, hup⟩ := h.store.up d h.dir
      rw [hdot, hup] at hchild
      cases hchild

/-- `delete_dir_entry` in a directory without an index table clears the slot of the entry. -/
theorem deletes (h : Unlinking s t p d a n v e) (h12 : v.sector 12 = 0) :
    ∃ k < 12, v.sector k ≠ 0 ∧ ∃ j < 21, DirEntry.fTypeAt (sectorAt t.disk (v.sector k)) j ≠ ftUnkown ∧
      DirEntry.decode (sectorAt t.disk (v.sector k)) j = e ∧
      Returns (deleteDirEntry p n) t true (t.clearEntry a v (v.sector k) j) := by
  rcases deleteDirEntry_clearEntry h.layout h.table h.on.handle h.on.inode h.dirOk h.dotsFirst h12 with
    ⟨k, hk, hne, j, hj, hfull, hnames, hrun⟩ | ⟨hnone, -⟩
  · have hmem : DirEntry.decode (sectorAt t.disk (v.sector k)) j ∈ s.entries d := by
      rw [← h.entries]
      exact (mem_dirEntries_direct h12).mpr ⟨k, hk, hne, j, hj, hfull, rfl⟩
    exact ⟨k, hk, hne, j, hj, hfull, (h.names_iff hmem).mp hnames, hrun⟩
  · exact absurd ((h.names_iff h.mem).mpr rfl) (hnone e (by rw [h.entries]; exact h.mem))

/-! ## The entry is gone -/

/-- A block of the directory lies behind the inode table. -/
theorem owns (h : Unlinking s t p d a n v e) (hk : k < 12) (hne : v.sector k ≠ 0) : s.Owns d (v.sector k) := by
  refine ⟨hne, Or.inr ⟨k, by omega, ?_⟩⟩
  rw [← h.blockAddr, Inode.blockAddr_direct hk]

theorem wordSized (h : Unlinking s t p d a n v e) : v.shrink.pureInode.WordSized := by
  have hslot := s.slot_wordSized d
  rw [← (h.store.coherent d).content, ← h.on.content] at hslot
  exact ⟨hslot.iNo, Nat.lt_of_le_of_lt (Nat.sub_le _ _) hslot.iSize, hslot.iOpenCnt, hslot.iSectors⟩

/-- Behind the inode table only the block of the entry is written. -/
theorem sectorAt_cleared (h : Unlinking s t p d a n v e) {lba' : Nat} (hdata : s.part.sb.dataStartLba ≤ lba')
    (hne : lba' ≠ lba) : sectorAt (t.clearEntry a v lba j).disk lba' = sectorAt s.disk lba' := by
  have hdata' : t.part.sb.dataStartLba ≤ lba' := by rwa [h.same.part]
  have hno : v.iNo % 256 < 4096 := by omega
  show sectorAt (Bytes.splice _ (t.slotAddr (v.iNo % 256)) 76 _) lba' = _
  rw [h.layout.sectorAt_slot hno hdata', sectorAt_writeSector_ne hne, h.same.disk]

/-- In the inode table only the slot the directory is synchronised to is written. -/
theorem slot_cleared_ne (h : Unlinking s t p d a n v e) (hdata : s.part.sb.dataStartLba ≤ lba) (hi : i < 4096)
    (hne : i ≠ d % 256) : (t.clearEntry a v lba j).slot i = s.slot i := by
  have htable := h.store.layout.inodeTable
  have hno : v.iNo % 256 ≠ i := by
    rw [h.iNo]
    exact hne.symm
  refine slot_congr (s := s) (t := t.clearEntry a v lba j) (i := i) h.same.part fun k hk => ?_
  have haddr : t.slotAddr (v.iNo % 256) = s.slotAddr (v.iNo % 256) := by rw [Fs.slotAddr, Fs.slotAddr, h.same.part]
  show Bytes.splice _ (t.slotAddr (v.iNo % 256)) 76 _ (s.slotAddr i + k) = _
  rw [haddr]
  unfold Fs.slotAddr
  rw [Bytes.splice_outside (by omega), writeSector, Bytes.splice_outside (by omega), h.same.disk]

theorem slot_cleared_self (h : Unlinking s t p d a n v e) :
    (t.clearEntry a v lba j).slot (d % 256) = v.shrink.pureInode := by
  rw [← h.iNo]
  exact Fs.slot_splice_self (s := { t with
    inodes := Function.update t.inodes a (some v.shrink)
    disk := writeSector t.disk lba ((sectorAt t.disk lba).splice (24 * j) 24 Bytes.zero) }) h.wordSized

/-- The inodes of other numbers are where they were. -/
theorem inodes_cleared (h : Unlinking s t p d a n v e) {b : Nat} (hw : w.iNo ≠ d) :
    (t.clearEntry a v lba j).inodes b = some w ↔ s.inodes b = some w := by
  rw [← h.on.others_iff h.iNo hw]
  by_cases hb : b = a
  · subst hb
    have hself : (t.clearEntry b v lba j).inodes b = some v.shrink := Function.update_self _ _ _
    rw [hself, h.on.inode]
    constructor
    · intro hin
      obtain rfl := Option.some.inj hin
      exact absurd h.iNo hw
    · intro hin
      obtain rfl := Option.some.inj hin
      exact absurd h.iNo hw
  · have hother : (t.clearEntry a v lba j).inodes b = t.inodes b := Function.update_of_ne hb _ _
    rw [hother]

theorem cacheOk_cleared (h : Unlinking s t p d a n v e) : (t.clearEntry a v lba j).CacheOk := by
  have hpos := h.cache.pos a v h.on.inode
  have hstep : RefsBy t (t.setInode a v.shrink) _ := .setInode h.cache h.on.inode rfl hpos
  have hset := hstep.ok
  exact ⟨hset.nodup, hset.mem, hset.pos, hset.inode_lt, hset.dir_lt⟩

/-- The file is opened as it would have been before. -/
theorem openRequests_cleared (h : Unlinking s t p d a n v e) :
    (t.clearEntry a v lba j).openRequests n = s.openRequests n := by
  apply openRequests_congr h.store.cache h.cacheOk_cleared
  refine exists_congr fun b => exists_congr fun w => and_congr_left fun hw => ?_
  apply h.inodes_cleared
  rw [hw]
  exact h.ne

/-- The blocks of the other inodes are not written. -/
theorem sectorAt_owned (h : Unlinking s t p d a n v e) (hk : k < 12) (hne : v.sector k ≠ 0) (hi : s.InTree i)
    (hid : i ≠ d) {lba' : Nat} (hown : s.Owns i lba') :
    sectorAt (t.clearEntry a v (v.sector k) j).disk lba' = sectorAt s.disk lba' := by
  apply h.sectorAt_cleared (h.store.inUse hi hown).ge
  rintro rfl
  exact hid (h.store.apart i d _ hi (Or.inl h.dir) hown (h.owns hk hne))

theorem blockAddr_owned (h : Unlinking s t p d a n v e) (hk : k < 12) (hne : v.sector k ≠ 0) (hi : s.InTree i)
    (hid : i ≠ d) : (s.content i).blockAddr (t.clearEntry a v (v.sector k) j).disk = (s.content i).blockAddr s.disk :=
  (dirEntries_frame (fun h12 => h.sectorAt_owned hk hne hi hid ⟨h12, Or.inl rfl⟩)
    fun m hm hne' => h.sectorAt_owned hk hne hi hid ⟨hne', Or.inr ⟨m, hm, rfl⟩⟩).1

/-- The file is found as it was, unless it has to be read from the slot the directory was
    synchronised to. -/
theorem opens_cleared (h : Unlinking s t p d a n v e) (hdata : s.part.sb.dataStartLba ≤ lba)
    (hn : n ≠ d % 256 ∨ s.cached n ≠ none) :
    ∃ w, (t.clearEntry a v lba j).Opens n w ∧ w.pureInode = s.content n := by
  obtain ⟨w, hopens, hcontent⟩ := (t.clearEntry a v lba j).opens_content n
  refine ⟨w, hopens, ?_⟩
  rcases hopens with ⟨b, hcached, hw⟩ | ⟨hnone, rfl⟩
  · -- the cached inode was there before, as it is in the table
    obtain ⟨-, w', hw', hno⟩ := Fs.cached_some hcached
    obtain rfl : w = w' := Option.some.inj (hw.symm.trans hw')
    have hwas := (h.inodes_cleared (by rw [hno]; exact h.ne)).mp hw
    rw [h.store.coherent n b w hwas hno, (h.store.coherent n).content]
  · have hcold : s.cached n = none := by
      by_contra hsome
      obtain ⟨b, hb⟩ := Option.ne_none_iff_exists'.mp hsome
      obtain ⟨-, w', hw', hno⟩ := Fs.cached_some hb
      have hin := (@inodes_cleared _ _ _ _ _ _ j lba _ _ _ h _ (by rw [hno]; exact h.ne)).mpr hw'
      have hmem := (h.cacheOk_cleared (j := j)).mem b |>.mpr (by rw [hin]; simp)
      exact Fs.cached_none hnone hmem hin hno
    have hfile := (h.store.inMap n (Or.inr h.isFile)).1
    rw [h.slot_cleared_ne hdata hfile (hn.resolve_right fun hsome => hsome hcold), (h.store.coherent n).content]

/-- The file's inode can be released. -/
theorem releaseOk (h : Unlinking s t p d a n v e) (hk : k < 12) (hne : v.sector k ≠ 0)
    (hn : n ≠ d % 256 ∨ s.cached n ≠ none) :
    ∃ w, (t.clearEntry a v (v.sector k) j).ReleaseOk n w ∧ w.sector = (s.content n).sector ∧
      w.blockAddr (t.clearEntry a v (v.sector k) j).disk = (s.content n).blockAddr s.disk := by
  have hfile : s.InTree n := Or.inr h.isFile
  have hdata := (h.store.inUse (Or.inl h.dir) (h.owns hk hne)).ge
  obtain ⟨w, hopens, hcontent⟩ := h.opens_cleared (j := j) hdata hn
  have hsec : w.sector = (s.content n).sector := by
    rw [← hcontent]
    rfl
  have haddr : w.blockAddr (t.clearEntry a v (v.sector k) j).disk = (s.content n).blockAddr s.disk := by
    rw [← h.blockAddr_owned (j := j) hk hne hfile h.ne, ← hcontent]
    rfl
  have hok := h.store.blocks n hfile
  have hl := h.layout
  have htable := h.store.layout.inodeTable
  refine ⟨w, ⟨h.cacheOk_cleared, ⟨hl.entrySize, hl.blockBitmap, hl.inodeBitmap, hl.inodeTable, hl.nonempty⟩,
    ⟨h.table.onDisk, h.table.inPart⟩, (h.store.inMap n hfile).1, ?_, hopens, ?_, ⟨?_, ?_, ?_, ?_⟩, ?_, ?_⟩, hsec, haddr⟩
  · show n < t.inodeMap.size
    rw [h.same.inodeMap]
    exact (h.store.inMap n hfile).2
  · have hown := h.store.own n hfile
    rwa [← hcontent] at hown
  · intro m hm hne'
    rw [haddr] at hne' ⊢
    exact h.inUse_iff.mpr (hok.inUse m hm hne')
  · intro h12
    rw [hsec] at h12 ⊢
    exact h.inUse_iff.mpr (hok.table h12)
  · rw [haddr]
    exact hok.inj
  · rw [haddr, hsec]
    exact hok.tableNe
  · intro m hm heq
    have hpart : (t.clearEntry a v (v.sector k) j).part = s.part := h.same.part
    rw [haddr, hpart] at heq
    have hzero : (s.content n).blockAddr s.disk m ≠ 0 := by omega
    exact h.store.not_first hfile (h.isFile.ne_zero h.store) ⟨hzero, Or.inr ⟨m, hm, rfl⟩⟩ heq
  · intro heq
    have hpart : (t.clearEntry a v (v.sector k) j).part = s.part := h.same.part
    rw [hsec, hpart] at heq
    have hzero : (s.content n).sector 12 ≠ 0 := by omega
    exact h.store.not_first hfile (h.isFile.ne_zero h.store) ⟨hzero, Or.inl rfl⟩ heq

/-! ## What is left -/

/-- Behind the release the buffer is freed and the handle on the directory closed. -/
theorem finish {u : Fs} (h : Unlinking s t p d a n v e) (hok : (t.clearEntry a v lba j).ReleaseOk n w)
    (hrel : Returns (inodeRelease n) (t.clearEntry a v lba j) () u) (b : Nat) :
    ∃ s', Returns (do sysFree (some b); dirClose p; return (0 : Int)) u 0 s' ∧ SameStore u s' ∧
      u.part = s.part ∧ (∀ c x, x.iNo ≠ d → x.iNo ≠ n → s'.inodes c = some x → s.inodes c = some x) ∧
      ∀ c x, x.iNo = d → s'.inodes c = some x → x.pureInode = v.shrink.pureInode := by
  obtain ⟨hothers, hdirs, hroot, hpart⟩ := inodeRelease_others hok hrel
  obtain ⟨u₁, hfree⟩ := sysFree_returns u b
  have hfreed := (returns_sysFree hfree).1
  have hself : (t.clearEntry a v lba j).inodes a = some v.shrink := Function.update_self _ _ _
  have hdn : v.shrink.iNo ≠ n := fun heq => h.ne (heq.symm.trans h.iNo)
  have ha : u₁.handle p = some a := by
    have hhandle := h.on.handle
    rw [hfreed]
    cases p with
    | root =>
      show some u.rootDir.inode = _
      rw [hroot]
      exact hhandle
    | heap q =>
      show (u.dirs q).map Dir.inode = _
      rw [hdirs]
      exact hhandle
  have hin : u₁.inodes a = some v.shrink := by
    rw [hfreed]
    exact (hothers a v.shrink hdn).mpr hself
  obtain ⟨s', hclose, hst, hother, hat⟩ := dirClose_runs ha hin
  refine ⟨s', ?_, ?_, hpart.trans h.same.part, ?_, ?_⟩
  · rw [returns_bind_iff hfree, returns_bind_iff hclose]
    exact returns_pure.mpr ⟨rfl, rfl⟩
  · refine ⟨?_, ?_, ?_, ?_⟩
    · rw [hst.part, hfreed]
    · rw [hst.disk, hfreed]
    · rw [hst.blockBitmap, hfreed]
    · rw [hst.inodeMap, hfreed]
  · intro c x hxd hxn hx
    by_cases hc : c = a
    · subst hc
      rcases hat with hnone | ⟨m, hsome⟩
      · rw [hnone] at hx
        cases hx
      · rw [hsome] at hx
        obtain rfl := Option.some.inj hx
        exact absurd h.iNo hxd
    · rw [hother c hc, hfreed] at hx
      exact (h.inodes_cleared hxd).mp ((hothers c x hxn).mp hx)
  · intro c x hxd hx
    by_cases hc : c = a
    · subst hc
      rcases hat with hnone | ⟨m, hsome⟩
      · rw [hnone] at hx
        cases hx
      · rw [hsome] at hx
        obtain rfl := Option.some.inj hx
        rfl
    · -- no other address holds the inode of the directory
      rw [hother c hc, hfreed] at hx
      have hxn : x.iNo ≠ n := by
        rw [hxd]
        exact h.ne.symm
      have hx' := (hothers c x hxn).mp hx
      have hother' : (t.clearEntry a v lba j).inodes c = t.inodes c := Function.update_of_ne hc _ _
      rw [hother'] at hx'
      exact absurd (h.on.sole h.store hx' hxd) hc

/-- Behind the release the other slots are as they were, but for the one the directory was
    synchronised to. -/
theorem slot_left {s' u : Fs} {I : Nat → Prop} (h : Unlinking s t p d a n v e)
    (hdata : s.part.sb.dataStartLba ≤ lba) (hrel : Releases (t.clearEntry a v lba j) u n I) (hpart : u.part = s.part)
    (hst : SameStore u s') (hi : i < 4096) (hin : i ≠ n) (hid : i ≠ d % 256) : s'.slot i = s.slot i := by
  have hsame : s'.slot i = u.slot i := slot_congr hst.part fun k hk => by rw [hst.disk]
  have hcleared : (t.clearEntry a v lba j).part = s.part := h.same.part
  rw [hsame, hrel.slot_ne (hpart.trans hcleared.symm) hin, h.slot_cleared_ne hdata hi hid]

/-- And so is what another inode of the tree owns. -/
theorem data_left {s' u : Fs} {I : Nat → Prop} (h : Unlinking s t p d a n v e) (hk : k < 12) (hne : v.sector k ≠ 0)
    (hrel : Releases (t.clearEntry a v (v.sector k) j) u n I) (hst : SameStore u s') (hi : s.InTree i) (hid : i ≠ d)
    {lba' : Nat} (hown : s.Owns i lba') : sectorAt s'.disk lba' = sectorAt s.disk lba' := by
  have hl : (t.clearEntry a v (v.sector k) j).Layout := by
    have hl := h.layout
    exact ⟨hl.entrySize, hl.blockBitmap, hl.inodeBitmap, hl.inodeTable, hl.nonempty⟩
  have hdata : (t.clearEntry a v (v.sector k) j).part.sb.dataStartLba ≤ lba' := by
    show t.part.sb.dataStartLba ≤ _
    rw [h.same.part]
    exact (h.store.inUse hi hown).ge
  rw [hst.disk, hrel.sectorAt_data hl (h.store.inMap n (Or.inr h.isFile)).1 hdata,
    h.sectorAt_owned hk hne hi hid hown]

/-- The file is gone, with its entry, where the directory has a slot of its own to be synchronised to
    and the file no block in the last place of the list. -/
theorem removed {s' u : Fs} (h : Unlinking s t p d a n v e) (hk : k < 12) (hne : v.sector k ≠ 0) (hj : j < 21)
    (hfull : DirEntry.fTypeAt (sectorAt t.disk (v.sector k)) j ≠ ftUnkown)
    (he : DirEntry.decode (sectorAt t.disk (v.sector k)) j = e) (hd : d < 256)
    (hsec : w.sector = (s.content n).sector)
    (haddr : w.blockAddr (t.clearEntry a v (v.sector k) j).disk = (s.content n).blockAddr s.disk)
    (hlast : (s.content n).blockAddr s.disk 139 = 0)
    (hrel : Releases (t.clearEntry a v (v.sector k) j) u n ((t.clearEntry a v (v.sector k) j).BlockBelow w 139))
    (hpart : u.part = s.part) (hst : SameStore u s')
    (hothers : ∀ c x, x.iNo ≠ d → x.iNo ≠ n → s'.inodes c = some x → s.inodes c = some x)
    (hself : ∀ c x, x.iNo = d → s'.inodes c = some x → x.pureInode = v.shrink.pureInode) : Removed s s' d n := by
  have hmod : d % 256 = d := Nat.mod_eq_of_lt hd
  have hdata := (h.store.inUse (Or.inl h.dir) (h.owns hk hne)).ge
  have hcleared : (t.clearEntry a v (v.sector k) j).part = s.part := h.same.part
  have hshrink : v.shrink.pureInode = (s.content d).shrink := by
    rw [← h.on.content]
    rfl
  -- the slot of the directory has been written
  have hslot : (s'.slot d).pureInode = (s.content d).shrink := by
    have hsame : s'.slot d = u.slot d := slot_congr hst.part fun k hk => by rw [hst.disk]
    have hwritten := @slot_cleared_self _ _ _ _ _ _ j (v.sector k) _ _ h
    rw [hmod] at hwritten
    rw [hsame, hrel.slot_ne (hpart.trans hcleared.symm) h.ne.symm, hwritten, ← hshrink]
    rfl
  have hcohd : s'.Coherent d := by
    intro c x hx hno
    rw [hself c x hno hx, hshrink, hslot]
  have hcontent : s'.content d = (s.content d).shrink := by rw [hcohd.content, hslot]
  refine ⟨hst.part.trans hpart, ⟨e, h.file, h.number, ?_⟩, hcontent, hslot, fun i => ?_, fun b => ?_, fun m hm => ?_,
    fun i hi hid hin => ?_⟩
  · -- the release does not write the blocks of the directory
    obtain ⟨hok', hentries⟩ := clearEntry_entries (a := a) h.layout h.dirOk.toEntriesOk hk hne hj hfull
    have hl : (t.clearEntry a v (v.sector k) j).Layout := by
      have hl := h.layout
      exact ⟨hl.entrySize, hl.blockBitmap, hl.inodeBitmap, hl.inodeTable, hl.nonempty⟩
    have hfile := (h.store.inMap n (Or.inr h.isFile)).1
    have hframe : dirEntries s'.disk v.shrink = dirEntries (t.clearEntry a v (v.sector k) j).disk v.shrink := by
      rw [hst.disk]
      exact (dirEntries_frame (fun h12 => hrel.sectorAt_data hl hfile (hok'.table h12).ge)
        fun m hm hne' => hrel.sectorAt_data hl hfile (hok'.inUse m hm hne').ge).2
    rw [he, h.entries] at hentries
    rw [hentries, Fs.entries, hcontent, ← hshrink]
    exact congrArg _ hframe.symm
  · rw [hst.inodeMap, hrel.inodes]
    show t.inodeMap.bit i = true ∧ _ ↔ _
    rw [h.same.inodeMap]
  · rw [← blockBelow_iff hlast, hst.blockBitmap, hrel.blocks]
    show t.blockBitmap.bit b = true ∧ _ ↔ _
    rw [h.same.blockBitmap, Fs.BlockBelow, Fs.BlockBelow, haddr, hsec, hcleared]
  · have hslotAddr : (t.clearEntry a v (v.sector k) j).slotAddr n = s.slotAddr n := by
      rw [Fs.slotAddr, Fs.slotAddr, hcleared]
    have hzero := hrel.slot m hm
    rwa [hslotAddr, ← hst.disk] at hzero
  · have hlt := (h.store.inMap i hi).1
    have hkept : s'.slot i = s.slot i := h.slot_left hdata hrel hpart hst hlt hin (by rwa [hmod])
    have hspared : Spared s s' i := ⟨hkept, fun lba' hown => h.data_left hk hne hrel hst hi hid hown⟩
    have hcoh : s'.Coherent i := by
      intro c x hx hno
      rw [hkept]
      exact h.store.coherent i c x (hothers c x (hno ▸ hid) (hno ▸ hin) hx) hno
    exact ⟨hspared, hspared.content (h.store.coherent i) hcoh, (hspared.frame (h.store.coherent i) hcoh).2⟩

/-- The file's number in the slot of the directory is not the file's. -/
theorem number_ne {u : Fs} {x : Unit} (h : Unlinking s t p d a n v e)
    (hrun : Returns (inodeRelease n) (t.clearEntry a v lba j) x u) : n ≠ d % 256 ∨ s.cached n ≠ none := by
  by_contra hnot
  rw [not_or, not_not, not_not] at hnot
  obtain ⟨hmod, hcold⟩ := hnot
  -- the inode would be opened from that slot
  have hcold' : (t.clearEntry a v lba j).cached n = none := by
    by_contra hsome
    obtain ⟨b, hb⟩ := Option.ne_none_iff_exists'.mp hsome
    obtain ⟨-, w', hw', hno⟩ := Fs.cached_some hb
    have hwas := (h.inodes_cleared (by rw [hno]; exact h.ne)).mp hw'
    have hmem := (h.store.cache.mem b).mpr (by rw [hwas]; simp)
    exact Fs.cached_none hcold hmem hwas hno
  obtain ⟨b, u₁, hopen, hrest⟩ := returns_bind.mp hrun
  obtain ⟨⟨c, hc⟩, -⟩ := inodeOpen_same (Or.inr ⟨hcold', rfl⟩) hopen
  rw [returns_bind_iff (returns_getInode.mpr ⟨hc, rfl⟩)] at hrest
  simp only [returns_bind (x := assert _), returns_assert] at hrest
  obtain ⟨-, -, ⟨hno, -⟩, -⟩ := hrest
  have hslot := @slot_cleared_self _ _ _ _ _ _ j lba _ _ h
  rw [← hmod] at hslot
  rw [hslot] at hno
  exact h.ne (hno.symm.trans h.iNo)

end Unlinking

/-- The call has removed file `n`, the entry `e` of which was slot `j` of block `c`: in `u` the inode has been
    released, and `s'` is what is left in the end. -/
structure UnlinkRun (s t u s' : Fs) (p : DirPtr) (d a n c j : Nat) (v w : Inode) (e : DirEntry) : Prop where
  unlinking : Unlinking s t p d a n v e
  table : v.sector 12 = 0
  place : c < 12 ∧ j < 21
  block : v.sector c ≠ 0
  full : DirEntry.fTypeAt (sectorAt t.disk (v.sector c)) j ≠ ftUnkown
  entry : DirEntry.decode (sectorAt t.disk (v.sector c)) j = e
  sector : w.sector = (s.content n).sector
  blockAddr : w.blockAddr (t.clearEntry a v (v.sector c) j).disk = (s.content n).blockAddr s.disk
  released : Releases (t.clearEntry a v (v.sector c) j) u n ((t.clearEntry a v (v.sector c) j).BlockBelow w 139)
  part : u.part = s.part
  final : SameStore u s'
  others : ∀ b x, x.iNo ≠ d → x.iNo ≠ n → s'.inodes b = some x → s.inodes b = some x
  self : ∀ b x, x.iNo = d → s'.inodes b = some x → x.pureInode = v.shrink.pureInode

/-! ## sys_unlink -/

/-- The end of `sys_unlink`, for an inode that is no directory. -/
def unlinkFile (parentDir : DirPtr) (iNo : Nat) : FsM Int := do
  let fd ← findOpenFile iNo maxFilesOpen 0
  if fd ≠ none then
    dirClose parentDir
    return -1
  let ioBuf ← sysMalloc
  if ioBuf = none then
    dirClose parentDir
    return -1
  let _ ← deleteDirEntry parentDir iNo
  inodeRelease iNo
  sysFree ioBuf
  dirClose parentDir
  return 0

section Unlink

variable {s s' s₁ t : Fs} {path : CStr} {p : DirPtr} {n d k a : Nat} {v : Inode} {e : DirEntry} {r : Int}
  {out : Option Nat × PathSearchRecord}

/-- Behind the search. -/
theorem returns_sysUnlink (hlen : path.length < 512) (hsearch : Returns (searchFile path) s out s₁) :
    Returns (sysUnlink path) s r s' ↔ out.1 ≠ some 0 ∧ Returns (match out.1 with
      | none => do
        dirClose out.2.parentDir
        return -1
      | some iNo =>
        if out.2.fType = ftDir then do
          dirClose out.2.parentDir
          return -1
        else
          unlinkFile out.2.parentDir iNo) s₁ r s' := by
  have hassert : Returns (assert (path.length < 512)) s () s := (returns_assert _ _).mpr ⟨hlen, rfl⟩
  rw [sysUnlink, returns_bind_iff hassert, returns_bind_iff hsearch]
  simp only [returns_bind (x := assert _), returns_assert]
  constructor
  · rintro ⟨_, _, ⟨hne, rfl⟩, hrun⟩
    exact ⟨hne, hrun⟩
  · rintro ⟨hne, hrun⟩
    exact ⟨(), s₁, ⟨hne, rfl⟩, hrun⟩

/-- The slot loop finds the file where it is open. -/
theorem findOpenFile_runs (m g : Nat) (hg : g + m ≤ 32)
    (hslots : ∀ f < 32, ∀ a, (s.fileTable f).fdInode = some a → s.rings a ≠ none ∨ s.inodes a ≠ none) :
    ∃ r, Returns (findOpenFile n m g) s r s ∧ (r ≠ none ↔ ∃ f, g ≤ f ∧ f < g + m ∧ ∃ a v,
      (s.fileTable f).fdInode = some a ∧ s.rings a = none ∧ s.inodes a = some v ∧ v.iNo = n) := by
  induction m generalizing g with
  | zero =>
    refine ⟨none, returns_pure.mpr ⟨rfl, rfl⟩, fun h => absurd rfl h, ?_⟩
    rintro ⟨f, hgf, hfg, -⟩
    omega
  | succ m ih =>
    obtain ⟨r, hrun, hr⟩ := ih (g + 1) (by omega)
    -- a slot that does not count is passed over
    have hpass (hnot : ¬ ∃ a v, (s.fileTable g).fdInode = some a ∧ s.rings a = none ∧ s.inodes a = some v ∧
        v.iNo = n) : r ≠ none ↔ ∃ f, g ≤ f ∧ f < g + (m + 1) ∧ ∃ a v,
          (s.fileTable f).fdInode = some a ∧ s.rings a = none ∧ s.inodes a = some v ∧ v.iNo = n := by
      rw [hr]
      constructor
      · rintro ⟨f, hgf, hfg, hopen⟩
        exact ⟨f, by omega, by omega, hopen⟩
      · rintro ⟨f, hgf, hfg, hopen⟩
        have hne : f ≠ g := by
          rintro rfl
          exact hnot hopen
        exact ⟨f, by omega, by omega, hopen⟩
    simp only [findOpenFile, returns_bind (x := query _), returns_query]
    cases hin : (s.fileTable g).fdInode with
    | none =>
      refine ⟨r, ⟨s, s, ⟨rfl, rfl⟩, ?_⟩, hpass ?_⟩
      · simp only [hin]
        exact hrun
      · rintro ⟨a, v, ha, -⟩
        rw [hin] at ha
        cases ha
    | some a =>
      by_cases hring : s.rings a = none
      · obtain ⟨v, hv⟩ := Option.ne_none_iff_exists'.mp ((hslots g (by omega) a hin).resolve_left (absurd hring))
        by_cases hno : n = v.iNo
        · refine ⟨some g, ⟨s, s, ⟨rfl, rfl⟩, ?_⟩, fun _ => ⟨g, le_rfl, by omega, a, v, hin, hring, hv, hno.symm⟩,
            fun _ => by simp⟩
          simp only [hin]
          rw [if_neg (by simp [hring]), returns_bind_iff (returns_getInode.mpr ⟨hv, rfl⟩), if_pos hno]
          exact returns_pure.mpr ⟨rfl, rfl⟩
        · refine ⟨r, ⟨s, s, ⟨rfl, rfl⟩, ?_⟩, hpass ?_⟩
          · simp only [hin]
            rw [if_neg (by simp [hring]), returns_bind_iff (returns_getInode.mpr ⟨hv, rfl⟩), if_neg hno]
            exact hrun
          · rintro ⟨b, w, hb, -, hw, hwno⟩
            obtain rfl := Option.some.inj (hin.symm.trans hb)
            obtain rfl := Option.some.inj (hv.symm.trans hw)
            exact hno hwno.symm
      · refine ⟨r, ⟨s, s, ⟨rfl, rfl⟩, ?_⟩, hpass ?_⟩
        · simp only [hin]
          rw [if_pos (Option.isSome_iff_ne_none.mpr hring)]
          exact hrun
        · rintro ⟨b, w, hb, hnone, -⟩
          obtain rfl := Option.some.inj (hin.symm.trans hb)
          exact hring hnone

/-- The file `n` has been found in directory `d`, on which the handle `p` is open. -/
structure UnlinkFound (s s₁ : Fs) (p : DirPtr) (d n k : Nat) (e : DirEntry) : Prop where
  store : s.StoreOk
  stands : Stands s s₁ p d k
  outer : Outer s s₁
  cache : s₁.CacheOk
  dir : s.IsDir d
  mem : e ∈ s.entries d
  file : e.fType = ftRegular
  number : e.iNo = n

namespace UnlinkFound

theorem ne (h : UnlinkFound s s₁ p d n k e) : n ≠ d := by
  rintro rfl
  exact h.store.notDir n ⟨n, h.dir, e, h.mem, h.file, h.number⟩ h.dir

/-- The slot loop of the call. -/
theorem search (h : UnlinkFound s s₁ p d n k e) :
    ∃ r, Returns (findOpenFile n maxFilesOpen 0) s₁ r s₁ ∧ (r ≠ none ↔ s.IsOpenFile n) := by
  obtain ⟨a, v, hon⟩ := h.stands.dirOn
  have hv : v.iNo = d := by
    have hown := h.store.own d (Or.inl h.dir)
    rwa [← hon.content] at hown
  have hslots : ∀ f < 32, ∀ b, (s₁.fileTable f).fdInode = some b → s₁.rings b ≠ none ∨ s₁.inodes b ≠ none := by
    intro f hf b hb
    rw [h.outer.fileTable] at hb
    rw [h.outer.rings]
    by_cases hba : b = a
    · rw [hba, hon.inode]
      exact Or.inr (by simp)
    · rw [hon.others b hba]
      exact h.store.slots f hf b hb
  obtain ⟨r, hrun, hr⟩ := findOpenFile_runs (n := n) 32 0 le_rfl hslots
  refine ⟨r, hrun, hr.trans ?_⟩
  unfold Fs.IsOpenFile
  refine exists_congr fun f => ?_
  rw [h.outer.fileTable, h.outer.rings, Nat.zero_add]
  constructor
  · rintro ⟨-, hf, b, w, hb, hring, hw, hno⟩
    exact ⟨hf, b, w, hb, hring, (hon.others_iff hv (by rw [hno]; exact h.ne)).mp hw, hno⟩
  · rintro ⟨hf, b, w, hb, hring, hw, hno⟩
    exact ⟨Nat.zero_le _, hf, b, w, hb, hring, (hon.others_iff hv (by rw [hno]; exact h.ne)).mpr hw, hno⟩

/-- An open file stays. -/
theorem stays (h : UnlinkFound s s₁ p d n k e) (hopen : s.IsOpenFile n) :
    ∃ s', Returns (unlinkFile p n) s₁ (-1) s' ∧ Restored s s' := by
  obtain ⟨r, hrun, hr⟩ := h.search
  obtain ⟨s', hclose, hrest⟩ := h.stands.closes (-1 : Int)
  refine ⟨s', ?_, hrest⟩
  rw [unlinkFile, returns_bind_iff hrun, if_pos (hr.mpr hopen)]
  exact hclose

/-- Without a buffer nothing is removed. -/
theorem refused (h : UnlinkFound s s₁ p d n k e) (hopen : ¬ s.IsOpenFile n)
    (hfull : s.heap.full (s.heap.next + k) = true) :
    ∃ s', Returns (unlinkFile p n) s₁ (-1) s' ∧ Restored s s' := by
  obtain ⟨r, hrun, hr⟩ := h.search
  have hst := h.stands
  have htask : ∃ c, s₁.tasks s₁.cur = some c := by
    rw [hst.tasks, hst.cur]
    exact h.store.running
  rw [← hst.next, ← hst.full] at hfull
  obtain ⟨s', hclose, hrest⟩ := (hst.heapAt 1).closes (-1 : Int)
  refine ⟨s', ?_, hrest⟩
  rw [unlinkFile, returns_bind_iff hrun, if_neg fun hne => hopen (hr.mp hne),
    returns_bind_iff (sysMalloc_refused htask hfull), if_pos rfl]
  exact hclose

/-- With a buffer the entry is about to be removed. -/
theorem unlinking {m : Nat} (h : UnlinkFound s s₁ p d n k e) (hmalloc : Returns sysMalloc s₁ (some m) t) :
    ∃ a v, Unlinking s t p d a n v e := by
  obtain ⟨a, v, hon⟩ := h.stands.dirOn
  have hst := h.stands
  obtain ⟨hsame, -⟩ := returns_sysMalloc hmalloc
  refine ⟨a, v, h.store, ⟨?_, ?_, ?_, ?_⟩, (keeps_sysMalloc (R := CacheFrame) hmalloc).cacheOk h.cache, ?_, h.dir, h.mem,
    h.file, h.number⟩
  · rw [hsame]
    exact hst.part
  · rw [hsame]
    exact hst.disk
  · rw [hsame]
    exact hst.blockBitmap
  · rw [hsame]
    exact hst.inodeMap
  · have hhandle : t.handle p = some a := by
      have ha := hon.handle
      rw [hsame]
      cases p with
      | root => exact ha
      | heap q => exact ha
    rw [hsame] at hhandle ⊢
    exact ⟨hhandle, hon.inode, hon.content, hon.others, hon.was⟩

/-- Where everything is granted the call goes through. -/
theorem runs (h : UnlinkFound s s₁ p d n k e) (hopen : ¬ s.IsOpenFile n) (hg : s.Grants k (s.openRequests n + 2))
    (h12 : (s.content d).sector 12 = 0) (hd : d < 256) :
    ∃ t u s' a v w c j, Returns (unlinkFile p n) s₁ 0 s' ∧ UnlinkRun s t u s' p d a n c j v w e := by
  obtain ⟨r, hrun, hr⟩ := h.search
  have hst := h.stands
  obtain ⟨t, hmalloc, hmem, -⟩ := sysMalloc_returns (hst.hasMemory h.store.toTreeOk hg)
  obtain ⟨a, v, hu⟩ := h.unlinking hmalloc
  have hv12 : v.sector 12 = 0 := by
    rw [← hu.on.content] at h12
    exact h12
  obtain ⟨c, hc, hne, j, hj, hfull, he, hdelete⟩ := hu.deletes hv12
  have hnd : n ≠ d % 256 := by
    rw [Nat.mod_eq_of_lt hd]
    exact hu.ne
  obtain ⟨w, hok, hsec, haddr⟩ := hu.releaseOk (j := j) hc hne (Or.inl hnd)
  have hmem' : (t.clearEntry a v (v.sector c) j).HasMemory ((t.clearEntry a v (v.sector c) j).openRequests n + 1) := by
    rw [hu.openRequests_cleared]
    exact hmem
  obtain ⟨u, hrelease, hrel⟩ := inodeRelease_runs hok hmem'
  obtain ⟨s', hend, hst', hpart, hothers, hself⟩ := hu.finish hok hrelease s₁.heap.next
  refine ⟨t, u, s', a, v, w, c, j, ?_, hu, hv12, ⟨hc, hj⟩, hne, hfull, he, hsec, haddr, hrel, hpart, hst', hothers, hself⟩
  rw [unlinkFile, returns_bind_iff hrun, if_neg fun hne => hopen (hr.mp hne), returns_bind_iff hmalloc,
    if_neg (by simp), returns_bind_iff hdelete, returns_bind_iff hrelease]
  exact hend

/-- And the file is removed. -/
theorem removes (h : UnlinkFound s s₁ p d n k e) (hopen : ¬ s.IsOpenFile n) (hg : s.Grants k (s.openRequests n + 2))
    (h12 : (s.content d).sector 12 = 0) (hd : d < 256) (hlast : (s.content n).blockAddr s.disk 139 = 0) :
    ∃ s', Returns (unlinkFile p n) s₁ 0 s' ∧ Removed s s' d n := by
  obtain ⟨t, u, s', a, v, w, c, j, hrun, h⟩ := h.runs hopen hg h12 hd
  exact ⟨s', hrun, h.unlinking.removed h.place.1 h.block h.place.2 h.full h.entry hd h.sector h.blockAddr hlast h.released
    h.part h.final h.others h.self⟩

/-- A call that comes back was refused its buffer, or has removed the file, and completely only where
    everything was granted. -/
theorem removed (h : UnlinkFound s s₁ p d n k e) (hopen : ¬ s.IsOpenFile n) (hrun : Returns (unlinkFile p n) s₁ r s') :
    s.heap.full (s.heap.next + k) = true ∧ r = -1 ∨ r = 0 ∧ (Removed s s' d n →
      s.Grants k (s.openRequests n + 2) ∧ (s.content d).sector 12 = 0 ∧ d < 256 ∧
        (s.content n).blockAddr s.disk 139 = 0) := by
  obtain ⟨o, hsearch, ho⟩ := h.search
  have hst := h.stands
  rw [unlinkFile, returns_bind_iff hsearch, if_neg fun hne => hopen (ho.mp hne)] at hrun
  obtain ⟨buf, t, hmalloc, hrun⟩ := returns_bind.mp hrun
  cases buf with
  | none =>
    left
    have hfull := full_of_sysMalloc hmalloc
    rw [hst.full, hst.next] at hfull
    rw [if_pos rfl] at hrun
    obtain ⟨_, t', _, hend⟩ := returns_bind.mp hrun
    exact ⟨hfull, (returns_pure.mp hend).1.symm⟩
  | some m =>
    right
    rw [if_neg (by simp)] at hrun
    obtain ⟨a, v, hu⟩ := h.unlinking hmalloc
    have hdelete := hrun
    obtain ⟨b, t₁, hdelete, hrun⟩ := returns_bind.mp hrun
    have hv12 := ((returns_deleteDirEntry hu.layout hu.on.handle hu.on.inode).mp hdelete).1
    obtain ⟨c, hc, hne, j, hj, hfull, he, hdelete'⟩ := hu.deletes hv12
    obtain ⟨-, rfl⟩ := hdelete.unique hdelete'
    obtain ⟨x, u, hrelease, hrun⟩ := returns_bind.mp hrun
    have hnumber := hu.number_ne hrelease
    obtain ⟨w, hok, hsec, haddr⟩ := hu.releaseOk (j := j) hc hne hnumber
    obtain ⟨s'', hend, hst', hpart, hothers, hself⟩ := hu.finish hok hrelease m
    obtain ⟨rfl, rfl⟩ := hrun.unique hend
    refine ⟨rfl, fun hremoved => ⟨?_, ?_, ?_, ?_⟩⟩
    · intro i hi
      rcases i with _ | i
      · have hfirst := (served_of_sysMalloc hmalloc).2
        rwa [hst.full, hst.next] at hfirst
      · have hserved := (inodeRelease_served hok hrelease).2
        rw [hu.openRequests_cleared] at hserved
        have hgranted : t.heap.full (t.heap.next + i) = false := hserved i (by omega)
        rw [(keeps_sysMalloc (R := CacheFrame) hmalloc).full, (returns_sysMalloc hmalloc).2.1, hst.full, hst.next] at hgranted
        rw [← hgranted]
        congr 1
        omega
    · rw [← hu.on.content]
      exact hv12
    · -- the slot of the directory has been written
      by_contra hge
      have hd := h.store.inMap d (Or.inl h.dir)
      have hdata := (h.store.inUse (Or.inl h.dir) (hu.owns hc hne)).ge
      obtain ⟨t₂, hrelease', hrel⟩ := inodeRelease_runs hok (inodeRelease_served hok hrelease)
      obtain ⟨-, rfl⟩ := hrelease.unique hrelease'
      have hkept := hu.slot_left hdata hrel hpart hst' hd.1 h.ne.symm (by omega)
      have hslot := hremoved.slot
      rw [hkept, ← (h.store.coherent d).content] at hslot
      have hsize : (s.content d).iSize = (s.content d).iSize - 24 := congrArg Inode.iSize hslot
      have hcard : 0 < (dirEntries s.disk (s.content d)).card := Multiset.card_pos_iff_exists_mem.mpr ⟨e, h.mem⟩
      have hcount := (h.store.dirOk d h.dir).size
      omega
    · -- and the last block has been given back
      rw [← haddr]
      refine no_last_block hok hrelease fun b => ?_
      have hbits := hremoved.blocks b
      rw [hst'.blockBitmap] at hbits
      rw [hbits]
      show _ ↔ t.blockBitmap.bit b = true ∧ _
      have hcleared : (t.clearEntry a v (v.sector c) j).part = s.part := hu.same.part
      rw [hu.same.blockBitmap, Fs.BlockBelow, Fs.BlockBelow, haddr, hsec, hcleared]

end UnlinkFound

/-- Where the call has come back, so has the search. -/
theorem sysUnlink_search (hs : s.TreeOk) (habs : path.head? = some slash) (hnul : ∀ b ∈ path, b ≠ 0)
    (hrun : Returns (sysUnlink path) s r s') :
    path.length < 512 ∧ ¬ RootAlias path ∧ components slash path ≠ [] ∧ HeadFits (components slash path) ∧
      (s.Clear 0 0 0 (components slash path) ∨ s.Starved 0 0 (components slash path)) := by
  have hrun' := hrun
  simp only [sysUnlink, returns_bind (x := assert _), returns_assert, returns_bind (x := searchFile _)] at hrun'
  obtain ⟨_, _, ⟨hlen, rfl⟩, out, s₁, hsearch, _, _, ⟨hne, -⟩, -⟩ := hrun'
  have hroot : ¬ RootAlias path := by
    intro hroot
    rw [searchFile_root hroot] at hsearch
    obtain ⟨rfl, -⟩ := returns_pure.mp hsearch
    exact hne rfl
  obtain ⟨hcs, hfit, hloop⟩ := searchFile_loop habs hroot hsearch
  exact ⟨hlen, hroot, hcs, hfit, searchLoop_clear hs _ (.start hs habs hlen hnul hcs hfit) hloop⟩

/-- Behind a search that has given up. -/
theorem sysUnlink_misses (hlen : path.length < 512) (hsearch : Returns (searchFile path) s out s₁)
    (hmiss : Misses s s₁ (s.walkPath path) out) : ∃ s', Returns (sysUnlink path) s (-1) s' ∧ Restored s s' := by
  obtain ⟨i, k, hst⟩ := hmiss.parent
  obtain ⟨s', hclose, hrest⟩ := hst.closes (-1 : Int)
  refine ⟨s', (returns_sysUnlink hlen hsearch).mpr ⟨?_, ?_⟩, hrest⟩
  · rw [hmiss.number]
    simp
  · rw [hmiss.number]
    exact hclose

/-- The file the search has found. -/
theorem Arrives.unlinkFound (hs : s.StoreOk) (hsearch : Returns (searchFile path) s out s₁)
    (harr : Arrives s s₁ (s.walkPath path) k out) (hfound : (s.walkPath path).found = some (.file n)) :
    ∃ e, UnlinkFound s s₁ out.2.parentDir (s.walkPath path).above n k e := by
  have hdir : s.IsDir (s.walkPath path).above := dir_arrive .root .root
  obtain ⟨c, hnames⟩ := file_arrive hfound
  obtain ⟨e, he, -, hchild⟩ := Fs.exists_of_names hnames
  obtain ⟨hty, hno⟩ := DirEntry.eq_of_child_file hchild
  have hheld := searchFile_holds hs.cache hsearch
  exact ⟨e, hs, harr.parent, hheld.toOuter, hheld.ok, hdir, he,
    ((hs.node _ hdir).types e he).resolve_left hty, hno⟩

/-- Behind a search that has arrived. -/
theorem sysUnlink_arrives (hs : s.StoreOk) (hlen : path.length < 512) (hsearch : Returns (searchFile path) s out s₁)
    (harr : Arrives s s₁ (s.walkPath path) k out) : UnlinksExactly s path ↔ s.UnlinkFits (s.walkPath path) k := by
  have hunlink {r : Int} {s' : Fs} := @returns_sysUnlink _ s' _ _ r _ hlen hsearch
  have hclose := harr.parent.closes (-1 : Int)
  have hnumber := harr.number
  have hkind := harr.kind
  unfold Fs.UnlinkFits
  cases hfound : (s.walkPath path).found with
  | none =>
    -- a missing name
    rw [hfound] at hnumber
    obtain ⟨s', hclose, hrest⟩ := hclose
    refine ⟨fun _ => trivial, fun _ => ⟨-1, s', hunlink.mpr ⟨?_, ?_⟩, fun n hn => ?_, fun _ => ⟨rfl, hrest⟩⟩⟩
    · rw [hnumber]
      simp
    · rw [hnumber]
      exact hclose
    · rw [hn.1] at hfound
      cases hfound
  | some child =>
    cases child with
    | dir n =>
      rw [hfound] at hnumber hkind
      constructor
      · rintro ⟨r, s', hrun, -⟩ rfl
        exact (hunlink.mp hrun).1 hnumber
      · intro hne
        obtain ⟨s', hclose, hrest⟩ := hclose
        refine ⟨-1, s', hunlink.mpr ⟨?_, ?_⟩, fun m hm => ?_, fun _ => ⟨rfl, hrest⟩⟩
        · rw [hnumber]
          exact fun h => hne (Option.some.inj h)
        · rw [hnumber]
          have hdir : out.2.fType = ftDir := hkind
          show Returns (if out.2.fType = ftDir then _ else _) s₁ (-1) s'
          rw [if_pos hdir]
          exact hclose
        · rw [hm.1] at hfound
          cases hfound
    | file n =>
      obtain ⟨e, hf⟩ := harr.unlinkFound hs hsearch hfound
      rw [hfound] at hnumber hkind
      have hty : out.2.fType ≠ ftDir := by
        rw [hkind]
        show ftRegular ≠ ftDir
        decide
      have hzero : n ≠ 0 := Fs.IsFile.ne_zero ⟨_, hf.dir, e, hf.mem, hf.file, hf.number⟩ hs
      have hfile (r : Int) (s' : Fs) : Returns (sysUnlink path) s r s' ↔
          Returns (unlinkFile out.2.parentDir n) s₁ r s' := by
        rw [hunlink, hnumber]
        show some n ≠ some 0 ∧ Returns (if out.2.fType = ftDir then _ else _) s₁ r s' ↔ _
        rw [if_neg hty]
        exact and_iff_right fun h => hzero (Option.some.inj h)
      -- no other file is named
      have hnames {m : Nat} (hm : s.NamesClosed path m) : m = n := by
        have hmn := hm.1
        rw [hfound] at hmn
        simpa using hmn.symm
      by_cases hopen : s.IsOpenFile n
      · refine ⟨fun _ => Or.inl hopen, fun _ => ?_⟩
        obtain ⟨s', hrun, hrest⟩ := hf.stays hopen
        refine ⟨-1, s', (hfile _ _).mpr hrun, fun m hm => ?_, fun _ => ⟨rfl, hrest⟩⟩
        obtain rfl := hnames hm
        exact absurd hopen hm.2.2
      · constructor
        · rintro ⟨r, s', hrun, hclosed, hother⟩
          have hcases := hf.removed hopen ((hfile _ _).mp hrun)
          by_cases hend : (s.walkPath path).rest = []
          · obtain ⟨rfl, hremoved⟩ := hclosed n ⟨hfound, hend, hopen⟩
            obtain ⟨-, hr⟩ | ⟨-, hneeds⟩ := hcases
            · cases hr
            · exact Or.inr (Or.inl ⟨hend, hneeds hremoved⟩)
          · obtain ⟨rfl, -⟩ := hother fun m hm => hend hm.2.1
            obtain ⟨hfull, -⟩ | ⟨hr, -⟩ := hcases
            · exact Or.inr (Or.inr ⟨hend, hfull⟩)
            · cases hr
        · rintro (hopen' | ⟨hend, hg, h12, hlt, hlast⟩ | ⟨hend, hfull⟩)
          · exact absurd hopen' hopen
          · obtain ⟨s', hrun, hremoved⟩ := hf.removes hopen hg h12 hlt hlast
            refine ⟨0, s', (hfile _ _).mpr hrun, fun m hm => ?_, fun hnone => ?_⟩
            · obtain rfl := hnames hm
              exact ⟨rfl, hremoved⟩
            · exact absurd ⟨hfound, hend, hopen⟩ (hnone n)
          · obtain ⟨s', hrun, hrest⟩ := hf.refused hopen hfull
            exact ⟨-1, s', (hfile _ _).mpr hrun, fun m hm => absurd hm.2.1 hend, fun _ => ⟨rfl, hrest⟩⟩

end Unlink

/-- In a file system in order `sys_unlink` removes exactly the named file where the path fits its
    buffers, is no name of the root, and is followed to something the call can deal with; or where
    nothing is to be removed and the search gives up for want of memory. -/
theorem unlink_exact_iff (s : Fs) (path : CStr) (hs : s.StoreOk) (habs : path.head? = some slash)
    (hnul : ∀ b ∈ path, b ≠ 0) :
    UnlinksExactly s path ↔ path.length < 512 ∧ ¬ RootAlias path ∧ components slash path ≠ [] ∧
      HeadFits (components slash path) ∧
      (s.Clear 0 0 0 (components slash path) ∧
          s.UnlinkFits (s.walkPath path) (s.asked 0 0 0 (components slash path)) ∨
        s.Starved 0 0 (components slash path) ∧ ∀ n, ¬ s.NamesClosed path n) := by
  constructor
  · intro hexact
    obtain ⟨r, s', hrun, hclosed, hother⟩ := hexact
    obtain ⟨hlen, hroot, hcs, hfit, hsearched⟩ := sysUnlink_search hs.toTreeOk habs hnul hrun
    refine ⟨hlen, hroot, hcs, hfit, ?_⟩
    rcases hsearched with hclear | hstarved
    · obtain ⟨out, s₁, hsearch, harr⟩ := searchFile_arrives hs.toTreeOk habs hlen hnul hroot hcs hfit hclear
      exact Or.inl ⟨hclear, (sysUnlink_arrives hs hlen hsearch harr).mp ⟨r, s', hrun, hclosed, hother⟩⟩
    · obtain ⟨out, s₁, hsearch, hmiss⟩ := searchFile_misses hs.toTreeOk habs hlen hnul hroot hcs hfit hstarved
      obtain ⟨s'', hrun', -⟩ := sysUnlink_misses hlen hsearch hmiss
      obtain ⟨rfl, rfl⟩ := hrun.unique hrun'
      refine Or.inr ⟨hstarved, fun n hn => ?_⟩
      obtain ⟨hr, -⟩ := hclosed n hn
      cases hr
  · rintro ⟨hlen, hroot, hcs, hfit, ⟨hclear, hfits⟩ | ⟨hstarved, hnone⟩⟩
    · obtain ⟨out, s₁, hsearch, harr⟩ := searchFile_arrives hs.toTreeOk habs hlen hnul hroot hcs hfit hclear
      exact (sysUnlink_arrives hs hlen hsearch harr).mpr hfits
    · obtain ⟨out, s₁, hsearch, hmiss⟩ := searchFile_misses hs.toTreeOk habs hlen hnul hroot hcs hfit hstarved
      obtain ⟨s', hrun, hrest⟩ := sysUnlink_misses hlen hsearch hmiss
      exact ⟨-1, s', hrun, fun n hn => absurd hn (hnone n), fun _ => ⟨rfl, hrest⟩⟩

open SmallTree in
/-- `"/d/f"` is removed. -/
theorem unlink_exact_deep : UnlinksExactly fs deepPath := by
  have hroot : fs.names 0 [100] = some (.dir 1) := names_root (e := ⟨[100], 1, ftDir⟩) (by decide)
  have hsub : fs.names 1 [102] = some (.file 2) := names_sub (e := ⟨[102], 2, ftRegular⟩) (by decide)
  have hcs : components slash deepPath = [[100], [102]] := by decide
  have hwalk : fs.walkPath deepPath = ⟨some (.file 2), 1, [[100], [102]], []⟩ := by
    rw [Fs.walkPath, hcs, arrive_cons_dir hroot, arrive_cons_file hsub]
    rfl
  refine (unlink_exact_iff fs deepPath storeOk rfl (by decide)).mpr ⟨by decide, by decide, by decide, by decide,
    Or.inl ⟨?_, ?_⟩⟩
  · rw [hcs]
    simp only [Fs.Clear, hroot, hsub]
    exact ⟨grants _ _, by decide, grants _ _, grants _ _, by rintro _ ⟨⟩⟩
  · rw [hwalk]
    refine Or.inr (Or.inl ⟨rfl, grants _ _, ?_, ?_, ?_⟩)
    · exact sector_table 1 (by decide)
    · show 1 < 256
      decide
    · rw [blockAddr 2 (by decide) 139 (by decide)]
      rfl

/-- `"/g/x"`. -/
def throughPath : CStr := [47, 103, 47, 120]

open SmallTree in
/-- `"/g/x"` leads through the file `"g"`: no file is named, and `"g"` is removed. -/
theorem unlink_through_file : fs.StoreOk ∧ (∀ n, ¬ fs.NamesClosed throughPath n) ∧
    (∃ s', Returns (sysUnlink throughPath) fs 0 s') ∧ ¬ UnlinksExactly fs throughPath := by
  have hroot : fs.names 0 [103] = some (.file 3) := names_root (e := ⟨[103], 3, ftRegular⟩) (by decide)
  have hcs : components slash throughPath = [[103], [120]] := by decide
  have hwalk : fs.walkPath throughPath = ⟨some (.file 3), 0, [[103]], [[120]]⟩ := by
    rw [Fs.walkPath, hcs, arrive_cons_file hroot]
    rfl
  have hnone : ∀ n, ¬ fs.NamesClosed throughPath n := by
    rintro n ⟨-, hrest, -⟩
    rw [hwalk] at hrest
    cases hrest
  have hend : (sysUnlink throughPath).checks fs (fun r _ => r = 0) = true := by decide +kernel
  obtain ⟨r, s', hrun, hr⟩ := checks_eq_true.mp hend
  obtain rfl := of_decide_eq_true hr
  refine ⟨storeOk, hnone, ⟨s', hrun⟩, ?_⟩
  rintro ⟨r, s'', hrun', -, hother⟩
  obtain ⟨rfl, -⟩ := hother hnone
  obtain ⟨hne, -⟩ := hrun.unique hrun'
  cases hne

end ZxyOs
