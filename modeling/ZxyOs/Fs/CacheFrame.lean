/-
  ZxyOs.Fs.CacheFrame

  What most of the file system leaves alone: the list of open inodes, the directory
  handles, and number, references and write permission of every cached inode.

  `Outer` are the parts of the state that are not about directories, inodes and the
  disk, `CacheFrame` adds the cache.  The operations on blocks and on the inode table keep
  every `Calm` relation, those that add and delete directory entries every `Quiet` one,
  each by the rules for its parts; `CacheFrame` is of both kinds.
-/

import ZxyOs.Fs.Syscall

namespace ZxyOs

open Lib Lib.Exec

/-! ## What is not touched -/

/-- The parts of the state that are not about directories, inodes and the disk. -/
structure Outer (s s' : Fs) : Prop where
  rings : s'.rings = s.rings
  rootDir : s'.rootDir = s.rootDir
  fileTable : s'.fileTable = s.fileTable
  tasks : s'.tasks = s.tasks
  cur : s'.cur = s.cur
  full : s'.heap.full = s.heap.full

theorem Outer.refl (s : Fs) : Outer s s := ⟨rfl, rfl, rfl, rfl, rfl, rfl⟩

theorem Outer.trans {s₁ s₂ s₃ : Fs} (h : Outer s₁ s₂) (h' : Outer s₂ s₃) : Outer s₁ s₃ :=
  ⟨h'.rings.trans h.rings, h'.rootDir.trans h.rootDir, h'.fileTable.trans h.fileTable,
    h'.tasks.trans h.tasks, h'.cur.trans h.cur, h'.full.trans h.full⟩

/-- Number, references and write permission of an inode. -/
def Inode.ident (v : Inode) : Nat × Nat × Bool := (v.iNo, v.iOpenCnt, v.writeDeny)

/-- No inode and no directory handle comes, goes or changes its references. -/
structure CacheFrame (s s' : Fs) : Prop extends Outer s s' where
  openInodes : s'.openInodes = s.openInodes
  ident : ∀ a, (s'.inodes a).map Inode.ident = (s.inodes a).map Inode.ident
  dirs : s'.dirs = s.dirs
  next : s.heap.next ≤ s'.heap.next

instance : Std.Refl CacheFrame := ⟨fun s => ⟨Outer.refl s, rfl, fun _ => rfl, rfl, le_rfl⟩⟩

instance : IsTrans Fs CacheFrame := ⟨fun _ _ _ h h' =>
  { h.toOuter.trans h'.toOuter with
    openInodes := h'.openInodes.trans h.openInodes
    ident := fun a => (h'.ident a).trans (h.ident a)
    dirs := h'.dirs.trans h.dirs
    next := h.next.trans h'.next }⟩

theorem CacheFrame.trans {s₁ s₂ s₃ : Fs} (h : CacheFrame s₁ s₂) (h' : CacheFrame s₂ s₃) :
    CacheFrame s₁ s₃ := trans_of CacheFrame h h'

/-- An edit that leaves the cache, the handles and the heap alone. -/
theorem CacheFrame.of_eq {s s' : Fs} (houter : Outer s s') (hopen : s'.openInodes = s.openInodes)
    (hinodes : s'.inodes = s.inodes) (hdirs : s'.dirs = s.dirs)
    (hnext : s.heap.next ≤ s'.heap.next) : CacheFrame s s' where
  toOuter := houter
  openInodes := hopen
  ident := fun a => by rw [hinodes]
  dirs := hdirs
  next := hnext

theorem CacheFrame.ident_some {s s' : Fs} (h : CacheFrame s s') {a : Nat} {v : Inode}
    (hv : s.inodes a = some v) : ∃ v', s'.inodes a = some v' ∧ v'.ident = v.ident := by
  have hident := h.ident a
  rw [hv, Option.map_some, Option.map_eq_some_iff] at hident
  exact hident

/-! ## Reads -/

section Reads

variable {R : Fs → Fs → Prop} [Std.Refl R] [IsTrans Fs R] {a : Nat}

theorem keeps_ideRead {lba secCnt room : Nat} : Keeps R (ideRead lba secCnt room) :=
  (keeps_fits _).bind fun _ => (keeps_assert _).bind fun _ => (keeps_assert _).bind fun _ => keeps_query _

theorem keeps_runningThread : Keeps R runningThread :=
  (keeps_query _).bind fun _ => keeps_deref _

theorem keeps_getInode : Keeps R (getInode a) :=
  (keeps_query _).bind fun _ => keeps_deref _

omit [IsTrans Fs R] in
theorem keeps_dirInode {d : DirPtr} : Keeps R (dirInode d) := by
  intro s b s' h
  obtain ⟨-, rfl⟩ := returns_dirInode.mp h
  exact refl_of R s

theorem keeps_locateInode {iNo : Nat} : Keeps R (locateInode iNo) :=
  (keeps_assert _).bind fun _ => (keeps_query _).bind fun _ => keeps_pure _

theorem keeps_readSlot {pos : InodePos} : Keeps R (readSlot pos) :=
  keeps_ideRead.bind fun _ => keeps_pure _

theorem keeps_searchBlocks {allBlocks : Nat → Nat} {name : CStr} {dirEntryCnt : Nat}
    {buf : Option Nat} (n blockIdx : Nat) :
    Keeps R (searchBlocks allBlocks name dirEntryCnt buf n blockIdx) := by
  induction n generalizing blockIdx with
  | zero => exact keeps_pure _
  | succ n ih =>
    simp only [searchBlocks]
    split
    · exact ih _
    · refine (keeps_fits _).bind fun _ => keeps_ideRead.bind fun block => ?_
      split
      · exact keeps_pure _
      · exact ih _

theorem keeps_readAllBlocks {v : Inode} : Keeps R (readAllBlocks v) := by
  simp only [readAllBlocks]
  split
  · exact keeps_ideRead.bind fun _ => keeps_pure _
  · exact keeps_pure _

end Reads

/-! ## Functions that leave the cache alone -/

/-- The edits of the disk, of the bitmaps and of the block addresses of an inode, and the
    requests to the heap, are all steps of `R`. -/
class Calm (R : Fs → Fs → Prop) : Prop extends Std.Refl R, IsTrans Fs R where
  disk (s : Fs) (d : Bytes) : R s { s with disk := d }
  inodeMap (s : Fs) (b : Bitmap) : R s { s with inodeMap := b }
  blockBitmap (s : Fs) (b : Bitmap) : R s { s with blockBitmap := b }
  sector (s : Fs) (a k lba : Nat) (v : Inode) (hv : s.inodes a = some v) :
    R s { s with inodes := Function.update s.inodes a (some (v.setSector k lba)) }
  refused (s : Fs) : R s { s with heap := { s.heap with next := s.heap.next + 1 } }
  served (s : Fs) (user : Bool) : R s { s with heap :=
    { s.heap with next := s.heap.next + 1, live := (s.heap.next, user) :: s.heap.live } }

/-- And so are the edits of the size of an inode. -/
class Quiet (R : Fs → Fs → Prop) : Prop extends Calm R where
  size (s : Fs) (a n : Nat) (v : Inode) (hv : s.inodes a = some v) :
    R s { s with inodes := Function.update s.inodes a (some { v with iSize := n }) }

/-- Writing a field of an inode that is not about references. -/
theorem CacheFrame.putInode {s : Fs} {a : Nat} {v v' : Inode} (hv : s.inodes a = some v) (hident : v'.ident = v.ident) :
    CacheFrame s { s with inodes := Function.update s.inodes a (some v') } where
  toOuter := ⟨rfl, rfl, rfl, rfl, rfl, rfl⟩
  openInodes := rfl
  ident := by
    intro b
    by_cases hb : b = a
    · subst hb
      show (Function.update s.inodes b (some v') b).map Inode.ident = _
      rw [Function.update_self, hv, Option.map_some, Option.map_some, hident]
    · show (Function.update s.inodes a (some v') b).map Inode.ident = _
      rw [Function.update_of_ne hb]
  dirs := rfl
  next := le_rfl

instance : Quiet CacheFrame where
  disk _ _ := .of_eq ⟨rfl, rfl, rfl, rfl, rfl, rfl⟩ rfl rfl rfl le_rfl
  inodeMap _ _ := .of_eq ⟨rfl, rfl, rfl, rfl, rfl, rfl⟩ rfl rfl rfl le_rfl
  blockBitmap _ _ := .of_eq ⟨rfl, rfl, rfl, rfl, rfl, rfl⟩ rfl rfl rfl le_rfl
  sector _ _ _ _ _ hv := .putInode hv rfl
  size _ _ _ _ hv := .putInode hv rfl
  refused _ := .of_eq ⟨rfl, rfl, rfl, rfl, rfl, rfl⟩ rfl rfl rfl (Nat.le_succ _)
  served _ _ := .of_eq ⟨rfl, rfl, rfl, rfl, rfl, rfl⟩ rfl rfl rfl (Nat.le_succ _)

section Calm

variable {R : Fs → Fs → Prop} [Calm R] {s s' : Fs} {a : Nat}

theorem keeps_ideWrite {lba secCnt : Nat} {buf : Bytes} :
    Keeps R (ideWrite lba buf secCnt) :=
  (keeps_assert _).bind fun _ => (keeps_assert _).bind fun _ => keeps_update fun s => Calm.disk s _

theorem keeps_mallocFrom {user : Bool} : Keeps R (mallocFrom user) := by
  refine (keeps_query _).bind fun h => ?_
  split
  · exact (keeps_update fun s => Calm.refused s).bind fun _ => keeps_pure _
  · exact (keeps_update fun s => Calm.served s user).bind fun _ => keeps_pure _

theorem keeps_sysMalloc : Keeps R sysMalloc :=
  keeps_runningThread.bind fun _ => keeps_mallocFrom

theorem keeps_sysFree {ptr : Option Nat} : Keeps CacheFrame (sysFree ptr) := by
  refine (keeps_assert _).bind fun _ => keeps_update fun s => ?_
  exact .of_eq ⟨rfl, rfl, rfl, rfl, rfl, rfl⟩ rfl rfl rfl le_rfl

theorem keeps_bitmapSync {i : Nat} {b : BitmapType} : Keeps R (bitmapSync i b) := by
  refine (keeps_query _).bind fun s => ?_
  cases b with
  | inodeBitmap => exact keeps_ideWrite
  | blockBitmap => exact keeps_ideWrite

theorem keeps_inodeMapSet {i : Nat} {b : Bool} : Keeps R (inodeMapSet i b) :=
  (keeps_query _).bind fun _ => (keeps_require _).bind fun _ => keeps_update fun s => Calm.inodeMap s _

theorem keeps_blockBitmapSet {i : Nat} {b : Bool} : Keeps R (blockBitmapSet i b) :=
  (keeps_query _).bind fun _ => (keeps_require _).bind fun _ =>
    keeps_update fun s => Calm.blockBitmap s _

theorem keeps_inodeBitmapAlloc : Keeps R inodeBitmapAlloc := by
  intro s r s' h
  obtain ⟨i, -, -, rfl⟩ := returns_inodeBitmapAlloc.mp h
  exact Calm.inodeMap s _

theorem keeps_blockBitmapAlloc : Keeps R blockBitmapAlloc := by
  intro s r s' h
  obtain ⟨i, -, -, rfl⟩ := returns_blockBitmapAlloc.mp h
  exact Calm.blockBitmap s _

theorem keeps_setInodeSector {k lba : Nat} : Keeps R (setInodeSector a k lba) := by
  intro s u s' h
  simp only [setInodeSector, returns_bind, returns_getInode, returns_putInode] at h
  obtain ⟨v, _, ⟨hv, rfl⟩, rfl⟩ := h
  exact Calm.sector _ a k lba v hv

theorem keeps_writeSlot {pos : InodePos} {content : Bytes} {ioBuf : Nat} :
    Keeps R (writeSlot pos content ioBuf) :=
  keeps_ideRead.bind fun _ => keeps_ideWrite

theorem keeps_inodeSync {v : Inode} {ioBuf : Nat} : Keeps R (inodeSync v ioBuf) :=
  keeps_locateInode.bind fun _ => (keeps_query _).bind fun _ => (keeps_assert _).bind fun _ =>
    keeps_writeSlot

theorem keeps_inodeDelete {iNo ioBuf : Nat} : Keeps R (inodeDelete iNo ioBuf) :=
  (keeps_assert _).bind fun _ => keeps_locateInode.bind fun _ => (keeps_query _).bind fun _ =>
    (keeps_assert _).bind fun _ => keeps_writeSlot

theorem keeps_releaseBlock {lba : Nat} : Keeps R (releaseBlock lba) :=
  (keeps_query _).bind fun _ => (keeps_assert _).bind fun _ => keeps_blockBitmapSet.bind fun _ =>
    keeps_bitmapSync

theorem keeps_releaseBlocks {allBlocks : Nat → Nat} (n blockIdx : Nat) :
    Keeps R (releaseBlocks allBlocks n blockIdx) := by
  induction n generalizing blockIdx with
  | zero => exact keeps_pure _
  | succ n ih =>
    simp only [releaseBlocks]
    split
    · exact keeps_releaseBlock.bind fun _ => ih _
    · exact ih _

/-! ## Directories -/

theorem keeps_searchDirEntry {d : DirPtr} {name : CStr} :
    Keeps CacheFrame (searchDirEntry d name) := by
  refine keeps_sysMalloc.bind fun r => ?_
  split
  · exact keeps_pure _
  · exact keeps_dirInode.bind fun _ => keeps_getInode.bind fun _ => keeps_readAllBlocks.bind fun _ =>
      keeps_sysMalloc.bind fun _ => (keeps_query _).bind fun _ => (keeps_searchBlocks _ _).bind fun _ =>
        keeps_sysFree.bind fun _ => keeps_sysFree.bind fun _ => keeps_pure _

theorem keeps_createDirEntry {filename : CStr} {iNo fType : Nat} :
    Keeps R (createDirEntry filename iNo fType : FsM DirEntry) :=
  (keeps_assert _).bind fun _ => keeps_pure _

/-! ## Files -/

theorem keeps_fileAllocBlocks (n blockIdx : Nat) (allBlocks : Nat → Nat) :
    Keeps R (fileAllocBlocks a n blockIdx allBlocks) := by
  induction n generalizing blockIdx allBlocks with
  | zero => exact keeps_pure _
  | succ n ih =>
    simp only [fileAllocBlocks]
    refine keeps_blockBitmapAlloc.bind fun r => ?_
    cases r with
    | none => exact keeps_pure _
    | some blockLba =>
      dsimp only
      split
      · exact keeps_getInode.bind fun _ => (keeps_assert _).bind fun _ => keeps_setInodeSector.bind fun _ =>
          (keeps_query _).bind fun _ => keeps_bitmapSync.bind fun _ => ih _ _
      · exact (keeps_query _).bind fun _ => keeps_bitmapSync.bind fun _ => ih _ _

theorem keeps_fileAllocIndirect (n : Nat) (allBlocks : Nat → Nat) :
    Keeps R (fileAllocIndirect n allBlocks) := by
  cases n with
  | zero => exact keeps_pure _
  | succ n => exact keeps_blockBitmapAlloc.bind fun _ => keeps_pure _

theorem keeps_fileCollectBlocks {hasUsed willUse : Nat} :
    Keeps R (fileCollectBlocks a hasUsed willUse) := by
  simp only [fileCollectBlocks]
  refine keeps_getInode.bind fun v => ?_
  split
  · split
    · exact keeps_pure _
    · exact (keeps_assert _).bind fun _ => keeps_ideRead.bind fun _ => keeps_pure _
  · split
    · exact (keeps_require _).bind fun _ => (keeps_assert _).bind fun _ => keeps_fileAllocBlocks _ _ _
    · split
      · refine (keeps_assert _).bind fun _ => keeps_blockBitmapAlloc.bind fun r => ?_
        cases r with
        | none => exact keeps_pure _
        | some tableLba =>
          refine keeps_getInode.bind fun _ => (keeps_assert _).bind fun _ => keeps_setInodeSector.bind fun _ =>
            (keeps_fileAllocBlocks _ _ _).bind fun blocks => ?_
          cases blocks with
          | none => exact keeps_pure _
          | some allBlocks => exact keeps_ideWrite.bind fun _ => keeps_pure _
      · refine (keeps_assert _).bind fun _ => keeps_ideRead.bind fun _ =>
          (keeps_fileAllocIndirect _ _).bind fun blocks => ?_
        cases blocks with
        | none => exact keeps_pure _
        | some allBlocks => exact keeps_ideWrite.bind fun _ => keeps_pure _

end Calm

/-! ## Functions that change the size of an inode -/

section Quiet

variable {R : Fs → Fs → Prop} [Quiet R] {a : Nat}

theorem keeps_setInodeSize {f : Nat → Nat} : Keeps R (setInodeSize a f) := by
  intro s u s' h
  simp only [setInodeSize, returns_bind, returns_getInode, returns_putInode] at h
  obtain ⟨v, _, ⟨hv, rfl⟩, rfl⟩ := h
  exact Quiet.size _ a _ v hv

theorem keeps_syncDirEntryNewBlock {e : DirEntry} {allBlocks : Nat → Nat} {blockIdx : Nat} :
    Keeps R (syncDirEntryNewBlock a e allBlocks blockIdx) := by
  refine (keeps_query _).bind fun s => keeps_blockBitmapAlloc.bind fun r => ?_
  cases r with
  | none => exact keeps_pure _
  | some blockLba =>
    have hlast (r : Option Nat) : Keeps R (syncDirEntryPut a (id s).part.sb e r) := by
      cases r with
      | none => exact keeps_pure _
      | some dataLba =>
        exact keeps_ideWrite.bind fun _ => keeps_setInodeSize.bind fun _ => keeps_pure _
    refine keeps_bitmapSync.bind fun _ => ?_
    split
    · exact keeps_setInodeSector.bind fun _ => (keeps_pure _).bind hlast
    · split
      · refine keeps_setInodeSector.bind fun _ => keeps_blockBitmapAlloc.bind fun r => ?_
        cases r with
        | none =>
          exact keeps_blockBitmapSet.bind fun _ => keeps_setInodeSector.bind fun _ =>
            (keeps_pure _).bind hlast
        | some dataLba =>
          exact keeps_bitmapSync.bind fun _ => keeps_ideWrite.bind fun _ => (keeps_pure _).bind hlast
      · exact keeps_getInode.bind fun _ => keeps_ideWrite.bind fun _ => (keeps_pure _).bind hlast

theorem keeps_syncDirEntryLoop {e : DirEntry} {allBlocks : Nat → Nat} {perSec : Nat}
    (n blockIdx : Nat) : Keeps R (syncDirEntryLoop a e allBlocks perSec n blockIdx) := by
  induction n generalizing blockIdx with
  | zero => exact keeps_pure _
  | succ n ih =>
    simp only [syncDirEntryLoop]
    split
    · exact keeps_syncDirEntryNewBlock
    · refine keeps_ideRead.bind fun block => ?_
      split
      · exact (keeps_query _).bind fun _ => keeps_ideWrite.bind fun _ => keeps_setInodeSize.bind fun _ =>
          keeps_pure _
      · exact ih _

theorem keeps_syncDirEntry {d : DirPtr} {e : DirEntry} : Keeps R (syncDirEntry d e) :=
  keeps_dirInode.bind fun _ => keeps_getInode.bind fun _ => (keeps_query _).bind fun _ =>
    (keeps_assert _).bind fun _ => keeps_syncDirEntryLoop _ _

theorem keeps_deleteFound {allBlocks : Nat → Nat} {blockIdx idx : Nat} {block : Bytes}
    {r : DeleteScan} : Keeps R (deleteFound a allBlocks blockIdx block r idx) := by
  have hlast (size : Nat) : Keeps R (do
      let v ← getInode a
      assert (v.iSize ≥ size)
      setInodeSize a fun n => n - size
      let v ← getInode a
      inodeSync v 1024
      return true : FsM Bool) :=
    keeps_getInode.bind fun _ => (keeps_assert _).bind fun _ => keeps_setInodeSize.bind fun _ =>
      keeps_getInode.bind fun _ => keeps_inodeSync.bind fun _ => keeps_pure _
  refine (keeps_query _).bind fun s => ?_
  split
  · refine keeps_blockBitmapSet.bind fun _ => keeps_bitmapSync.bind fun _ => ?_
    split
    · exact keeps_setInodeSector.bind fun _ => hlast _
    · exact (keeps_stop _).bind fun _ => hlast _
  · exact keeps_ideWrite.bind fun _ => hlast _

theorem keeps_deleteDirEntryLoop {iNo perSec : Nat} {allBlocks : Nat → Nat} (n blockIdx : Nat)
    (first : Bool) : Keeps R (deleteDirEntryLoop a iNo allBlocks perSec n blockIdx first) := by
  induction n generalizing blockIdx first with
  | zero => exact keeps_pure _
  | succ n ih =>
    simp only [deleteDirEntryLoop]
    split
    · exact ih _ _
    · refine keeps_ideRead.bind fun block => ?_
      split
      · exact ih _ _
      · exact keeps_deleteFound

theorem keeps_deleteDirEntry {d : DirPtr} {iNo : Nat} : Keeps R (deleteDirEntry d iNo) :=
  keeps_dirInode.bind fun _ => keeps_getInode.bind fun _ => (keeps_require _).bind fun _ =>
    (keeps_query _).bind fun _ => keeps_deleteDirEntryLoop _ _ _

/-- The data loop of `file_write`, for a relation that lets slots of `file_table` change. -/
theorem keeps_fileWriteLoop {g : Nat} {allBlocks : Nat → Nat} {src : Bytes}
    (hfile : ∀ g f, Keeps R (putFile g f)) (fuel written sizeLeft : Nat) (first : Bool) :
    Keeps R (fileWriteLoop g a allBlocks src fuel written sizeLeft first) := by
  induction fuel generalizing written sizeLeft first with
  | zero => exact keeps_pure _
  | succ fuel ih =>
    simp only [fileWriteLoop]
    split
    · exact keeps_pure _
    · refine keeps_getInode.bind fun v => (keeps_require _).bind fun _ => ?_
      split
      · exact keeps_ideRead.bind fun _ => keeps_ideWrite.bind fun _ => keeps_setInodeSize.bind fun _ =>
          (keeps_query _).bind fun _ => (hfile _ _).bind fun _ => ih _ _ _
      · exact (keeps_pure _).bind fun _ => keeps_ideWrite.bind fun _ => keeps_setInodeSize.bind fun _ =>
          (keeps_query _).bind fun _ => (hfile _ _).bind fun _ => ih _ _ _

end Quiet

end ZxyOs
