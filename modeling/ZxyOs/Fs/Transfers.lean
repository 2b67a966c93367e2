/-
  ZxyOs.Fs.Transfers

  The buffers behind the disk reads.

  A buffer is allocated in one function and filled several calls deeper.  Most functions
  bring a buffer of the right size whatever state they are called in (`Contained P`, for
  every `P` that the edits of the disk and of the cache leave alone).  Those that read
  into a block they have just asked for are only safe while the heap serves them
  (`Fs.Served`), and `file_write` hands one sector to `inode_sync`, which takes two where
  the inode straddles them.
-/

import ZxyOs.Fs.CacheFrame
import ZxyOs.Fs.FdTable
import ZxyOs.Fs.InodeTable
import ZxyOs.Fs.Reading

namespace ZxyOs

open Lib Lib.Exec

/-! ## Functions that only look -/

section Look

variable {P : Fs → Prop} {a n : Nat} {d : DirPtr}

theorem contained_ideRead {lba secCnt room : Nat} (hroom : 512 * secCnt ≤ room) :
    Contained P (ideRead lba secCnt room) :=
  (contained_fits hroom).bind fun _ => (contained_assert _).bind fun _ =>
    (contained_assert _).bind fun _ => contained_query _

/-- One sector into a buffer of one sector. -/
theorem contained_ideRead_sector {lba : Nat} : Contained P (ideRead lba 1 512) :=
  contained_ideRead le_rfl

theorem contained_runningThread : Contained P runningThread :=
  (contained_query _).bind fun _ => contained_deref _

theorem contained_getInode : Contained P (getInode a) :=
  (contained_query _).bind fun _ => contained_deref _

theorem contained_getDir : Contained P (getDir d) := by
  cases d with
  | root => exact contained_query _
  | heap d => exact (contained_query _).bind fun _ => contained_deref _

theorem contained_dirInode : Contained P (dirInode d) :=
  contained_getDir.bind fun _ => contained_pure _

theorem contained_readSlot {pos : InodePos} : Contained P (readSlot pos) := by
  refine (contained_ideRead ?_).bind fun _ => contained_pure _
  cases pos.twoSecs <;> decide

theorem contained_locateInode : Contained P (locateInode n) :=
  (contained_assert _).bind fun _ => (contained_query _).bind fun _ => contained_pure _

theorem contained_findOpenInode (l : List Nat) : Contained P (findOpenInode n l) := by
  induction l with
  | nil => exact contained_pure _
  | cons a rest ih =>
    refine contained_getInode.bind fun v => ?_
    split
    · exact contained_pure _
    · exact ih

theorem contained_readAllBlocks {v : Inode} : Contained P (readAllBlocks v) := by
  unfold readAllBlocks
  split
  · exact contained_ideRead_sector.bind fun _ => contained_pure _
  · exact contained_pure _

/-- The block loop of `search_dir_entry` reads into the buffer it is given. -/
theorem contained_searchBlocks {allBlocks : Nat → Nat} {name : CStr} {cnt : Nat} {buf : Option Nat}
    (hbuf : buf ≠ none) (n blockIdx : Nat) :
    Contained P (searchBlocks allBlocks name cnt buf n blockIdx) := by
  induction n generalizing blockIdx with
  | zero => exact contained_pure _
  | succ n ih =>
    simp only [searchBlocks]
    split
    · exact ih _
    · refine (contained_fits hbuf).bind fun _ => contained_ideRead_sector.bind fun block => ?_
      split
      · exact contained_pure _
      · exact ih _

theorem contained_createDirEntry {filename : CStr} {iNo fType : Nat} :
    Contained P (createDirEntry filename iNo fType : FsM DirEntry) :=
  (contained_assert _).bind fun _ => contained_pure _

theorem contained_dirIsEmpty : Contained P (dirIsEmpty d) :=
  contained_dirInode.bind fun _ => contained_getInode.bind fun _ => (contained_query _).bind fun _ =>
    contained_pure _

theorem contained_fdLocalToGlobal {fd : Int} : Contained P (fdLocalToGlobal fd) := by
  refine contained_runningThread.bind fun cur => ?_
  split
  · exact (contained_assert _).bind fun _ => contained_pure _
  · exact contained_stop (by decide)

theorem contained_isPipe {fd : Int} : Contained P (isPipe fd) :=
  contained_fdLocalToGlobal.bind fun _ => (contained_query _).bind fun _ => contained_pure _

theorem contained_pathParse {path : CStr} : Contained P (pathParse path) := by
  cases path with
  | nil => exact contained_stop (by decide)
  | cons c cs => exact (contained_require _).bind fun _ => contained_pure _

theorem contained_pathNext {path : Option CStr} : Contained P (pathNext path) := by
  cases path with
  | none => exact contained_pure _
  | some p => exact contained_pathParse

theorem contained_pathDepthLoop (fuel : Nat) (p : Option CStr) (depth : Nat) :
    Contained P (pathDepthLoop fuel p depth) := by
  induction fuel generalizing p depth with
  | zero => exact contained_pure _
  | succ fuel ih =>
    refine contained_pathNext.bind fun r => ?_
    dsimp only
    split
    · exact contained_pure _
    · exact ih _ _

theorem contained_pathDepthCnt {path : CStr} : Contained P (pathDepthCnt path) :=
  contained_pathParse.bind fun _ => (contained_require _).bind fun _ => contained_pathDepthLoop _ _ _

theorem contained_findOpenFile (n fd : Nat) {iNo : Nat} : Contained P (findOpenFile iNo n fd) := by
  induction n generalizing fd with
  | zero => exact contained_pure _
  | succ n ih =>
    refine (contained_query _).bind fun s => ?_
    split
    · exact ih _
    · split
      · exact ih _
      · refine contained_getInode.bind fun v => ?_
        split
        · exact contained_pure _
        · exact ih _

theorem contained_childNameBlocks {allBlocks : Nat → Nat} {childINo perSec : Nat} (n blockIdx : Nat) :
    Contained P (childNameBlocks allBlocks childINo perSec n blockIdx) := by
  induction n generalizing blockIdx with
  | zero => exact contained_pure _
  | succ n ih =>
    simp only [childNameBlocks]
    split
    · exact ih _
    · refine contained_ideRead_sector.bind fun block => ?_
      split
      · exact contained_pure _
      · exact ih _

theorem contained_fileReadBlocks {v : Inode} {startIdx endIdx : Nat} :
    Contained P (fileReadBlocks v startIdx endIdx) := by
  have htable : Contained P (ideRead (v.sector 12) 1 512) := contained_ideRead_sector
  unfold fileReadBlocks
  split
  · split
    · exact contained_pure _
    · exact htable.bind fun _ => contained_pure _
  · split
    · exact contained_pure _
    · split
      · exact (contained_assert _).bind fun _ => htable.bind fun _ => contained_pure _
      · exact (contained_assert _).bind fun _ => htable.bind fun _ => contained_pure _

end Look

/-! ## Functions that work on the disk and on inodes -/

/-- The slot of inode `iNo` begins in one sector and ends in the next. -/
def Straddles (iNo : Nat) : Prop := 512 < iNo * 76 % 512 + 76

instance (iNo : Nat) : Decidable (Straddles iNo) := inferInstanceAs (Decidable (_ < _))

section Quiet

variable {P : Fs → Prop} [Quiet (Kept P)] {a n : Nat} {d : DirPtr}

theorem contained_ideWrite {lba secCnt : Nat} {buf : Bytes} : Contained P (ideWrite lba buf secCnt) :=
  (contained_assert _).bind fun _ => (contained_assert _).bind fun _ =>
    contained_update fun s => Calm.disk s _

theorem contained_mallocFrom {user : Bool} : Contained P (mallocFrom user) := by
  refine (contained_query _).bind fun h => ?_
  split
  · exact (contained_update fun s => Calm.refused s).bind fun _ => contained_pure _
  · exact (contained_update fun s => Calm.served s user).bind fun _ => contained_pure _

theorem contained_sysMalloc : Contained P sysMalloc :=
  contained_runningThread.bind fun _ => contained_mallocFrom

theorem contained_bitmapSync {b : BitmapType} : Contained P (bitmapSync n b) := by
  refine (contained_query _).bind fun s => ?_
  cases b with
  | inodeBitmap => exact contained_ideWrite
  | blockBitmap => exact contained_ideWrite

theorem contained_inodeMapSet {v : Bool} : Contained P (inodeMapSet n v) :=
  (contained_query _).bind fun _ => (contained_require _).bind fun _ =>
    contained_update fun s => Calm.inodeMap s _

theorem contained_blockBitmapSet {v : Bool} : Contained P (blockBitmapSet n v) :=
  (contained_query _).bind fun _ => (contained_require _).bind fun _ =>
    contained_update fun s => Calm.blockBitmap s _

theorem contained_inodeBitmapAlloc : Contained P inodeBitmapAlloc := by
  refine (contained_query _).bind fun s => Bitmap.contained_bitmapScan.bind fun r => ?_
  cases r with
  | none => exact contained_pure _
  | some i => exact contained_inodeMapSet.bind fun _ => contained_pure _

theorem contained_blockBitmapAlloc : Contained P blockBitmapAlloc := by
  refine (contained_query _).bind fun s => Bitmap.contained_bitmapScan.bind fun r => ?_
  cases r with
  | none => exact contained_pure _
  | some i => exact contained_blockBitmapSet.bind fun _ => contained_pure _

theorem contained_setInodeSector {k lba : Nat} : Contained P (setInodeSector a k lba) :=
  (contained_getInode.bind fun _ => contained_update fun _ _ => trivial).of_keeps keeps_setInodeSector

theorem contained_setInodeSize {f : Nat → Nat} : Contained P (setInodeSize a f) :=
  (contained_getInode.bind fun _ => contained_update fun _ _ => trivial).of_keeps keeps_setInodeSize

theorem contained_writeSlot {pos : InodePos} {content : Bytes} {ioBuf : Nat}
    (hroom : (if pos.twoSecs then 1024 else 512) ≤ ioBuf) : Contained P (writeSlot pos content ioBuf) := by
  refine (contained_ideRead ?_).bind fun _ => contained_ideWrite
  cases htwo : pos.twoSecs <;> simpa [htwo] using hroom

/-- A slot is written through a buffer of two sectors where it straddles them. -/
theorem contained_slotWriter {content : Bytes} {ioBuf : Nat} (hone : 512 ≤ ioBuf)
    (htwo : Straddles n → 1024 ≤ ioBuf) : Contained P (do
      let pos ← locateInode n
      let s ← query id
      assert (pos.secLba ≤ s.part.startLba + s.part.secCnt)
      writeSlot pos content ioBuf) := by
  apply Contained.bindOf (q := fun pos => pos.twoSecs = true → Straddles n) contained_locateInode
  · intro s pos s' _ h
    obtain ⟨-, rfl, -⟩ := returns_locateInode.mp h
    intro hpos
    have hleft : 512 - n * 76 % 512 < 76 := of_decide_eq_true hpos
    show 512 < n * 76 % 512 + 76
    omega
  · intro pos hpos
    refine (contained_query _).bind fun _ => (contained_assert _).bind fun _ => contained_writeSlot ?_
    split
    · next hsecs => exact htwo (hpos hsecs)
    · exact hone

theorem contained_inodeSync {v : Inode} {ioBuf : Nat} (hone : 512 ≤ ioBuf)
    (htwo : Straddles (v.iNo % 256) → 1024 ≤ ioBuf) : Contained P (inodeSync v ioBuf) :=
  contained_slotWriter hone htwo

/-- Two sectors are enough for every inode. -/
theorem contained_inodeSync_two {v : Inode} : Contained P (inodeSync v 1024) :=
  contained_inodeSync (by decide) fun _ => le_rfl

theorem contained_inodeDelete_two : Contained P (inodeDelete n 1024) :=
  (contained_assert _).bind fun _ => contained_slotWriter (by decide) fun _ => le_rfl

theorem contained_releaseBlock {lba : Nat} : Contained P (releaseBlock lba) :=
  (contained_query _).bind fun _ => (contained_assert _).bind fun _ =>
    contained_blockBitmapSet.bind fun _ => contained_bitmapSync

theorem contained_releaseBlocks {allBlocks : Nat → Nat} (n blockIdx : Nat) :
    Contained P (releaseBlocks allBlocks n blockIdx) := by
  induction n generalizing blockIdx with
  | zero => exact contained_pure _
  | succ n ih =>
    simp only [releaseBlocks]
    split
    · exact contained_releaseBlock.bind fun _ => ih _
    · exact ih _

theorem contained_syncDirEntryNewBlock {e : DirEntry} {allBlocks : Nat → Nat} {blockIdx : Nat} :
    Contained P (syncDirEntryNewBlock a e allBlocks blockIdx) := by
  refine (contained_query _).bind fun s => contained_blockBitmapAlloc.bind fun r => ?_
  cases r with
  | none => exact contained_pure _
  | some blockLba =>
    have hlast (r : Option Nat) : Contained P (syncDirEntryPut a (id s).part.sb e r) := by
      cases r with
      | none => exact contained_pure _
      | some dataLba =>
        exact contained_ideWrite.bind fun _ => contained_setInodeSize.bind fun _ => contained_pure _
    refine contained_bitmapSync.bind fun _ => ?_
    split
    · exact contained_setInodeSector.bind fun _ => (contained_pure _).bind hlast
    · split
      · refine contained_setInodeSector.bind fun _ => contained_blockBitmapAlloc.bind fun r => ?_
        cases r with
        | none =>
          exact contained_blockBitmapSet.bind fun _ => contained_setInodeSector.bind fun _ =>
            (contained_pure _).bind hlast
        | some dataLba =>
          exact contained_bitmapSync.bind fun _ => contained_ideWrite.bind fun _ =>
            (contained_pure _).bind hlast
      · exact contained_getInode.bind fun _ => contained_ideWrite.bind fun _ => (contained_pure _).bind hlast

theorem contained_syncDirEntryLoop {e : DirEntry} {allBlocks : Nat → Nat} {perSec : Nat}
    (n blockIdx : Nat) : Contained P (syncDirEntryLoop a e allBlocks perSec n blockIdx) := by
  induction n generalizing blockIdx with
  | zero => exact contained_pure _
  | succ n ih =>
    simp only [syncDirEntryLoop]
    split
    · exact contained_syncDirEntryNewBlock
    · refine contained_ideRead_sector.bind fun block => ?_
      split
      · exact (contained_query _).bind fun _ => contained_ideWrite.bind fun _ =>
          contained_setInodeSize.bind fun _ => contained_pure _
      · exact ih _

theorem contained_syncDirEntry {e : DirEntry} : Contained P (syncDirEntry d e) :=
  contained_dirInode.bind fun _ => contained_getInode.bind fun _ => (contained_query _).bind fun _ =>
    (contained_assert _).bind fun _ => contained_syncDirEntryLoop _ _

theorem contained_deleteFound {allBlocks : Nat → Nat} {blockIdx idx : Nat} {block : Bytes}
    {r : DeleteScan} : Contained P (deleteFound a allBlocks blockIdx block r idx) := by
  have hlast (size : Nat) : Contained P (do
      let v ← getInode a
      assert (v.iSize ≥ size)
      setInodeSize a fun n => n - size
      let v ← getInode a
      inodeSync v 1024
      return true : FsM Bool) :=
    contained_getInode.bind fun _ => (contained_assert _).bind fun _ => contained_setInodeSize.bind fun _ =>
      contained_getInode.bind fun _ => contained_inodeSync_two.bind fun _ => contained_pure _
  refine (contained_query _).bind fun s => ?_
  split
  · refine contained_blockBitmapSet.bind fun _ => contained_bitmapSync.bind fun _ => ?_
    split
    · exact contained_setInodeSector.bind fun _ => hlast _
    · exact (contained_stop (by decide)).bind fun _ => hlast _
  · exact contained_ideWrite.bind fun _ => hlast _

theorem contained_deleteDirEntryLoop {iNo perSec : Nat} {allBlocks : Nat → Nat} (n blockIdx : Nat)
    (first : Bool) : Contained P (deleteDirEntryLoop a iNo allBlocks perSec n blockIdx first) := by
  induction n generalizing blockIdx first with
  | zero => exact contained_pure _
  | succ n ih =>
    simp only [deleteDirEntryLoop]
    split
    · exact ih _ _
    · refine contained_ideRead_sector.bind fun block => ?_
      split
      · exact ih _ _
      · exact contained_deleteFound

theorem contained_deleteDirEntry : Contained P (deleteDirEntry d n) :=
  contained_dirInode.bind fun _ => contained_getInode.bind fun _ => (contained_require _).bind fun _ =>
    (contained_query _).bind fun _ => contained_deleteDirEntryLoop _ _ _

theorem contained_fileAllocBlocks (n blockIdx : Nat) (allBlocks : Nat → Nat) :
    Contained P (fileAllocBlocks a n blockIdx allBlocks) := by
  induction n generalizing blockIdx allBlocks with
  | zero => exact contained_pure _
  | succ n ih =>
    simp only [fileAllocBlocks]
    refine contained_blockBitmapAlloc.bind fun r => ?_
    cases r with
    | none => exact contained_pure _
    | some blockLba =>
      dsimp only
      split
      · exact contained_getInode.bind fun _ => (contained_assert _).bind fun _ =>
          contained_setInodeSector.bind fun _ => (contained_query _).bind fun _ =>
            contained_bitmapSync.bind fun _ => ih _ _
      · exact (contained_query _).bind fun _ => contained_bitmapSync.bind fun _ => ih _ _

theorem contained_fileAllocIndirect (n : Nat) (allBlocks : Nat → Nat) :
    Contained P (fileAllocIndirect n allBlocks) := by
  cases n with
  | zero => exact contained_pure _
  | succ n => exact contained_blockBitmapAlloc.bind fun _ => contained_pure _

theorem contained_fileCollectBlocks {hasUsed willUse : Nat} :
    Contained P (fileCollectBlocks a hasUsed willUse) := by
  simp only [fileCollectBlocks]
  refine contained_getInode.bind fun v => ?_
  split
  · split
    · exact contained_pure _
    · exact (contained_assert _).bind fun _ => contained_ideRead_sector.bind fun _ => contained_pure _
  · split
    · exact (contained_require _).bind fun _ => (contained_assert _).bind fun _ =>
        contained_fileAllocBlocks _ _ _
    · split
      · refine (contained_assert _).bind fun _ => contained_blockBitmapAlloc.bind fun r => ?_
        cases r with
        | none => exact contained_pure _
        | some tableLba =>
          refine contained_getInode.bind fun _ => (contained_assert _).bind fun _ =>
            contained_setInodeSector.bind fun _ => (contained_fileAllocBlocks _ _ _).bind fun blocks => ?_
          cases blocks with
          | none => exact contained_pure _
          | some allBlocks => exact contained_ideWrite.bind fun _ => contained_pure _
      · refine (contained_assert _).bind fun _ => contained_ideRead_sector.bind fun _ =>
          (contained_fileAllocIndirect _ _).bind fun blocks => ?_
        cases blocks with
        | none => exact contained_pure _
        | some allBlocks => exact contained_ideWrite.bind fun _ => contained_pure _

end Quiet

/-! ## Functions that read into a block of the heap -/

/-- The heap serves every request from now on. -/
def Fs.Served (s : Fs) : Prop := ∀ i, s.heap.next ≤ i → s.heap.full i = false

instance : Quiet (Kept Fs.Served) where
  disk _ _ := fun h => h
  inodeMap _ _ := fun h => h
  blockBitmap _ _ := fun h => h
  sector _ _ _ _ _ _ := fun h => h
  size _ _ _ _ _ := fun h => h
  refused _ := fun h i hi => h i (Nat.le_of_succ_le hi)
  served _ _ := fun h i hi => h i (Nat.le_of_succ_le hi)

section Served

variable {a n : Nat} {d : DirPtr} {name path : CStr} {fd : Int}

/-- A request that is served leads to a block. -/
theorem contained_withBlock {β : Type} {f : Option Nat → FsM β}
    (hf : ∀ p, p ≠ none → Contained Fs.Served (f p)) : Contained Fs.Served (sysMalloc >>= f) := by
  apply Contained.bindOf (q := fun p => p ≠ none) contained_sysMalloc
  · rintro s r s' hs h rfl
    have hfull := full_of_sysMalloc h
    rw [hs _ le_rfl] at hfull
    cases hfull
  · exact hf

/-- An edit of the file system alone. -/
theorem contained_edit {g : Fs → Fs} (hheap : ∀ s, (g s).heap = s.heap) : Contained Fs.Served (update g) := by
  refine contained_update fun s hs => ?_
  show (∀ i, (g s).heap.next ≤ i → (g s).heap.full i = false)
  rw [hheap s]
  exact hs

theorem contained_sysFree {ptr : Option Nat} : Contained Fs.Served (sysFree ptr) :=
  (contained_assert _).bind fun _ => contained_update fun _ h => h

theorem contained_putInode {v : Inode} : Contained Fs.Served (putInode a v) :=
  contained_edit fun _ => rfl

theorem contained_putFile {f : File} : Contained Fs.Served (putFile n f) :=
  contained_edit fun _ => rfl

theorem contained_putThread {t : Task} : Contained Fs.Served (putThread t) :=
  contained_edit fun _ => rfl

theorem contained_inodeOpen : Contained Fs.Served (inodeOpen n) := by
  refine (contained_query _).bind fun s => (contained_findOpenInode _).bind fun found => ?_
  cases found with
  | some b => exact contained_getInode.bind fun _ => contained_putInode.bind fun _ => contained_pure _
  | none =>
    refine contained_locateInode.bind fun _ => contained_mallocFrom.bind fun inodeFound => ?_
    refine contained_withBlock fun inodeBuf hbuf => (contained_fits hbuf).bind fun _ =>
      contained_readSlot.bind fun v => ?_
    cases inodeFound with
    | none => exact contained_stop (by decide)
    | some b =>
      exact contained_putInode.bind fun _ => (contained_edit fun _ => by rfl).bind fun _ =>
        contained_sysFree.bind fun _ => contained_pure _

theorem contained_inodeClose : Contained Fs.Served (inodeClose a) := by
  refine contained_getInode.bind fun v => contained_putInode.bind fun _ => ?_
  generalize (if v.iOpenCnt = 0 then 2 ^ 32 - 1 else v.iOpenCnt - 1) = cnt
  split
  · exact (contained_edit fun _ => by rfl).bind fun _ => contained_sysFree
  · exact contained_pure _

theorem contained_inodeRelease : Contained Fs.Served (inodeRelease n) := by
  have hlast (allBlocks : Nat → Nat) (b : Nat) : Contained Fs.Served (do
      releaseBlocks allBlocks 139 0
      inodeMapSet n false
      bitmapSync n .inodeBitmap
      let ioBuf ← sysMalloc
      fits (ioBuf ≠ none)
      inodeDelete n 1024
      sysFree ioBuf
      inodeClose b : FsM Unit) := by
    refine (contained_releaseBlocks _ _).bind fun _ => contained_inodeMapSet.bind fun _ =>
      contained_bitmapSync.bind fun _ => ?_
    exact contained_withBlock fun ioBuf hbuf => (contained_fits hbuf).bind fun _ =>
      contained_inodeDelete_two.bind fun _ => contained_sysFree.bind fun _ => contained_inodeClose
  refine contained_inodeOpen.bind fun b => contained_getInode.bind fun v =>
    (contained_assert _).bind fun _ => ?_
  split
  · exact contained_ideRead_sector.bind fun _ => contained_releaseBlock.bind fun _ =>
      (contained_pure _).bind fun _ => hlast _ _
  · exact (contained_pure _).bind fun _ => hlast _ _

theorem contained_dirOpen : Contained Fs.Served (dirOpen n) :=
  contained_sysMalloc.bind fun dir => contained_inodeOpen.bind fun _ => (contained_deref dir).bind fun _ =>
    (contained_edit fun _ => by rfl).bind fun _ => contained_pure _

theorem contained_dirClose : Contained Fs.Served (dirClose d) := by
  cases d with
  | root => exact contained_pure _
  | heap d =>
    exact contained_getDir.bind fun _ => contained_inodeClose.bind fun _ =>
      (contained_edit fun _ => by rfl).bind fun _ => contained_sysFree

/-- The block `search_dir_entry` reads into is one the heap has just handed out. -/
theorem contained_searchDirEntry : Contained Fs.Served (searchDirEntry d name) := by
  refine contained_sysMalloc.bind fun allBlocksMem => ?_
  split
  · exact contained_pure _
  · refine contained_dirInode.bind fun _ => contained_getInode.bind fun _ => contained_readAllBlocks.bind fun _ => ?_
    exact contained_withBlock fun buf hbuf => (contained_query _).bind fun _ =>
      (contained_searchBlocks hbuf _ _).bind fun _ => contained_sysFree.bind fun _ =>
        contained_sysFree.bind fun _ => contained_pure _

theorem contained_dirRemove {child : DirPtr} : Contained Fs.Served (dirRemove d child) := by
  refine contained_dirInode.bind fun _ => contained_getInode.bind fun _ => (contained_assert _).bind fun _ =>
    (contained_query _).bind fun _ => (contained_assert _).bind fun _ => contained_sysMalloc.bind fun ioBuf => ?_
  split
  · exact contained_pure _
  · exact contained_deleteDirEntry.bind fun _ => contained_getInode.bind fun _ =>
      contained_inodeRelease.bind fun _ => contained_sysFree.bind fun _ => contained_pure _

/-- The loop of `search_file`: one component after the other. -/
theorem contained_searchLoop (fuel : Nat) (st : SearchState) : Contained Fs.Served (searchLoop fuel st) := by
  induction fuel generalizing st with
  | zero => exact contained_stop (by decide)
  | succ fuel ih =>
    simp only [searchLoop]
    split
    · exact contained_dirClose.bind fun _ => contained_dirOpen.bind fun _ => (contained_deref _).bind fun _ =>
        contained_pure _
    · refine (contained_assert _).bind fun _ => contained_searchDirEntry.bind fun found => ?_
      cases found with
      | none => exact contained_pure _
      | some e =>
        refine contained_pathNext.bind fun r => ?_
        split
        · exact contained_dirInode.bind fun _ => contained_getInode.bind fun _ => contained_dirClose.bind fun _ =>
            contained_dirOpen.bind fun _ => ih _
        · split
          · exact contained_pure _
          · exact ih _

theorem contained_searchFile : Contained Fs.Served (searchFile path) := by
  unfold searchFile
  split
  · exact contained_pure _
  · exact (contained_assert _).bind fun _ => contained_pathParse.bind fun _ => contained_searchLoop _ _

/-! ## The calls -/

theorem contained_pcbFdInstall {globalFdIdx : Nat} : Contained Fs.Served (pcbFdInstall globalFdIdx) := by
  refine contained_runningThread.bind fun cur => ?_
  split
  · exact contained_pure _
  · exact contained_putThread.bind fun _ => contained_pure _

theorem contained_getFreeSlotInGlobal : Contained Fs.Served getFreeSlotInGlobal :=
  (contained_query _).bind fun _ => contained_pure _

/-- `file_create` syncs both inodes through a buffer of two sectors. -/
theorem contained_fileCreate {flag : Nat} : Contained Fs.Served (fileCreate d name flag) := by
  refine contained_sysMalloc.bind fun ioBuf => ?_
  split
  · exact contained_pure _
  · refine contained_inodeBitmapAlloc.bind fun r => ?_
    cases r with
    | none => exact contained_pure _
    | some inodeNo =>
      refine contained_sysMalloc.bind fun r => ?_
      cases r with
      | none => exact contained_inodeMapSet.bind fun _ => contained_sysFree.bind fun _ => contained_pure _
      | some new =>
        refine contained_putInode.bind fun _ => contained_getFreeSlotInGlobal.bind fun r => ?_
        cases r with
        | none =>
          exact (contained_edit fun _ => by rfl).bind fun _ => contained_sysFree.bind fun _ =>
            contained_inodeMapSet.bind fun _ => contained_sysFree.bind fun _ => contained_pure _
        | some fdIdx =>
          refine contained_putFile.bind fun _ => contained_createDirEntry.bind fun _ =>
            contained_syncDirEntry.bind fun done => ?_
          have hrest : Contained Fs.Served (do
              let parentInode ← dirInode d
              let parent ← getInode parentInode
              inodeSync parent 1024
              let v ← getInode new
              inodeSync v 1024
              bitmapSync inodeNo .inodeBitmap
              update fun s => { s with openInodes := new :: s.openInodes }
              let v ← getInode new
              putInode new { v with iOpenCnt := 1 }
              sysFree ioBuf
              pcbFdInstall fdIdx : FsM Int) :=
            contained_dirInode.bind fun _ => contained_getInode.bind fun _ => contained_inodeSync_two.bind fun _ =>
              contained_getInode.bind fun _ => contained_inodeSync_two.bind fun _ =>
                contained_bitmapSync.bind fun _ => (contained_edit fun _ => by rfl).bind fun _ =>
                  contained_getInode.bind fun _ => contained_putInode.bind fun _ =>
                    contained_sysFree.bind fun _ => contained_pcbFdInstall
          split
          · exact contained_putFile.bind fun _ => (contained_edit fun _ => by rfl).bind fun _ =>
              contained_sysFree.bind fun _ => contained_inodeMapSet.bind fun _ => contained_sysFree.bind fun _ =>
                contained_pure _
          · exact hrest

theorem contained_fileOpen {flags : Nat} : Contained Fs.Served (fileOpen n flags) := by
  refine contained_getFreeSlotInGlobal.bind fun r => ?_
  cases r with
  | none => exact contained_pure _
  | some fdIdx =>
    refine contained_inodeOpen.bind fun a => contained_putFile.bind fun _ => ?_
    split
    · refine contained_getInode.bind fun v => ?_
      split
      · exact contained_pure _
      · exact contained_putInode.bind fun _ => contained_pcbFdInstall
    · exact contained_pcbFdInstall

theorem contained_sysOpen {flags : Nat} : Contained Fs.Served (sysOpen path flags) := by
  have hfail (r : PathSearchRecord) : Contained Fs.Served (do
      dirClose r.parentDir
      return -1 : FsM Int) := contained_dirClose.bind fun _ => contained_pure _
  refine (contained_require _).bind fun _ => ?_
  split
  · exact contained_pure _
  · refine (contained_assert _).bind fun _ => contained_pathDepthCnt.bind fun _ =>
      contained_searchFile.bind fun r => ?_
    dsimp only
    split
    · exact hfail _
    · refine contained_pathDepthCnt.bind fun _ => ?_
      split
      · exact hfail _
      · split
        · split
          · exact contained_fileCreate.bind fun _ => contained_dirClose.bind fun _ => contained_pure _
          · exact hfail _
        · split
          · exact hfail _
          · exact contained_fileOpen

theorem contained_sysUnlink : Contained Fs.Served (sysUnlink path) := by
  have hfail (r : PathSearchRecord) : Contained Fs.Served (do
      dirClose r.parentDir
      return -1 : FsM Int) := contained_dirClose.bind fun _ => contained_pure _
  refine (contained_assert _).bind fun _ => contained_searchFile.bind fun r => ?_
  dsimp only
  refine (contained_assert _).bind fun _ => ?_
  split
  · exact hfail _
  · split
    · exact hfail _
    · refine (contained_findOpenFile _ _).bind fun _ => ?_
      split
      · exact hfail _
      · refine contained_sysMalloc.bind fun _ => ?_
        split
        · exact hfail _
        · exact contained_deleteDirEntry.bind fun _ => contained_inodeRelease.bind fun _ =>
            contained_sysFree.bind fun _ => contained_dirClose.bind fun _ => contained_pure _

theorem contained_mkdirInstall {r : PathSearchRecord} {ioBuf : Option Nat} :
    Contained Fs.Served (mkdirInstall r ioBuf n) := by
  refine (contained_query _).bind fun s => contained_blockBitmapAlloc.bind fun blockLba => ?_
  cases blockLba with
  | none =>
    exact contained_inodeMapSet.bind fun _ => contained_dirClose.bind fun _ => contained_sysFree.bind fun _ =>
      contained_pure _
  | some blockLba =>
    exact (contained_assert _).bind fun _ => contained_bitmapSync.bind fun _ => contained_dirInode.bind fun _ =>
      contained_getInode.bind fun _ => contained_ideWrite.bind fun _ => contained_createDirEntry.bind fun _ =>
        contained_syncDirEntry.bind fun _ => contained_getInode.bind fun _ => contained_inodeSync_two.bind fun _ =>
          contained_inodeSync_two.bind fun _ => contained_bitmapSync.bind fun _ => contained_sysFree.bind fun _ =>
            contained_dirClose.bind fun _ => contained_pure _

theorem contained_sysMkdir : Contained Fs.Served (sysMkdir path) := by
  have hfail (r : PathSearchRecord) (ioBuf : Option Nat) : Contained Fs.Served (do
      dirClose r.parentDir
      sysFree ioBuf
      return -1 : FsM Int) := contained_dirClose.bind fun _ => contained_sysFree.bind fun _ => contained_pure _
  refine contained_sysMalloc.bind fun ioBuf => ?_
  split
  · exact contained_pure _
  · refine contained_searchFile.bind fun r => ?_
    dsimp only
    split
    · exact hfail _ _
    · refine contained_pathDepthCnt.bind fun _ => contained_pathDepthCnt.bind fun _ => ?_
      split
      · exact hfail _ _
      · refine contained_inodeBitmapAlloc.bind fun iNo => ?_
        cases iNo with
        | none => exact hfail _ _
        | some iNo => exact contained_mkdirInstall

theorem contained_sysOpendir : Contained Fs.Served (sysOpendir path) := by
  refine (contained_assert _).bind fun _ => ?_
  split
  · exact contained_pure _
  · apply contained_searchFile.bind
    rintro ⟨iNo, r⟩
    have hlast (ret : Option DirPtr) : Contained Fs.Served (do
        dirClose r.parentDir
        return ret : FsM (Option DirPtr)) := contained_dirClose.bind fun _ => contained_pure _
    cases iNo with
    | none => exact (contained_pure _).bind hlast
    | some iNo =>
      dsimp only
      split
      · exact (contained_pure _).bind hlast
      · split
        · exact contained_dirOpen.bind fun _ => (contained_pure _).bind hlast
        · exact (contained_pure _).bind hlast

theorem contained_sysClosedir {dir : Option DirPtr} : Contained Fs.Served (sysClosedir dir) := by
  cases dir with
  | none => exact contained_pure _
  | some d => exact contained_dirClose.bind fun _ => contained_pure _

theorem contained_sysRmdir : Contained Fs.Served (sysRmdir path) := by
  refine contained_searchFile.bind fun r => (contained_assert _).bind fun _ => ?_
  have hlast (ret : Int) : Contained Fs.Served (do
      dirClose r.2.parentDir
      return ret : FsM Int) := contained_dirClose.bind fun _ => contained_pure _
  split
  · exact (contained_pure _).bind hlast
  · split
    · exact (contained_pure _).bind hlast
    · refine contained_dirOpen.bind fun dir => contained_dirIsEmpty.bind fun _ => ?_
      have hclose (ret : Int) : Contained Fs.Served (do
          dirClose dir
          let ret ← pure ret
          dirClose r.2.parentDir
          return ret : FsM Int) := contained_dirClose.bind fun _ => (contained_pure _).bind hlast
      split
      · exact (contained_pure _).bind hclose
      · exact contained_dirRemove.bind fun _ => (contained_pure _).bind hclose

theorem contained_sysChdir : Contained Fs.Served (sysChdir path) := by
  apply contained_searchFile.bind
  rintro ⟨iNo, r⟩
  have hlast (ret : Int) : Contained Fs.Served (do
      dirClose r.parentDir
      return ret : FsM Int) := contained_dirClose.bind fun _ => contained_pure _
  cases iNo with
  | none => exact (contained_pure _).bind hlast
  | some iNo =>
    dsimp only
    split
    · exact contained_runningThread.bind fun _ => contained_putThread.bind fun _ => (contained_pure _).bind hlast
    · exact (contained_pure _).bind hlast

theorem contained_sysStat : Contained Fs.Served (sysStat path) := by
  unfold sysStat
  split
  · exact contained_dirInode.bind fun _ => contained_getInode.bind fun _ => contained_pure _
  · apply contained_searchFile.bind
    rintro ⟨iNo, r⟩
    have hlast (ret : Option Stat) : Contained Fs.Served (do
        dirClose r.parentDir
        return ret : FsM (Option Stat)) := contained_dirClose.bind fun _ => contained_pure _
    cases iNo with
    | none => exact (contained_pure _).bind hlast
    | some iNo =>
      exact contained_inodeOpen.bind fun _ => contained_getInode.bind fun _ => contained_inodeClose.bind fun _ =>
        (contained_pure _).bind hlast

theorem contained_fileClose : Contained Fs.Served (fileClose n) :=
  (contained_query _).bind fun _ => (contained_deref _).bind fun _ => contained_getInode.bind fun _ =>
    contained_putInode.bind fun _ => contained_inodeClose.bind fun _ => (contained_query _).bind fun _ =>
      contained_putFile.bind fun _ => contained_pure _

theorem contained_setFd {value : Int} : Contained Fs.Served (setFd fd value) := by
  refine contained_runningThread.bind fun cur => ?_
  split
  · exact contained_putThread
  · exact contained_stop (by decide)

theorem contained_sysClose : Contained Fs.Served (sysClose fd) := by
  unfold sysClose
  split
  · refine contained_fdLocalToGlobal.bind fun g => contained_isPipe.bind fun pipe => ?_
    have hlast (ret : Int) : Contained Fs.Served (do
        setFd fd (-1)
        return ret : FsM Int) := contained_setFd.bind fun _ => contained_pure _
    split
    · refine (contained_query _).bind fun s => contained_putFile.bind fun _ => ?_
      split
      · exact (contained_assert _).bind fun _ => (contained_edit fun _ => by rfl).bind fun _ =>
          contained_putFile.bind fun _ => (contained_pure _).bind hlast
      · exact (contained_pure _).bind hlast
    · exact contained_fileClose.bind hlast
  · exact contained_pure _

theorem contained_pipeWriteLoop {buf : Bytes} (m k : Nat) : Contained Fs.Served (pipeWriteLoop a buf m k) := by
  induction m generalizing k with
  | zero => exact contained_pure _
  | succ m ih =>
    refine (contained_query _).bind fun _ => (contained_deref _).bind fun r => ?_
    split
    · exact (contained_stop (by decide)).bind fun _ => (contained_edit fun _ => by rfl).bind fun _ => ih _
    · exact (contained_edit fun _ => by rfl).bind fun _ => ih _

theorem contained_pipeWrite {buf : Bytes} {cnt : Nat} : Contained Fs.Served (pipeWrite fd buf cnt) :=
  contained_fdLocalToGlobal.bind fun _ => (contained_query _).bind fun _ => (contained_deref _).bind fun _ =>
    (contained_deref _).bind fun _ => (contained_pipeWriteLoop _ _).bind fun _ => contained_pure _

theorem contained_pipeReadLoop (m k : Nat) (dst : Bytes) : Contained Fs.Served (pipeReadLoop a m k dst) := by
  induction m generalizing k dst with
  | zero => exact contained_pure _
  | succ m ih =>
    refine (contained_query _).bind fun _ => (contained_deref _).bind fun r => ?_
    split
    · exact (contained_stop (by decide)).bind fun _ => (contained_edit fun _ => by rfl).bind fun _ => ih _ _
    · exact (contained_edit fun _ => by rfl).bind fun _ => ih _ _

theorem contained_pipeRead {cnt : Nat} : Contained Fs.Served (pipeRead fd cnt) :=
  contained_fdLocalToGlobal.bind fun _ => (contained_query _).bind fun _ => (contained_deref _).bind fun _ =>
    (contained_deref _).bind fun _ => (contained_pipeReadLoop _ _ _).bind fun _ => contained_pure _

/-- The data loop of `file_read` reads one sector at a time. -/
theorem contained_fileReadLoop {allBlocks : Nat → Nat} (fuel bytesRead sizeLeft : Nat) (dst : Bytes) :
    Contained Fs.Served (fileReadLoop n allBlocks fuel bytesRead sizeLeft dst) := by
  induction fuel generalizing bytesRead sizeLeft dst with
  | zero => exact contained_pure _
  | succ fuel ih =>
    simp only [fileReadLoop]
    split
    · exact contained_pure _
    · exact (contained_query _).bind fun _ => (contained_require _).bind fun _ =>
        contained_ideRead_sector.bind fun _ => contained_putFile.bind fun _ => ih _ _ _

theorem contained_fileRead {cnt : Nat} : Contained Fs.Served (fileRead n cnt) := by
  refine (contained_query _).bind fun s => (contained_deref _).bind fun _ => contained_getInode.bind fun v => ?_
  dsimp only
  split
  · exact contained_pure _
  · refine contained_sysMalloc.bind fun ioBuf => ?_
    split
    · exact contained_pure _
    · refine contained_sysMalloc.bind fun allBlocksMem => ?_
      split
      · exact contained_pure _
      · exact (contained_assert _).bind fun _ => contained_fileReadBlocks.bind fun _ =>
          (contained_fileReadLoop _ _ _ _).bind fun _ => contained_sysFree.bind fun _ =>
            contained_sysFree.bind fun _ => contained_pure _

theorem contained_sysRead {cnt : Nat} {kbd : Bytes} : Contained Fs.Served (sysRead fd cnt kbd) := by
  refine (contained_assert _).bind fun _ => ?_
  split
  · exact contained_pure _
  · refine contained_isPipe.bind fun pipe => ?_
    split
    · exact contained_pipeRead
    · split
      · exact contained_pure _
      · exact contained_fdLocalToGlobal.bind fun _ => contained_fileRead

theorem contained_putDir {dir : Dir} : Contained Fs.Served (putDir d dir) := by
  cases d with
  | root => exact contained_edit fun _ => rfl
  | heap d => exact contained_edit fun _ => rfl

theorem contained_dirReadLoop {dir : Dir} {iSize size : Nat} {allBlocks : Nat → Nat} (m blockIdx curPos : Nat) :
    Contained Fs.Served (dirReadLoop d dir iSize allBlocks size m blockIdx curPos) := by
  induction m generalizing blockIdx curPos with
  | zero => exact contained_pure _
  | succ m ih =>
    simp only [dirReadLoop]
    split
    · exact contained_pure _
    · split
      · exact ih _ _
      · refine contained_ideRead_sector.bind fun block => ?_
        split
        · exact (contained_assert _).bind fun _ => contained_putDir.bind fun _ => contained_pure _
        · exact ih _ _

theorem contained_sysReaddir {dir : Option DirPtr} : Contained Fs.Served (sysReaddir dir) :=
  (contained_assert _).bind fun _ => (contained_deref _).bind fun _ => contained_getDir.bind fun _ =>
    contained_getInode.bind fun _ => contained_readAllBlocks.bind fun _ => (contained_query _).bind fun _ =>
      contained_dirReadLoop _ _ _

theorem contained_sysRewinddir {dir : Option DirPtr} : Contained Fs.Served (sysRewinddir dir) :=
  (contained_deref _).bind fun _ => contained_getDir.bind fun _ => contained_putDir

theorem contained_getParentDirINo : Contained Fs.Served (getParentDirINo n) :=
  contained_inodeOpen.bind fun _ => contained_getInode.bind fun _ => (contained_query _).bind fun _ =>
    (contained_assert _).bind fun _ => contained_inodeClose.bind fun _ => contained_ideRead_sector.bind fun _ =>
      (contained_assert _).bind fun _ => contained_pure _

theorem contained_getChildDirName {childINo : Nat} {p : CStr} :
    Contained Fs.Served (getChildDirName n childINo p) := by
  refine contained_inodeOpen.bind fun _ => contained_getInode.bind fun v => contained_readAllBlocks.bind fun _ =>
    contained_inodeClose.bind fun _ => (contained_query _).bind fun _ =>
      (contained_childNameBlocks _ _).bind fun r => ?_
  cases r with
  | none => exact contained_pure _
  | some name => exact (contained_require _).bind fun _ => contained_pure _

theorem contained_climbLoop (fuel childINo : Nat) (p : CStr) :
    Contained Fs.Served (climbLoop fuel childINo p) := by
  induction fuel generalizing childINo p with
  | zero => exact contained_stop (by decide)
  | succ fuel ih =>
    simp only [climbLoop]
    split
    · exact contained_pure _
    · refine contained_getParentDirINo.bind fun _ => contained_getChildDirName.bind fun r => ?_
      cases r with
      | none => exact contained_pure _
      | some p => exact ih _ _

theorem contained_sysGetcwd {size : Nat} : Contained Fs.Served (sysGetcwd size) := by
  refine contained_sysMalloc.bind fun ioBuf => ?_
  split
  · exact contained_pure _
  · refine contained_runningThread.bind fun _ => (contained_assert _).bind fun _ => ?_
    split
    · exact contained_sysFree.bind fun _ => contained_pure _
    · refine (contained_climbLoop _ _ _).bind fun r => ?_
      cases r with
      | none => exact contained_sysFree.bind fun _ => contained_pure _
      | some p => exact (contained_assert _).bind fun _ => contained_sysFree.bind fun _ => contained_pure _

end Served

end ZxyOs
