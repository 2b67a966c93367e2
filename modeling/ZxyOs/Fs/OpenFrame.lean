/-
  ZxyOs.Fs.OpenFrame

  What the calls leave alone while inodes and directories are opened and closed.

  A `Loose` relation looks neither at the cache nor at which blocks of the heap are live.  Every
  call that follows a path and reads or writes directories keeps such a relation, whether it
  succeeds or fails.
-/

import ZxyOs.Fs.OpenUndo
import ZxyOs.Fs.Reading

namespace ZxyOs

open Lib Lib.Exec

/-- The edits of the cache and of the directory handles, and giving a block back to the heap, are steps of
    `R` as well. -/
class Loose (R : Fs → Fs → Prop) : Prop extends Quiet R where
  cache (s : Fs) (opens : List Nat) (f : Nat → Option Inode) : R s { s with openInodes := opens, inodes := f }
  dirs (s : Fs) (f : Nat → Option Dir) : R s { s with dirs := f }
  freed (s : Fs) (b : Nat) : R s { s with heap := s.heap.freed b }

section Loose

variable {R : Fs → Fs → Prop} [Loose R] {a n : Nat} {p : DirPtr} {path name : CStr}

theorem keeps_sysFree_loose {ptr : Option Nat} : Keeps R (sysFree ptr) := by
  intro s u t h
  obtain ⟨b, -, rfl⟩ := sysFree_inv h
  exact Loose.freed s b

/-! ## Inodes -/

theorem keeps_putInode {v : Inode} : Keeps R (putInode a v) := keeps_update fun s => Loose.cache s s.openInodes _

theorem keeps_findOpenInode {opens : List Nat} : Keeps R (findOpenInode n opens) := by
  intro s r t h
  obtain rfl := (returns_findOpenInode h).1
  exact refl_of R s

theorem keeps_inodeOpen : Keeps R (inodeOpen n) := by
  refine (keeps_query _).bind fun s => keeps_findOpenInode.bind fun found => ?_
  cases found with
  | some a => exact keeps_getInode.bind fun v => keeps_putInode.bind fun _ => keeps_pure _
  | none =>
    refine keeps_locateInode.bind fun _ => keeps_mallocFrom.bind fun inodeFound => keeps_sysMalloc.bind fun _ =>
      (keeps_fits _).bind fun _ => keeps_readSlot.bind fun v => ?_
    cases inodeFound with
    | none => exact keeps_stop _
    | some a =>
      exact keeps_putInode.bind fun _ => (keeps_update fun s => Loose.cache s _ s.inodes).bind fun _ =>
        keeps_sysFree_loose.bind fun _ => keeps_pure _

theorem keeps_inodeClose : Keeps R (inodeClose a) := by
  refine keeps_getInode.bind fun v => keeps_putInode.bind fun _ => ?_
  generalize (if v.iOpenCnt = 0 then 2 ^ 32 - 1 else v.iOpenCnt - 1) = cnt
  by_cases hzero : cnt = 0
  · rw [if_pos hzero]
    exact (keeps_update fun s => Loose.cache s _ _).bind fun _ => keeps_sysFree_loose
  · rw [if_neg hzero]
    exact keeps_pure _

theorem keeps_inodeRelease : Keeps R (inodeRelease n) := by
  have hrest (v : Inode) (inodeToDel : Nat) (all : Nat → Nat) : Keeps R (do
      releaseBlocks all 139 0
      inodeMapSet n false
      bitmapSync n .inodeBitmap
      let ioBuf ← sysMalloc
      fits (ioBuf ≠ none)
      inodeDelete n 1024
      sysFree ioBuf
      inodeClose inodeToDel) :=
    (keeps_releaseBlocks _ _).bind fun _ => keeps_inodeMapSet.bind fun _ => keeps_bitmapSync.bind fun _ =>
      keeps_sysMalloc.bind fun _ => (keeps_fits _).bind fun _ => keeps_inodeDelete.bind fun _ =>
        keeps_sysFree_loose.bind fun _ => keeps_inodeClose
  refine keeps_inodeOpen.bind fun inodeToDel => keeps_getInode.bind fun v => (keeps_assert _).bind fun _ => ?_
  split
  · exact keeps_ideRead.bind fun _ => keeps_releaseBlock.bind fun _ => (keeps_pure _).bind fun all => hrest v _ all
  · exact (keeps_pure _).bind fun all => hrest v _ all

/-! ## Directories -/

theorem keeps_dirOpen : Keeps R (dirOpen n) :=
  keeps_sysMalloc.bind fun _ => keeps_inodeOpen.bind fun _ => (keeps_deref _).bind fun _ =>
    (keeps_update fun s => Loose.dirs s _).bind fun _ => keeps_pure _

theorem keeps_getDir : Keeps R (getDir p) := by
  cases p with
  | root => exact keeps_query _
  | heap d => exact (keeps_query _).bind fun _ => keeps_deref _

theorem keeps_dirClose : Keeps R (dirClose p) := by
  cases p with
  | root => exact keeps_pure _
  | heap d =>
    exact keeps_getDir.bind fun _ => keeps_inodeClose.bind fun _ => (keeps_update fun s => Loose.dirs s _).bind fun _ =>
      keeps_sysFree_loose

theorem keeps_closing {α : Type} (r : α) : Keeps R (do dirClose p; return r) := keeps_dirClose.bind fun _ => keeps_pure _

theorem keeps_searchEntry : Keeps R (searchDirEntry p name) := by
  refine keeps_sysMalloc.bind fun r => ?_
  split
  · exact keeps_pure _
  · exact keeps_dirInode.bind fun _ => keeps_getInode.bind fun _ => keeps_readAllBlocks.bind fun _ =>
      keeps_sysMalloc.bind fun _ => (keeps_query _).bind fun _ => (keeps_searchBlocks _ _).bind fun _ =>
        keeps_sysFree_loose.bind fun _ => keeps_sysFree_loose.bind fun _ => keeps_pure _

/-- What leaves the state as it is keeps `R`. -/
theorem keeps_of_eq {α : Type} {x : FsM α} (h : Keeps Eq x) : Keeps R x := by
  intro s r t hrun
  obtain rfl := h hrun
  exact refl_of R s

theorem keeps_searchLoop (fuel : Nat) (st : SearchState) : Keeps R (searchLoop fuel st) := by
  induction fuel generalizing st with
  | zero => exact keeps_stop _
  | succ fuel ih =>
    simp only [searchLoop]
    split
    · exact keeps_dirClose.bind fun _ => keeps_dirOpen.bind fun _ => (keeps_deref _).bind fun _ => keeps_pure _
    · refine (keeps_assert _).bind fun _ => keeps_searchEntry.bind fun found => ?_
      cases found with
      | none => exact keeps_pure _
      | some e =>
        refine (keeps_of_eq keeps_pathNext).bind fun r => ?_
        split
        · exact keeps_dirInode.bind fun _ => keeps_getInode.bind fun _ => keeps_dirClose.bind fun _ =>
            keeps_dirOpen.bind fun _ => ih _
        split
        · exact keeps_pure _
        · exact ih _

theorem keeps_searchFile : Keeps R (searchFile path) := by
  rw [searchFile]
  split
  · exact keeps_pure _
  · exact (keeps_assert _).bind fun _ => (keeps_of_eq keeps_pathParse).bind fun _ =>
      keeps_searchLoop _ _

/-! ## Climbing to the root -/

theorem keeps_getParentDirINo : Keeps R (getParentDirINo n) :=
  keeps_inodeOpen.bind fun _ => keeps_getInode.bind fun _ => (keeps_query _).bind fun _ =>
    (keeps_assert _).bind fun _ => keeps_inodeClose.bind fun _ => keeps_ideRead.bind fun _ =>
      (keeps_assert _).bind fun _ => keeps_pure _

theorem keeps_childNameBlocks {allBlocks : Nat → Nat} {iNo perSec : Nat} (n blockIdx : Nat) :
    Keeps R (childNameBlocks allBlocks iNo perSec n blockIdx) := by
  induction n generalizing blockIdx with
  | zero => exact keeps_pure _
  | succ n ih =>
    simp only [childNameBlocks]
    split
    · exact ih _
    · refine keeps_ideRead.bind fun block => ?_
      split
      · exact keeps_pure _
      · exact ih _

theorem keeps_getChildDirName {m : Nat} : Keeps R (getChildDirName m n path) := by
  refine keeps_inodeOpen.bind fun _ => keeps_getInode.bind fun v => keeps_readAllBlocks.bind fun _ =>
    keeps_inodeClose.bind fun _ => (keeps_query _).bind fun _ => (keeps_childNameBlocks _ _).bind fun name => ?_
  cases name with
  | none => exact keeps_pure _
  | some name => exact (keeps_require _).bind fun _ => keeps_pure _

theorem keeps_climbLoop (fuel n : Nat) (path : CStr) : Keeps R (climbLoop fuel n path) := by
  induction fuel generalizing n path with
  | zero => exact keeps_stop _
  | succ fuel ih =>
    simp only [climbLoop]
    split
    · exact keeps_pure _
    · refine keeps_getParentDirINo.bind fun _ => keeps_getChildDirName.bind fun path => ?_
      cases path with
      | none => exact keeps_pure _
      | some path => exact ih _ _

theorem keeps_sysGetcwd {size : Nat} : Keeps R (sysGetcwd size) := by
  refine keeps_sysMalloc.bind fun ioBuf => ?_
  split
  · exact keeps_pure _
  refine keeps_runningThread.bind fun k => (keeps_assert _).bind fun _ => ?_
  split
  · exact keeps_sysFree_loose.bind fun _ => keeps_pure _
  refine (keeps_climbLoop _ _ _).bind fun path => ?_
  cases path with
  | none => exact keeps_sysFree_loose.bind fun _ => keeps_pure _
  | some path => exact (keeps_assert _).bind fun _ => keeps_sysFree_loose.bind fun _ => keeps_pure _

/-! ## Making a directory and deleting a file -/

theorem keeps_givesUp {ptr : Option Nat} (r : Int) : Keeps R (do dirClose p; sysFree ptr; return r) :=
  keeps_dirClose.bind fun _ => keeps_sysFree_loose.bind fun _ => keeps_pure _

theorem keeps_mkdirInstall {rec : PathSearchRecord} {ioBuf : Option Nat} {iNo : Nat} :
    Keeps R (mkdirInstall rec ioBuf iNo) := by
  refine (keeps_query _).bind fun _ => keeps_blockBitmapAlloc.bind fun blockLba => ?_
  cases blockLba with
  | none => exact keeps_inodeMapSet.bind fun _ => keeps_givesUp _
  | some blockLba =>
    exact (keeps_assert _).bind fun _ => keeps_bitmapSync.bind fun _ => keeps_dirInode.bind fun _ =>
      keeps_getInode.bind fun _ => keeps_ideWrite.bind fun _ => keeps_createDirEntry.bind fun _ =>
        keeps_syncDirEntry.bind fun _ => keeps_getInode.bind fun _ => keeps_inodeSync.bind fun _ =>
          keeps_inodeSync.bind fun _ => keeps_bitmapSync.bind fun _ => keeps_sysFree_loose.bind fun _ => keeps_closing _

theorem keeps_sysMkdir : Keeps R (sysMkdir path) := by
  refine keeps_sysMalloc.bind fun ioBuf => ?_
  split
  · exact keeps_pure _
  refine keeps_searchFile.bind fun out => ?_
  obtain ⟨number, rec⟩ := out
  dsimp only
  split
  · exact keeps_givesUp _
  refine (keeps_of_eq keeps_pathDepthCnt).bind fun _ => (keeps_of_eq keeps_pathDepthCnt).bind fun _ => ?_
  split
  · exact keeps_givesUp _
  refine keeps_inodeBitmapAlloc.bind fun iNo => ?_
  cases iNo with
  | none => exact keeps_givesUp _
  | some iNo => exact keeps_mkdirInstall

theorem keeps_openFile {iNo : Nat} (n fd : Nat) : Keeps R (findOpenFile iNo n fd) := by
  induction n generalizing fd with
  | zero => exact keeps_pure _
  | succ n ih =>
    refine (keeps_query _).bind fun s => ?_
    cases (s.fileTable fd).fdInode with
    | none => exact ih _
    | some a =>
      dsimp only
      split
      · exact ih _
      · refine keeps_getInode.bind fun v => ?_
        split
        · exact keeps_pure _
        · exact ih _

theorem keeps_sysUnlink : Keeps R (sysUnlink path) := by
  refine (keeps_assert _).bind fun _ => keeps_searchFile.bind fun out => (keeps_assert _).bind fun _ => ?_
  split
  · exact keeps_closing _
  split
  · exact keeps_closing _
  refine (keeps_openFile _ _).bind fun fd => ?_
  split
  · exact keeps_closing _
  refine keeps_sysMalloc.bind fun ioBuf => ?_
  split
  · exact keeps_closing _
  · exact keeps_deleteDirEntry.bind fun _ => keeps_inodeRelease.bind fun _ => keeps_sysFree_loose.bind fun _ =>
      keeps_closing _

end Loose

/-! ## The live blocks -/

/-- The blocks that are live lie below the addresses that are left. -/
def KeepsLive (s t : Fs) : Prop := s.heap.LiveBelow → t.heap.LiveBelow

instance : Std.Refl KeepsLive := ⟨fun _ h => h⟩

instance : IsTrans Fs KeepsLive := ⟨fun _ _ _ h h' hlive => h' (h hlive)⟩

instance : Loose KeepsLive where
  disk _ _ h := h
  inodeMap _ _ h := h
  blockBitmap _ _ h := h
  sector _ _ _ _ _ _ h := h
  size _ _ _ _ _ h := h
  refused _ h := h.goOn (Nat.le_succ _)
  served _ _ h := h.alloc
  cache _ _ _ h := h
  dirs _ _ h := h
  freed _ _ h c hc := h c (List.mem_filter.mp hc).1

end ZxyOs
