/-
  ZxyOs.Fs.Dir

  Directories, `fs/dir.c`: the entries stored in the blocks of a directory's
  inode, and the operations that look one up, add one, remove one and remove an
  empty directory.

  A directory entry is 24 bytes, 21 fit a sector, and an entry of type
  `FT_UNKOWN` is an empty slot.  An inode addresses 12 blocks directly and up to
  128 more through the index table at `i_sectors[12]`.
-/

import ZxyOs.Fs.Inode

namespace ZxyOs

open Lib Lib.Exec

/-- `FT_UNKOWN`, the type of an empty slot. -/
abbrev ftUnkown : Nat := 0

/-- `FT_REGULAR`. -/
abbrev ftRegular : Nat := 1

/-- `FT_DIR`. -/
abbrev ftDir : Nat := 2

/-- A C string without its terminator. -/
abbrev CStr : Type := List UInt8

/-- `"."`. -/
abbrev dot : CStr := [46]

/-- `".."`. -/
abbrev dotDot : CStr := [46, 46]

/-- `struct dir_entry`. -/
structure DirEntry where
  filename : CStr
  iNo : Nat
  fType : Nat
  deriving DecidableEq

/-- `!strcmp(name, p)` for a string `name` and the memory at `p`. -/
def strEq (p : Bytes) : CStr → Nat → Bool
  | [], k => p k == 0
  | c :: cs, k => p k == c && strEq p cs (k + 1)

namespace DirEntry

/-- The 24 bytes of a directory entry; the name is padded with zeros. -/
def encode (e : DirEntry) : Bytes := fun k =>
  if k < 16 then e.filename.getD k 0
  else if k < 20 then Bytes.wordByte e.iNo (k - 16)
  else Bytes.wordByte e.fType (k - 20)

/-- `i_no` of entry `idx` of a block. -/
def iNoAt (buf : Bytes) (idx : Nat) : Nat := Bytes.u32At buf (24 * idx + 16)

/-- `f_type` of entry `idx` of a block. -/
def fTypeAt (buf : Bytes) (idx : Nat) : Nat := Bytes.u32At buf (24 * idx + 20)

/-- `!strcmp(name, filename)` for entry `idx` of a block. -/
def nameIs (buf : Bytes) (idx : Nat) (name : CStr) : Bool := strEq buf name (24 * idx)

/-- The name of entry `idx` of a block. -/
def nameAt (buf : Bytes) (idx : Nat) : CStr :=
  ((List.range 16).map fun k => buf (24 * idx + k)).takeWhile (· ≠ 0)

/-- Entry `idx` of a block. -/
def decode (buf : Bytes) (idx : Nat) : DirEntry where
  filename := nameAt buf idx
  iNo := iNoAt buf idx
  fType := fTypeAt buf idx

end DirEntry

/-- `dir_open`: a handle on the directory with inode number `iNo`. -/
def dirOpen (iNo : Nat) : FsM DirPtr := do
  let dir ← sysMalloc
  let a ← inodeOpen iNo
  let dir ← deref dir
  update fun s => { s with dirs := Function.update s.dirs dir (some { inode := a, dirPose := 0 }) }
  return .heap dir

/-- `dir_close`: the root directory stays open. -/
def dirClose : DirPtr → FsM Unit
  | .root => return ()
  | .heap d => do
    let dir ← getDir (.heap d)
    inodeClose dir.inode
    update fun s => { s with dirs := Function.update s.dirs d none }
    sysFree (some d)

/-! ## Lookup -/

/-- The first entry of a block, among `n` from `idx` on, called `name`. -/
def findEntry (buf : Bytes) (name : CStr) : Nat → Nat → Option Nat
  | 0, _ => none
  | n + 1, idx => if DirEntry.nameIs buf idx name then some idx else findEntry buf name n (idx + 1)

/-- The block loop of `search_dir_entry`, from `blockIdx` on with `n` blocks left. -/
def searchBlocks (allBlocks : Nat → Nat) (name : CStr) (dirEntryCnt : Nat)
    (buf : Option Nat) : Nat → Nat → FsM (Option DirEntry)
  | 0, _ => return none
  | n + 1, blockIdx =>
    if allBlocks blockIdx = 0 then
      searchBlocks allBlocks name dirEntryCnt buf n (blockIdx + 1)
    else do
      fits (buf ≠ none)
      let block ← ideRead (allBlocks blockIdx) 1 512
      match findEntry block name dirEntryCnt 0 with
      | some idx => return some (DirEntry.decode block idx)
      | none => searchBlocks allBlocks name dirEntryCnt buf n (blockIdx + 1)

/-- The addresses of all blocks of an inode, the index table read from disk. -/
def readAllBlocks (v : Inode) : FsM (Nat → Nat) :=
  if v.sector 12 ≠ 0 then do
    let tbl ← ideRead (v.sector 12) 1 512
    return v.allBlocks tbl
  else
    return v.allBlocks Bytes.zero

/-- `search_dir_entry`: the entry called `name`; without memory for the block
    addresses nothing is found. -/
def searchDirEntry (dir : DirPtr) (name : CStr) : FsM (Option DirEntry) := do
  let allBlocksMem ← sysMalloc
  if allBlocksMem = none then
    return none
  let a ← dirInode dir
  let v ← getInode a
  let allBlocks ← readAllBlocks v
  let buf ← sysMalloc
  let s ← query id
  let found ← searchBlocks allBlocks name (512 / s.part.sb.dirEntrySize) buf 140 0
  sysFree buf
  sysFree allBlocksMem
  return found

/-! ## Insertion -/

/-- `create_dir_entry` on a zeroed entry. -/
def createDirEntry (filename : CStr) (iNo fType : Nat) : FsM DirEntry := do
  assert (filename.length ≤ 16)
  return { filename := filename, iNo := iNo, fType := fType }

/-- The first empty slot of a block, among `n` from `idx` on. -/
def findFreeSlot (buf : Bytes) : Nat → Nat → Option Nat
  | 0, _ => none
  | n + 1, idx =>
    if DirEntry.fTypeAt buf idx = ftUnkown then some idx else findFreeSlot buf n (idx + 1)

/-- The bytes of an array of words. -/
def wordsOf (f : Nat → Nat) : Bytes := fun a => Bytes.wordByte (f (a / 4)) (a % 4)

/-- `i_sectors[k] = lba` of the inode at `a`. -/
def setInodeSector (a k lba : Nat) : FsM Unit := do
  let v ← getInode a
  putInode a (v.setSector k lba)

/-- `i_size` of the inode at `a` becomes `f` of it. -/
def setInodeSize (a : Nat) (f : Nat → Nat) : FsM Unit := do
  let v ← getInode a
  putInode a { v with iSize := f v.iSize }

/-- `sync_dir_entry` where block `blockIdx` of the directory is missing: allocate
    it, enter it in the inode or in the index table, and write the new entry at
    its start.  The index table is never read: `allBlocks` is zero from 12 on. -/
def syncDirEntryNewBlock (a : Nat) (pDe : DirEntry) (allBlocks : Nat → Nat)
    (blockIdx : Nat) : FsM Bool := do
  let s ← query id
  let sb := s.part.sb
  let blockLba ← blockBitmapAlloc
  match blockLba with
  | none => return false
  | some blockLba =>
    bitmapSync (blockBitmapIdx sb blockLba) .blockBitmap
    let dataLba ←
      if blockIdx < 12 then do
        setInodeSector a blockIdx blockLba
        pure (some blockLba)
      else if blockIdx = 12 then do
        -- the block just taken becomes the index table, a second one holds the entry
        setInodeSector a 12 blockLba
        let dataLba ← blockBitmapAlloc
        match dataLba with
        | none =>
          blockBitmapSet (blockBitmapIdx sb blockLba) false
          setInodeSector a 12 0
          pure none
        | some dataLba =>
          bitmapSync (blockBitmapIdx sb dataLba) .blockBitmap
          ideWrite blockLba
            (wordsOf fun j => if 12 + j = blockIdx then dataLba else allBlocks (12 + j)) 1
          pure (some dataLba)
      else do
        let v ← getInode a
        ideWrite (v.sector 12)
          (wordsOf fun j => if 12 + j = blockIdx then blockLba else allBlocks (12 + j)) 1
        pure (some blockLba)
    match dataLba with
    | none => return false
    | some dataLba =>
      ideWrite dataLba (Bytes.zero.splice 0 sb.dirEntrySize pDe.encode) 1
      setInodeSize a fun n => (n + sb.dirEntrySize) % 2 ^ 32
      return true

/-- The end of `sync_dir_entry` on a new block, once it is known where the entry goes. -/
def syncDirEntryPut (a : Nat) (sb : SuperBlock) (pDe : DirEntry) (dataLba : Option Nat) : FsM Bool := do
  match dataLba with
  | none => return false
  | some dataLba =>
    ideWrite dataLba (Bytes.zero.splice 0 sb.dirEntrySize pDe.encode) 1
    setInodeSize a fun n => (n + sb.dirEntrySize) % 2 ^ 32
    return true

/-- The block loop of `sync_dir_entry`, from `blockIdx` on with `n` blocks left. -/
def syncDirEntryLoop (a : Nat) (pDe : DirEntry) (allBlocks : Nat → Nat)
    (dirEntrysPerSec : Nat) : Nat → Nat → FsM Bool
  | 0, _ => return false
  | n + 1, blockIdx =>
    if allBlocks blockIdx = 0 then
      syncDirEntryNewBlock a pDe allBlocks blockIdx
    else do
      let block ← ideRead (allBlocks blockIdx) 1 512
      match findFreeSlot block dirEntrysPerSec 0 with
      | some idx => do
        let s ← query id
        let size := s.part.sb.dirEntrySize
        ideWrite (allBlocks blockIdx) (block.splice (24 * idx) size pDe.encode) 1
        setInodeSize a fun n => (n + size) % 2 ^ 32
        return true
      | none => syncDirEntryLoop a pDe allBlocks dirEntrysPerSec n (blockIdx + 1)

/-- `sync_dir_entry`: add the entry `pDe` to a directory. -/
def syncDirEntry (parentDir : DirPtr) (pDe : DirEntry) : FsM Bool := do
  let a ← dirInode parentDir
  let v ← getInode a
  let s ← query id
  let dirEntrySize := s.part.sb.dirEntrySize
  assert (v.iSize % dirEntrySize = 0)
  syncDirEntryLoop a pDe (fun k => if k < 12 then v.sector k else 0) (512 / dirEntrySize) 140 0

/-! ## Removal -/

/-- What the entry loop of `delete_dir_entry` has seen of a block: whether it met
    `"."`, how many other entries it counted, and the entry to delete. -/
structure DeleteScan where
  isDirFirstBlock : Bool
  dirEntryCnt : Nat
  dirEntryFound : Option Nat

/-- The entry loop of `delete_dir_entry` over `n` slots from `idx` on. -/
def deleteScan (buf : Bytes) (iNo : Nat) : Nat → Nat → DeleteScan → DeleteScan
  | 0, _, r => r
  | n + 1, idx, r =>
    if DirEntry.fTypeAt buf idx ≠ ftUnkown then
      if DirEntry.nameIs buf idx dot then
        deleteScan buf iNo n (idx + 1) { r with isDirFirstBlock := true }
      else if !DirEntry.nameIs buf idx dotDot then
        if DirEntry.iNoAt buf idx = iNo then
          { r with dirEntryCnt := r.dirEntryCnt + 1, dirEntryFound := some idx }
        else
          deleteScan buf iNo n (idx + 1) { r with dirEntryCnt := r.dirEntryCnt + 1 }
      else
        deleteScan buf iNo n (idx + 1) r
    else
      deleteScan buf iNo n (idx + 1) r

/-- `delete_dir_entry` once the entry is found in block `blockIdx`. -/
def deleteFound (a : Nat) (allBlocks : Nat → Nat) (blockIdx : Nat) (block : Bytes)
    (r : DeleteScan) (idx : Nat) : FsM Bool := do
  let s ← query id
  let sb := s.part.sb
  if r.dirEntryCnt = 1 ∧ ¬ r.isDirFirstBlock then
    let idx := blockBitmapIdx sb (allBlocks blockIdx)
    blockBitmapSet idx false
    bitmapSync idx .blockBitmap
    if blockIdx < 12 then
      setInodeSector a blockIdx 0
    else
      -- the loop counting the blocks of the index table never advances
      stop .fault
  else
    ideWrite (allBlocks blockIdx) (block.splice (24 * idx) sb.dirEntrySize Bytes.zero) 1
  let v ← getInode a
  assert (v.iSize ≥ sb.dirEntrySize)
  setInodeSize a fun n => n - sb.dirEntrySize
  let v ← getInode a
  inodeSync v 1024
  return true

/-- The block loop of `delete_dir_entry`; `isDirFirstBlock` is set once for all
    blocks and never cleared. -/
def deleteDirEntryLoop (a : Nat) (iNo : Nat) (allBlocks : Nat → Nat) (dirEntrysPerSec : Nat) :
    Nat → Nat → Bool → FsM Bool
  | 0, _, _ => return false
  | n + 1, blockIdx, isDirFirstBlock =>
    if allBlocks blockIdx = 0 then
      deleteDirEntryLoop a iNo allBlocks dirEntrysPerSec n (blockIdx + 1) isDirFirstBlock
    else do
      let block ← ideRead (allBlocks blockIdx) 1 512
      let r := deleteScan block iNo dirEntrysPerSec 0
        { isDirFirstBlock := isDirFirstBlock, dirEntryCnt := 0, dirEntryFound := none }
      match r.dirEntryFound with
      | none =>
        deleteDirEntryLoop a iNo allBlocks dirEntrysPerSec n (blockIdx + 1) r.isDirFirstBlock
      | some idx => deleteFound a allBlocks blockIdx block r idx

/-- `delete_dir_entry`: remove the entry with inode number `iNo`.  The index table
    is read through `&p->my_disk`, which is not a `struct disk*`. -/
def deleteDirEntry (pgdir : DirPtr) (iNo : Nat) : FsM Bool := do
  let a ← dirInode pgdir
  let v ← getInode a
  require (v.sector 12 = 0)
  let s ← query id
  deleteDirEntryLoop a iNo (fun k => if k < 12 then v.sector k else 0)
    (512 / s.part.sb.dirEntrySize) 140 0 false

/-- `dir_is_empty`. -/
def dirIsEmpty (dir : DirPtr) : FsM Bool := do
  let a ← dirInode dir
  let v ← getInode a
  let s ← query id
  return v.iSize = s.part.sb.dirEntrySize * 2

/-- `dir_remove`: remove an empty directory from its parent; `0` for `true`. -/
def dirRemove (parentDir childDir : DirPtr) : FsM Bool := do
  let a ← dirInode childDir
  let v ← getInode a
  assert (∀ k : Fin 13, k.val ≠ 0 → v.sector k = 0)
  let s ← query id
  assert (v.iSize = s.part.sb.dirEntrySize * 2)
  let ioBuf ← sysMalloc
  if ioBuf = none then
    return false
  let _ ← deleteDirEntry parentDir v.iNo
  let v ← getInode a
  inodeRelease v.iNo
  sysFree ioBuf
  return true

end ZxyOs
