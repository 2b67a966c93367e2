/-
  ZxyOs.Fs.Inode

  The inode table of `fs/inode.c`: where an inode lies on disk, how it is read,
  written and cleared there, and the list of open inodes.

  A `struct inode` takes 76 bytes, so an inode may straddle two sectors; every
  access to the table reads the one or two sectors it touches, works on the copy
  and writes them back.
-/

import ZxyOs.Fs.State

namespace ZxyOs

open Lib Lib.Exec

namespace Inode

/-- `i_sectors[k]`. -/
def sector (v : Inode) (k : Nat) : Nat := if h : k < 13 then v.iSectors ⟨k, h⟩ else 0

/-- `i_sectors[k] = lba`. -/
def setSector (v : Inode) (k lba : Nat) : Inode :=
  { v with iSectors := fun j => if j.val = k then lba else v.iSectors j }

/-- Word `k` of the memory of a `struct inode`; words 17 and 18 are the two links
    of `inode_tag`, here always `NULL`. -/
def word (v : Inode) (k : Nat) : Nat :=
  if k = 0 then v.iNo
  else if k = 1 then v.iSize
  else if k = 2 then v.iOpenCnt
  else if k = 3 then (if v.writeDeny then 1 else 0)
  else v.sector (k - 4)

/-- The 76 bytes of a `struct inode`. -/
def encode (v : Inode) : Bytes := fun a => Bytes.wordByte (v.word (a / 4)) (a % 4)

/-- The `struct inode` at offset `off` of a buffer. -/
def decode (b : Bytes) (off : Nat) : Inode where
  iNo := Bytes.u32At b off
  iSize := Bytes.u32At b (off + 4)
  iOpenCnt := Bytes.u32At b (off + 8)
  writeDeny := Bytes.u32At b (off + 12) ≠ 0
  iSectors := fun k => Bytes.u32At b (off + 16 + 4 * k)

/-- `pure_inde`: what `inode_sync` stores of an inode, with the fields cleared that
    only mean something in memory. -/
def pureInode (v : Inode) : Inode := { v with iOpenCnt := 0, writeDeny := false }

end Inode

/-- `inode_init`. -/
def inodeInit (iNo : Nat) : Inode where
  iNo := iNo
  iSize := 0
  iOpenCnt := 0
  writeDeny := false
  iSectors := fun _ => 0

/-- `struct inode_pos`. -/
structure InodePos where
  twoSecs : Bool
  secLba : Nat
  offSize : Nat

/-- `locate_inode`: sector and offset of inode `iNo` in the table. -/
def locateInode (iNo : Nat) : FsM InodePos := do
  assert (iNo < 4096)
  let s ← query id
  let offSize := iNo * 76
  let offSec := offSize / 512
  let offSizeInSec := offSize % 512
  let leftInSec := 512 - offSizeInSec
  return { twoSecs := leftInSec < 76
           secLba := offSec + s.part.sb.inodeTableLba
           offSize := offSizeInSec }

/-- Overwrite the 76 bytes at `pos` through a buffer of `ioBuf` bytes. -/
def writeSlot (pos : InodePos) (content : Bytes) (ioBuf : Nat) : FsM Unit := do
  let secs := if pos.twoSecs then 2 else 1
  let inodeBuf ← ideRead pos.secLba secs ioBuf
  ideWrite pos.secLba (inodeBuf.splice pos.offSize 76 content) secs

/-- `inode_sync` with a buffer of `ioBuf` bytes.  The number of the inode goes
    through a variable of type `uint8_t`. -/
def inodeSync (inode : Inode) (ioBuf : Nat) : FsM Unit := do
  let iNo := inode.iNo % 256
  let inodePos ← locateInode iNo
  let s ← query id
  assert (inodePos.secLba ≤ s.part.startLba + s.part.secCnt)
  writeSlot inodePos inode.pureInode.encode ioBuf

/-- `inode_delete`: clear the slot of inode `iNo`. -/
def inodeDelete (iNo ioBuf : Nat) : FsM Unit := do
  assert (iNo < 4096)
  let iPos ← locateInode iNo
  let s ← query id
  assert (iPos.secLba ≤ s.part.startLba + s.part.secCnt)
  writeSlot iPos Bytes.zero ioBuf

/-- The cached inode numbered `iNo`, searched from the head of `open_inodes`. -/
def findOpenInode (iNo : Nat) : List Nat → FsM (Option Nat)
  | [] => return none
  | a :: rest => do
    let v ← getInode a
    if v.iNo = iNo then
      return some a
    findOpenInode iNo rest

/-- Read the inode at `pos` through a buffer of one or two sectors. -/
def readSlot (pos : InodePos) : FsM Inode := do
  let inodeBuf ← ideRead pos.secLba (if pos.twoSecs then 2 else 1) (if pos.twoSecs then 1024 else 512)
  return Inode.decode inodeBuf pos.offSize

/-- The inode `inode_open` reads from the table when it is not cached. -/
def readInode (iNo : Nat) : FsM Inode := do
  let iPos ← locateInode iNo
  readSlot iPos

/-- `inode_open`: the address of inode `iNo`, read from disk unless it is cached. -/
def inodeOpen (iNo : Nat) : FsM Nat := do
  let s ← query id
  let found ← findOpenInode iNo s.openInodes
  match found with
  | some a =>
    let v ← getInode a
    putInode a { v with iOpenCnt := v.iOpenCnt + 1 }
    return a
  | none =>
    let iPos ← locateInode iNo
    -- `cur->pgdir` is `NULL` around this request, so the kernel pool serves it
    let inodeFound ← mallocFrom false
    let inodeBuf ← sysMalloc
    -- there is no room behind a null pointer
    fits (inodeBuf ≠ none)
    let v ← readSlot iPos
    -- `memcpy` asserts that its destination is not null
    match inodeFound with
    | none => stop .panic
    | some a =>
      putInode a { v with iOpenCnt := 1 }
      update fun s => { s with openInodes := a :: s.openInodes }
      sysFree inodeBuf
      return a

/-- `inode_close`: the last one out removes the inode from the list. -/
def inodeClose (a : Nat) : FsM Unit := do
  let v ← getInode a
  let cnt := if v.iOpenCnt = 0 then 2 ^ 32 - 1 else v.iOpenCnt - 1
  putInode a { v with iOpenCnt := cnt }
  if cnt = 0 then
    update fun s => { s with openInodes := s.openInodes.filter (· ≠ a)
                             inodes := Function.update s.inodes a none }
    sysFree (some a)

/-- Give one data block back: clear its bit and write the bitmap's sector. -/
def releaseBlock (lba : Nat) : FsM Unit := do
  let s ← query id
  let idx := blockBitmapIdx s.part.sb lba
  assert (idx > 0)
  blockBitmapSet idx false
  bitmapSync idx .blockBitmap

/-- The block loop of `inode_release`, from `blockIdx` on with `n` rounds left. -/
def releaseBlocks (allBlocks : Nat → Nat) : Nat → Nat → FsM Unit
  | 0, _ => return ()
  | n + 1, blockIdx => do
    if allBlocks blockIdx ≠ 0 then
      releaseBlock (allBlocks blockIdx)
    releaseBlocks allBlocks n (blockIdx + 1)

/-- The block addresses of an inode whose index table holds the bytes `tbl`. -/
def Inode.allBlocks (v : Inode) (tbl : Bytes) : Nat → Nat :=
  fun k => if k < 12 then v.sector k else Bytes.u32At tbl (4 * (k - 12))

/-- `inode_release`: give back the blocks of an inode, its number and its slot.
    The loop over the blocks ends before the last of the 140. -/
def inodeRelease (iNo : Nat) : FsM Unit := do
  let inodeToDel ← inodeOpen iNo
  let v ← getInode inodeToDel
  assert (v.iNo = iNo)
  let allBlocks ← if v.sector 12 ≠ 0 then do
      let tbl ← ideRead (v.sector 12) 1 512
      releaseBlock (v.sector 12)
      pure (v.allBlocks tbl)
    else
      pure (v.allBlocks Bytes.zero)
  releaseBlocks allBlocks 139 0
  inodeMapSet iNo false
  bitmapSync iNo .inodeBitmap
  let ioBuf ← sysMalloc
  fits (ioBuf ≠ none)
  inodeDelete iNo 1024
  sysFree ioBuf
  inodeClose inodeToDel

end ZxyOs
