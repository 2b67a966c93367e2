/-
  ZxyOs.Fs.File

  Open files, `fs/file.c`: the table of open files, the descriptor table of the
  running task, and creating, opening, closing and appending to a file.
-/

import ZxyOs.Fs.Dir

namespace ZxyOs

open Lib Lib.Exec

/-- `MAX_FILES_OPEN`. -/
abbrev maxFilesOpen : Nat := 32

/-- `O_WRONLY`, `O_RDWR` and `O_CREATE` are bits of a flag word. -/
def hasFlag (flags bit : Nat) : Bool := flags &&& bit ≠ 0

/-- `flags & O_WRONLY || flags & O_RDWR`. -/
def writable (flags : Nat) : Bool := hasFlag flags 1 || hasFlag flags 2

/-- `flags & O_CREATE`. -/
def creating (flags : Nat) : Bool := hasFlag flags 4

/-- The slot loop of `get_free_slot_in_global`, with `n` slots left. -/
def freeSlotFrom (fileTable : Nat → File) : Nat → Nat → Option Nat
  | 0, _ => none
  | n + 1, fdIdx =>
    if (fileTable fdIdx).fdInode = none then some fdIdx else freeSlotFrom fileTable n (fdIdx + 1)

/-- `get_free_slot_in_global`. -/
def getFreeSlotInGlobal : FsM (Option Nat) := do
  let s ← query id
  return freeSlotFrom s.fileTable (maxFilesOpen - 3) 3

/-- The loop of `pcb_fd_install`, with `n` descriptors left. -/
def freeFdFrom (fdtable : Fin 8 → Int) : Nat → Nat → Option (Fin 8)
  | 0, _ => none
  | n + 1, fd =>
    if h : fd < 8 then
      if fdtable ⟨fd, h⟩ = -1 then some ⟨fd, h⟩ else freeFdFrom fdtable n (fd + 1)
    else none

/-- `pcb_fd_install`: the descriptor given out, `-1` where the table is full. -/
def pcbFdInstall (globalFdIdx : Nat) : FsM Int := do
  let cur ← runningThread
  match freeFdFrom cur.fdtable 6 2 with
  | none => return -1
  | some fd =>
    putThread { cur with fdtable := Function.update cur.fdtable fd globalFdIdx }
    return fd.val

/-- Store an entry of `file_table`. -/
def putFile (g : Nat) (f : File) : FsM Unit :=
  update fun s => { s with fileTable := Function.update s.fileTable g f }

/-- `file_create`: a new regular file in `parentDir`, opened with `flag`. -/
def fileCreate (parentDir : DirPtr) (filename : CStr) (flag : Nat) : FsM Int := do
  let ioBuf ← sysMalloc
  if ioBuf = none then
    return -1
  let inodeNo ← inodeBitmapAlloc
  match inodeNo with
  | none => return -1
  | some inodeNo =>
    let newFileInode ← sysMalloc
    match newFileInode with
    | none =>
      inodeMapSet inodeNo false
      sysFree ioBuf
      return -1
    | some newFileInode =>
      putInode newFileInode (inodeInit inodeNo)
      let fdIdx ← getFreeSlotInGlobal
      match fdIdx with
      | none =>
        update fun s => { s with inodes := Function.update s.inodes newFileInode none }
        sysFree (some newFileInode)
        inodeMapSet inodeNo false
        sysFree ioBuf
        return -1
      | some fdIdx =>
        putFile fdIdx { fdPos := 0, fdFlag := flag, fdInode := some newFileInode }
        let newDirEntry ← createDirEntry filename inodeNo ftRegular
        let done ← syncDirEntry parentDir newDirEntry
        if !done then
          putFile fdIdx { fdPos := 0, fdFlag := 0, fdInode := none }
          update fun s => { s with inodes := Function.update s.inodes newFileInode none }
          sysFree (some newFileInode)
          inodeMapSet inodeNo false
          sysFree ioBuf
          return -1
        let parentInode ← dirInode parentDir
        let parent ← getInode parentInode
        inodeSync parent 1024
        let new ← getInode newFileInode
        inodeSync new 1024
        bitmapSync inodeNo .inodeBitmap
        update fun s => { s with openInodes := newFileInode :: s.openInodes }
        let new ← getInode newFileInode
        putInode newFileInode { new with iOpenCnt := 1 }
        sysFree ioBuf
        pcbFdInstall fdIdx

/-- `file_open`: open inode `iNo` through a free slot of `file_table`.  A second
    writer is turned away after the slot and the inode have been taken. -/
def fileOpen (iNo flags : Nat) : FsM Int := do
  let fdIdx ← getFreeSlotInGlobal
  match fdIdx with
  | none => return -1
  | some fdIdx =>
    let a ← inodeOpen iNo
    putFile fdIdx { fdPos := 0, fdFlag := flags, fdInode := some a }
    if writable flags then
      let v ← getInode a
      if v.writeDeny then
        return -1
      putInode a { v with writeDeny := true }
    pcbFdInstall fdIdx

/-- `file_close` of slot `g` of `file_table`. -/
def fileClose (g : Nat) : FsM Int := do
  let s ← query id
  let a ← deref (s.fileTable g).fdInode
  let v ← getInode a
  putInode a { v with writeDeny := false }
  inodeClose a
  let s ← query id
  putFile g { s.fileTable g with fdInode := none }
  return 0

/-! ## Appending -/

/-- The allocation loops of `file_write` for a file whose last block will have an
    index below 12, or that is about to get its index table: allocate `n` blocks
    from `blockIdx` on.  Direct blocks go to the inode at once, the others only to
    `all_blocks`. -/
def fileAllocBlocks (a : Nat) : Nat → Nat → (Nat → Nat) → FsM (Option (Nat → Nat))
  | 0, _, allBlocks => return some allBlocks
  | n + 1, blockIdx, allBlocks => do
    let blockLba ← blockBitmapAlloc
    match blockLba with
    | none => return none
    | some blockLba =>
      if blockIdx < 12 then
        let v ← getInode a
        assert (v.sector blockIdx = 0)
        setInodeSector a blockIdx blockLba
      let s ← query id
      bitmapSync (blockBitmapIdx s.part.sb blockLba) .blockBitmap
      fileAllocBlocks a n (blockIdx + 1) (Function.update allBlocks blockIdx blockLba)

/-- The allocation loop of `file_write` for a file that has an index table.  The
    test `block_lba = -1` assigns, so the loop gives up in its first round. -/
def fileAllocIndirect : Nat → (Nat → Nat) → FsM (Option (Nat → Nat))
  | 0, allBlocks => return some allBlocks
  | _ + 1, _ => do
    let _ ← blockBitmapAlloc
    return none

/-- `all_blocks` with entry `k` taken from the inode. -/
def fileLastBlock (v : Inode) (k : Nat) : Nat → Nat := fun j => if j = k then v.sector k else 0

/-- `all_blocks` with the entries from 12 on taken from the index table. -/
def fileTableBlocks (tbl : Bytes) : Nat → Nat :=
  fun k => if k < 12 then 0 else Bytes.u32At tbl (4 * (k - 12))

/-- The part of `file_write` that collects the addresses of the blocks to write,
    allocating those that are missing; `none` where it gives up. -/
def fileCollectBlocks (a hasUsed willUse : Nat) : FsM (Option (Nat → Nat)) := do
  let v ← getInode a
  if willUse = hasUsed then
    if hasUsed ≤ 12 then
      return some (fileLastBlock v (hasUsed - 1))
    assert (v.sector 12 ≠ 0)
    let tbl ← ideRead (v.sector 12) 1 512
    return some (fileTableBlocks tbl)
  if willUse ≤ 12 then
    -- `i_sectors` has 13 entries
    require (hasUsed ≤ 13)
    assert (v.sector (hasUsed - 1) ≠ 0)
    fileAllocBlocks a (willUse - hasUsed) hasUsed (fileLastBlock v (hasUsed - 1))
  else if hasUsed ≤ 12 then do
    assert (v.sector (hasUsed - 1) ≠ 0)
    let tableLba ← blockBitmapAlloc
    match tableLba with
    | none => return none
    | some tableLba =>
      let v' ← getInode a
      assert (v'.sector 12 = 0)
      setInodeSector a 12 tableLba
      let blocks ← fileAllocBlocks a (willUse - hasUsed) hasUsed (fileLastBlock v (hasUsed - 1))
      match blocks with
      | none => return none
      | some allBlocks =>
        ideWrite tableLba (wordsOf fun j => allBlocks (12 + j)) 1
        return some allBlocks
  else
    assert (v.sector 12 ≠ 0)
    let tbl ← ideRead (v.sector 12) 1 512
    let blocks ← fileAllocIndirect (willUse - hasUsed) (fileTableBlocks tbl)
    match blocks with
    | none => return none
    | some allBlocks =>
      ideWrite (v.sector 12) (wordsOf fun j => allBlocks (12 + j)) 1
      return some allBlocks

/-- The data loop of `file_write` on slot `g` and its inode at `a`, with `fuel`
    rounds allowed: `written` of the bytes of `src` are done, `sizeLeft` are left,
    and only the first block written to keeps its old contents in front. -/
def fileWriteLoop (g a : Nat) (allBlocks : Nat → Nat) (src : Bytes) :
    Nat → Nat → Nat → Bool → FsM Unit
  | 0, _, _, _ => return ()
  | fuel + 1, written, sizeLeft, firstWriteBlock =>
    if sizeLeft = 0 then
      return ()
    else do
      let v ← getInode a
      let secIdx := v.iSize / 512
      -- `all_blocks` has 140 entries
      require (secIdx < 140)
      let secLba := allBlocks secIdx
      let secOffBytes := v.iSize % 512
      let secLeftBytes := 512 - secOffBytes
      let chunkSize := if sizeLeft < secLeftBytes then sizeLeft else secLeftBytes
      let ioBuf ← if firstWriteBlock then ideRead secLba 1 512 else pure Bytes.zero
      ideWrite secLba (ioBuf.splice secOffBytes chunkSize fun k => src (written + k)) 1
      setInodeSize a fun n => (n + chunkSize) % 2 ^ 32
      let s ← query id
      let f := s.fileTable g
      putFile g { f with fdPos := (f.fdPos + chunkSize) % 2 ^ 32 }
      fileWriteLoop g a allBlocks src fuel (written + chunkSize) (sizeLeft - chunkSize) false

/-- `file_write`: append `cnt` bytes of `buf` to the file open in slot `g`. -/
def fileWrite (g : Nat) (buf : Bytes) (cnt : Nat) : FsM Int := do
  let s ← query id
  let a ← deref (s.fileTable g).fdInode
  let v ← getInode a
  if (v.iSize + cnt) % 2 ^ 32 > 512 * (12 + 128) then
    return -1
  let ioBuf ← sysMalloc
  if ioBuf = none then
    return -1
  let allBlocksMem ← sysMalloc
  if allBlocksMem = none then
    return -1
  let firstOk ←
    if v.sector 0 = 0 then do
      let blockLba ← blockBitmapAlloc
      match blockLba with
      | none => pure false
      | some blockLba =>
        setInodeSector a 0 blockLba
        bitmapSync (blockBitmapIdx s.part.sb blockLba) .blockBitmap
        pure true
    else pure true
  if !firstOk then
    return -1
  let fileHasUsedBlocks := v.iSize / 512 + 1
  let fileWillUseBlocks := (v.iSize + cnt) % 2 ^ 32 / 512 + 1
  assert (fileWillUseBlocks ≤ 140)
  let blocks ← fileCollectBlocks a fileHasUsedBlocks fileWillUseBlocks
  match blocks with
  | none => return -1
  | some allBlocks =>
    let s ← query id
    putFile g { s.fileTable g with fdPos := (v.iSize + (2 ^ 32 - 1)) % 2 ^ 32 }
    fileWriteLoop g a allBlocks buf cnt 0 cnt true
    -- the buffer handed to `inode_sync` has one sector
    let v ← getInode a
    inodeSync v 512
    sysFree allBlocksMem
    sysFree ioBuf
    return cnt

/-- The end of `file_write` on the inode `v` at `a`, from the first block on. -/
def fileWriteRest (g a : Nat) (v : Inode) (buf : Bytes) (cnt : Nat) (ioBuf allBlocksMem : Option Nat)
    (firstOk : Bool) : FsM Int := do
  if !firstOk then
    return -1
  assert ((v.iSize + cnt) % 2 ^ 32 / 512 + 1 ≤ 140)
  let blocks ← fileCollectBlocks a (v.iSize / 512 + 1) ((v.iSize + cnt) % 2 ^ 32 / 512 + 1)
  match blocks with
  | none => return -1
  | some allBlocks =>
    let s ← query id
    putFile g { s.fileTable g with fdPos := (v.iSize + (2 ^ 32 - 1)) % 2 ^ 32 }
    fileWriteLoop g a allBlocks buf cnt 0 cnt true
    let v ← getInode a
    inodeSync v 512
    sysFree allBlocksMem
    sysFree ioBuf
    return cnt

end ZxyOs
