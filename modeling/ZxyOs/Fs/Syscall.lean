/-
  ZxyOs.Fs.Syscall

  The file-system calls of `fs/fs.c` and the pipe operations of `user/pipe.c`
  they fall back on.  A call returns the `int32_t` it hands to its caller.
-/

import ZxyOs.Fs.Path

namespace ZxyOs

open Lib Lib.Exec

/-- `PIPE_FLAG`. -/
abbrev pipeFlag : Nat := 0xFFFF

/-- `fd_local_to_global`: `fdtable` has 8 entries. -/
def fdLocalToGlobal (localFd : Int) : FsM Nat := do
  let cur ← runningThread
  if h : 0 ≤ localFd ∧ localFd < 8 then
    let globalFd := cur.fdtable ⟨localFd.toNat, fdtable_lt h⟩
    assert (0 ≤ globalFd ∧ globalFd < maxFilesOpen)
    return globalFd.toNat
  else
    stop .fault

/-- `is_pipe`. -/
def isPipe (localFd : Int) : FsM Bool := do
  let g ← fdLocalToGlobal localFd
  let s ← query id
  return (s.fileTable g).fdFlag = pipeFlag

/-- `running_thread()->fdtable[fd] = value`. -/
def setFd (fd : Int) (value : Int) : FsM Unit := do
  let cur ← runningThread
  if h : 0 ≤ fd ∧ fd < 8 then
    putThread { cur with fdtable := Function.update cur.fdtable ⟨fd.toNat, fdtable_lt h⟩ value }
  else
    stop .fault

/-! ## Pipes -/

namespace Ring

/-- `ioq_length`. -/
def length (r : Ring) : Nat :=
  if r.head ≥ r.tail then r.head - r.tail else 2048 - (r.tail - r.head)

/-- `ioq_full`. -/
def full (r : Ring) : Bool := (r.head + 1) % 2048 = r.tail

/-- `ioq_put_char` into a ring that is not full. -/
def put (r : Ring) (c : UInt8) : Ring :=
  { r with buf := Function.update r.buf r.head c, head := (r.head + 1) % 2048 }

end Ring

/-- The loop of `pipe_write`: a full ring puts the writer to sleep. -/
def pipeWriteLoop (a : Nat) (buf : Bytes) : Nat → Nat → FsM Unit
  | 0, _ => return ()
  | n + 1, k => do
    let r ← query fun s => s.rings a
    let r ← deref r
    if r.full then
      stop .blocked
    update fun s => { s with rings := Function.update s.rings a (some (r.put (buf k))) }
    pipeWriteLoop a buf n (k + 1)

/-- `pipe_write`. -/
def pipeWrite (localFd : Int) (buf : Bytes) (cnt : Nat) : FsM Int := do
  let g ← fdLocalToGlobal localFd
  let s ← query id
  let a ← deref (s.fileTable g).fdInode
  let r ← deref (s.rings a)
  let ioqLen := 2048 - r.length
  let size := if ioqLen > cnt then cnt else ioqLen
  pipeWriteLoop a buf size 0
  return size

/-! ## Files -/

/-- `sys_open`. -/
def sysOpen (pathname : CStr) (flags : Nat) : FsM Int := do
  -- `pathname[strlen(pathname) - 1]`
  require (pathname ≠ [])
  if pathname.getLast? = some slash then
    return -1
  assert (flags ≤ 7)
  let pathnameDepth ← pathDepthCnt pathname
  -- `path_parse` has stored a slash at the start of the caller's string
  let pathname := slash :: pathname.tail
  let (inodeNo, searchedRecord) ← searchFile pathname
  if searchedRecord.fType = ftDir then
    dirClose searchedRecord.parentDir
    return -1
  let searchedPathDepth ← pathDepthCnt searchedRecord.searchedPath
  if pathnameDepth ≠ searchedPathDepth then
    dirClose searchedRecord.parentDir
    return -1
  match inodeNo with
  | none =>
    if creating flags then
      let fd ← fileCreate searchedRecord.parentDir (lastName pathname) flags
      dirClose searchedRecord.parentDir
      return fd
    else
      dirClose searchedRecord.parentDir
      return -1
  | some inodeNo =>
    if creating flags then
      dirClose searchedRecord.parentDir
      return -1
    else
      -- the handle on the parent directory is not closed
      fileOpen inodeNo flags

/-- `sys_close`. -/
def sysClose (fd : Int) : FsM Int :=
  if fd > 2 then do
    let g ← fdLocalToGlobal fd
    let pipe ← isPipe fd
    let ret ←
      if pipe then do
        let s ← query id
        let f := s.fileTable g
        let pos := (f.fdPos + (2 ^ 32 - 1)) % 2 ^ 32
        putFile g { f with fdPos := pos }
        if pos = 0 then
          -- `mfree_page` asserts that it is given a page of the kernel pool
          assert (f.fdInode ≠ none)
          update fun s => { s with rings := fun a => if some a = f.fdInode then none else s.rings a }
          putFile g { f with fdPos := pos, fdInode := none }
        pure (0 : Int)
      else
        fileClose g
    setFd fd (-1)
    return ret
  else
    return -1

/-- `sys_write`. -/
def sysWrite (fd : Int) (buf : Bytes) (cnt : Nat) : FsM Int :=
  if fd < 0 then
    return -1
  else do
    let pipe ← isPipe fd
    if fd = 1 then
      if pipe then
        pipeWrite fd buf cnt
      else
        -- the text is staged in an array of 1024 bytes and printed up to a zero
        require (cnt < 1024 ∨ (cnt = 1024 ∧ (List.range 1024).any (fun k => buf k == 0)))
        return cnt
    else if pipe then
      pipeWrite fd buf cnt
    else
      let g ← fdLocalToGlobal fd
      let s ← query id
      if writable (s.fileTable g).fdFlag then
        fileWrite g buf cnt
      else
        return -1

/-- The slot loop of `sys_unlink`: a slot whose inode is `iNo`, with `n` left. -/
def findOpenFile (iNo : Nat) : Nat → Nat → FsM (Option Nat)
  | 0, _ => return none
  | n + 1, fd => do
    let s ← query id
    match (s.fileTable fd).fdInode with
    | none => findOpenFile iNo n (fd + 1)
    | some a =>
      -- the buffer of a pipe begins with the holder of its lock, which is no inode number
      if (s.rings a).isSome then
        findOpenFile iNo n (fd + 1)
      else do
        let v ← getInode a
        if iNo = v.iNo then
          return some fd
        findOpenFile iNo n (fd + 1)

/-- `sys_unlink`. -/
def sysUnlink (pathname : CStr) : FsM Int := do
  assert (pathname.length < 512)
  let (iNo, searchedRecord) ← searchFile pathname
  assert (iNo ≠ some 0)
  match iNo with
  | none =>
    dirClose searchedRecord.parentDir
    return -1
  | some iNo =>
    if searchedRecord.fType = ftDir then
      dirClose searchedRecord.parentDir
      return -1
    let fd ← findOpenFile iNo maxFilesOpen 0
    if fd ≠ none then
      dirClose searchedRecord.parentDir
      return -1
    let ioBuf ← sysMalloc
    if ioBuf = none then
      dirClose searchedRecord.parentDir
      return -1
    let _ ← deleteDirEntry searchedRecord.parentDir iNo
    inodeRelease iNo
    sysFree ioBuf
    dirClose searchedRecord.parentDir
    return 0

/-! ## Directories -/

/-- `sys_mkdir` once the new inode number is known: take a block for the new
    directory, write its two entries and enter it in its parent.  A failing
    `sync_dir_entry` is reported but not acted upon. -/
def mkdirInstall (searchedRecord : PathSearchRecord) (ioBuf : Option Nat) (iNo : Nat) :
    FsM Int := do
  let parentDir := searchedRecord.parentDir
  let s ← query id
  let sb := s.part.sb
  let blockLba ← blockBitmapAlloc
  match blockLba with
  | none =>
    inodeMapSet iNo false
    dirClose parentDir
    sysFree ioBuf
    return -1
  | some blockLba =>
    let blockIdx := blockBitmapIdx sb blockLba
    assert (blockIdx ≠ 0)
    bitmapSync blockIdx .blockBitmap
    let parentInode ← dirInode parentDir
    let parent ← getInode parentInode
    let self : DirEntry := { filename := dot, iNo := iNo, fType := ftDir }
    let up : DirEntry := { filename := dotDot, iNo := parent.iNo, fType := ftDir }
    ideWrite blockLba ((Bytes.zero.splice 0 24 self.encode).splice 24 24 up.encode) 1
    let newDirInode :=
      { (inodeInit iNo).setSector 0 blockLba with iSize := 2 * sb.dirEntrySize }
    let newDirEntry ← createDirEntry (lastName searchedRecord.searchedPath) iNo ftDir
    let _ ← syncDirEntry parentDir newDirEntry
    let parent ← getInode parentInode
    inodeSync parent 1024
    inodeSync newDirInode 1024
    bitmapSync iNo .inodeBitmap
    sysFree ioBuf
    dirClose parentDir
    return 0

/-- `sys_mkdir`. -/
def sysMkdir (pathname : CStr) : FsM Int := do
  let ioBuf ← sysMalloc
  if ioBuf = none then
    return -1
  let (iNo, searchedRecord) ← searchFile pathname
  if iNo ≠ none then
    dirClose searchedRecord.parentDir
    sysFree ioBuf
    return -1
  let pathnameDepth ← pathDepthCnt pathname
  let pathSearchedDepth ← pathDepthCnt searchedRecord.searchedPath
  if pathnameDepth ≠ pathSearchedDepth then
    dirClose searchedRecord.parentDir
    sysFree ioBuf
    return -1
  let iNo ← inodeBitmapAlloc
  match iNo with
  | none =>
    dirClose searchedRecord.parentDir
    sysFree ioBuf
    return -1
  | some iNo => mkdirInstall searchedRecord ioBuf iNo

/-- `sys_opendir`; `none` for `NULL`. -/
def sysOpendir (name : CStr) : FsM (Option DirPtr) := do
  assert (name.length < 16)
  if name = [slash] ∨ name.take 2 = [slash, 46] then
    return some .root
  let (iNo, searchedRecord) ← searchFile name
  let ret ←
    match iNo with
    | none => pure none
    | some iNo =>
      if searchedRecord.fType = ftRegular then
        pure none
      else if searchedRecord.fType = ftDir then do
        let d ← dirOpen iNo
        pure (some d)
      else
        pure none
  dirClose searchedRecord.parentDir
  return ret

/-- `sys_closedir`. -/
def sysClosedir (dir : Option DirPtr) : FsM Int :=
  match dir with
  | some d => do
    dirClose d
    return 0
  | none => return -1

/-- `sys_rmdir`. -/
def sysRmdir (pathname : CStr) : FsM Int := do
  let (inodeNo, searchedRecord) ← searchFile pathname
  assert (inodeNo ≠ some 0)
  let ret ←
    match inodeNo with
    | none => pure (-1 : Int)
    | some inodeNo =>
      if searchedRecord.fType = ftRegular then
        pure (-1)
      else do
        let dir ← dirOpen inodeNo
        let empty ← dirIsEmpty dir
        let ret ←
          if !empty then
            pure (-1 : Int)
          else do
            let done ← dirRemove searchedRecord.parentDir dir
            pure (if done then 0 else -1)
        dirClose dir
        pure ret
  dirClose searchedRecord.parentDir
  return ret

/-- `sys_chdir`. -/
def sysChdir (pathname : CStr) : FsM Int := do
  let (iNo, searchedRecord) ← searchFile pathname
  let ret ←
    match iNo with
    | none => pure (-1 : Int)
    | some iNo =>
      if searchedRecord.fType = ftDir then do
        let cur ← runningThread
        putThread { cur with cwdInodeNr := iNo }
        pure 0
      else
        pure (-1)
  dirClose searchedRecord.parentDir
  return ret

/-- `struct stat`. -/
structure Stat where
  stIno : Nat
  stSize : Nat
  stFiletype : Nat

/-- `sys_stat`: the attributes stored through `buf`, `none` where the call
    returns `-1`. -/
def sysStat (path : CStr) : FsM (Option Stat) :=
  if path = [slash] ∨ path = slash :: dot ∨ path = slash :: dotDot then do
    let a ← dirInode .root
    let v ← getInode a
    return some { stIno := 0, stSize := v.iSize, stFiletype := ftDir }
  else do
    let (iNo, searchedRecord) ← searchFile path
    let ret ←
      match iNo with
      | none => pure none
      | some iNo => do
        let a ← inodeOpen iNo
        let v ← getInode a
        inodeClose a
        pure (some { stIno := iNo, stSize := v.iSize, stFiletype := searchedRecord.fType })
    dirClose searchedRecord.parentDir
    return ret

end ZxyOs
