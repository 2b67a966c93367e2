/-
  ZxyOs.Fs.Reading

  The calls that read: `file_read` (`fs/file.c`), `dir_read` (`fs/dir.c`), `pipe_read`
  (`user/pipe.c`), and `sys_read`, `sys_readdir`, `sys_rewinddir` and `sys_getcwd`
  (`fs/fs.c`).

  What a call stores through the pointer of its caller is part of its result.
-/

import ZxyOs.Fs.Syscall

namespace ZxyOs

open Lib Lib.Exec

/-! ## Files -/

/-- The part of `file_read` that collects the addresses of the blocks to read; `endIdx`
    itself is left out where more than one block is read directly. -/
def fileReadBlocks (v : Inode) (startIdx endIdx : Nat) : FsM (Nat → Nat) := do
  if endIdx = startIdx then
    if endIdx < 12 then
      return fileLastBlock v endIdx
    let tbl ← ideRead (v.sector 12) 1 512
    return fileTableBlocks tbl
  else if endIdx < 12 then
    return fun k => if startIdx ≤ k ∧ k < endIdx then v.sector k else 0
  else if startIdx < 12 then
    assert (v.sector 12 ≠ 0)
    let tbl ← ideRead (v.sector 12) 1 512
    return fun k => if k < startIdx then 0 else v.allBlocks tbl k
  else
    assert (v.sector 12 ≠ 0)
    let tbl ← ideRead (v.sector 12) 1 512
    return fileTableBlocks tbl

/-- The data loop of `file_read` on slot `g`, with `fuel` rounds allowed: `bytesRead`
    bytes are stored in `dst` and `sizeLeft` are left. -/
def fileReadLoop (g : Nat) (allBlocks : Nat → Nat) : Nat → Nat → Nat → Bytes → FsM Bytes
  | 0, _, _, dst => return dst
  | fuel + 1, bytesRead, sizeLeft, dst =>
    if sizeLeft = 0 then
      return dst
    else do
      let s ← query id
      let f := s.fileTable g
      let secIdx := f.fdPos / 512
      -- `all_blocks` has 140 entries
      require (secIdx < 140)
      let secOffBytes := f.fdPos % 512
      let secLeftBytes := 512 - secOffBytes
      let chunkSize := if sizeLeft < secLeftBytes then sizeLeft else secLeftBytes
      let ioBuf ← ideRead (allBlocks secIdx) 1 512
      putFile g { f with fdPos := (f.fdPos + chunkSize) % 2 ^ 32 }
      fileReadLoop g allBlocks fuel (bytesRead + chunkSize) (sizeLeft - chunkSize)
        (dst.splice bytesRead chunkSize fun k => ioBuf (secOffBytes + k))

/-- The `size` of `file_read`: `cnt`, or what is left of the file. -/
def fileReadSize (fdPos iSize cnt : Nat) : Nat :=
  if (fdPos + cnt) % 2 ^ 32 > iSize then (iSize + (2 ^ 32 - fdPos % 2 ^ 32)) % 2 ^ 32 else cnt

/-- `file_read`: `cnt` bytes of the file open in slot `g`, from its offset on. -/
def fileRead (g cnt : Nat) : FsM (Int × Bytes) := do
  let s ← query id
  let f := s.fileTable g
  let a ← deref f.fdInode
  let v ← getInode a
  let size := fileReadSize f.fdPos v.iSize cnt
  if (f.fdPos + cnt) % 2 ^ 32 > v.iSize ∧ size = 0 then
    return (-1, Bytes.zero)
  let ioBuf ← sysMalloc
  if ioBuf = none then
    return (-1, Bytes.zero)
  let allBlocksMem ← sysMalloc
  if allBlocksMem = none then
    return (-1, Bytes.zero)
  let blockReadStartIdx := f.fdPos / 512
  let blockReadEndIdx := (f.fdPos + size) % 2 ^ 32 / 512
  assert (blockReadStartIdx < 139 ∧ blockReadEndIdx < 139)
  let allBlocks ← fileReadBlocks v blockReadStartIdx blockReadEndIdx
  let dst ← fileReadLoop g allBlocks size 0 size Bytes.zero
  sysFree allBlocksMem
  sysFree ioBuf
  return (size, dst)

namespace Ring

/-- `ioq_get_char` from a ring that is not empty. -/
def get (r : Ring) : UInt8 × Ring := (r.buf r.tail, { r with tail := (r.tail + 1) % 2048 })

/-- `ioq_empty`. -/
def empty (r : Ring) : Bool := r.head = r.tail

end Ring

/-- The loop of `pipe_read`: an empty ring puts the reader to sleep. -/
def pipeReadLoop (a : Nat) : Nat → Nat → Bytes → FsM Bytes
  | 0, _, dst => return dst
  | n + 1, k, dst => do
    let r ← query fun s => s.rings a
    let r ← deref r
    if r.empty then
      stop .blocked
    update fun s => { s with rings := Function.update s.rings a (some r.get.2) }
    pipeReadLoop a n (k + 1) (Function.update dst k r.get.1)

/-- `pipe_read`. -/
def pipeRead (localFd : Int) (cnt : Nat) : FsM (Int × Bytes) := do
  let g ← fdLocalToGlobal localFd
  let s ← query id
  let a ← deref (s.fileTable g).fdInode
  let r ← deref (s.rings a)
  let ioqLen := r.length
  let size := if ioqLen > cnt then cnt else ioqLen
  let dst ← pipeReadLoop a size 0 Bytes.zero
  return (size, dst)

/-- `sys_read` into a buffer that is not `NULL`; `kbd` is what the keyboard delivers to
    whoever waits for it. -/
def sysRead (fd : Int) (cnt : Nat) (kbd : Bytes) : FsM (Int × Bytes) := do
  assert (0 ≤ fd ∧ fd < 8)
  if fd = 1 ∨ fd = 2 then
    return (-1, Bytes.zero)
  else
    let pipe ← isPipe fd
    if pipe then
      pipeRead fd cnt
    else if fd = 0 then
      return (if cnt = 0 then -1 else cnt, kbd)
    else
      let g ← fdLocalToGlobal fd
      fileRead g cnt

/-! ## Directories -/

/-- Store the handle behind a `struct dir*`. -/
def putDir (d : DirPtr) (dir : Dir) : FsM Unit :=
  match d with
  | .root => update fun s => { s with rootDir := dir }
  | .heap a => update fun s => { s with dirs := Function.update s.dirs a (some dir) }

/-- The entry loop of `dir_read` over `n` slots from `idx` on, with the entries before
    `curPos` passed: the first entry at `pose` or behind, if there is one, and the
    position. -/
def dirReadScan (buf : Bytes) (pose size : Nat) : Nat → Nat → Nat → Option Nat × Nat
  | 0, _, curPos => (none, curPos)
  | n + 1, idx, curPos =>
    if DirEntry.fTypeAt buf idx ≠ ftUnkown then
      if curPos < pose then
        dirReadScan buf pose size n (idx + 1) (curPos + size)
      else
        (some idx, curPos)
    else
      dirReadScan buf pose size n (idx + 1) curPos

/-- The block loop of `dir_read`, from `blockIdx` on with `n` blocks left. -/
def dirReadLoop (d : DirPtr) (dir : Dir) (iSize : Nat) (allBlocks : Nat → Nat) (size : Nat) :
    Nat → Nat → Nat → FsM (Option DirEntry)
  | 0, _, _ => return none
  | n + 1, blockIdx, curPos =>
    if dir.dirPose ≥ iSize then
      return none
    else if allBlocks blockIdx = 0 then
      dirReadLoop d dir iSize allBlocks size n (blockIdx + 1) curPos
    else do
      let block ← ideRead (allBlocks blockIdx) 1 512
      match dirReadScan block dir.dirPose size (512 / size) 0 curPos with
      | (some idx, curPos) => do
        assert (curPos = dir.dirPose)
        putDir d { dir with dirPose := dir.dirPose + size }
        return some (DirEntry.decode block idx)
      | (none, curPos) => dirReadLoop d dir iSize allBlocks size n (blockIdx + 1) curPos

/-- `dir_read`; `none` for `NULL`. -/
def dirRead (d : DirPtr) : FsM (Option DirEntry) := do
  let dir ← getDir d
  let v ← getInode dir.inode
  let allBlocks ← readAllBlocks v
  let s ← query id
  dirReadLoop d dir v.iSize allBlocks s.part.sb.dirEntrySize
    (if v.sector 12 ≠ 0 then 140 else 12) 0 0

/-- `sys_readdir`. -/
def sysReaddir (dir : Option DirPtr) : FsM (Option DirEntry) := do
  assert (dir ≠ none)
  let d ← deref dir
  dirRead d

/-- `sys_rewinddir`. -/
def sysRewinddir (dir : Option DirPtr) : FsM Unit := do
  let d ← deref dir
  let h ← getDir d
  putDir d { h with dirPose := 0 }

/-! ## The working directory -/

/-- `get_parent_dir_i_no`. -/
def getParentDirINo (childINo : Nat) : FsM Nat := do
  let a ← inodeOpen childINo
  let v ← getInode a
  let blockLba := v.sector 0
  let s ← query id
  assert (blockLba ≥ s.part.sb.dataStartLba)
  inodeClose a
  let ioBuf ← ideRead blockLba 1 512
  assert (DirEntry.iNoAt ioBuf 1 < 4096 ∧ DirEntry.fTypeAt ioBuf 1 = ftDir)
  return DirEntry.iNoAt ioBuf 1

/-- The first slot of a block, among `n` from `idx` on, with inode number `iNo`. -/
def findINo (buf : Bytes) (iNo : Nat) : Nat → Nat → Option Nat
  | 0, _ => none
  | n + 1, idx => if DirEntry.iNoAt buf idx = iNo then some idx else findINo buf iNo n (idx + 1)

/-- The block loop of `get_child_dir_name`, from `blockIdx` on with `n` blocks left. -/
def childNameBlocks (allBlocks : Nat → Nat) (childINo perSec : Nat) : Nat → Nat → FsM (Option CStr)
  | 0, _ => return none
  | n + 1, blockIdx =>
    if allBlocks blockIdx = 0 then
      childNameBlocks allBlocks childINo perSec n (blockIdx + 1)
    else do
      let block ← ideRead (allBlocks blockIdx) 1 512
      match findINo block childINo perSec 0 with
      | some idx => return some (DirEntry.nameAt block idx)
      | none => childNameBlocks allBlocks childINo perSec n (blockIdx + 1)

/-- `get_child_dir_name`: `path` with the name of the child appended, `none` for `-1`.
    The array behind `path` has 512 bytes. -/
def getChildDirName (parentINo childINo : Nat) (path : CStr) : FsM (Option CStr) := do
  let a ← inodeOpen parentINo
  let v ← getInode a
  let allBlocks ← readAllBlocks v
  inodeClose a
  let s ← query id
  let name ← childNameBlocks allBlocks childINo (512 / s.part.sb.dirEntrySize)
    (if v.sector 12 ≠ 0 then 140 else 12) 0
  match name with
  | none => return none
  | some name =>
    require ((path ++ slash :: name).length < 512)
    return some (path ++ slash :: name)

/-- The loop of `sys_getcwd` up to the root.  Every turn lengthens `path`, which has 512
    bytes, so `fuel` never runs out first. -/
def climbLoop : Nat → Nat → CStr → FsM (Option CStr)
  | 0, _, _ => stop .fault
  | fuel + 1, childINo, path =>
    if childINo = 0 then
      return some path
    else do
      let parentINo ← getParentDirINo childINo
      let path ← getChildDirName parentINo childINo path
      match path with
      | none => return none
      | some path => climbLoop fuel parentINo path

/-- The loop of `sys_getcwd` that puts the components of `path` into `buf`, the last one
    first. -/
def reversePath : Nat → CStr → CStr → CStr
  | 0, _, buf => buf
  | fuel + 1, path, buf =>
    if slash ∈ path then
      let last := slash :: lastName path
      reversePath fuel (path.take (path.length - last.length)) (buf ++ last)
    else
      buf

/-- `sys_getcwd` into a buffer of `size` bytes that is not `NULL`: the string stored
    there, `none` where `NULL` is returned. -/
def sysGetcwd (size : Nat) : FsM (Option CStr) := do
  let ioBuf ← sysMalloc
  if ioBuf = none then
    return none
  let cur ← runningThread
  let childINo := cur.cwdInodeNr
  assert (childINo < 4096)
  if childINo = 0 then
    sysFree ioBuf
    return some [slash]
  else
    let path ← climbLoop 513 childINo []
    match path with
    | none =>
      sysFree ioBuf
      return none
    | some path =>
      assert (path.length ≤ size)
      sysFree ioBuf
      return some (reversePath path.length path [])

end ZxyOs
