/-
  ZxyOs.User.Descriptors

  The calls that make, copy and drop descriptors of pipes and files: `sys_pipe` and
  `sys_fd_redirect` (`user/pipe.c`), `sys_lseek` (`fs/fs.c`), and what `sys_fork` and
  `sys_exit` do with the descriptors of a process (`user/fork.c`, `user/wait_exit.c`).
-/

import ZxyOs.Fs.Syscall
import Mathlib.Data.Finset.Prod
import Mathlib.Data.Fintype.Basic
import Mathlib.Data.Int.DivMod

namespace ZxyOs

open Lib Lib.Exec

/-! ## Pipes -/

/-- `get_kernel_pages(1)`: a page nobody has, from the same supply as the heap. -/
def getKernelPage : FsM (Option Nat) := do
  let h ← query fun s => s.heap
  update fun s => { s with heap := { s.heap with next := s.heap.next + 1 } }
  return if h.full h.next then none else some h.next

/-- `ioqueue_init`. -/
def ioqueueInit (ioq : Nat) : FsM Unit :=
  update fun s => { s with
    rings := Function.update s.rings ioq (some { head := 0, tail := 0, buf := Bytes.zero }) }

/-- `sys_pipe`: the two numbers stored in `pipefd`. -/
def sysPipe : FsM (Int × Int) := do
  let globalFd ← getFreeSlotInGlobal
  -- without a free slot `file_table[-1]` is written, and without a page address 0
  let globalFd ← deref globalFd
  let page ← getKernelPage
  let page ← deref page
  ioqueueInit page
  putFile globalFd { fdInode := some page, fdFlag := pipeFlag, fdPos := 2 }
  let fd0 ← pcbFdInstall globalFd
  let fd1 ← pcbFdInstall globalFd
  return (fd0, fd1)

/-- The pipe branch of `sys_close` and of `release_prog_resource`: one descriptor less
    on the pipe in slot `g`. -/
def pipeClose (g : Nat) : FsM Unit := do
  let s ← query id
  let f := s.fileTable g
  let pos := (f.fdPos + (2 ^ 32 - 1)) % 2 ^ 32
  putFile g { f with fdPos := pos }
  if pos = 0 then
    assert (f.fdInode ≠ none)
    update fun s => { s with rings := fun a => if some a = f.fdInode then none else s.rings a }
    putFile g { f with fdPos := pos, fdInode := none }

/-- `sys_fd_redirect`. -/
def sysFdRedirect (oldLocalFd newLocalFd : Nat) : FsM Unit :=
  if newLocalFd < 3 then
    setFd oldLocalFd newLocalFd
  else do
    let cur ← runningThread
    if h : newLocalFd < 8 then
      setFd oldLocalFd (cur.fdtable ⟨newLocalFd, h⟩)
    else
      stop .fault

/-! ## Offsets -/

/-- `fd_inode->i_size`.  The same word of a pipe's `struct ioqueue` is the value of the
    semaphore of its lock, which is 1 while nobody has the lock. -/
def fileSize (a : Nat) : FsM Int := do
  let s ← query id
  match s.rings a with
  | some _ => return 1
  | none =>
    let v ← getInode a
    return Int.bmod v.iSize (2 ^ 32)

/-- `new_pos` of `sys_lseek`. -/
def lseekPos (whence : Nat) (offset : Int) (fdPos : Nat) (size : Int) : Int :=
  if whence = 1 then offset
  else if whence = 2 then Int.bmod (offset + Int.bmod fdPos (2 ^ 32)) (2 ^ 32)
  else Int.bmod (size + offset) (2 ^ 32)

/-- `sys_lseek`. -/
def sysLseek (fd offset : Int) (whence : Nat) : FsM Int := do
  assert (0 ≤ fd ∧ fd < 8)
  assert (0 < whence ∧ whence < 4)
  let g ← fdLocalToGlobal fd
  let f ← query fun s => s.fileTable g
  let a ← deref f.fdInode
  let size ← fileSize a
  let newPos := lseekPos whence offset f.fdPos size
  if newPos < 0 ∨ newPos > size - 1 then
    return -1
  putFile g { f with fdPos := newPos.toNat }
  return newPos

/-! ## fork and exit -/

/-- The descriptors `fork` and `exit` look at, from 3 on. -/
abbrev localFds : List (Fin 8) := [3, 4, 5, 6, 7]

theorem mem_localFds : ∀ fd : Fin 8, fd ∈ localFds ↔ 3 ≤ fd := by decide

/-- The loop of `update_inode_open_cnts` for `thread`. -/
def updateInodeOpenCnts (thread : Nat) : List (Fin 8) → FsM Unit
  | [] => return ()
  | localFd :: rest => do
    let task ← query fun s => s.tasks thread
    let task ← deref task
    let globalFd := task.fdtable localFd
    assert (globalFd < maxFilesOpen)
    if globalFd ≠ -1 then
      let pipe ← isPipe localFd.val
      let f ← query fun s => s.fileTable globalFd.toNat
      if pipe then
        putFile globalFd.toNat { f with fdPos := (f.fdPos + 1) % 2 ^ 32 }
      else
        let a ← deref f.fdInode
        let v ← getInode a
        putInode a { v with iOpenCnt := v.iOpenCnt + 1 }
    updateInodeOpenCnts thread rest

/-- What a `sys_fork` that succeeds does here: the child has a copy of the control block
    of its parent. -/
def sysFork (child : Nat) : FsM Unit := do
  let parent ← runningThread
  update fun s => { s with tasks := Function.update s.tasks child (some parent) }
  updateInodeOpenCnts child localFds

/-- One turn of the last loop of `release_prog_resource`. -/
def releaseFd (fdIdx : Fin 8) : FsM Unit := do
  let thread ← runningThread
  if thread.fdtable fdIdx ≠ -1 then
    let pipe ← isPipe fdIdx.val
    if pipe then
      let globalFd ← fdLocalToGlobal fdIdx.val
      pipeClose globalFd
    else
      let _ ← sysClose fdIdx.val

/-- The last loop of `release_prog_resource`. -/
def releaseFds : List (Fin 8) → FsM Unit
  | [] => return ()
  | fdIdx :: rest => do
    releaseFd fdIdx
    releaseFds rest

/-- What `sys_exit` does here; the control block is not used again. -/
def sysExit : FsM Unit := do
  releaseFds localFds
  update fun s => { s with tasks := Function.update s.tasks s.cur none }

/-! ## Runs of calls by many processes -/

/-- The file system and the processes that live. -/
structure FileProcs where
  fs : Fs
  live : Finset Nat

/-- A call that makes, copies or drops descriptors. -/
inductive FdCall where
  | pipe
  | fork (child : Nat)
  | close (fd : Int)
  | exit
  | fdRedirect (oldLocalFd newLocalFd : Nat)
  | lseek (fd offset : Int) (whence : Nat)

namespace FdCall

def code : FdCall → FsM Unit
  | pipe => do
    let _ ← sysPipe
  | fork child => sysFork child
  | close fd => do
    let _ ← sysClose fd
  | exit => sysExit
  | fdRedirect oldLocalFd newLocalFd => sysFdRedirect oldLocalFd newLocalFd
  | lseek fd offset whence => do
    let _ ← sysLseek fd offset whence

/-- The processes that live after the call of `t`. -/
def lives (live : Finset Nat) (t : Nat) : FdCall → Finset Nat
  | fork child => insert child live
  | exit => live.erase t
  | _ => live

/-- A child is new, and there are 1024 pids. -/
def Grants (live : Finset Nat) : FdCall → Prop
  | fork child => child ∉ live ∧ live.card < 1024
  | _ => True

end FdCall

namespace FileProcs

/-- The process `e.1` makes the call `e.2`, and it returns. -/
def Step (d : FileProcs) (e : Nat × FdCall) (d' : FileProcs) : Prop :=
  e.1 ∈ d.live ∧ e.2.Grants d.live ∧ Returns e.2.code { d.fs with cur := e.1 } () d'.fs ∧
    d'.live = e.2.lives d.live e.1

end FileProcs

end ZxyOs
