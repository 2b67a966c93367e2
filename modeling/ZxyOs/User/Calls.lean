/-
  ZxyOs.User.Calls

  Runs of the calls on files, directories and descriptors by kernel threads and user
  processes, one call after the other.

  A kernel thread calls the functions themselves, a process comes through `int 0x80`
  with interrupts off; what the file system does for them differs in the pool that
  `sys_malloc` takes its blocks from.
-/

import ZxyOs.Lib.Runs
import ZxyOs.Fs.FdTable
import ZxyOs.Fs.Format
import ZxyOs.Fs.Reading
import ZxyOs.User.Descriptors

namespace ZxyOs

open Lib Lib.Exec

/-- A call on files, directories or descriptors. -/
inductive FsCall where
  | openFile (path : CStr) (flags : Nat)
  | close (fd : Int)
  | read (fd : Int) (cnt : Nat) (kbd : Bytes)
  | write (fd : Int) (buf : Bytes) (cnt : Nat)
  | lseek (fd offset : Int) (whence : Nat)
  | unlink (path : CStr)
  | mkdir (path : CStr)
  | rmdir (path : CStr)
  | opendir (path : CStr)
  | closedir (dir : Option DirPtr)
  | readdir (dir : Option DirPtr)
  | rewinddir (dir : Option DirPtr)
  | chdir (path : CStr)
  | getcwd (size : Nat)
  | stat (path : CStr)
  | pipe
  | redirect (oldLocalFd newLocalFd : Nat)
  | fork (child : Nat)
  | exit
  /-- `thread_start` or `process_execute` -/
  | create (child : Nat) (userSpace : Bool)

namespace FsCall

/-- The call; its result goes to the caller. -/
def code : FsCall → FsM Unit
  | openFile path flags => do
    let _ ← sysOpen path flags
  | close fd => do
    let _ ← sysClose fd
  | read fd cnt kbd => do
    let _ ← sysRead fd cnt kbd
  | write fd buf cnt => do
    let _ ← sysWrite fd buf cnt
  | lseek fd offset whence => do
    let _ ← sysLseek fd offset whence
  | unlink path => do
    let _ ← sysUnlink path
  | mkdir path => do
    let _ ← sysMkdir path
  | rmdir path => do
    let _ ← sysRmdir path
  | opendir path => do
    let _ ← sysOpendir path
  | closedir dir => do
    let _ ← sysClosedir dir
  | readdir dir => do
    let _ ← sysReaddir dir
  | rewinddir dir => sysRewinddir dir
  | chdir path => do
    let _ ← sysChdir path
  | getcwd size => do
    let _ ← sysGetcwd size
  | stat path => do
    let _ ← sysStat path
  | pipe => do
    let _ ← sysPipe
  | redirect oldLocalFd newLocalFd => sysFdRedirect oldLocalFd newLocalFd
  | fork child => sysFork child
  | exit => sysExit
  | create child userSpace => update fun s =>
    s.setTask child { initThread with userSpace := userSpace }

/-- A child is new. -/
def Grants (s : Fs) : FsCall → Prop
  | fork child => s.tasks child = none
  | create child _ => s.tasks child = none
  | _ => True

end FsCall

namespace Fs

/-- The thread `e.1` makes the call `e.2`, and it returns. -/
def Step (s : Fs) (e : Nat × FsCall) (s' : Fs) : Prop :=
  e.2.Grants s ∧ Returns e.2.code { s with cur := e.1 } () s'

abbrev Run (P : Fs → Nat × FsCall → Prop) : Fs → Fs → Prop := Lib.Run Step P

/-- The kernel has started on `disk` and has mounted the partition at `startLba`. -/
def Mounted (disk : Bytes) (full : Nat → Bool) (startLba secCnt : Nat) (s : Fs) : Prop :=
  Returns (do
    partitionMount startLba secCnt
    openRootDir) (boot disk full) () s

end Fs

end ZxyOs
