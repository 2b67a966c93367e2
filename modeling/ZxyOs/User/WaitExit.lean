/-
  ZxyOs.User.WaitExit

  `fork`, `exit` and `wait`: the processes, their parents and their pids
  (`user/wait_exit.c`, `user/fork.c`, `kernel/thread.c`).

  A system call runs with interrupts off and is cut where it can block: between the
  copy of the control block and the end of `sys_fork`, in `release_prog_resource`, in
  `thread_block`, and in the `release_pid` of `thread_exit`.  Between two cuts any
  process may run.  A process is known by its number in the order of creation; the
  page of its control block, and its pid, may be used again for another one.

  A thread that is not `WAITING`, `HANGING` or `DIED` will run some time, and its
  status is written `ready` here.  Address spaces, open files and queues are left out.
-/

import ZxyOs.Kernel.Bitmap
import ZxyOs.Kernel.Sched
import ZxyOs.Lib.Runs
import Mathlib.Data.Int.DivMod

namespace ZxyOs

open Lib Lib.Exec

/-- Where a process is in a system call. -/
inductive Place where
  | user
  /-- in `sys_fork`, with the control block of the child -/
  | forking (childThread : Nat)
  /-- in `sys_exit`, in `release_prog_resource` -/
  | exiting
  /-- in `sys_exit`, behind `thread_block(TASK_HANGING)` -/
  | hanging
  /-- in `sys_wait`, in `thread_block(TASK_WAITING)` -/
  | waiting
  /-- in `sys_wait`, in the `release_pid` of `thread_exit` -/
  | reaping (childThread : Nat) (childPid status : Int)
  deriving DecidableEq

/-- A `sys_wait` of `parent` that has returned `childPid`. -/
structure Reaped where
  parent : Nat
  child : Nat
  childPid : Int
  status : Int

/-- The threads, with the fields of `struct task_struct` the functions below use, and
    what is recorded of them: who created or adopted a process, what it passed to
    `exit`, which processes have been `HANGING`, which control blocks have been freed,
    and what `sys_wait` has returned. -/
structure Procs where
  pid : Nat → Int
  parentPid : Nat → Int
  status : Nat → TaskStatus
  exitStatus : Nat → Int
  /-- `pgdir != NULL` -/
  isProcess : Nat → Bool
  threadAllList : List Nat
  pidBitmap : Bitmap
  place : Nat → Place
  nextThread : Nat
  parent : Nat → Nat
  exitArg : Nat → Option Int
  hung : List Nat
  freed : List Nat
  reaped : List Reaped

/-- The process `init` has pid 1 and was created first. -/
abbrev initProc : Nat := 0

/-- The conversion to `int8_t`. -/
def toInt8 (n : Int) : Int := Int.bmod n 256

namespace Procs

def setStatus (s : Procs) (t : Nat) (stat : TaskStatus) : Procs :=
  { s with status := Function.update s.status t stat }

def setPlace (s : Procs) (t : Nat) (p : Place) : Procs :=
  { s with place := Function.update s.place t p }

/-! ## Pids -/

/-- `pid_pool.pid_start` is 1. -/
def allocatePid : Exec Procs Int := do
  let b ← query pidBitmap
  match ← b.bitmapScan 1 with
  | none => stop .fault
  | some bitIdx =>
    update fun s => { s with pidBitmap := b.bitmapSet bitIdx true }
    return bitIdx + 1

def releasePid (pid : Int) : Exec Procs Unit :=
  update fun s => { s with pidBitmap := s.pidBitmap.bitmapSet (pid - 1).toNat false }

/-! ## sys_fork -/

/-- `sys_fork` up to where the control block of the child is filled in. -/
def forkCopy (t : Nat) : Exec Procs Unit := do
  let isProcess ← query fun s => s.isProcess t
  assert (isProcess = true)
  let child ← query nextThread
  -- the control block is copied, then some fields are set
  let pid ← allocatePid
  update fun s => { s with
    exitStatus := Function.update s.exitStatus child (s.exitStatus t)
    isProcess := Function.update s.isProcess child (s.isProcess t)
    pid := Function.update s.pid child pid
    status := Function.update s.status child .ready
    parentPid := Function.update s.parentPid child (s.pid t) }
  update fun s => { s with
    nextThread := child + 1
    parent := Function.update s.parent child t }
  update fun s => (s.setPlace child .user).setPlace t (.forking child)

/-- The end of `sys_fork`. -/
def forkEnd (t child : Nat) : Exec Procs Unit := do
  let all ← query threadAllList
  assert (child ∉ all)
  update fun s => { s with threadAllList := all ++ [child] }
  update fun s => s.setPlace t .user

/-- `sys_fork` returns -1 because there is no memory. -/
def forkFails (t : Nat) : Exec Procs Unit :=
  update fun s => s.setPlace t .user

/-! ## sys_exit -/

/-- `init_adopt_a_child` for every thread. -/
def adoptChildren (ppid : Int) : Exec Procs Unit :=
  update fun s =>
    let adopted := fun c => c ∈ s.threadAllList ∧ s.parentPid c = ppid
    { s with
      parentPid := fun c => if adopted c then 1 else s.parentPid c
      parent := fun c => if adopted c then initProc else s.parent c }

/-- `sys_exit` up to `release_prog_resource`. -/
def exitStart (t : Nat) (status : Int) : Exec Procs Unit := do
  update fun s => { s with
    exitStatus := Function.update s.exitStatus t (toInt8 status)
    exitArg := Function.update s.exitArg t (some status) }
  let parentPid ← query fun s => s.parentPid t
  -- PANIC("sys_exit: child_thread->parent_pid == -1")
  assert (parentPid ≠ -1)
  let pid ← query fun s => s.pid t
  adoptChildren pid
  update fun s => s.setPlace t .exiting

/-- `pid_to_thread`. -/
def pidToThread (pid : Int) : Exec Procs (Option Nat) := do
  let s ← query id
  return s.threadAllList.find? fun c => s.pid c = pid

/-- The rest of `sys_exit`. -/
def exitEnd (t : Nat) : Exec Procs Unit := do
  let parentPid ← query fun s => s.parentPid t
  let parentThread ← deref (← pidToThread parentPid)
  let status ← query fun s => s.status parentThread
  if status = .waiting then
    -- `thread_unblock`
    update fun s => s.setStatus parentThread .ready
  -- `thread_block(TASK_HANGING)`
  update fun s => s.setStatus t .hanging
  update fun s => { s.setPlace t .hanging with hung := t :: s.hung }

/-! ## sys_wait -/

/-- `list_traversal` with `find_hanging_child`. -/
def findHangingChild (ppid : Int) : Exec Procs (Option Nat) := do
  let s ← query id
  return s.threadAllList.find? fun c =>
    s.status c = .hanging ∧ s.parentPid c = ppid

/-- `list_traversal` with `fine_child`. -/
def findChild (ppid : Int) : Exec Procs (Option Nat) := do
  let s ← query id
  return s.threadAllList.find? fun c => s.parentPid c = ppid

/-- `thread_exit` up to `release_pid`. -/
def threadExit (threadOver : Nat) : Exec Procs Unit := do
  update fun s => s.setStatus threadOver .died
  let all ← query threadAllList
  require (threadOver ∈ all)
  update fun s => { s with
    threadAllList := all.erase threadOver
    freed := threadOver :: s.freed }

/-- How a turn of the loop of `sys_wait` ends. -/
inductive WaitOutcome where
  /-- a child has been reaped, and `release_pid` is called -/
  | reaps
  /-- the call returns -1 -/
  | noChild
  /-- the process sleeps -/
  | sleeps
  deriving DecidableEq

/-- A turn of the loop of `sys_wait`. -/
def sysWait (t : Nat) : Exec Procs WaitOutcome := do
  let pid ← query fun s => s.pid t
  match ← findHangingChild pid with
  | some child =>
    let status ← query fun s => s.exitStatus child
    let childPid ← query fun s => s.pid child
    threadExit child
    update fun s => s.setPlace t (.reaping child childPid status)
    return .reaps
  | none =>
    match ← findChild pid with
    | none =>
      update fun s => s.setPlace t .user
      return .noChild
    | some _ =>
      update fun s => s.setStatus t .waiting
      update fun s => s.setPlace t .waiting
      return .sleeps

/-- The rest of `sys_wait` once `release_pid` has the lock. -/
def waitEnd (t child : Nat) (childPid status : Int) : Exec Procs Unit := do
  let pid ← query fun s => s.pid child
  releasePid pid
  update fun s => { s.setPlace t .user with reaped := ⟨t, child, childPid, status⟩ :: s.reaped }

/-! ## Runs -/

/-- What runs next, up to its next cut. -/
inductive ProcEvent where
  | fork (t : Nat)
  | forkEnd (t : Nat)
  | forkFails (t : Nat)
  | exit (t : Nat) (status : Int)
  | exitEnd (t : Nat)
  | wait (t : Nat)
  | waitEnd (t : Nat)
  /-- a thread of the kernel ends: `thread_exit(running_thread(), true)` -/
  | threadEnds (t : Nat)

/-- `thread_exit` of a thread of the kernel that ends itself. -/
def threadEnds (t : Nat) : Exec Procs Unit := do
  update fun s => s.setStatus t .died
  update fun s => { s with threadAllList := s.threadAllList.erase t }
  let pid ← query fun s => s.pid t
  releasePid pid

/-- The process is in the list of all threads and may run. -/
def MayRun (s : Procs) (t : Nat) : Prop :=
  t ∈ s.threadAllList ∧ s.isProcess t = true ∧ s.status t = .ready

/-- One process runs up to its next cut. -/
def Step (s : Procs) (e : ProcEvent) (s' : Procs) : Prop :=
  match e with
  | .fork t => s.MayRun t ∧ s.place t = .user ∧ Returns (forkCopy t) s () s'
  | .forkEnd t => s.MayRun t ∧ ∃ c, s.place t = .forking c ∧ Returns (Procs.forkEnd t c) s () s'
  | .forkFails t => s.MayRun t ∧ ∃ c, s.place t = .forking c ∧ Returns (Procs.forkFails t) s () s'
  | .exit t status => s.MayRun t ∧ s.place t = .user ∧ Returns (exitStart t status) s () s'
  | .exitEnd t => s.MayRun t ∧ s.place t = .exiting ∧ Returns (Procs.exitEnd t) s () s'
  | .wait t => s.MayRun t ∧ (s.place t = .user ∨ s.place t = .waiting) ∧
      ∃ o, Returns (sysWait t) s o s'
  | .waitEnd t => s.MayRun t ∧ ∃ c pid status, s.place t = .reaping c pid status ∧
      Returns (Procs.waitEnd t c pid status) s () s'
  | .threadEnds t => t ∈ s.threadAllList ∧ s.isProcess t = false ∧
      Returns (Procs.threadEnds t) s () s'

/-- `init` with pid 1, the main thread and idle. -/
structure Initial (s : Procs) : Prop where
  all : s.threadAllList = [0, 1, 2]
  pid : ∀ t < 3, s.pid t = t + 1
  parentPid : ∀ t < 3, s.parentPid t = -1
  status : ∀ t < 3, s.status t = .ready
  isProcess : ∀ t < 3, s.isProcess t = decide (t = initProc)
  place : ∀ t < 3, s.place t = .user
  bytes : s.pidBitmap.btmpBytesLen = 128
  bit : ∀ i, s.pidBitmap.bit i = decide (i < 3)
  nextThread : s.nextThread = 3
  hung : s.hung = []
  freed : s.freed = []
  reaped : s.reaped = []

/-- Runs all of whose events meet `P`. -/
abbrev Run (P : Procs → ProcEvent → Prop) : Procs → Procs → Prop := Lib.Run Step P

end Procs

end ZxyOs
