/-
  ZxyOs.Kernel.Sched

  The scheduler of `kernel/thread.c` and the semaphores of `kernel/sync.c`.

  Each function runs with interrupts off, so it is one program over the queues.  It
  ends where it returns or where its thread gives the processor away; `resume` is
  what such a thread does when it runs again.  Threads are known by the addresses of
  their control blocks, semaphores by their own.  A tag is in one queue at a time
  (`SchedOk` below), so a list of control blocks stands for a linked list of tags.

  Time slices, names, page directories and the pages of control blocks are left out.
-/

import ZxyOs.Lib.Exec
import Mathlib.Data.List.Nodup
import Mathlib.Logic.Relation

namespace ZxyOs

open Lib Lib.Exec

/-- `enum task_status`. -/
inductive TaskStatus where
  | running
  | ready
  | blocked
  | waiting
  | hanging
  | died
  deriving DecidableEq

/-- `struct semaphore`. -/
structure Semaphore where
  value : Nat
  waiters : List Nat := []

/-- What a thread does when it gets the processor back. -/
inductive Resume where
  /-- it returns to the code that called the scheduler -/
  | caller
  /-- it tests the value again, in the loop of `sema_down` -/
  | semaDown (psema : Nat)
  /-- the same in the `release_pid` of `thread_exit` -/
  | releasePid (needSchedule : Bool)
  /-- it comes back to `thread_exit` behind the call of `schedule` -/
  | threadExit
  deriving DecidableEq

structure Sched where
  status : Nat → TaskStatus
  threadReadyList : List Nat
  threadAllList : List Nat
  /-- `running_thread()` -/
  cur : Nat
  idleThread : Nat
  sema : Nat → Semaphore
  /-- the semaphore of `pid_pool.pid_lock` -/
  pidLock : Nat
  resume : Nat → Resume

namespace Sched

def setStatus (s : Sched) (t : Nat) (stat : TaskStatus) : Sched :=
  { s with status := Function.update s.status t stat }

def setReady (s : Sched) (l : List Nat) : Sched := { s with threadReadyList := l }

def setAll (s : Sched) (l : List Nat) : Sched := { s with threadAllList := l }

def setSema (s : Sched) (q : Nat) (p : Semaphore) : Sched :=
  { s with sema := Function.update s.sema q p }

def setResume (s : Sched) (t : Nat) (r : Resume) : Sched :=
  { s with resume := Function.update s.resume t r }

/-! ## thread.c -/

def threadUnblock (pthread : Nat) : Exec Sched Unit := do
  let stat ← query fun s => s.status pthread
  assert (stat = .blocked ∨ stat = .hanging ∨ stat = .waiting)
  if stat ≠ .ready then
    let ready ← query threadReadyList
    -- PANIC("blocked thread in ready_list")
    assert (pthread ∉ ready)
    update fun s => s.setReady (pthread :: ready)
    update fun s => s.setStatus pthread .ready
  else
    return ()

/-- The end of `schedule`: the first thread of the ready list gets the processor. -/
def switchTo : Exec Sched Unit := do
  match ← query threadReadyList with
  | [] => stop .panic
  | next :: rest =>
    update fun s => s.setReady rest
    update fun s => s.setStatus next .running
    update fun s => { s with cur := next }

def schedule : Exec Sched Unit := do
  let cur ← query Sched.cur
  let stat ← query fun s => s.status cur
  if stat = .running then
    let ready ← query threadReadyList
    assert (cur ∉ ready)
    update fun s => s.setReady (ready ++ [cur])
    update fun s => s.setStatus cur .ready
  let ready ← query threadReadyList
  if ready = [] then
    threadUnblock (← query idleThread)
  switchTo

def threadYield : Exec Sched Unit := do
  let cur ← query Sched.cur
  let ready ← query threadReadyList
  assert (cur ∉ ready)
  update fun s => s.setReady (ready ++ [cur])
  update fun s => s.setStatus cur .ready
  schedule

def threadBlock (stat : TaskStatus) : Exec Sched Unit := do
  assert (stat = .blocked ∨ stat = .hanging ∨ stat = .waiting)
  let cur ← query Sched.cur
  update fun s => s.setStatus cur stat
  schedule

/-! ## sync.c -/

/-- `sema_down` up to where it returns (`true`) or sleeps (`false`).  A thread that
    sleeps goes on at `r`. -/
def semaDown (psema : Nat) (r : Resume) : Exec Sched Bool := do
  let p ← query fun s => s.sema psema
  if p.value = 0 then
    let cur ← query Sched.cur
    assert (cur ∉ p.waiters)
    update fun s => s.setSema psema { p with waiters := p.waiters ++ [cur] }
    update fun s => s.setResume cur r
    threadBlock .blocked
    return false
  else
    update fun s => s.setSema psema { p with value := p.value - 1 }
    let value ← query fun s => (s.sema psema).value
    assert (value = 0)
    return true

def semaUp (psema : Nat) : Exec Sched Unit := do
  let p ← query fun s => s.sema psema
  assert (p.value = 0)
  match p.waiters with
  | [] => update fun s => s
  | threadBlocked :: waiters =>
    update fun s => s.setSema psema { p with waiters := waiters }
    threadUnblock threadBlocked
  let p ← query fun s => s.sema psema
  update fun s => s.setSema psema { p with value := p.value + 1 }
  let value ← query fun s => (s.sema psema).value
  assert (value = 1)

/-! ## Threads come and go -/

/-- The end of `thread_start` and of `sys_fork`. -/
def threadStart (thread : Nat) : Exec Sched Unit := do
  update fun s => s.setStatus thread .ready
  update fun s => s.setResume thread .caller
  let ready ← query threadReadyList
  assert (thread ∉ ready)
  update fun s => s.setReady (ready ++ [thread])
  let all ← query threadAllList
  assert (thread ∉ all)
  update fun s => s.setAll (all ++ [thread])

/-- The end of `process_execute`. -/
def processExecute (thread : Nat) : Exec Sched Unit := do
  update fun s => s.setStatus thread .ready
  update fun s => s.setResume thread .caller
  let all ← query threadAllList
  assert (thread ∉ all)
  let ready ← query threadReadyList
  assert (thread ∉ ready)
  update fun s => s.setAll (all ++ [thread])
  update fun s => s.setReady (ready ++ [thread])

/-- `sys_fork` from the copy of the control block on. -/
def sysFork (childThread : Nat) : Exec Sched Unit := threadStart childThread

/-- The rest of `thread_exit` from `release_pid` on.  The thread does not hold the
    lock of the pids, so `lock_acquire` comes down to `sema_down` and `lock_release`
    to `sema_up`. -/
def releasePid (needSchedule : Bool) : Exec Sched Unit := do
  let pidLock ← query pidLock
  let cur ← query Sched.cur
  if ← semaDown pidLock (.releasePid needSchedule) then
    semaUp pidLock
    if needSchedule then
      update fun s => s.setResume cur .threadExit
      schedule
  else
    return ()

def threadExit (threadOver : Nat) (needSchedule : Bool) : Exec Sched Unit := do
  update fun s => s.setStatus threadOver .died
  let ready ← query threadReadyList
  if threadOver ∈ ready then
    update fun s => s.setReady (ready.erase threadOver)
  let all ← query threadAllList
  -- `list_remove` follows the links of the tag
  require (threadOver ∈ all)
  update fun s => s.setAll (all.erase threadOver)
  releasePid needSchedule

/-- What the running thread does when it has come back from another one. -/
def resumed : Exec Sched Unit := do
  let cur ← query Sched.cur
  match ← query fun s => s.resume cur with
  | .caller => return ()
  | .semaDown psema =>
    update fun s => s.setResume cur .caller
    let _ ← semaDown psema (.semaDown psema)
    return ()
  | .releasePid needSchedule =>
    update fun s => s.setResume cur .caller
    releasePid needSchedule
  | .threadExit =>
    -- PANIC("thread_exit: should not be here")
    stop .panic

end Sched

end ZxyOs
