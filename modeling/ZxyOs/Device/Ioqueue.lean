/-
  ZxyOs.Device.Ioqueue

  The ring buffer of `device/ioqueue.c` and the threads that put characters into it
  and take them out.

  Interrupts are off, so a thread runs until it sleeps or its call returns.  It sleeps
  in the `sema_down` of `lock_acquire` or in `ioq_wait`; `place` is where, and what it
  does when it has been woken is one program from there on.  Whichever thread is awake
  may run next.  `written` and `read` record the characters of all calls.
-/

import ZxyOs.Kernel.Sched
import ZxyOs.Lib.Ring
import ZxyOs.Lib.Runs

namespace ZxyOs

open Lib Lib.Exec

/-- `struct ioqueue`. -/
structure Ioqueue where
  holder : Option Nat := none
  holderRepeatNr : Nat := 0
  semaphore : Semaphore := { value := 1 }
  producer : Option Nat := none
  consumer : Option Nat := none
  buf : Nat → UInt8
  head : Nat := 0
  tail : Nat := 0

abbrev bufsize : Nat := 2048

namespace Ioqueue

def ioqFull (q : Ioqueue) : Bool := ringNext bufsize q.head = q.tail

def ioqEmpty (q : Ioqueue) : Bool := q.head = q.tail

def ioqLength (q : Ioqueue) : Nat :=
  if q.tail ≤ q.head then q.head - q.tail else bufsize - (q.tail - q.head)

end Ioqueue

/-- The call a thread is in. -/
inductive IoqCall where
  | putChar (ch : UInt8)
  | getChar

/-- Where a thread goes on. -/
inductive IoqPlace where
  /-- it is in no call -/
  | outside
  /-- it tests the value again, in the `sema_down` of `lock_acquire` -/
  | lockAcquire (c : IoqCall)
  /-- it comes back from `thread_block` in `ioq_wait` -/
  | ioqWait (c : IoqCall)

structure IoqSystem where
  ioq : Ioqueue
  /-- the thread sleeps (`TASK_BLOCKED`) -/
  blocked : Nat → Bool
  place : Nat → IoqPlace
  written : List UInt8
  read : List UInt8

namespace IoqSystem

def setIoq (s : IoqSystem) (q : Ioqueue) : IoqSystem := { s with ioq := q }

def setBlocked (s : IoqSystem) (t : Nat) (b : Bool) : IoqSystem :=
  { s with blocked := Function.update s.blocked t b }

def setPlace (s : IoqSystem) (t : Nat) (p : IoqPlace) : IoqSystem :=
  { s with place := Function.update s.place t p }

/-! ## thread.c and sync.c -/

/-- `thread_block`; the thread will go on at `p`. -/
def threadBlock (t : Nat) (p : IoqPlace) : Exec IoqSystem Unit := do
  update fun s => s.setPlace t p
  update fun s => s.setBlocked t true

def threadUnblock (pthread : Nat) : Exec IoqSystem Unit := do
  let blocked ← query fun s => s.blocked pthread
  assert (blocked = true)
  update fun s => s.setBlocked pthread false

/-- `sema_down` of the lock by the thread `t`; `false`: it has gone to sleep. -/
def semaDown (t : Nat) (c : IoqCall) : Exec IoqSystem Bool := do
  let q ← query ioq
  if q.semaphore.value = 0 then
    assert (t ∉ q.semaphore.waiters)
    update fun s => s.setIoq
      { q with semaphore := { q.semaphore with waiters := q.semaphore.waiters ++ [t] } }
    threadBlock t (.lockAcquire c)
    return false
  else
    assert (q.semaphore.value - 1 = 0)
    update fun s => s.setIoq { q with semaphore := { q.semaphore with value := 0 } }
    return true

def semaUp : Exec IoqSystem Unit := do
  let q ← query ioq
  assert (q.semaphore.value = 0)
  match q.semaphore.waiters with
  | [] => update fun s => s.setIoq { q with semaphore := ⟨1, []⟩ }
  | w :: ws =>
    threadUnblock w
    update fun s => s.setIoq { q with semaphore := ⟨1, ws⟩ }

/-- The rest of `lock_acquire` behind `sema_down`. -/
def lockTaken (t : Nat) : Exec IoqSystem Unit := do
  let q ← query ioq
  assert (q.holderRepeatNr = 0)
  update fun s => s.setIoq { q with holder := some t, holderRepeatNr := 1 }

/-- `lock_acquire`; `false`: the thread has gone to sleep. -/
def lockAcquire (t : Nat) (c : IoqCall) : Exec IoqSystem Bool := do
  let q ← query ioq
  if q.holder ≠ some t then
    if ← semaDown t c then
      lockTaken t
      return true
    else
      return false
  else
    update fun s => s.setIoq { q with holderRepeatNr := (q.holderRepeatNr + 1) % 2 ^ 32 }
    return true

def lockRelease (t : Nat) : Exec IoqSystem Unit := do
  let q ← query ioq
  assert (q.holder = some t)
  if 1 < q.holderRepeatNr then
    update fun s => s.setIoq { q with holderRepeatNr := q.holderRepeatNr - 1 }
  else
    assert (q.holderRepeatNr = 1)
    update fun s => s.setIoq { q with holder := none, holderRepeatNr := 0 }
    semaUp

/-! ## ioqueue.c -/

/-- `ioq->producer` or `ioq->consumer`, whichever the call waits in. -/
def waiter (c : IoqCall) (q : Ioqueue) : Option Nat :=
  match c with
  | .putChar _ => q.producer
  | .getChar => q.consumer

def setWaiter (c : IoqCall) (w : Option Nat) (q : Ioqueue) : Ioqueue :=
  match c with
  | .putChar _ => { q with producer := w }
  | .getChar => { q with consumer := w }

def ioqWait (t : Nat) (c : IoqCall) : Exec IoqSystem Unit := do
  let q ← query ioq
  assert (waiter c q = none)
  update fun s => s.setIoq (setWaiter c (some t) q)
  threadBlock t (.ioqWait c)

/-- `wakeup(&ioq->producer)`. -/
def wakeupProducer : Exec IoqSystem Unit := do
  match ← query fun s => s.ioq.producer with
  | none => stop .panic
  | some w =>
    threadUnblock w
    update fun s => s.setIoq { s.ioq with producer := none }

/-- `wakeup(&ioq->consumer)`. -/
def wakeupConsumer : Exec IoqSystem Unit := do
  match ← query fun s => s.ioq.consumer with
  | none => stop .panic
  | some w =>
    threadUnblock w
    update fun s => s.setIoq { s.ioq with consumer := none }

/-- The body of the loop of a call up to where the thread sleeps. -/
def waitForRoom (t : Nat) (c : IoqCall) : Exec IoqSystem Unit := do
  if ← lockAcquire t c then
    ioqWait t c
  else
    return ()

/-- `ioq_get_char` from the test of the loop on. -/
def ioqGetChar (t : Nat) : Exec IoqSystem Unit := do
  let q ← query ioq
  if q.ioqEmpty then
    waitForRoom t .getChar
  else
    let ch := q.buf q.tail
    update fun s => s.setIoq { s.ioq with tail := ringNext bufsize q.tail }
    if q.producer ≠ none then
      wakeupProducer
    -- return ch
    update fun s => { s with read := s.read ++ [ch] }

/-- `ioq_put_char` from the test of the loop on. -/
def ioqPutChar (t : Nat) (ch : UInt8) : Exec IoqSystem Unit := do
  let q ← query ioq
  if q.ioqFull then
    waitForRoom t (.putChar ch)
  else
    update fun s => s.setIoq { s.ioq with buf := Function.update q.buf q.head ch }
    update fun s => s.setIoq { s.ioq with head := ringNext bufsize q.head }
    if q.consumer ≠ none then
      wakeupConsumer
    update fun s => { s with written := s.written ++ [ch] }

def loop (t : Nat) : IoqCall → Exec IoqSystem Unit
  | .getChar => ioqGetChar t
  | .putChar ch => ioqPutChar t ch

/-! ## Threads -/

/-- A thread in no call starts one; a thread that has been woken goes on. -/
inductive Event where
  | start (t : Nat) (c : IoqCall)
  | resume (t : Nat)

/-- What the thread does until it sleeps or its call returns. -/
def code (s : IoqSystem) : Event → Option (Exec IoqSystem Unit)
  | .start t c =>
    match s.place t, s.blocked t with
    | .outside, false => some (loop t c)
    | _, _ => none
  | .resume t =>
    if s.blocked t then none
    else
      match s.place t with
      | .outside => none
      | .lockAcquire c => some do
        if ← semaDown t c then
          lockTaken t
          ioqWait t c
        else
          return ()
      | .ioqWait c => some do
        update fun s => s.setPlace t .outside
        lockRelease t
        loop t c

/-- One thread runs until it sleeps or its call returns. -/
def Step (s : IoqSystem) (e : Event) (s' : IoqSystem) : Prop :=
  ∃ x, s.code e = some x ∧ Returns x s () s'

/-- `ioqueue_init`, and nobody has called anything. -/
structure Initial (s : IoqSystem) : Prop where
  holder : s.ioq.holder = none
  holderRepeatNr : s.ioq.holderRepeatNr = 0
  semaphore : s.ioq.semaphore = { value := 1 }
  producer : s.ioq.producer = none
  consumer : s.ioq.consumer = none
  head : s.ioq.head = 0
  tail : s.ioq.tail = 0
  blocked : ∀ t, s.blocked t = false
  place : ∀ t, s.place t = .outside
  written : s.written = []
  read : s.read = []

/-- Runs all of whose events meet `P`. -/
abbrev Run (P : IoqSystem → Event → Prop) : IoqSystem → IoqSystem → Prop := Lib.Run Step P

end IoqSystem

end ZxyOs
