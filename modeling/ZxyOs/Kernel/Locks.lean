/-
  ZxyOs.Kernel.Locks

  `lock_acquire` and `lock_release` of `kernel/sync.c` by threads that may be
  preempted between any two statements.

  A statement that reads or writes a lock is an act; `sema_down` and `sema_up` run
  with interrupts off and are acts.  A thread that sleeps in `sema_down` performs the
  act again when it is woken.  Locks and threads are known by their addresses.

  While a thread is in a call for a lock its phase says what it has done to the lock;
  `lockDiscipline` says which acts the two functions perform in which phase.
-/

import ZxyOs.Kernel.Sched
import ZxyOs.Lib.Runs
import ZxyOs.Lib.Threads
import Mathlib.Algebra.Group.Nat.Defs

namespace ZxyOs

open Lib Lib.Prog

/-- What the threads share. -/
structure SyncState where
  holder : Nat → Option Nat
  holderRepeatNr : Nat → Nat
  semaphore : Nat → Semaphore
  /-- the thread sleeps in `sema_down`; any other thread is ready or runs -/
  blocked : Nat → Bool
  /-- the thread has been woken and is to test the value again -/
  woken : Nat → Bool

namespace SyncState

def setHolder (s : SyncState) (plock : Nat) (t : Option Nat) : SyncState :=
  { s with holder := Function.update s.holder plock t }

def setHolderRepeatNr (s : SyncState) (plock n : Nat) : SyncState :=
  { s with holderRepeatNr := Function.update s.holderRepeatNr plock n }

def setSemaphore (s : SyncState) (plock : Nat) (p : Semaphore) : SyncState :=
  { s with semaphore := Function.update s.semaphore plock p }

def setBlocked (s : SyncState) (t : Nat) (b : Bool) : SyncState :=
  { s with blocked := Function.update s.blocked t b }

def setWoken (s : SyncState) (t : Nat) (b : Bool) : SyncState :=
  { s with woken := Function.update s.woken t b }

end SyncState

/-- The statements of the two functions. -/
inductive SyncAct where
  | assert (p : Bool)
  /-- `plock->holder == running_thread()` -/
  | holderIsSelf (plock : Nat)
  | semaDown (plock : Nat)
  | setHolder (plock : Nat)
  | clearHolder (plock : Nat)
  | holderRepeatNr (plock : Nat)
  | setHolderRepeatNr (plock n : Nat)
  | semaUp (plock : Nat)

/-- What an act of the thread `t` does: it is answered, or the thread sleeps (no
    answer), or an assertion fails. -/
def SyncAct.exec (t : Nat) (s : SyncState) : SyncAct → Option (Option Nat × SyncState)
  | .assert p => if p then some (some 0, s) else none
  | .holderIsSelf l => some (some (if s.holder l = some t then 1 else 0), s)
  | .semaDown l =>
    let p := s.semaphore l
    if p.value = 0 then
      if t ∈ p.waiters then none
      else
        some (none, ((s.setSemaphore l { p with waiters := p.waiters ++ [t] }).setBlocked t
          true).setWoken t false)
    else if p.value - 1 = 0 then
      some (some 0, (s.setSemaphore l { p with value := p.value - 1 }).setWoken t false)
    else none
  | .setHolder l => some (some 0, s.setHolder l (some t))
  | .clearHolder l => some (some 0, s.setHolder l none)
  | .holderRepeatNr l => some (some (s.holderRepeatNr l), s)
  | .setHolderRepeatNr l n => some (some 0, s.setHolderRepeatNr l n)
  | .semaUp l =>
    let p := s.semaphore l
    if p.value = 0 then
      match p.waiters with
      | [] => some (some 0, s.setSemaphore l { p with value := p.value + 1 })
      | w :: ws =>
        -- `thread_unblock`
        if s.blocked w then
          some (some 0, ((s.setSemaphore l ⟨p.value + 1, ws⟩).setBlocked w false).setWoken w true)
        else none
    else none

/-- The statements of a function, as a thread runs it. -/
abbrev SyncCode : Type := Prog SyncAct Unit

namespace SyncCode

/-- `ASSERT`. -/
def assert (p : Prop) [Decidable p] : SyncCode := do
  let _ ← perform (.assert (decide p))
  return ()

/-- `holder_repeat_nr` has 32 bits. -/
def lockAcquire (plock : Nat) : SyncCode := do
  if (← perform (.holderIsSelf plock)) = 0 then
    let _ ← perform (.semaDown plock)
    let _ ← perform (.setHolder plock)
    let n ← perform (.holderRepeatNr plock)
    assert (n = 0)
    let _ ← perform (.setHolderRepeatNr plock 1)
    return ()
  else
    let n ← perform (.holderRepeatNr plock)
    let _ ← perform (.setHolderRepeatNr plock ((n + 1) % 2 ^ 32))
    return ()

def lockRelease (plock : Nat) : SyncCode := do
  let self ← perform (.holderIsSelf plock)
  assert (self ≠ 0)
  let n ← perform (.holderRepeatNr plock)
  if 1 < n then
    let n ← perform (.holderRepeatNr plock)
    let _ ← perform (.setHolderRepeatNr plock (n - 1))
    return ()
  else
    let n ← perform (.holderRepeatNr plock)
    assert (n = 1)
    let _ ← perform (.clearHolder plock)
    let _ ← perform (.setHolderRepeatNr plock 0)
    let _ ← perform (.semaUp plock)
    return ()

end SyncCode

/-! ## Threads and their calls -/

inductive LockCall where
  | acquire (plock : Nat)
  | release (plock : Nat)

namespace LockCall

def plock : LockCall → Nat
  | acquire l => l
  | release l => l

def code : LockCall → SyncCode
  | acquire l => SyncCode.lockAcquire l
  | release l => SyncCode.lockRelease l

end LockCall

/-- The threads, the calls they are in, and how often they have acquired each lock:
    an acquisition counts from the end of `lock_acquire` to the start of the matching
    `lock_release`. -/
structure LockSystem where
  shared : SyncState
  call : Nat → Option LockCall
  code : Nat → SyncCode
  depth : Nat → Nat → Nat

/-- What happens next: a thread calls a function, or performs its next act. -/
inductive LockEvent where
  | call (t : Nat) (c : LockCall)
  | act (t : Nat)

namespace LockSystem

def setDepth (s : LockSystem) (t l n : Nat) : LockSystem :=
  { s with depth := Function.update s.depth t (Function.update (s.depth t) l n) }

def setCode (s : LockSystem) (t : Nat) (c : Option LockCall) (code : SyncCode) : LockSystem :=
  { s with call := Function.update s.call t c, code := Function.update s.code t code }

/-- A thread starts a call.  It releases only what it has acquired. -/
def start (s : LockSystem) (t : Nat) : LockCall → Option LockSystem
  | .acquire l => some (s.setCode t (some (.acquire l)) (SyncCode.lockAcquire l))
  | .release l =>
    if 0 < s.depth t l then
      some ((s.setCode t (some (.release l)) (SyncCode.lockRelease l)).setDepth t l
        (s.depth t l - 1))
    else none

/-- The thread has got an answer and goes on with `code`; at its end the call returns. -/
def proceed (s : LockSystem) (t : Nat) (c : LockCall) : SyncCode → LockSystem
  | .act a k => s.setCode t (some c) (.act a k)
  | .ret () =>
    match c with
    | .acquire l => (s.setCode t none (.ret ())).setDepth t l (s.depth t l + 1)
    | .release _ => s.setCode t none (.ret ())

/-- One step, where it is possible and no assertion fails. -/
def step (s : LockSystem) : LockEvent → Option LockSystem
  | .call t c =>
    match s.call t with
    | none => s.start t c
    | some _ => none
  | .act t =>
    match s.call t, s.code t, s.shared.blocked t with
    | some c, .act a k, false =>
      match a.exec t s.shared with
      | none => none
      | some (none, shared) => some { s with shared := shared }
      | some (some n, shared) => some (({ s with shared := shared }).proceed t c (k n))
    | _, _, _ => none

/-- No thread is in a call or has a lock. -/
structure Initial (s : LockSystem) : Prop where
  call : ∀ t, s.call t = none
  code : ∀ t, s.code t = .ret ()
  depth : ∀ t l, s.depth t l = 0
  holder : ∀ l, s.shared.holder l = none
  holderRepeatNr : ∀ l, s.shared.holderRepeatNr l = 0
  semaphore : ∀ l, s.shared.semaphore l = { value := 1 }
  blocked : ∀ t, s.shared.blocked t = false
  woken : ∀ t, s.shared.woken t = false

/-- No thread acquires a lock for the `2 ^ 32`-nd time before it has released it once. -/
def Shallow (s : LockSystem) : LockEvent → Prop
  | .call t (.acquire l) => s.depth t l + 1 < 2 ^ 32
  | _ => True

/-- Runs all of whose events meet `P`. -/
abbrev Run (P : LockSystem → LockEvent → Prop) : LockSystem → LockSystem → Prop :=
  Lib.Run (fun s e s' => s.step e = some s') P

end LockSystem

end ZxyOs
