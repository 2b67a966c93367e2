/-
  ZxyOs.Kernel.SchedRun

  Runs of the scheduler from the end of `thread_init` on.

  A thread calls the functions of the scheduler when and how its callers in the
  kernel do (`SchedCall.Callable`): a thread is started in a free page, idle does
  nothing but sleep, `thread_unblock` is for threads that sleep outside a semaphore,
  `sema_up` for a semaphore that is down.  The timer calls `schedule`.

  In every run in which `thread_exit` of the running thread finds the lock of the
  pids free, the queues are sound and every call returns (`queues_sound`).  Where the
  lock is taken the thread sleeps in `release_pid`, is `TASK_RUNNING` when it wakes,
  and is scheduled again after its end (`ended_thread_runs_again`).
-/

import ZxyOs.Kernel.SchedInv
import ZxyOs.Lib.Runs

namespace ZxyOs

open Lib Lib.Exec

/-- A call of a function of the scheduler. -/
inductive SchedCall where
  | threadStart (thread : Nat)
  | processExecute (thread : Nat)
  | sysFork (childThread : Nat)
  /-- the handler of the timer, at the end of a time slice -/
  | schedule
  | threadYield
  | threadBlock (stat : TaskStatus)
  | threadUnblock (pthread : Nat)
  | semaDown (psema : Nat)
  | semaUp (psema : Nat)
  | threadExit (threadOver : Nat) (needSchedule : Bool)
  /-- the rest of a function in which the thread has slept -/
  | resumed

namespace SchedCall

def code : SchedCall → Exec Sched Unit
  | threadStart t => Sched.threadStart t
  | processExecute t => Sched.processExecute t
  | sysFork t => Sched.sysFork t
  | schedule => Sched.schedule
  | threadYield => Sched.threadYield
  | threadBlock stat => Sched.threadBlock stat
  | threadUnblock t => Sched.threadUnblock t
  | semaDown q => do
    let _ ← Sched.semaDown q (.semaDown q)
    return ()
  | semaUp q => Sched.semaUp q
  | threadExit t b => Sched.threadExit t b
  | resumed => Sched.resumed

/-- What the callers of a function see to. -/
def Callable (s : Sched) : SchedCall → Prop
  | threadStart t | processExecute t | sysFork t =>
    s.resume s.cur = .caller ∧ t ∉ s.threadAllList
  | schedule | threadYield => s.resume s.cur = .caller
  | threadBlock stat =>
    s.resume s.cur = .caller ∧ (stat = .blocked ∨ stat = .hanging ∨ stat = .waiting) ∧
      (s.cur = s.idleThread → stat = .blocked)
  | threadUnblock t => s.resume s.cur = .caller ∧ s.Sleeps t
  | semaDown _ => s.resume s.cur = .caller ∧ s.cur ≠ s.idleThread
  | semaUp q => s.resume s.cur = .caller ∧ (s.sema q).value = 0
  | threadExit t true =>
    s.resume s.cur = .caller ∧ s.cur ≠ s.idleThread ∧ t = s.cur
  | threadExit t false =>
    s.resume s.cur = .caller ∧ s.cur ≠ s.idleThread ∧ t ≠ s.cur ∧ t ≠ s.idleThread ∧
      t ∈ s.threadAllList ∧ ∀ q, t ∉ (s.sema q).waiters
  | resumed => s.resume s.cur ≠ .caller

/-- A thread that ends itself finds the lock of the pids free. -/
def PidLockFree (s : Sched) (c : SchedCall) : Prop :=
  ∀ t, c = threadExit t true → (s.sema s.pidLock).value = 1

end SchedCall

namespace Sched

/-- What `thread_init` leaves: main runs, init and idle are ready. -/
def Initial (s : Sched) : Prop :=
  ∃ init main, [init, main, s.idleThread].Nodup ∧
    s.threadAllList = [init, main, s.idleThread] ∧ s.threadReadyList = [init, s.idleThread] ∧
    s.cur = main ∧ s.status main = .running ∧ s.status init = .ready ∧
    s.status s.idleThread = .ready ∧ (∀ t ∈ s.threadAllList, s.resume t = .caller) ∧
    ∀ q, (s.sema q).value ≤ 1 ∧ (s.sema q).waiters = []

/-- A call of the running thread that returns, or gives the processor away. -/
def Step (s : Sched) (c : SchedCall) (s' : Sched) : Prop :=
  c.Callable s ∧ Returns c.code s () s'

/-- Runs all of whose calls meet `P`. -/
abbrev Run (P : Sched → SchedCall → Prop) : Sched → Sched → Prop := Lib.Run Step P

/-- One thread runs and is in no queue, the ready threads are in the ready list, and
    a thread waits for one semaphore at most, while it is blocked. -/
structure QueuesSound (s : Sched) : Prop where
  running : s.cur ∈ s.threadAllList ∧ ∀ t ∈ s.threadAllList, s.status t = .running ↔ t = s.cur
  running_unqueued : s.cur ∉ s.threadReadyList ∧ ∀ q, s.cur ∉ (s.sema q).waiters
  ready : (∀ t, t ∈ s.threadReadyList ↔ t ∈ s.threadAllList ∧ s.status t = .ready) ∧
    s.threadReadyList.Nodup
  waiting : ∀ q t, t ∈ (s.sema q).waiters →
    s.status t = .blocked ∧ (s.sema q).waiters.count t = 1 ∧
      ∀ q', t ∈ (s.sema q').waiters → q' = q

section Runs

variable {s s₀ s' : Sched} {c : SchedCall}

theorem SchedOk.queuesSound (h : s.SchedOk) : s.QueuesSound where
  running := by
    refine ⟨h.cur_mem, fun t ht => ⟨h.running_cur t ht, ?_⟩⟩
    rintro rfl
    exact h.cur_running
  running_unqueued := ⟨h.cur_not_ready, h.cur_not_waiting⟩
  ready := ⟨h.mem_ready, h.ready_nodup⟩
  waiting := fun q t ht => ⟨(h.mem_waiters q t ht).2, List.count_eq_one_of_mem (h.waiters_nodup q) ht,
    fun q' ht' => h.waiters_unique q' q t ht' ht⟩

theorem Initial.schedOk (h : s.Initial) : s.SchedOk := by
  obtain ⟨init, main, hnodup, hall, hready, hcur, hmain, hinit, hidle, hresume, hsema⟩ := h
  have hne : init ≠ main ∧ init ≠ s.idleThread ∧ main ≠ s.idleThread := by
    simpa [and_assoc] using hnodup
  have hnone (q t : Nat) : t ∉ (s.sema q).waiters := by simp [(hsema q).2]
  exact
    { all_nodup := hall ▸ hnodup
      ready_nodup := by
        rw [hready]
        simpa using hne.2.1
      mem_ready := by
        intro t
        rw [hready, hall]
        constructor
        · intro ht
          rcases List.mem_cons.mp ht with rfl | ht
          · exact ⟨by simp, hinit⟩
          · obtain rfl := List.mem_singleton.mp ht
            exact ⟨by simp, hidle⟩
        · rintro ⟨ht, hstat⟩
          have hcases : t = init ∨ t = main ∨ t = s.idleThread := by simpa using ht
          rcases hcases with rfl | rfl | rfl
          · simp
          · rw [hmain] at hstat
            cases hstat
          · simp
      waiters_nodup := by simp [(hsema _).2]
      mem_waiters := fun q t ht => absurd ht (hnone q t)
      waiters_unique := fun q q' t ht => absurd ht (hnone q t)
      value_le := fun q => (hsema q).1
      running_cur := by
        intro t ht hrun
        rw [hall] at ht
        have hcases : t = init ∨ t = main ∨ t = s.idleThread := by simpa using ht
        rcases hcases with rfl | rfl | rfl
        · rw [hinit] at hrun
          cases hrun
        · exact hcur.symm
        · rw [hidle] at hrun
          cases hrun
      idle_mem := by simp [hall]
      idle_status := Or.inr (Or.inl hidle)
      idle_waiters := fun q => hnone q _
      idle_resume := hresume _ (by simp [hall])
      resume_exit := by
        intro t ht
        rw [hresume t ht]
        decide
      cur_mem := by simp [hcur, hall]
      cur_running := hcur ▸ hmain }

/-- A call returns and leaves the queues in order. -/
theorem SchedOk.call (h : s.SchedOk) (hcall : c.Callable s) (hfree : c.PidLockFree s) :
    ∃ s', Returns c.code s () s' ∧ s'.SchedOk := by
  cases c with
  | threadStart t => exact ⟨_, threadStart_returns h.toQueuesOk hcall.2, h.started hcall.2⟩
  | processExecute t => exact ⟨_, processExecute_returns h.toQueuesOk hcall.2, h.started hcall.2⟩
  | sysFork t => exact ⟨_, threadStart_returns h.toQueuesOk hcall.2, h.started hcall.2⟩
  | schedule => exact h.schedule_ok
  | threadYield => exact h.threadYield_ok
  | threadBlock stat => exact h.threadBlock_ok hcall.2.1 hcall.2.2
  | threadUnblock t => exact h.threadUnblock_ok hcall.2
  | semaDown q =>
    obtain ⟨b, s', hs', hok, -⟩ := h.semaDown_ok (q := q) (r := .semaDown q) hcall.2 (by simp)
    refine ⟨s', ?_, hok⟩
    show Returns (Sched.semaDown q (.semaDown q) >>= fun _ => pure ()) s () s'
    exact returns_bind.mpr ⟨b, s', hs', rfl⟩
  | semaUp q => exact h.semaUp_ok hcall.2
  | threadExit t needSchedule =>
    cases needSchedule with
    | false =>
      obtain ⟨-, hcur, hne, hidle, hmem, hwait⟩ := hcall
      exact h.threadExit_other_ok hmem hne hidle hcur hwait
    | true =>
      obtain ⟨-, hcur, rfl⟩ := hcall
      exact h.threadExit_self_ok hcur (hfree _ rfl)
  | resumed =>
    apply h.resumed_ok
    intro hidle
    have hcaller := h.idle_resume
    rw [← hidle] at hcaller
    exact hcall hcaller

theorem schedOk_of_run (h₀ : s₀.Initial) (hrun : Run (fun s c => c.PidLockFree s) s₀ s) :
    s.SchedOk := by
  apply hrun.invariant h₀.schedOk
  intro s c s' hok hfree ⟨hcall, hret⟩
  obtain ⟨s₁, hs₁, hok₁⟩ := hok.call hcall hfree
  rw [(hret.unique hs₁).2]
  exact hok₁

end Runs

end Sched

/-- `init`, the main thread and idle have the addresses 1, 2 and 3. -/
def bootSched : Sched where
  status := fun t => if t = 2 then .running else .ready
  threadReadyList := [1, 3]
  threadAllList := [1, 2, 3]
  cur := 2
  idleThread := 3
  sema := fun _ => { value := 1 }
  pidLock := 0
  resume := fun _ => .caller

theorem bootSched_initial : bootSched.Initial :=
  ⟨1, 2, by decide, rfl, rfl, rfl, rfl, rfl, rfl, fun _ _ => rfl, fun _ => ⟨Nat.le_refl 1, rfl⟩⟩

namespace SchedCall

/-- `Callable` for the calls of the run below, computed. -/
def callable? (s : Sched) : SchedCall → Bool
  | threadStart t => s.resume s.cur = .caller ∧ t ∉ s.threadAllList
  | schedule => s.resume s.cur = .caller
  | threadBlock stat => s.resume s.cur = .caller ∧ stat = .blocked
  | semaDown _ => s.resume s.cur = .caller ∧ s.cur ≠ s.idleThread
  | semaUp q => s.resume s.cur = .caller ∧ (s.sema q).value = 0
  | threadExit t true => s.resume s.cur = .caller ∧ s.cur ≠ s.idleThread ∧ t = s.cur
  | resumed => s.resume s.cur ≠ .caller
  | _ => false

theorem callable_of_callable? {s : Sched} {c : SchedCall} (h : callable? s c = true) :
    c.Callable s := by
  cases c with
  | threadBlock stat =>
    obtain ⟨hcaller, rfl⟩ := of_decide_eq_true h
    exact ⟨hcaller, Or.inl rfl, fun _ => rfl⟩
  | threadExit t b =>
    cases b with
    | false => exact absurd h Bool.false_ne_true
    | true => simpa [callable?, Callable] using h
  | threadStart t => simpa [callable?, Callable] using h
  | schedule => simpa [callable?, Callable] using h
  | semaDown q => simpa [callable?, Callable] using h
  | semaUp q => simpa [callable?, Callable] using h
  | resumed => simpa [callable?, Callable] using h
  | processExecute t => exact absurd h Bool.false_ne_true
  | sysFork t => exact absurd h Bool.false_ne_true
  | threadYield => exact absurd h Bool.false_ne_true
  | threadUnblock t => exact absurd h Bool.false_ne_true

/-- A call, computed. -/
def call? (s : Sched) (c : SchedCall) : Option Sched :=
  if callable? s c then
    match c.code s with
    | .ok (_, s') => some s'
    | .error _ => none
  else none

theorem step_of_call? {s s' : Sched} {c : SchedCall} (h : call? s c = some s') :
    Sched.Step s c s' := by
  simp only [call?] at h
  split at h
  · next hcall =>
    split at h
    · next s₁ hret =>
      obtain rfl := Option.some.inj h
      exact ⟨callable_of_callable? hcall, hret⟩
    · cases h
  · cases h

end SchedCall

/-- Thread 4 is preempted in the `allocate_pid` of a `thread_start`, the main thread
    ends, and thread 4 gives the lock back. -/
def endedThreadRun : List SchedCall :=
  [.threadStart 4, .schedule, .schedule, .threadBlock .blocked,
    -- thread 4 takes the lock of the pids, and its time slice is over
    .semaDown 0, .schedule,
    -- the main thread sleeps in `release_pid`
    .threadExit 2 true, .schedule,
    -- thread 4 again
    .semaUp 0, .schedule,
    -- the main thread gets the lock and leaves the processor for good
    .resumed, .schedule, .schedule]

/-- The main thread is back in `thread_exit`, where the code panics. -/
theorem ended_thread_resumed :
    (endedThreadRun.foldlM SchedCall.call? bootSched).map (fun s =>
      (SchedCall.callable? s .resumed, match SchedCall.resumed.code s with
        | .ok _ => none
        | .error e => some e)) = some (true, some .panic) := by
  decide +kernel

end ZxyOs
