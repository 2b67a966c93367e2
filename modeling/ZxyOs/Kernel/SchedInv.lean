/-
  ZxyOs.Kernel.SchedInv

  What the queues of the scheduler look like between two of its functions, and that
  every function keeps it.

  `QueuesOk` says what holds of all threads whatever the running one is about to do:
  `schedule` starts there, with a running thread that has queued itself, has gone to
  sleep or has ended.  `SchedOk` adds that the running thread is `TASK_RUNNING`:
  this is what `schedule` leaves.
-/

import ZxyOs.Kernel.Sched

namespace ZxyOs

open Lib Lib.Exec

namespace Sched

/-- What holds of the queues, but for the status of the running thread. -/
structure QueuesOk (s : Sched) : Prop where
  all_nodup : s.threadAllList.Nodup
  ready_nodup : s.threadReadyList.Nodup
  mem_ready : ∀ t, t ∈ s.threadReadyList ↔ t ∈ s.threadAllList ∧ s.status t = .ready
  waiters_nodup : ∀ q, (s.sema q).waiters.Nodup
  mem_waiters : ∀ q t, t ∈ (s.sema q).waiters → t ∈ s.threadAllList ∧ s.status t = .blocked
  waiters_unique : ∀ q q' t, t ∈ (s.sema q).waiters → t ∈ (s.sema q').waiters → q = q'
  value_le : ∀ q, (s.sema q).value ≤ 1
  running_cur : ∀ t ∈ s.threadAllList, s.status t = .running → t = s.cur
  idle_mem : s.idleThread ∈ s.threadAllList
  idle_status : s.status s.idleThread = .running ∨ s.status s.idleThread = .ready ∨
    s.status s.idleThread = .blocked
  idle_waiters : ∀ q, s.idleThread ∉ (s.sema q).waiters
  idle_resume : s.resume s.idleThread = .caller
  resume_exit : ∀ t ∈ s.threadAllList, s.resume t ≠ .threadExit ∧ s.resume t ≠ .releasePid true

/-- The queues between two functions of the scheduler. -/
structure SchedOk (s : Sched) : Prop extends QueuesOk s where
  cur_mem : s.cur ∈ s.threadAllList
  cur_running : s.status s.cur = .running

section Edits

variable {s : Sched} {t : Nat} {stat : TaskStatus} {q : Nat}

@[simp] theorem setStatus_status : (s.setStatus t stat).status = Function.update s.status t stat :=
  rfl

theorem QueuesOk.ready_status (h : s.QueuesOk) (ht : t ∈ s.threadReadyList) : s.status t = .ready :=
  ((h.mem_ready t).mp ht).2

theorem SchedOk.cur_not_ready (h : s.SchedOk) : s.cur ∉ s.threadReadyList := by
  intro hmem
  have hready : s.status s.cur = .ready := h.ready_status hmem
  rw [h.cur_running] at hready
  cases hready

theorem SchedOk.cur_not_waiting (h : s.SchedOk) (q : Nat) : s.cur ∉ (s.sema q).waiters := by
  intro hmem
  have hblocked : s.status s.cur = .blocked := (h.mem_waiters q _ hmem).2
  rw [h.cur_running] at hblocked
  cases hblocked

/-- A thread that is in no queue may be put into the ready list. -/
theorem QueuesOk.enqueue {l : List Nat} (h : s.QueuesOk) (ht : t ∈ s.threadAllList)
    (hfree : ∀ q, t ∉ (s.sema q).waiters) (hnodup : l.Nodup)
    (hl : ∀ u, u ∈ l ↔ u = t ∨ u ∈ s.threadReadyList) :
    ((s.setReady l).setStatus t .ready).QueuesOk := by
  have hne (q u : Nat) (hu : u ∈ (s.sema q).waiters) : u ≠ t := by
    rintro rfl
    exact hfree q hu
  exact
    { h with
      ready_nodup := hnodup
      mem_ready := by
        intro u
        show u ∈ l ↔ u ∈ s.threadAllList ∧ Function.update s.status t .ready u = .ready
        rw [hl u, h.mem_ready u]
        by_cases hu : u = t
        · simp [hu, ht]
        · simp [hu]
      mem_waiters := by
        intro q u hu
        show u ∈ s.threadAllList ∧ Function.update s.status t .ready u = .blocked
        rw [Function.update_of_ne (hne q u hu)]
        exact h.mem_waiters q u hu
      running_cur := by
        intro u hu hrun
        by_cases hut : u = t
        · simp [hut] at hrun
        · rw [setStatus_status, Function.update_of_ne hut] at hrun
          exact h.running_cur u hu hrun
      idle_status := by
        show Function.update s.status t .ready s.idleThread = .running ∨
          Function.update s.status t .ready s.idleThread = .ready ∨
          Function.update s.status t .ready s.idleThread = .blocked
        by_cases hidle : s.idleThread = t
        · simp [hidle]
        · rw [Function.update_of_ne hidle]
          exact h.idle_status }

/-- The running thread leaves the processor for no queue of the scheduler. -/
theorem SchedOk.leave (h : s.SchedOk) (hstat : stat ≠ .running ∧ stat ≠ .ready)
    (hidle : s.cur = s.idleThread → stat = .blocked) : (s.setStatus s.cur stat).QueuesOk :=
  { h with
    mem_ready := by
      intro u
      show u ∈ s.threadReadyList ↔ u ∈ s.threadAllList ∧ Function.update s.status s.cur stat u = _
      by_cases hu : u = s.cur
      · simp [hu, h.cur_not_ready, hstat.2]
      · rw [Function.update_of_ne hu]
        exact h.mem_ready u
    mem_waiters := by
      intro q u hu
      have hne : u ≠ s.cur := fun heq => h.cur_not_waiting q (heq ▸ hu)
      rw [setStatus_status, Function.update_of_ne hne]
      exact h.mem_waiters q u hu
    running_cur := by
      intro u hu hrun
      by_cases hut : u = s.cur
      · exact hut
      · rw [setStatus_status, Function.update_of_ne hut] at hrun
        exact h.running_cur u hu hrun
    idle_status := by
      show Function.update s.status s.cur stat s.idleThread = .running ∨
        Function.update s.status s.cur stat s.idleThread = .ready ∨
        Function.update s.status s.cur stat s.idleThread = .blocked
      by_cases heq : s.idleThread = s.cur
      · simp [heq, hidle heq.symm]
      · rw [Function.update_of_ne heq]
        exact h.idle_status }

/-- The state in which the running thread has queued itself at a semaphore. -/
def asleep (s : Sched) (q : Nat) (r : Resume) : Sched :=
  ((s.setSema q { s.sema q with waiters := (s.sema q).waiters ++ [s.cur] }).setResume
    s.cur r).setStatus s.cur .blocked

theorem mem_waiters_asleep {r : Resume} {q' : Nat} (ht : t ∈ ((s.asleep q r).sema q').waiters) :
    t ∈ (s.sema q').waiters ∨ t = s.cur ∧ q' = q := by
  by_cases hq : q' = q
  · subst hq
    simpa [asleep, setSema, setResume, setStatus] using ht
  · left
    simpa [asleep, setSema, setResume, setStatus, hq] using ht

theorem SchedOk.asleep (h : s.SchedOk) (hidle : s.cur ≠ s.idleThread) {r : Resume}
    (hr : r ≠ .threadExit ∧ r ≠ .releasePid true) : (s.asleep q r).QueuesOk :=
  have hleft : (s.setStatus s.cur .blocked).QueuesOk :=
    h.leave (by decide) fun heq => absurd heq hidle
  { h with
    mem_ready := hleft.mem_ready
    running_cur := hleft.running_cur
    idle_status := hleft.idle_status
    waiters_nodup := by
      intro q'
      by_cases hq : q' = q
      · subst hq
        have hnodup : ((s.sema q').waiters ++ [s.cur]).Nodup := by
          rw [List.nodup_append]
          exact ⟨h.waiters_nodup q', List.nodup_singleton _, fun u hu v hv heq =>
            h.cur_not_waiting q' (by rw [← List.mem_singleton.mp hv, ← heq]; exact hu)⟩
        simpa [Sched.asleep, setSema, setResume, setStatus] using hnodup
      · simpa [Sched.asleep, setSema, setResume, setStatus, hq] using h.waiters_nodup q'
    mem_waiters := by
      intro q' u hu
      show u ∈ s.threadAllList ∧ Function.update s.status s.cur .blocked u = .blocked
      by_cases hcur : u = s.cur
      · simp [hcur, h.cur_mem]
      · rw [Function.update_of_ne hcur]
        exact h.mem_waiters q' u ((mem_waiters_asleep hu).resolve_right fun hc => hcur hc.1)
    waiters_unique := by
      intro q₁ q₂ u h₁ h₂
      rcases mem_waiters_asleep h₁ with hold₁ | ⟨hcur, hq₁⟩
      · rcases mem_waiters_asleep h₂ with hold₂ | ⟨hcur, -⟩
        · exact h.waiters_unique q₁ q₂ u hold₁ hold₂
        · exact absurd (hcur ▸ hold₁) (h.cur_not_waiting q₁)
      · rcases mem_waiters_asleep h₂ with hold₂ | ⟨-, hq₂⟩
        · exact absurd (hcur ▸ hold₂) (h.cur_not_waiting q₂)
        · exact hq₁.trans hq₂.symm
    value_le := by
      intro q'
      by_cases hq : q' = q
      · subst hq
        simpa [Sched.asleep, setSema, setResume, setStatus] using h.value_le q'
      · simpa [Sched.asleep, setSema, setResume, setStatus, hq] using h.value_le q'
    idle_waiters := by
      intro q' hmem
      rcases mem_waiters_asleep hmem with hmem | ⟨heq, -⟩
      · exact h.idle_waiters q' hmem
      · exact hidle heq.symm
    idle_resume := by
      show Function.update s.resume s.cur r s.idleThread = .caller
      rw [Function.update_of_ne (Ne.symm hidle)]
      exact h.idle_resume
    resume_exit := by
      intro u hu
      show Function.update s.resume s.cur r u ≠ _ ∧ Function.update s.resume s.cur r u ≠ _
      by_cases hcur : u = s.cur
      · simpa [hcur] using hr
      · rw [Function.update_of_ne hcur]
        exact h.resume_exit u hu }

/-- The first thread of the ready list gets the processor. -/
theorem QueuesOk.switch {next : Nat} {rest : List Nat} (h : s.QueuesOk)
    (hready : s.threadReadyList = next :: rest)
    (hnone : ∀ t ∈ s.threadAllList, s.status t ≠ .running) :
    SchedOk { (s.setReady rest).setStatus next .running with cur := next } := by
  have hnodup : (next :: rest).Nodup := hready ▸ h.ready_nodup
  have hnext : next ∈ s.threadAllList ∧ s.status next = .ready :=
    (h.mem_ready next).mp (hready ▸ List.mem_cons_self)
  have hout (q : Nat) : next ∉ (s.sema q).waiters := by
    intro hmem
    have hblocked := (h.mem_waiters q next hmem).2
    rw [hnext.2] at hblocked
    cases hblocked
  exact
    { h with
      ready_nodup := hnodup.of_cons
      mem_ready := by
        intro u
        show u ∈ rest ↔ u ∈ s.threadAllList ∧ Function.update s.status next .running u = .ready
        by_cases hu : u = next
        · simp [hu, (List.nodup_cons.mp hnodup).1]
        · rw [Function.update_of_ne hu, ← h.mem_ready u, hready, List.mem_cons]
          simp [hu]
      mem_waiters := by
        intro q u hu
        show u ∈ s.threadAllList ∧ Function.update s.status next .running u = .blocked
        have hne : u ≠ next := fun heq => hout q (heq ▸ hu)
        rw [Function.update_of_ne hne]
        exact h.mem_waiters q u hu
      running_cur := by
        intro u hu hrun
        show u = next
        by_contra hne
        have hrun' : Function.update s.status next .running u = .running := hrun
        rw [Function.update_of_ne hne] at hrun'
        exact hnone u hu hrun'
      idle_status := by
        show Function.update s.status next .running s.idleThread = .running ∨
          Function.update s.status next .running s.idleThread = .ready ∨
          Function.update s.status next .running s.idleThread = .blocked
        by_cases hidle : s.idleThread = next
        · simp [hidle]
        · rw [Function.update_of_ne hidle]
          exact h.idle_status
      cur_mem := hnext.1
      cur_running := Function.update_self .. }

/-- The value of a semaphore changes and threads may leave its queue. -/
theorem QueuesOk.setSema (h : s.QueuesOk) {p : Semaphore} (hvalue : p.value ≤ 1)
    (hsub : p.waiters.Sublist (s.sema q).waiters) : (s.setSema q p).QueuesOk := by
  have hmem (q' u : Nat) (hu : u ∈ ((s.setSema q p).sema q').waiters) : u ∈ (s.sema q').waiters := by
    by_cases hq : q' = q
    · subst hq
      have hu' : u ∈ p.waiters := by simpa [Sched.setSema] using hu
      exact hsub.subset hu'
    · simpa [Sched.setSema, hq] using hu
  exact
    { h with
      waiters_nodup := by
        intro q'
        by_cases hq : q' = q
        · subst hq
          simpa [Sched.setSema] using hsub.nodup (h.waiters_nodup q')
        · simpa [Sched.setSema, hq] using h.waiters_nodup q'
      mem_waiters := fun q' u hu => h.mem_waiters q' u (hmem q' u hu)
      waiters_unique := fun q₁ q₂ u h₁ h₂ =>
        h.waiters_unique q₁ q₂ u (hmem q₁ u h₁) (hmem q₂ u h₂)
      value_le := by
        intro q'
        by_cases hq : q' = q
        · subst hq
          simpa [Sched.setSema] using hvalue
        · simpa [Sched.setSema, hq] using h.value_le q'
      idle_waiters := fun q' hu => h.idle_waiters q' (hmem q' _ hu) }

/-- A new thread, `READY` and in the lists of all and of the ready threads. -/
def started (s : Sched) (t : Nat) : Sched :=
  (((s.setStatus t .ready).setResume t .caller).setReady (s.threadReadyList ++ [t])).setAll
    (s.threadAllList ++ [t])

theorem QueuesOk.started (h : s.QueuesOk) (hnew : t ∉ s.threadAllList) : (s.started t).QueuesOk := by
  have hne (u : Nat) (hu : u ∈ s.threadAllList) : u ≠ t := fun heq => hnew (heq ▸ hu)
  have hnotReady : t ∉ s.threadReadyList := fun hmem => hnew ((h.mem_ready t).mp hmem).1
  have hnotWaiting (q : Nat) : t ∉ (s.sema q).waiters := fun hmem => hnew (h.mem_waiters q t hmem).1
  have happend (l : List Nat) (hl : l.Nodup) (ht : t ∉ l) : (l ++ [t]).Nodup := by
    rw [List.nodup_append]
    exact ⟨hl, List.nodup_singleton t, fun u hu v hv heq =>
      ht (by rw [← List.mem_singleton.mp hv, ← heq]; exact hu)⟩
  exact
    { h with
      all_nodup := happend _ h.all_nodup hnew
      ready_nodup := happend _ h.ready_nodup hnotReady
      mem_ready := by
        intro u
        show u ∈ s.threadReadyList ++ [t] ↔ u ∈ s.threadAllList ++ [t] ∧
          Function.update s.status t .ready u = .ready
        by_cases hu : u = t
        · simp [hu]
        · simpa [hu] using h.mem_ready u
      mem_waiters := by
        intro q u hu
        show u ∈ s.threadAllList ++ [t] ∧ Function.update s.status t .ready u = .blocked
        obtain ⟨hmem, hstat⟩ := h.mem_waiters q u hu
        rw [Function.update_of_ne (hne u hmem)]
        exact ⟨List.mem_append_left _ hmem, hstat⟩
      running_cur := by
        intro u hu hrun
        have hrun' : Function.update s.status t .ready u = .running := hrun
        by_cases hut : u = t
        · simp [hut] at hrun'
        · rw [Function.update_of_ne hut] at hrun'
          have hmem : u ∈ s.threadAllList ++ [t] := hu
          rw [List.mem_append, List.mem_singleton] at hmem
          exact h.running_cur u (hmem.resolve_right hut) hrun'
      idle_mem := List.mem_append_left _ h.idle_mem
      idle_status := by
        show Function.update s.status t .ready s.idleThread = .running ∨
          Function.update s.status t .ready s.idleThread = .ready ∨
          Function.update s.status t .ready s.idleThread = .blocked
        rw [Function.update_of_ne (hne _ h.idle_mem)]
        exact h.idle_status
      idle_resume := by
        show Function.update s.resume t .caller s.idleThread = .caller
        rw [Function.update_of_ne (hne _ h.idle_mem)]
        exact h.idle_resume
      resume_exit := by
        intro u hu
        show Function.update s.resume t .caller u ≠ _ ∧ Function.update s.resume t .caller u ≠ _
        by_cases hut : u = t
        · simp [hut]
        · rw [Function.update_of_ne hut]
          have hmem : u ∈ s.threadAllList ++ [t] := hu
          rw [List.mem_append, List.mem_singleton] at hmem
          exact h.resume_exit u (hmem.resolve_right hut) }

/-- The state in which `thread_exit` calls `release_pid`. -/
def detached (s : Sched) (t : Nat) : Sched :=
  ((s.setStatus t .died).setReady (s.threadReadyList.erase t)).setAll (s.threadAllList.erase t)

theorem QueuesOk.detached (h : s.QueuesOk) (hidle : t ≠ s.idleThread)
    (hfree : ∀ q, t ∉ (s.sema q).waiters) : (s.detached t).QueuesOk := by
  have hmem (u : Nat) : u ∈ s.threadAllList.erase t ↔ u ≠ t ∧ u ∈ s.threadAllList :=
    h.all_nodup.mem_erase_iff
  exact
    { h with
      all_nodup := h.all_nodup.erase t
      ready_nodup := h.ready_nodup.erase t
      mem_ready := by
        intro u
        show u ∈ s.threadReadyList.erase t ↔ u ∈ s.threadAllList.erase t ∧
          Function.update s.status t .died u = .ready
        rw [hmem u, h.ready_nodup.mem_erase_iff, h.mem_ready u]
        by_cases hu : u = t
        · simp [hu]
        · simp [hu]
      mem_waiters := by
        intro q u hu
        show u ∈ s.threadAllList.erase t ∧ Function.update s.status t .died u = .blocked
        have hne : u ≠ t := fun heq => hfree q (heq ▸ hu)
        rw [hmem u, Function.update_of_ne hne]
        exact ⟨⟨hne, (h.mem_waiters q u hu).1⟩, (h.mem_waiters q u hu).2⟩
      running_cur := by
        intro u hu hrun
        obtain ⟨hne, hall⟩ := (hmem u).mp hu
        have hrun' : Function.update s.status t .died u = .running := hrun
        rw [Function.update_of_ne hne] at hrun'
        exact h.running_cur u hall hrun'
      idle_mem := (hmem _).mpr ⟨Ne.symm hidle, h.idle_mem⟩
      idle_status := by
        show Function.update s.status t .died s.idleThread = .running ∨
          Function.update s.status t .died s.idleThread = .ready ∨
          Function.update s.status t .died s.idleThread = .blocked
        rw [Function.update_of_ne (Ne.symm hidle)]
        exact h.idle_status
      resume_exit := fun u hu => h.resume_exit u ((hmem u).mp hu).2 }

end Edits

/-! ## The functions -/

section Functions

variable {s : Sched} {t q : Nat} {stat : TaskStatus} {r : Resume}

/-- `pthread` is asleep, and not at a semaphore. -/
structure Sleeps (s : Sched) (t : Nat) : Prop where
  mem : t ∈ s.threadAllList
  stat : s.status t = .blocked ∨ s.status t = .hanging ∨ s.status t = .waiting
  waiters : ∀ q, t ∉ (s.sema q).waiters

theorem Sleeps.not_ready (h : s.QueuesOk) (ht : s.Sleeps t) : t ∉ s.threadReadyList := by
  intro hmem
  have hready := h.ready_status hmem
  rcases ht.stat with hstat | hstat | hstat <;> rw [hready] at hstat <;> cases hstat

theorem threadUnblock_ok (h : s.QueuesOk) (ht : s.Sleeps t) :
    ∃ s', Returns (threadUnblock t) s () s' ∧ s'.QueuesOk ∧ s'.threadReadyList ≠ [] ∧
      s'.cur = s.cur ∧ s'.sema = s.sema ∧ s'.threadAllList = s.threadAllList ∧
      s'.resume = s.resume ∧ (∀ u ≠ t, s'.status u = s.status u) ∧ s'.status t = .ready := by
  have hnotReady : s.status t ≠ .ready := by
    rcases ht.stat with hstat | hstat | hstat <;> rw [hstat] <;> decide
  refine ⟨(s.setReady (t :: s.threadReadyList)).setStatus t .ready, ?_, ?_, ?_, rfl, rfl, rfl, rfl,
    ?_, ?_⟩
  · simp [threadUnblock, ht.stat, hnotReady, ht.not_ready h]
  · apply h.enqueue ht.mem ht.waiters
    · exact List.nodup_cons.mpr ⟨ht.not_ready h, h.ready_nodup⟩
    · intro u
      exact List.mem_cons
  · exact List.cons_ne_nil _ _
  · intro u hu
    exact Function.update_of_ne hu ..
  · exact Function.update_self ..

theorem switchTo_ok (h : s.QueuesOk) (hready : s.threadReadyList ≠ [])
    (hnone : ∀ u ∈ s.threadAllList, s.status u ≠ .running) :
    ∃ s', Returns switchTo s () s' ∧ s'.SchedOk := by
  obtain ⟨next, rest, hlist⟩ := List.exists_cons_of_ne_nil hready
  refine ⟨_, ?_, h.switch hlist hnone⟩
  simp [switchTo, hlist]

theorem schedule_ok (h : s.QueuesOk) (hcur : s.status s.cur = .running → s.cur ∈ s.threadAllList) :
    ∃ s', Returns schedule s () s' ∧ s'.SchedOk := by
  by_cases hrun : s.status s.cur = .running
  · -- the running thread goes to the end of the ready list
    have hnotReady : s.cur ∉ s.threadReadyList := fun hmem =>
      absurd (h.ready_status hmem) (by rw [hrun]; decide)
    have hnotWaiting (q : Nat) : s.cur ∉ (s.sema q).waiters := fun hmem =>
      absurd (h.mem_waiters q _ hmem).2 (by rw [hrun]; decide)
    have hqueued : ((s.setReady (s.threadReadyList ++ [s.cur])).setStatus s.cur .ready).QueuesOk := by
      apply h.enqueue (hcur hrun) hnotWaiting
      · rw [List.nodup_append]
        exact ⟨h.ready_nodup, List.nodup_singleton _, fun u hu v hv heq =>
          hnotReady (by rw [← List.mem_singleton.mp hv, ← heq]; exact hu)⟩
      · intro u
        rw [List.mem_append, List.mem_singleton, or_comm]
    obtain ⟨s', hs', hok⟩ := switchTo_ok hqueued (by simp [setReady, setStatus]) (by
      intro u hu hrun'
      have heq : u = s.cur := hqueued.running_cur u hu hrun'
      simp [heq] at hrun')
    refine ⟨s', ?_, hok⟩
    simp [schedule, hrun, hnotReady, setReady, setStatus] at hs' ⊢
    exact hs'
  · have hnone : ∀ u ∈ s.threadAllList, s.status u ≠ .running := by
      intro u hu hrun'
      exact hrun (h.running_cur u hu hrun' ▸ hrun')
    by_cases hempty : s.threadReadyList = []
    · -- no thread is ready, so idle is neither ready nor running: it sleeps
      have hidle : s.status s.idleThread = .blocked := by
        rcases h.idle_status with hstat | hstat | hstat
        · exact absurd hstat (hnone _ h.idle_mem)
        · have hmem := (h.mem_ready s.idleThread).mpr ⟨h.idle_mem, hstat⟩
          rw [hempty] at hmem
          cases hmem
        · exact hstat
      obtain ⟨s₁, h₁, hok₁, hready₁, -, -, hall₁, -, hother, hstat₁⟩ :=
        threadUnblock_ok h ⟨h.idle_mem, Or.inl hidle, h.idle_waiters⟩
      obtain ⟨s', hs', hok⟩ := switchTo_ok hok₁ hready₁ (by
        intro u hu hrun'
        by_cases hui : u = s.idleThread
        · rw [hui, hstat₁] at hrun'
          cases hrun'
        · rw [hother u hui] at hrun'
          exact hnone u (hall₁ ▸ hu) hrun')
      refine ⟨s', ?_, hok⟩
      simp [schedule, hrun, hempty]
      exact ⟨(), s₁, h₁, hs'⟩
    · obtain ⟨s', hs', hok⟩ := switchTo_ok h hempty hnone
      refine ⟨s', ?_, hok⟩
      simp [schedule, hrun, hempty, hs']

theorem SchedOk.schedule_ok (h : s.SchedOk) : ∃ s', Returns schedule s () s' ∧ s'.SchedOk :=
  Sched.schedule_ok h.toQueuesOk fun _ => h.cur_mem

theorem SchedOk.threadYield_ok (h : s.SchedOk) :
    ∃ s', Returns threadYield s () s' ∧ s'.SchedOk := by
  have hqueued : ((s.setReady (s.threadReadyList ++ [s.cur])).setStatus s.cur .ready).QueuesOk := by
    apply h.enqueue h.cur_mem h.cur_not_waiting
    · rw [List.nodup_append]
      exact ⟨h.ready_nodup, List.nodup_singleton _, fun u hu v hv heq =>
        h.cur_not_ready (by rw [← List.mem_singleton.mp hv, ← heq]; exact hu)⟩
    · intro u
      rw [List.mem_append, List.mem_singleton, or_comm]
  obtain ⟨s', hs', hok⟩ := Sched.schedule_ok hqueued fun _ => h.cur_mem
  refine ⟨s', ?_, hok⟩
  simp [threadYield, h.cur_not_ready]
  exact hs'

theorem SchedOk.threadBlock_ok (h : s.SchedOk)
    (hstat : stat = .blocked ∨ stat = .hanging ∨ stat = .waiting)
    (hidle : s.cur = s.idleThread → stat = .blocked) :
    ∃ s', Returns (threadBlock stat) s () s' ∧ s'.SchedOk := by
  have hleft : (s.setStatus s.cur stat).QueuesOk := by
    apply h.leave _ hidle
    rcases hstat with rfl | rfl | rfl <;> decide
  obtain ⟨s', hs', hok⟩ := Sched.schedule_ok hleft fun _ => h.cur_mem
  refine ⟨s', ?_, hok⟩
  simp [threadBlock, hstat]
  exact hs'

theorem SchedOk.threadUnblock_ok (h : s.SchedOk) (ht : s.Sleeps t) :
    ∃ s', Returns (threadUnblock t) s () s' ∧ s'.SchedOk := by
  obtain ⟨s', hs', hok, -, hcur, -, hall, -, hother, -⟩ := Sched.threadUnblock_ok h.toQueuesOk ht
  have hne : s.cur ≠ t := by
    rintro rfl
    have hstat := ht.stat
    rw [h.cur_running] at hstat
    simp at hstat
  refine ⟨s', hs', ⟨hok, ?_, ?_⟩⟩
  · rw [hcur, hall]
    exact h.cur_mem
  · rw [hcur, hother _ hne]
    exact h.cur_running

/-- `sema_down` takes a semaphore that is up. -/
theorem semaDown_taken (h : s.QueuesOk) (hvalue : (s.sema q).value ≠ 0) :
    Returns (semaDown q r) s true (s.setSema q { s.sema q with value := 0 }) := by
  have hone : (s.sema q).value = 1 := by
    have hle := h.value_le q
    omega
  simp [semaDown, hone, setSema]

/-- `sema_down` of a semaphore that is down puts the thread to sleep. -/
theorem SchedOk.semaDown_asleep (h : s.SchedOk) (hvalue : (s.sema q).value = 0)
    (hidle : s.cur ≠ s.idleThread) (hr : r ≠ .threadExit ∧ r ≠ .releasePid true) :
    ∃ s', Returns (semaDown q r) s false s' ∧ s'.SchedOk := by
  have hasleep := h.asleep (q := q) hidle hr
  obtain ⟨s', hs', hok⟩ := Sched.schedule_ok hasleep fun _ => h.cur_mem
  refine ⟨s', ?_, hok⟩
  simp [semaDown, hvalue, h.cur_not_waiting q, threadBlock]
  simp only [Sched.asleep, hvalue] at hs'
  exact ⟨(), hs'⟩

/-- `sema_up` of a semaphore that is down. -/
theorem semaUp_ok (h : s.QueuesOk) (hvalue : (s.sema q).value = 0) :
    ∃ s', Returns (semaUp q) s () s' ∧ s'.QueuesOk ∧ s'.cur = s.cur ∧
      s'.threadAllList = s.threadAllList ∧ s'.resume = s.resume ∧
      (s.status s.cur ≠ .blocked → s'.status s.cur = s.status s.cur) := by
  cases hlist : (s.sema q).waiters with
  | nil =>
    refine ⟨s.setSema q { s.sema q with value := 1 }, ?_, ?_, rfl, rfl, rfl, fun _ => rfl⟩
    · simp [semaUp, hvalue, hlist, setSema]
    · exact h.setSema (Nat.le_refl 1) (List.Sublist.refl _)
  | cons w ws =>
    -- the first waiter leaves the queue, then it is unblocked, then the value goes up
    have hw : w ∈ (s.sema q).waiters := hlist ▸ List.mem_cons_self
    have hnodup : (w :: ws).Nodup := hlist ▸ h.waiters_nodup q
    have hpop : (s.setSema q { s.sema q with waiters := ws }).QueuesOk := by
      have hsub : ws.Sublist (s.sema q).waiters := by
        rw [hlist]
        exact List.sublist_cons_self w ws
      exact h.setSema (p := { s.sema q with waiters := ws }) (h.value_le q) hsub
    have hsleeps : (s.setSema q { s.sema q with waiters := ws }).Sleeps w := by
      refine ⟨(h.mem_waiters q w hw).1, Or.inl (h.mem_waiters q w hw).2, ?_⟩
      intro q' hmem
      by_cases hq : q' = q
      · subst hq
        have hmem' : w ∈ ws := by simpa [setSema] using hmem
        exact (List.nodup_cons.mp hnodup).1 hmem'
      · have hmem' : w ∈ (s.sema q').waiters := by simpa [setSema, hq] using hmem
        exact hq (h.waiters_unique q' q w hmem' hw)
    obtain ⟨s₁, h₁, hok₁, -, hcur, hsema, hall, hresume, hother, -⟩ :=
      Sched.threadUnblock_ok hpop hsleeps
    have hsema₁ : s₁.sema q = { s.sema q with waiters := ws } := by
      rw [hsema]
      exact Function.update_self ..
    refine ⟨s₁.setSema q { s₁.sema q with value := 1 }, ?_, ?_, hcur, hall, hresume, ?_⟩
    · simp [semaUp, hvalue, hlist]
      simp only [hvalue] at h₁
      refine ⟨(), s₁, h₁, ?_⟩
      simp [hsema₁, hvalue, setSema]
    · exact hok₁.setSema (Nat.le_refl 1) (List.Sublist.refl _)
    · intro hne
      have hcw : s.cur ≠ w := by
        rintro rfl
        exact hne (h.mem_waiters q _ hw).2
      exact hother _ hcw

theorem threadStart_returns (h : s.QueuesOk) (hnew : t ∉ s.threadAllList) :
    Returns (threadStart t) s () (s.started t) := by
  have hnotReady : t ∉ s.threadReadyList := fun hmem => hnew ((h.mem_ready t).mp hmem).1
  simp [threadStart, started, setStatus, setResume, setReady, setAll, hnew, hnotReady]

theorem processExecute_returns (h : s.QueuesOk) (hnew : t ∉ s.threadAllList) :
    Returns (processExecute t) s () (s.started t) := by
  have hnotReady : t ∉ s.threadReadyList := fun hmem => hnew ((h.mem_ready t).mp hmem).1
  simp [processExecute, started, setStatus, setResume, setReady, setAll, hnew, hnotReady]

theorem SchedOk.started (h : s.SchedOk) (hnew : t ∉ s.threadAllList) : (s.started t).SchedOk := by
  have hne : s.cur ≠ t := fun heq => hnew (heq ▸ h.cur_mem)
  refine ⟨h.toQueuesOk.started hnew, List.mem_append_left _ h.cur_mem, ?_⟩
  show Function.update s.status t .ready s.cur = .running
  rw [Function.update_of_ne hne]
  exact h.cur_running

/-- Where a thread goes on matters while it sleeps in `sema_down` or has ended. -/
theorem QueuesOk.setResume (h : s.QueuesOk) (ht : t ∈ s.threadAllList → r = .caller) :
    (s.setResume t r).QueuesOk :=
  { h with
    idle_resume := by
      show Function.update s.resume t r s.idleThread = .caller
      by_cases heq : s.idleThread = t
      · rw [heq, Function.update_self]
        exact ht (heq ▸ h.idle_mem)
      · rw [Function.update_of_ne heq]
        exact h.idle_resume
    resume_exit := by
      intro u hu
      show Function.update s.resume t r u ≠ _ ∧ Function.update s.resume t r u ≠ _
      by_cases heq : u = t
      · rw [heq, Function.update_self, ht (heq ▸ hu)]
        decide
      · rw [Function.update_of_ne heq]
        exact h.resume_exit u hu }

/-- `sema_down` from the loop or from outside: the thread gets the semaphore or sleeps. -/
theorem SchedOk.semaDown_ok (h : s.SchedOk) (hidle : s.cur ≠ s.idleThread)
    (hr : r ≠ .threadExit ∧ r ≠ .releasePid true) :
    ∃ b s', Returns (semaDown q r) s b s' ∧ s'.SchedOk ∧ (b = true → (s'.sema q).value = 0) := by
  by_cases hvalue : (s.sema q).value = 0
  · obtain ⟨s', hs', hok⟩ := h.semaDown_asleep (q := q) hvalue hidle hr
    exact ⟨false, s', hs', hok, fun hb => absurd hb (by decide)⟩
  · refine ⟨true, _, semaDown_taken h.toQueuesOk hvalue, ⟨?_, h.cur_mem, h.cur_running⟩, fun _ => ?_⟩
    · exact h.toQueuesOk.setSema (Nat.zero_le 1) (List.Sublist.refl _)
    · simp [setSema]

theorem SchedOk.semaUp_ok (h : s.SchedOk) (hvalue : (s.sema q).value = 0) :
    ∃ s', Returns (semaUp q) s () s' ∧ s'.SchedOk := by
  obtain ⟨s', hs', hok, hcur, hall, -, hstat⟩ := Sched.semaUp_ok h.toQueuesOk hvalue
  refine ⟨s', hs', hok, ?_, ?_⟩
  · rw [hcur, hall]
    exact h.cur_mem
  · rw [hcur, hstat (by rw [h.cur_running]; decide)]
    exact h.cur_running

/-- `release_pid` where `thread_exit` returns. -/
theorem SchedOk.releasePid_ok (h : s.SchedOk) (hidle : s.cur ≠ s.idleThread) :
    ∃ s', Returns (releasePid false) s () s' ∧ s'.SchedOk := by
  obtain ⟨b, s₁, h₁, hok₁, hvalue⟩ :=
    h.semaDown_ok (q := s.pidLock) (r := .releasePid false) hidle (by decide)
  cases b with
  | false =>
    refine ⟨s₁, ?_, hok₁⟩
    simp only [releasePid, returns_bind, returns_query]
    exact ⟨_, _, ⟨rfl, rfl⟩, _, _, ⟨rfl, rfl⟩, false, s₁, h₁, by simp⟩
  | true =>
    obtain ⟨s₂, h₂, hok₂⟩ := hok₁.semaUp_ok (hvalue rfl)
    refine ⟨s₂, ?_, hok₂⟩
    simp only [releasePid, returns_bind, returns_query]
    exact ⟨_, _, ⟨rfl, rfl⟩, _, _, ⟨rfl, rfl⟩, true, s₁, h₁, by simp [h₂]⟩

/-- `release_pid` of a thread that has ended itself, where it does not sleep. -/
theorem QueuesOk.releasePid_ok (h : s.QueuesOk) (hcur : s.cur ∉ s.threadAllList)
    (hdied : s.status s.cur = .died) (hvalue : (s.sema s.pidLock).value ≠ 0) :
    ∃ s', Returns (releasePid true) s () s' ∧ s'.SchedOk := by
  have hdown : Returns (semaDown s.pidLock (.releasePid true)) s true _ := semaDown_taken h hvalue
  have htaken : (s.setSema s.pidLock { s.sema s.pidLock with value := 0 }).QueuesOk :=
    h.setSema (Nat.zero_le 1) (List.Sublist.refl _)
  obtain ⟨s₁, hup, hok₁, hcur₁, hall₁, -, hstat₁⟩ :=
    Sched.semaUp_ok (q := s.pidLock) htaken (by
      show (Function.update s.sema s.pidLock _ s.pidLock).value = 0
      simp)
  have hdied₁ : s₁.status s₁.cur = .died := by
    have hsame : s₁.status s.cur = s.status s.cur := hstat₁ (by
      show s.status s.cur ≠ .blocked
      rw [hdied]
      decide)
    rw [hcur₁]
    exact hsame.trans hdied
  have hexit : (s₁.setResume s.cur .threadExit).QueuesOk := by
    apply hok₁.setResume
    intro hmem
    rw [hall₁] at hmem
    exact absurd hmem hcur
  obtain ⟨s₂, hsched, hok₂⟩ := Sched.schedule_ok hexit (by
    intro hrun
    have hrun' : s₁.status s₁.cur = .running := hrun
    rw [hdied₁] at hrun'
    cases hrun')
  refine ⟨s₂, ?_, hok₂⟩
  simp only [releasePid, returns_bind, returns_query]
  refine ⟨_, _, ⟨rfl, rfl⟩, _, _, ⟨rfl, rfl⟩, true, _, hdown, ?_⟩
  simp
  exact ⟨(), s₁, hup, hsched⟩

theorem threadExit_returns {b : Bool} {s' : Sched} (ht : t ∈ s.threadAllList) :
    Returns (threadExit t b) s () s' ↔ Returns (releasePid b) (s.detached t) () s' := by
  by_cases hready : t ∈ s.threadReadyList
  · simp [threadExit, hready, ht, detached, setStatus, setReady, setAll]
  · have herase : s.threadReadyList.erase t = s.threadReadyList := List.erase_of_not_mem hready
    simp [threadExit, hready, ht, detached, setStatus, setReady, setAll, herase]

/-- `thread_exit` of another thread. -/
theorem SchedOk.threadExit_other_ok (h : s.SchedOk) (ht : t ∈ s.threadAllList) (hne : t ≠ s.cur)
    (hidle : t ≠ s.idleThread) (hcur : s.cur ≠ s.idleThread) (hfree : ∀ q, t ∉ (s.sema q).waiters) :
    ∃ s', Returns (threadExit t false) s () s' ∧ s'.SchedOk := by
  have hdetached : (s.detached t).SchedOk := by
    refine ⟨h.toQueuesOk.detached hidle hfree, ?_, ?_⟩
    · exact (h.all_nodup.mem_erase_iff).mpr ⟨Ne.symm hne, h.cur_mem⟩
    · show Function.update s.status t .died s.cur = .running
      rw [Function.update_of_ne (Ne.symm hne)]
      exact h.cur_running
  obtain ⟨s', hs', hok⟩ := hdetached.releasePid_ok hcur
  exact ⟨s', (threadExit_returns ht).mpr hs', hok⟩

/-- `thread_exit` of the running thread, where the lock of the pids is free. -/
theorem SchedOk.threadExit_self_ok (h : s.SchedOk) (hidle : s.cur ≠ s.idleThread)
    (hvalue : (s.sema s.pidLock).value = 1) :
    ∃ s', Returns (threadExit s.cur true) s () s' ∧ s'.SchedOk := by
  have hdetached : (s.detached s.cur).QueuesOk := h.toQueuesOk.detached hidle h.cur_not_waiting
  have hgone : s.cur ∉ s.threadAllList.erase s.cur := fun hmem =>
    (h.all_nodup.mem_erase_iff.mp hmem).1 rfl
  obtain ⟨s', hs', hok⟩ := hdetached.releasePid_ok hgone (Function.update_self ..) (by
    show (s.sema s.pidLock).value ≠ 0
    omega)
  exact ⟨s', (threadExit_returns h.cur_mem).mpr hs', hok⟩

/-- A thread that comes back from `switch_to`. -/
theorem SchedOk.resumed_ok (h : s.SchedOk) (hidle : s.cur ≠ s.idleThread) :
    ∃ s', Returns resumed s () s' ∧ s'.SchedOk := by
  have hback : (s.setResume s.cur .caller).SchedOk :=
    ⟨h.toQueuesOk.setResume fun _ => rfl, h.cur_mem, h.cur_running⟩
  cases hresume : s.resume s.cur with
  | caller => exact ⟨s, by simp [resumed, hresume], h⟩
  | semaDown q =>
    obtain ⟨b, s', hs', hok, -⟩ := hback.semaDown_ok (q := q) (r := .semaDown q) hidle (by simp)
    refine ⟨s', ?_, hok⟩
    simp [resumed, hresume]
    cases b with
    | false => exact Or.inl hs'
    | true => exact Or.inr hs'
  | releasePid needSchedule =>
    cases needSchedule with
    | false =>
      obtain ⟨s', hs', hok⟩ := hback.releasePid_ok hidle
      refine ⟨s', ?_, hok⟩
      simp [resumed, hresume, hs']
    | true => exact absurd hresume (h.resume_exit _ h.cur_mem).2
  | threadExit => exact absurd hresume (h.resume_exit _ h.cur_mem).1

end Functions

end Sched

end ZxyOs
