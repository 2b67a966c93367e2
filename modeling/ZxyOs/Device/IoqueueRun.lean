/-
  ZxyOs.Device.IoqueueRun

  Runs of producers and consumers of one ring buffer.

  In every run the characters come out in the order they went in, and no assertion
  fails (`ioq_fifo`).  A thread that has waited for the lock goes to sleep without
  another look at the ring.  In a run in which such a thread always finds what it
  tested before, no thread sleeps for something that is there (`ioq_no_lost_wakeup`);
  two consumers and two characters are a run in which it does not
  (`second_consumer_sleeps`).
-/

import ZxyOs.Device.IoqueueInv

namespace ZxyOs

open Lib Lib.Exec

namespace IoqSystem

/-- The ring is a bounded queue of what has been written and not read. -/
structure IsFifo (s : IoqSystem) : Prop where
  head_lt : s.ioq.head < bufsize
  tail_lt : s.ioq.tail < bufsize
  length : s.written.length = s.read.length + s.ioq.ioqLength
  length_le : s.ioq.ioqLength ≤ 2047
  empty : s.ioq.ioqEmpty = true ↔ s.ioq.ioqLength = 0
  full : s.ioq.ioqFull = true ↔ s.ioq.ioqLength = 2047
  order : s.read <+: s.written

/-- A thread that gets the lock after it has slept finds the ring as it tested it. -/
def StillNeeds (s : IoqSystem) : Event → Prop
  | .start _ _ => True
  | .resume t => ∀ c, s.place t = .lockAcquire c → s.ioq.semaphore.value = 1 → Needs c s.ioq

section Runs

variable {strict : Prop} {s s' s₀ : IoqSystem} {e : Event} {x : Exec IoqSystem Unit}

theorem RingOk.isFifo (h : s.RingOk) : s.IsFifo where
  head_lt := h.head_lt
  tail_lt := h.tail_lt
  length := by
    rw [h.content, List.length_append, ringContents_length]
    rfl
  length_le := Nat.le_of_lt_succ (ringLength_lt (n := bufsize) h.head_lt)
  empty := by
    rw [Ioqueue.ioqEmpty, decide_eq_true_iff]
    exact (ringLength_eq_zero h.tail_lt).symm
  full := by
    rw [Ioqueue.ioqFull, decide_eq_true_iff]
    exact (ringLength_full h.head_lt h.tail_lt).symm
  order := by
    rw [h.content]
    exact List.prefix_append _ _

theorem Initial.ioqOk (h : s.Initial) : s.IoqOk strict where
  ring := by
    refine ⟨by rw [h.head]; decide, by rw [h.tail]; decide, ?_⟩
    rw [h.written, h.read, h.head, h.tail]
    rfl
  lock := by
    refine Or.inl ⟨by rw [h.semaphore], h.holder, h.holderRepeatNr, fun t c => ?_⟩
    rw [h.place t]
    simp
  waiters_nodup := by
    rw [h.semaphore]
    exact List.nodup_nil
  waiters := by
    intro t ht
    rw [h.semaphore] at ht
    cases ht
  producer := by
    intro t ht
    rw [h.producer] at ht
    cases ht
  consumer := by
    intro t ht
    rw [h.consumer] at ht
    cases ht
  producer_full := fun _ hne => absurd h.producer hne
  consumer_empty := fun _ hne => absurd h.consumer hne

/-- A thread that runs sleeps again or returns, and no assertion fails. -/
theorem IoqOk.code_ok (h : s.IoqOk strict) (hneeds : strict → s.StillNeeds e)
    (hcode : s.code e = some x) : ∃ s', Returns x s () s' ∧ s'.IoqOk strict := by
  cases e with
  | start t c =>
    simp only [code] at hcode
    split at hcode
    · next hplace hawake =>
      obtain rfl := Option.some.inj hcode
      exact h.loop_ok hawake hplace
    · cases hcode
  | resume t =>
    simp only [code] at hcode
    split at hcode
    · cases hcode
    · next hblocked =>
      have hawake : s.blocked t = false := Bool.eq_false_iff.mpr hblocked
      split at hcode
      · cases hcode
      · next c hplace =>
        -- the thread gets the lock, or it queues again
        obtain rfl := Option.some.inj hcode
        exact h.acquire_ok hawake (by simp [hplace]) fun hs hvalue => hneeds hs c hplace hvalue
      · next c hplace =>
        -- the thread has been woken up: it gives the lock back and tests again
        obtain rfl := Option.some.inj hcode
        obtain ⟨s₁, h₁, hok₁, hawake₁, hplace₁⟩ := h.release_ok hawake hplace
        obtain ⟨s', hs', hok⟩ := hok₁.loop_ok (c := c) hawake₁ hplace₁
        refine ⟨s', ?_, hok⟩
        rw [returns_bind]
        refine ⟨(), s.setPlace t .outside, rfl, ?_⟩
        rw [returns_bind]
        exact ⟨(), s₁, h₁, hs'⟩

theorem ioqOk_of_run (h₀ : s₀.Initial) (hrun : Run (fun s e => strict → s.StillNeeds e) s₀ s) :
    s.IoqOk strict := by
  apply hrun.invariant h₀.ioqOk
  intro s e s' hok hneeds ⟨x, hcode, hret⟩
  obtain ⟨s₁, hs₁, hok₁⟩ := hok.code_ok hneeds hcode
  rw [(hret.unique hs₁).2]
  exact hok₁

end Runs

end IoqSystem

/-- The ring buffer is a queue, and every thread that may run does so without an
    assertion failing. -/
theorem ioq_fifo (s₀ s : IoqSystem) (h₀ : s₀.Initial)
    (hrun : IoqSystem.Run (fun _ _ => True) s₀ s) :
    s.IsFifo ∧ ∀ e x, s.code e = some x → ∃ s', Returns x s () s' := by
  have hok : s.IoqOk False := IoqSystem.ioqOk_of_run h₀ (hrun.mono fun _ _ _ h => h.elim)
  refine ⟨hok.ring.isFifo, fun e x hcode => ?_⟩
  obtain ⟨s', hs', -⟩ := hok.code_ok False.elim hcode
  exact ⟨s', hs'⟩

/-- As long as no thread that has waited for the lock finds its reason gone, a consumer
    sleeps only while the ring is empty and a producer only while it is full. -/
theorem ioq_no_lost_wakeup (s₀ s : IoqSystem) (h₀ : s₀.Initial)
    (hrun : IoqSystem.Run IoqSystem.StillNeeds s₀ s) (t : Nat) :
    (s.ioq.consumer = some t → s.blocked t = true → s.ioq.ioqEmpty = true) ∧
      (s.ioq.producer = some t → s.blocked t = true → s.ioq.ioqFull = true) := by
  have hok : s.IoqOk True := IoqSystem.ioqOk_of_run h₀ (hrun.mono fun _ _ h _ => h)
  constructor
  · intro hconsumer _
    exact hok.consumer_empty trivial (by simp [hconsumer])
  · intro hproducer _
    exact hok.producer_full trivial (by simp [hproducer])

namespace IoqSystem

/-- A new ring buffer. -/
def fresh : IoqSystem where
  ioq := { buf := fun _ => 0 }
  blocked := fun _ => false
  place := fun _ => .outside
  written := []
  read := []

theorem fresh_initial : fresh.Initial := by
  constructor <;> intros <;> rfl

/-- A step, computed. -/
def step? (s : IoqSystem) (e : Event) : Option IoqSystem :=
  match s.code e with
  | none => none
  | some x =>
    match x s with
    | .ok (_, s') => some s'
    | .error _ => none

theorem step_of_step? {s s' : IoqSystem} {e : Event} (h : step? s e = some s') : Step s e s' := by
  simp only [step?] at h
  split at h
  · cases h
  · next x hcode =>
    split at h
    · next s₁ hret =>
      obtain rfl := Option.some.inj h
      exact ⟨x, hcode, hret⟩
    · cases h

end IoqSystem

/-- Thread 1 puts two characters, thread 2 takes one. -/
theorem fifo_run : ([.start 1 (.putChar 5), .start 1 (.putChar 6), .start 2 .getChar].foldlM
    IoqSystem.step? .fresh).map (fun s => s.read) = some [5] := by
  decide +kernel

theorem ioq_fifo_two_chars :
    ∃ s, IoqSystem.Run (fun _ _ => True) .fresh s ∧ s.read = [5] ∧ s.IsFifo := by
  obtain ⟨s, hrun, hread⟩ := Option.map_eq_some_iff.mp fifo_run
  have hreach : IoqSystem.Run (fun _ _ => True) .fresh s :=
    .of_foldlM (fun _ _ _ h => ⟨trivial, IoqSystem.step_of_step? h⟩) hrun
  exact ⟨s, hreach, hread, (ioq_fifo _ s IoqSystem.fresh_initial hreach).1⟩

/-- Thread 1 goes to sleep in `ioq_get_char`. -/
theorem consumer_run : (IoqSystem.step? .fresh (.start 1 .getChar)).map (fun s =>
    (s.ioq.consumer, s.blocked 1)) = some (some 1, true) := by
  decide +kernel

theorem ioq_no_lost_wakeup_consumer : ∃ s, IoqSystem.Run IoqSystem.StillNeeds .fresh s ∧
    s.ioq.consumer = some 1 ∧ s.blocked 1 = true ∧ s.ioq.ioqEmpty = true := by
  obtain ⟨s, hstep, hstate⟩ := Option.map_eq_some_iff.mp consumer_run
  obtain ⟨hconsumer, hblocked⟩ := Prod.mk.inj hstate
  have hreach : IoqSystem.Run IoqSystem.StillNeeds .fresh s :=
    .next (.start 1 .getChar) .start trivial (IoqSystem.step_of_step? hstep)
  exact ⟨s, hreach, hconsumer, hblocked,
    (ioq_no_lost_wakeup _ s IoqSystem.fresh_initial hreach 1).1 hconsumer hblocked⟩

/-! ## Two consumers, two characters -/

/-- Threads 1 and 2 wait for a character, thread 3 puts two, thread 1 takes the first
    and wakes thread 2, which is in `lock_acquire`. -/
def secondConsumerRun : List IoqSystem.Event :=
  [.start 1 .getChar, .start 2 .getChar, .start 3 (.putChar 5), .start 3 (.putChar 6),
    .resume 1, .resume 2]

/-- Thread 2 sleeps, and the second character is in the ring. -/
theorem secondConsumerRun_end : (secondConsumerRun.foldlM IoqSystem.step? .fresh).map (fun s =>
    (s.ioq.consumer, s.blocked 2, s.ioq.ioqEmpty)) = some (some 2, true, false) := by
  decide +kernel

/-- In some run a consumer sleeps beside a character. -/
theorem second_consumer_sleeps :
    ¬ ∀ s₀ s : IoqSystem, s₀.Initial → IoqSystem.Run (fun _ _ => True) s₀ s → ∀ t : Nat,
      (s.ioq.consumer = some t → s.blocked t = true → s.ioq.ioqEmpty = true) ∧
        (s.ioq.producer = some t → s.blocked t = true → s.ioq.ioqFull = true) := by
  intro hclaim
  obtain ⟨s, hrun, hstate⟩ := Option.map_eq_some_iff.mp secondConsumerRun_end
  simp only [Prod.mk.injEq] at hstate
  obtain ⟨hconsumer, hblocked, hempty⟩ := hstate
  have hreach : IoqSystem.Run (fun _ _ => True) .fresh s :=
    .of_foldlM (fun _ _ _ h => ⟨trivial, IoqSystem.step_of_step? h⟩) hrun
  have hholds := (hclaim _ s IoqSystem.fresh_initial hreach 2).1 hconsumer hblocked
  rw [hempty] at hholds
  cases hholds

end ZxyOs
