/-
  ZxyOs.Device.IoqueueInv

  What holds of a ring buffer and its threads whenever a thread sleeps or returns.

  The cells in use are what has been written and not yet read.  A thread asleep in
  `ioq_wait` keeps the lock until it has been woken and has run, so at most one thread
  is there, and a thread that gets the lock finds nobody recorded as waiting.

  With `strict`, a recorded thread waits for something: the producer for a full ring
  to empty, the consumer for an empty one to fill.
-/

import ZxyOs.Device.Ioqueue

namespace ZxyOs

open Lib Lib.Exec

namespace IoqSystem

/-- The cells in use hold what has been written and not read, in order. -/
structure RingOk (s : IoqSystem) : Prop where
  head_lt : s.ioq.head < bufsize
  tail_lt : s.ioq.tail < bufsize
  content : s.written = s.read ++ ringContents bufsize s.ioq.buf s.ioq.tail
    (ringLength bufsize s.ioq.head s.ioq.tail)

/-- The lock is free and nobody is in `ioq_wait`, or the thread in `ioq_wait` has it. -/
def LockHeld (s : IoqSystem) : Prop :=
  s.ioq.semaphore.value = 1 ∧ s.ioq.holder = none ∧ s.ioq.holderRepeatNr = 0 ∧
      (∀ t c, s.place t ≠ .ioqWait c) ∨
    ∃ t c, s.ioq.semaphore.value = 0 ∧ s.ioq.holder = some t ∧ s.ioq.holderRepeatNr = 1 ∧
      s.place t = .ioqWait c ∧ ∀ u c', s.place u = .ioqWait c' → u = t

/-- What the call waits for is still missing. -/
def Needs (c : IoqCall) (q : Ioqueue) : Prop :=
  match c with
  | .putChar _ => q.ioqFull = true
  | .getChar => q.ioqEmpty = true

structure IoqOk (strict : Prop) (s : IoqSystem) : Prop where
  ring : s.RingOk
  lock : s.LockHeld
  waiters_nodup : s.ioq.semaphore.waiters.Nodup
  waiters : ∀ t ∈ s.ioq.semaphore.waiters, s.blocked t = true ∧ ∃ c, s.place t = .lockAcquire c
  producer : ∀ t, s.ioq.producer = some t →
    s.blocked t = true ∧ ∃ ch, s.place t = .ioqWait (.putChar ch)
  consumer : ∀ t, s.ioq.consumer = some t → s.blocked t = true ∧ s.place t = .ioqWait .getChar
  producer_full : strict → s.ioq.producer ≠ none → s.ioq.ioqFull = true
  consumer_empty : strict → s.ioq.consumer ≠ none → s.ioq.ioqEmpty = true

section Functions

variable {strict : Prop} {s : IoqSystem} {t : Nat} {c : IoqCall}

/-- A thread that is not in `ioq_wait` does not have the lock. -/
theorem IoqOk.holder_ne (h : s.IoqOk strict) (ht : ∀ c, s.place t ≠ .ioqWait c) :
    s.ioq.holder ≠ some t := by
  rcases h.lock with ⟨-, hholder, -⟩ | ⟨u, c', -, hholder, -, hplace, -⟩
  · rw [hholder]
    simp
  · rw [hholder]
    rintro heq
    obtain rfl := Option.some.inj heq
    exact ht c' hplace

theorem IoqOk.value (h : s.IoqOk strict) :
    s.ioq.semaphore.value = 0 ∨ s.ioq.semaphore.value = 1 := by
  rcases h.lock with ⟨hvalue, -⟩ | ⟨_, _, hvalue, -⟩
  · exact Or.inr hvalue
  · exact Or.inl hvalue

/-- While the lock is free nobody is recorded as waiting. -/
theorem IoqOk.no_waiter (h : s.IoqOk strict) (hvalue : s.ioq.semaphore.value = 1) :
    s.ioq.producer = none ∧ s.ioq.consumer = none ∧ s.ioq.holderRepeatNr = 0 ∧
      ∀ t c, s.place t ≠ .ioqWait c := by
  rcases h.lock with ⟨-, -, hrepeat, hnone⟩ | ⟨_, _, hdown, -⟩
  · refine ⟨?_, ?_, hrepeat, hnone⟩
    · by_contra hne
      obtain ⟨u, hu⟩ := Option.ne_none_iff_exists'.mp hne
      obtain ⟨-, ch, hplace⟩ := h.producer u hu
      exact hnone u _ hplace
    · by_contra hne
      obtain ⟨u, hu⟩ := Option.ne_none_iff_exists'.mp hne
      exact hnone u _ (h.consumer u hu).2
  · omega

/-- A thread that is awake is recorded nowhere. -/
theorem IoqOk.awake (h : s.IoqOk strict) (hawake : s.blocked t = false) :
    t ∉ s.ioq.semaphore.waiters ∧ (∀ u, s.ioq.producer = some u → u ≠ t) ∧
      ∀ u, s.ioq.consumer = some u → u ≠ t := by
  have hne {u : Nat} (hu : s.blocked u = true) : u ≠ t := by
    rintro rfl
    rw [hawake] at hu
    cases hu
  exact ⟨fun hmem => hne (h.waiters t hmem).1 rfl, fun u hu => hne (h.producer u hu).1,
    fun u hu => hne (h.consumer u hu).1⟩

/-- `sema_down` of the lock while another thread has it. -/
theorem IoqOk.semaDown_asleep (h : s.IoqOk strict) (hawake : s.blocked t = false)
    (ht : ∀ c, s.place t ≠ .ioqWait c) (hvalue : s.ioq.semaphore.value = 0) :
    ∃ s', Returns (semaDown t c) s false s' ∧ s'.IoqOk strict := by
  obtain ⟨hmem, hproducer, hconsumer⟩ := h.awake hawake
  refine ⟨((s.setIoq { s.ioq with semaphore := { s.ioq.semaphore with
    waiters := s.ioq.semaphore.waiters ++ [t] } }).setPlace t (.lockAcquire c)).setBlocked t true,
    ?_, ?_⟩
  · simp [semaDown, hvalue, hmem, threadBlock]
  · exact
      { ring := ⟨h.ring.head_lt, h.ring.tail_lt, h.ring.content⟩
        lock := by
          rcases h.lock with ⟨hup, -⟩ | ⟨u, c', hdown, hholder, hrepeat, hplace, hunique⟩
          · omega
          · have hne : u ≠ t := by
              rintro rfl
              exact ht c' hplace
            refine Or.inr ⟨u, c', hdown, hholder, hrepeat, ?_, ?_⟩
            · show Function.update s.place t _ u = _
              rw [Function.update_of_ne hne]
              exact hplace
            · intro v c'' hv
              have hv' : Function.update s.place t (.lockAcquire c) v = .ioqWait c'' := hv
              by_cases hvt : v = t
              · rw [hvt, Function.update_self] at hv'
                cases hv'
              · rw [Function.update_of_ne hvt] at hv'
                exact hunique v c'' hv'
        waiters_nodup := by
          show (s.ioq.semaphore.waiters ++ [t]).Nodup
          rw [List.nodup_append]
          refine ⟨h.waiters_nodup, List.nodup_singleton t, fun u hu v hv heq => ?_⟩
          exact hmem (by rw [← List.mem_singleton.mp hv, ← heq]; exact hu)
        waiters := by
          intro u hu
          show Function.update s.blocked t true u = true ∧
            ∃ c', Function.update s.place t (.lockAcquire c) u = .lockAcquire c'
          by_cases hut : u = t
          · rw [hut, Function.update_self, Function.update_self]
            exact ⟨rfl, c, rfl⟩
          · rw [Function.update_of_ne hut, Function.update_of_ne hut]
            have hu' : u ∈ s.ioq.semaphore.waiters ++ [t] := hu
            rw [List.mem_append, List.mem_singleton] at hu'
            exact h.waiters u (hu'.resolve_right hut)
        producer := by
          intro u hu
          show Function.update s.blocked t true u = true ∧
            ∃ ch, Function.update s.place t (.lockAcquire c) u = .ioqWait (.putChar ch)
          rw [Function.update_of_ne (hproducer u hu), Function.update_of_ne (hproducer u hu)]
          exact h.producer u hu
        consumer := by
          intro u hu
          show Function.update s.blocked t true u = true ∧
            Function.update s.place t (.lockAcquire c) u = .ioqWait .getChar
          rw [Function.update_of_ne (hconsumer u hu), Function.update_of_ne (hconsumer u hu)]
          exact h.consumer u hu
        producer_full := h.producer_full
        consumer_empty := h.consumer_empty }

/-- The state in which the thread sleeps in `ioq_wait`. -/
def waiting (s : IoqSystem) (t : Nat) (c : IoqCall) : IoqSystem :=
  ((s.setIoq (setWaiter c (some t)
    { s.ioq with
      semaphore := { s.ioq.semaphore with value := 0 }
      holder := some t
      holderRepeatNr := 1 })).setPlace t (.ioqWait c)).setBlocked t true

theorem ioqWait_returns (hwaiter : waiter c s.ioq = none) :
    Returns (ioqWait t c) s () (((s.setIoq (setWaiter c (some t) s.ioq)).setPlace t
      (.ioqWait c)).setBlocked t true) := by
  simp only [ioqWait, threadBlock, returns_bind, returns_query, returns_assert, returns_update]
  exact ⟨_, _, ⟨rfl, rfl⟩, (), _, ⟨hwaiter, rfl⟩, (), _, rfl, (), _, rfl, rfl⟩

theorem lockTaken_returns (hrepeat : s.ioq.holderRepeatNr = 0) :
    Returns (lockTaken t) s () (s.setIoq { s.ioq with holder := some t, holderRepeatNr := 1 }) := by
  simp [lockTaken, hrepeat]

theorem semaDown_taken (hvalue : s.ioq.semaphore.value = 1) :
    Returns (semaDown t c) s true
      (s.setIoq { s.ioq with semaphore := { s.ioq.semaphore with value := 0 } }) := by
  simp [semaDown, hvalue]

theorem waiter_eq_none (h : s.IoqOk strict) (hvalue : s.ioq.semaphore.value = 1) :
    waiter c s.ioq = none := by
  cases c with
  | putChar ch => exact (h.no_waiter hvalue).1
  | getChar => exact (h.no_waiter hvalue).2.1

/-- The thread gets the lock and goes to sleep in `ioq_wait`. -/
theorem IoqOk.waiting (h : s.IoqOk strict) (hawake : s.blocked t = false)
    (hvalue : s.ioq.semaphore.value = 1) (hneeds : strict → Needs c s.ioq) :
    (s.waiting t c).IoqOk strict := by
  obtain ⟨hmem, -, -⟩ := h.awake hawake
  obtain ⟨hproducer, hconsumer, -, hnone⟩ := h.no_waiter hvalue
  have hwaiters : (s.waiting t c).ioq.semaphore.waiters = s.ioq.semaphore.waiters := by
    cases c <;> rfl
  exact
    { ring := by
        cases c <;> exact ⟨h.ring.head_lt, h.ring.tail_lt, h.ring.content⟩
      lock := by
        refine Or.inr ⟨t, c, ?_, ?_, ?_, Function.update_self .., ?_⟩
        · cases c <;> rfl
        · cases c <;> rfl
        · cases c <;> rfl
        · intro u c' hu
          by_contra hne
          have hu' : Function.update s.place t (.ioqWait c) u = .ioqWait c' := hu
          rw [Function.update_of_ne hne] at hu'
          exact hnone u c' hu'
      waiters_nodup := hwaiters ▸ h.waiters_nodup
      waiters := by
        intro u hu
        rw [hwaiters] at hu
        have hne : u ≠ t := fun heq => hmem (heq ▸ hu)
        show Function.update s.blocked t true u = true ∧
          ∃ c', Function.update s.place t (.ioqWait c) u = .lockAcquire c'
        rw [Function.update_of_ne hne, Function.update_of_ne hne]
        exact h.waiters u hu
      producer := by
        intro u hu
        cases c with
        | putChar ch =>
          obtain rfl : t = u := Option.some.inj hu
          exact ⟨Function.update_self .., ch, Function.update_self ..⟩
        | getChar =>
          have hu' : s.ioq.producer = some u := hu
          rw [hproducer] at hu'
          cases hu'
      consumer := by
        intro u hu
        cases c with
        | putChar ch =>
          have hu' : s.ioq.consumer = some u := hu
          rw [hconsumer] at hu'
          cases hu'
        | getChar =>
          obtain rfl : t = u := Option.some.inj hu
          exact ⟨Function.update_self .., Function.update_self ..⟩
      producer_full := by
        intro hstrict hne
        cases c with
        | putChar ch => exact hneeds hstrict
        | getChar => exact absurd hproducer hne
      consumer_empty := by
        intro hstrict hne
        cases c with
        | putChar ch => exact absurd hconsumer hne
        | getChar => exact hneeds hstrict }

/-- `lock_acquire` behind its test of the holder, then `ioq_wait`. -/
theorem IoqOk.acquire_ok (h : s.IoqOk strict) (hawake : s.blocked t = false)
    (ht : ∀ c, s.place t ≠ .ioqWait c)
    (hneeds : strict → s.ioq.semaphore.value = 1 → Needs c s.ioq) :
    ∃ s', Returns (do
      if ← semaDown t c then
        lockTaken t
        ioqWait t c
      else
        return ()) s () s' ∧ s'.IoqOk strict := by
  rcases h.value with hvalue | hvalue
  · obtain ⟨s', hs', hok⟩ := h.semaDown_asleep (c := c) hawake ht hvalue
    refine ⟨s', ?_, hok⟩
    rw [returns_bind]
    exact ⟨false, s', hs', by simp⟩
  · refine ⟨s.waiting t c, ?_, h.waiting hawake hvalue fun hs => hneeds hs hvalue⟩
    have hrepeat := (h.no_waiter hvalue).2.2.1
    have hwaiter : waiter c s.ioq = none := waiter_eq_none h hvalue
    rw [returns_bind]
    refine ⟨true, _, semaDown_taken hvalue, ?_⟩
    rw [if_pos rfl, returns_bind]
    refine ⟨(), _, lockTaken_returns hrepeat, ?_⟩
    apply ioqWait_returns
    cases c <;> exact hwaiter

theorem IoqOk.waitForRoom_ok (h : s.IoqOk strict) (hawake : s.blocked t = false)
    (ht : ∀ c, s.place t ≠ .ioqWait c) (hneeds : Needs c s.ioq) :
    ∃ s', Returns (waitForRoom t c) s () s' ∧ s'.IoqOk strict := by
  obtain ⟨s', hs', hok⟩ := h.acquire_ok hawake ht fun _ _ => hneeds
  refine ⟨s', ?_, hok⟩
  have hholder := h.holder_ne ht
  obtain ⟨b, s₁, h₁, h₂⟩ := returns_bind.mp hs'
  cases b with
  | false =>
    apply returns_bind.mpr
    refine ⟨false, s₁, ?_, h₂⟩
    simp only [lockAcquire, returns_bind, returns_query]
    refine ⟨_, _, ⟨rfl, rfl⟩, ?_⟩
    rw [if_pos hholder, returns_bind]
    exact ⟨false, s₁, h₁, rfl⟩
  | true =>
    obtain ⟨u, s₂, h₃, h₄⟩ := returns_bind.mp h₂
    apply returns_bind.mpr
    refine ⟨true, s₂, ?_, h₄⟩
    simp only [lockAcquire, returns_bind, returns_query]
    refine ⟨_, _, ⟨rfl, rfl⟩, ?_⟩
    rw [if_pos hholder, returns_bind]
    refine ⟨true, s₁, h₁, ?_⟩
    rw [if_pos rfl, returns_bind]
    exact ⟨u, s₂, h₃, rfl⟩

/-- `lock_release` of a thread that has come back from `ioq_wait`. -/
theorem IoqOk.release_ok (h : s.IoqOk strict) (hawake : s.blocked t = false)
    (ht : s.place t = .ioqWait c) :
    ∃ s', Returns (lockRelease t) (s.setPlace t .outside) () s' ∧ s'.IoqOk strict ∧
      s'.blocked t = false ∧ s'.place t = .outside := by
  obtain ⟨hmem, hproducer, hconsumer⟩ := h.awake hawake
  rcases h.lock with ⟨-, -, -, hnone⟩ | ⟨u, c', hvalue, hholder, hrepeat, -, hunique⟩
  · exact absurd ht (hnone t c)
  · obtain rfl : t = u := hunique t c ht
    have hother (v : Nat) (hv : v ≠ t) : (s.setPlace t .outside).place v = s.place v :=
      Function.update_of_ne hv ..
    have hfree (v : Nat) (c' : IoqCall) : (s.setPlace t .outside).place v ≠ .ioqWait c' := by
      by_cases hv : v = t
      · rw [hv]
        show Function.update s.place t .outside t ≠ _
        rw [Function.update_self]
        simp
      · rw [hother v hv]
        exact fun hplace => hv (hunique v c' hplace)
    cases hlist : s.ioq.semaphore.waiters with
    | nil =>
      refine ⟨(s.setPlace t .outside).setIoq { s.ioq with
        holder := none, holderRepeatNr := 0, semaphore := ⟨1, []⟩ }, ?_, ?_, hawake, ?_⟩
      · simp [lockRelease, semaUp, setPlace, setIoq, hholder, hrepeat, hvalue, hlist]
      · exact
          { ring := ⟨h.ring.head_lt, h.ring.tail_lt, h.ring.content⟩
            lock := Or.inl ⟨rfl, rfl, rfl, hfree⟩
            waiters_nodup := List.nodup_nil
            waiters := fun v hv => absurd hv List.not_mem_nil
            producer := by
              intro v hv
              show s.blocked v = true ∧ ∃ ch, (s.setPlace t .outside).place v = _
              rw [hother v (hproducer v hv)]
              exact h.producer v hv
            consumer := by
              intro v hv
              show s.blocked v = true ∧ (s.setPlace t .outside).place v = _
              rw [hother v (hconsumer v hv)]
              exact h.consumer v hv
            producer_full := h.producer_full
            consumer_empty := h.consumer_empty }
      · exact Function.update_self ..
    | cons w ws =>
      have hw : w ∈ s.ioq.semaphore.waiters := hlist ▸ List.mem_cons_self
      obtain ⟨hblocked, cw, hplace⟩ := h.waiters w hw
      have hnodup : (w :: ws).Nodup := hlist ▸ h.waiters_nodup
      have hwt : t ≠ w := fun heq => hmem (heq ▸ hw)
      refine ⟨((s.setPlace t .outside).setBlocked w false).setIoq { s.ioq with
        holder := none, holderRepeatNr := 0, semaphore := ⟨1, ws⟩ }, ?_, ?_, ?_, ?_⟩
      · simp [lockRelease, semaUp, threadUnblock, setPlace, setIoq, setBlocked, hholder, hrepeat,
          hvalue, hlist, hblocked]
      · exact
          { ring := ⟨h.ring.head_lt, h.ring.tail_lt, h.ring.content⟩
            lock := Or.inl ⟨rfl, rfl, rfl, hfree⟩
            waiters_nodup := hnodup.of_cons
            waiters := by
              intro v hv
              have hv' : v ∈ ws := hv
              have hmem' : v ∈ s.ioq.semaphore.waiters := hlist ▸ List.mem_cons_of_mem w hv'
              have hvw : v ≠ w := by
                rintro rfl
                exact (List.nodup_cons.mp hnodup).1 hv'
              show Function.update s.blocked w false v = true ∧
                ∃ c'', (s.setPlace t .outside).place v = _
              rw [Function.update_of_ne hvw, hother v fun heq => hmem (heq ▸ hmem')]
              exact h.waiters v hmem'
            producer := by
              intro v hv
              have hvw : v ≠ w := by
                rintro rfl
                obtain ⟨-, ch, hwait⟩ := h.producer v hv
                rw [hplace] at hwait
                cases hwait
              show Function.update s.blocked w false v = true ∧
                ∃ ch, (s.setPlace t .outside).place v = _
              rw [Function.update_of_ne hvw, hother v (hproducer v hv)]
              exact h.producer v hv
            consumer := by
              intro v hv
              have hvw : v ≠ w := by
                rintro rfl
                obtain ⟨-, hwait⟩ := h.consumer v hv
                rw [hplace] at hwait
                cases hwait
              show Function.update s.blocked w false v = true ∧
                (s.setPlace t .outside).place v = _
              rw [Function.update_of_ne hvw, hother v (hconsumer v hv)]
              exact h.consumer v hv
            producer_full := h.producer_full
            consumer_empty := h.consumer_empty }
      · show Function.update s.blocked w false t = false
        rw [Function.update_of_ne hwt]
        exact hawake
      · exact Function.update_self ..

/-- Reading takes the first of the cells in use. -/
theorem RingOk.take (h : s.RingOk) (hne : s.ioq.head ≠ s.ioq.tail) :
    ringNext bufsize s.ioq.tail < bufsize ∧
      s.written = s.read ++ [s.ioq.buf s.ioq.tail] ++ ringContents bufsize s.ioq.buf
        (ringNext bufsize s.ioq.tail)
        (ringLength bufsize s.ioq.head (ringNext bufsize s.ioq.tail)) := by
  refine ⟨ringNext_lt h.tail_lt, ?_⟩
  rw [List.append_assoc, List.singleton_append, ← ringContents_take h.tail_lt,
    ← ringLength_take h.head_lt h.tail_lt hne]
  exact h.content

/-- Writing appends to the cells in use. -/
theorem RingOk.put (h : s.RingOk) (hroom : ringNext bufsize s.ioq.head ≠ s.ioq.tail) (ch : UInt8) :
    ringNext bufsize s.ioq.head < bufsize ∧
      s.written ++ [ch] = s.read ++ ringContents bufsize
        (Function.update s.ioq.buf s.ioq.head ch) s.ioq.tail
        (ringLength bufsize (ringNext bufsize s.ioq.head) s.ioq.tail) := by
  refine ⟨ringNext_lt h.head_lt, ?_⟩
  have hlen : ringLength bufsize s.ioq.head s.ioq.tail < bufsize := ringLength_lt h.head_lt
  have hput : ringContents bufsize (Function.update s.ioq.buf s.ioq.head ch) s.ioq.tail
      (ringLength bufsize s.ioq.head s.ioq.tail + 1) =
      ringContents bufsize s.ioq.buf s.ioq.tail (ringLength bufsize s.ioq.head s.ioq.tail) ++
        [ch] := by
    rw [← ringContents_put hlen, ringLength_head h.head_lt h.tail_lt]
  rw [ringLength_put h.head_lt h.tail_lt hroom, hput, ← List.append_assoc]
  congr 1
  exact h.content

theorem IoqOk.ioqGetChar_ok (h : s.IoqOk strict) (hawake : s.blocked t = false)
    (ht : s.place t = .outside) : ∃ s', Returns (ioqGetChar t) s () s' ∧ s'.IoqOk strict := by
  by_cases hempty : s.ioq.head = s.ioq.tail
  · -- nothing to read
    have hneeds : Needs .getChar s.ioq := decide_eq_true hempty
    obtain ⟨s', hs', hok⟩ := h.waitForRoom_ok (c := .getChar) hawake (by simp [ht]) hneeds
    refine ⟨s', ?_, hok⟩
    simp [ioqGetChar, Ioqueue.ioqEmpty, hempty, hs']
  · obtain ⟨htail, hcontent⟩ := h.ring.take hempty
    have hconsumer (hstrict : strict) : s.ioq.consumer = none := by
      by_contra hne
      exact hempty (of_decide_eq_true (h.consumer_empty hstrict hne))
    cases hproducer : s.ioq.producer with
    | none =>
      refine ⟨{ s.setIoq { s.ioq with tail := ringNext bufsize s.ioq.tail } with
        read := s.read ++ [s.ioq.buf s.ioq.tail] }, ?_, ?_⟩
      · simp [ioqGetChar, Ioqueue.ioqEmpty, hempty, hproducer, setIoq]
      · exact
          { h with
            ring := ⟨h.ring.head_lt, htail, hcontent⟩
            producer_full := fun _ hne => absurd hproducer hne
            consumer_empty := fun hstrict hne => absurd (hconsumer hstrict) hne }
    | some w =>
      obtain ⟨hblocked, ch, hplace⟩ := h.producer w hproducer
      refine ⟨{ (s.setBlocked w false).setIoq
        { s.ioq with producer := none, tail := ringNext bufsize s.ioq.tail } with
        read := s.read ++ [s.ioq.buf s.ioq.tail] }, ?_, ?_⟩
      · simp [ioqGetChar, wakeupProducer, threadUnblock, Ioqueue.ioqEmpty, hempty, hproducer,
          hblocked, setIoq, setBlocked]
      · exact
          { ring := ⟨h.ring.head_lt, htail, hcontent⟩
            lock := h.lock
            waiters_nodup := h.waiters_nodup
            waiters := by
              intro u hu
              obtain ⟨hu', c', hplace'⟩ := h.waiters u hu
              have hne : u ≠ w := by
                rintro rfl
                rw [hplace] at hplace'
                cases hplace'
              exact ⟨(Function.update_of_ne hne ..).trans hu', c', hplace'⟩
            producer := fun u hu => absurd hu (by simp [setIoq])
            consumer := by
              intro u hu
              obtain ⟨hu', hplace'⟩ := h.consumer u hu
              have hne : u ≠ w := by
                rintro rfl
                rw [hplace] at hplace'
                cases hplace'
              exact ⟨(Function.update_of_ne hne ..).trans hu', hplace'⟩
            producer_full := fun _ hne => absurd rfl hne
            consumer_empty := fun hstrict hne => absurd (hconsumer hstrict) hne }

theorem IoqOk.ioqPutChar_ok (h : s.IoqOk strict) (hawake : s.blocked t = false)
    (ht : s.place t = .outside) (ch : UInt8) :
    ∃ s', Returns (ioqPutChar t ch) s () s' ∧ s'.IoqOk strict := by
  by_cases hfull : ringNext bufsize s.ioq.head = s.ioq.tail
  · -- no room
    have hneeds : Needs (.putChar ch) s.ioq := decide_eq_true hfull
    obtain ⟨s', hs', hok⟩ := h.waitForRoom_ok (c := .putChar ch) hawake (by simp [ht]) hneeds
    refine ⟨s', ?_, hok⟩
    simp [ioqPutChar, Ioqueue.ioqFull, hfull, hs']
  · obtain ⟨hhead, hcontent⟩ := h.ring.put hfull ch
    have hproducer (hstrict : strict) : s.ioq.producer = none := by
      by_contra hne
      exact hfull (of_decide_eq_true (h.producer_full hstrict hne))
    cases hconsumer : s.ioq.consumer with
    | none =>
      refine ⟨{ s.setIoq { s.ioq with
        buf := Function.update s.ioq.buf s.ioq.head ch
        head := ringNext bufsize s.ioq.head } with written := s.written ++ [ch] }, ?_, ?_⟩
      · simp [ioqPutChar, Ioqueue.ioqFull, hfull, hconsumer, setIoq]
      · exact
          { h with
            ring := ⟨hhead, h.ring.tail_lt, hcontent⟩
            producer_full := fun hstrict hne => absurd (hproducer hstrict) hne
            consumer_empty := fun _ hne => absurd hconsumer hne }
    | some w =>
      obtain ⟨hblocked, hplace⟩ := h.consumer w hconsumer
      refine ⟨{ (s.setBlocked w false).setIoq { s.ioq with
        consumer := none
        buf := Function.update s.ioq.buf s.ioq.head ch
        head := ringNext bufsize s.ioq.head } with written := s.written ++ [ch] }, ?_, ?_⟩
      · simp [ioqPutChar, wakeupConsumer, threadUnblock, Ioqueue.ioqFull, hfull, hconsumer,
          hblocked, setIoq, setBlocked]
      · exact
          { ring := ⟨hhead, h.ring.tail_lt, hcontent⟩
            lock := h.lock
            waiters_nodup := h.waiters_nodup
            waiters := by
              intro u hu
              obtain ⟨hu', c', hplace'⟩ := h.waiters u hu
              have hne : u ≠ w := by
                rintro rfl
                rw [hplace] at hplace'
                cases hplace'
              exact ⟨(Function.update_of_ne hne ..).trans hu', c', hplace'⟩
            producer := by
              intro u hu
              obtain ⟨hu', ch', hplace'⟩ := h.producer u hu
              have hne : u ≠ w := by
                rintro rfl
                rw [hplace] at hplace'
                cases hplace'
              exact ⟨(Function.update_of_ne hne ..).trans hu', ch', hplace'⟩
            consumer := fun u hu => absurd hu (by simp [setIoq])
            producer_full := fun hstrict hne => absurd (hproducer hstrict) hne
            consumer_empty := fun _ hne => absurd rfl hne }

theorem IoqOk.loop_ok (h : s.IoqOk strict) (hawake : s.blocked t = false)
    (ht : s.place t = .outside) : ∃ s', Returns (loop t c) s () s' ∧ s'.IoqOk strict := by
  cases c with
  | putChar ch => exact h.ioqPutChar_ok hawake ht ch
  | getChar => exact h.ioqGetChar_ok hawake ht

end Functions

end IoqSystem

end ZxyOs
