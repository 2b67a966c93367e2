/-
  ZxyOs.Kernel.LockInv

  The locks are sound at every statement.

  The phase of a thread with a lock fixes the fields of the lock while the thread has
  its semaphore (`LockPhase.fields`), and at most one thread has it (`LockMatches`).  The
  acts of the two functions keep to `lockDiscipline`, which follows the source; what
  an act does to the phase and to the lock is said once for all calls (`SyncOk.act`).
-/

import ZxyOs.Kernel.Locks

namespace ZxyOs

open Lib Lib.Prog

/-! ## Phases -/

/-- Where a thread is with a lock. -/
inductive LockPhase where
  | out
  /-- it has the semaphore and is not the holder yet -/
  | taken
  /-- it is the holder, and `n` is in `holder_repeat_nr` -/
  | owner (n : Nat)
  /-- it has given the holder up and still has the semaphore -/
  | cleared (n : Nat)
  deriving DecidableEq

namespace LockPhase

/-- `holder` and `holder_repeat_nr` where `t` has the semaphore. -/
def fields (t : Nat) : LockPhase → Option Nat × Nat
  | out => (none, 0)
  | taken => (none, 0)
  | owner n => (some t, n)
  | cleared n => (none, n)

/-- The phase between two calls of a thread that has acquired the lock `n` times. -/
def rest : Nat → LockPhase
  | 0 => out
  | n + 1 => owner (n + 1)

theorem rest_of_pos {n : Nat} (h : 0 < n) : rest n = owner n := by
  cases n with
  | zero => cases h
  | succ n => rfl

end LockPhase

/-- The acts of a call for the lock `l` of a thread that has acquired the lock `d`
    times, `lock_release` not counted, and the phases they lead to. -/
def lockDiscipline (c : LockCall) (d : Nat) : Discipline SyncAct LockPhase where
  allows ph a :=
    match c, ph, a with
    | .acquire _, .owner n, .assert p => p = true ∧ n = 0 ∧ d = 0
    | .release _, .owner n, .assert p => p = true ∧ n = d + 1
    | .acquire l, .out, .holderIsSelf k => k = l ∧ d = 0
    | .acquire l, .owner n, .holderIsSelf k => k = l ∧ 0 < n ∧ n = d
    | .release l, .owner n, .holderIsSelf k => k = l ∧ n = d + 1
    | .acquire l, .out, .semaDown k => k = l ∧ d = 0
    | .acquire l, .taken, .setHolder k => k = l ∧ d = 0
    | .acquire l, .owner n, .holderRepeatNr k => k = l ∧ n = d
    | .release l, .owner n, .holderRepeatNr k => k = l ∧ n = d + 1
    | .acquire l, .owner n, .setHolderRepeatNr k m => k = l ∧ n = d ∧ m = d + 1
    | .release l, .owner n, .setHolderRepeatNr k m => k = l ∧ n = d + 1 ∧ 0 < d ∧ m = d
    | .release l, .owner n, .clearHolder k => k = l ∧ n = 1 ∧ d = 0
    | .release l, .cleared n, .setHolderRepeatNr k m => k = l ∧ n = 1 ∧ m = 0 ∧ d = 0
    | .release l, .cleared n, .semaUp k => k = l ∧ n = 0 ∧ d = 0
    | _, _, _ => False
  next ph a n ph' :=
    match ph, a with
    | .out, .holderIsSelf _ => n = 0 ∧ ph' = .out
    | .owner m, .holderIsSelf _ => n ≠ 0 ∧ ph' = .owner m
    | _, .semaDown _ => ph' = .taken
    | _, .setHolder _ => ph' = .owner 0
    | .owner m, .holderRepeatNr _ => n = m ∧ ph' = .owner m
    | .owner _, .setHolderRepeatNr _ m => ph' = .owner m
    | .cleared _, .setHolderRepeatNr _ m => ph' = .cleared m
    | .owner m, .clearHolder _ => ph' = .cleared m
    | _, .semaUp _ => ph' = .out
    | _, _ => ph' = ph

section Allows

variable {c : LockCall} {d l n : Nat} {ph : LockPhase} {a : SyncAct} {p : Bool}

theorem allows_assert (h : (lockDiscipline c d).allows ph (.assert p)) : p = true := by
  cases c <;> cases ph <;> first | exact h.1 | exact h.elim

theorem allows_holderIsSelf (h : (lockDiscipline c d).allows ph (.holderIsSelf l)) :
    l = c.plock ∧ (ph = .out ∨ ∃ n, ph = .owner n) := by
  cases c <;> cases ph <;>
    first | exact ⟨h.1, Or.inl rfl⟩ | exact ⟨h.1, Or.inr ⟨_, rfl⟩⟩ | exact h.elim

theorem allows_semaDown (h : (lockDiscipline c d).allows ph (.semaDown l)) :
    l = c.plock ∧ ph = .out := by
  cases c <;> cases ph <;> first | exact ⟨h.1, rfl⟩ | exact h.elim

theorem allows_setHolder (h : (lockDiscipline c d).allows ph (.setHolder l)) :
    l = c.plock ∧ ph = .taken := by
  cases c <;> cases ph <;> first | exact ⟨h.1, rfl⟩ | exact h.elim

theorem allows_clearHolder (h : (lockDiscipline c d).allows ph (.clearHolder l)) :
    l = c.plock ∧ ∃ n, ph = .owner n := by
  cases c <;> cases ph <;> first | exact ⟨h.1, _, rfl⟩ | exact h.elim

theorem allows_holderRepeatNr (h : (lockDiscipline c d).allows ph (.holderRepeatNr l)) :
    l = c.plock ∧ ∃ n, ph = .owner n := by
  cases c <;> cases ph <;> first | exact ⟨h.1, _, rfl⟩ | exact h.elim

theorem allows_setHolderRepeatNr (h : (lockDiscipline c d).allows ph (.setHolderRepeatNr l n)) :
    l = c.plock ∧ ((∃ m, ph = .owner m) ∨ ∃ m, ph = .cleared m) := by
  cases c <;> cases ph <;>
    first | exact ⟨h.1, Or.inl ⟨_, rfl⟩⟩ | exact ⟨h.1, Or.inr ⟨_, rfl⟩⟩ | exact h.elim

theorem allows_semaUp (h : (lockDiscipline c d).allows ph (.semaUp l)) :
    l = c.plock ∧ ph = .cleared 0 := by
  cases c <;> cases ph <;>
    first | exact ⟨h.1, congrArg LockPhase.cleared h.2.1⟩ | exact h.elim

/-- A nested `lock_acquire` leaves the thread the holder. -/
theorem allows_acquire_nested (h : (lockDiscipline (.acquire l) d).allows ph a) (hd : 0 < d) :
    ph = .owner d := by
  have hd' : d ≠ 0 := Nat.ne_of_gt hd
  cases ph <;> cases a <;>
    first
    | exact h.elim
    | exact absurd h.2 hd'
    | exact absurd h.2.2 hd'
    | exact congrArg LockPhase.owner h.2
    | exact congrArg LockPhase.owner h.2.1
    | exact congrArg LockPhase.owner h.2.2

/-- A nested `lock_release` leaves the thread the holder. -/
theorem allows_release_nested (h : (lockDiscipline (.release l) d).allows ph a) (hd : 0 < d) :
    ph = .owner (d + 1) := by
  have hd' : d ≠ 0 := Nat.ne_of_gt hd
  cases ph <;> cases a <;>
    first
    | exact h.elim
    | exact absurd h.2.2 hd'
    | exact absurd h.2.2.2 hd'
    | exact congrArg LockPhase.owner h.2
    | exact congrArg LockPhase.owner h.2.1

end Allows

namespace SyncCode

variable {l d n : Nat} {c : LockCall} {ph : LockPhase} {Q : LockPhase → Unit → Prop}

theorem follows_assert {p : Prop} [Decidable p] {f : Unit → SyncCode} {D : Discipline SyncAct LockPhase} :
    Follows D (assert p >>= f) ph Q ↔ D.allows ph (.assert (decide p)) ∧
      ∀ n ph', D.next ph (.assert (decide p)) n ph' → Follows D (f ()) ph' Q := by
  have hflat : (assert p >>= f) = (perform (.assert (decide p)) >>= fun _ => f ()) := rfl
  rw [hflat, follows_act]

theorem lockAcquire_follows (hd : d + 1 < 2 ^ 32) :
    Follows (lockDiscipline (.acquire l) d) (lockAcquire l) (.rest d)
      fun ph _ => ph = .rest (d + 1) := by
  rw [lockAcquire, follows_act]
  cases d with
  | zero =>
    -- the semaphore, the holder, the count
    refine ⟨⟨rfl, rfl⟩, ?_⟩
    rintro n ph ⟨rfl, rfl⟩
    rw [if_pos rfl, follows_act]
    refine ⟨⟨rfl, rfl⟩, ?_⟩
    rintro n ph rfl
    rw [follows_act]
    refine ⟨⟨rfl, rfl⟩, ?_⟩
    rintro n ph rfl
    rw [follows_act]
    refine ⟨⟨rfl, rfl⟩, ?_⟩
    rintro n ph ⟨rfl, rfl⟩
    rw [follows_assert]
    refine ⟨⟨rfl, rfl, rfl⟩, ?_⟩
    rintro n ph rfl
    rw [follows_act]
    refine ⟨⟨rfl, rfl, rfl⟩, ?_⟩
    rintro n ph rfl
    rfl
  | succ d =>
    -- the thread is the holder
    refine ⟨⟨rfl, Nat.succ_pos d, rfl⟩, ?_⟩
    rintro n ph ⟨hn, rfl⟩
    rw [if_neg hn, follows_act]
    refine ⟨⟨rfl, rfl⟩, ?_⟩
    rintro n ph ⟨rfl, rfl⟩
    rw [follows_act, Nat.mod_eq_of_lt hd]
    refine ⟨⟨rfl, rfl, rfl⟩, ?_⟩
    rintro n ph rfl
    rfl

theorem lockRelease_follows :
    Follows (lockDiscipline (.release l) d) (lockRelease l) (.rest (d + 1))
      fun ph _ => ph = .rest d := by
  rw [lockRelease, follows_act]
  refine ⟨⟨rfl, rfl⟩, ?_⟩
  rintro n ph ⟨hn, rfl⟩
  rw [follows_assert]
  refine ⟨⟨decide_eq_true hn, rfl⟩, ?_⟩
  rintro n ph rfl
  rw [follows_act]
  refine ⟨⟨rfl, rfl⟩, ?_⟩
  rintro n ph ⟨rfl, rfl⟩
  split
  · next hnested =>
    have hpos : 0 < d := by omega
    rw [follows_act]
    refine ⟨⟨rfl, rfl⟩, ?_⟩
    rintro n ph ⟨rfl, rfl⟩
    rw [follows_act]
    refine ⟨⟨rfl, rfl, hpos, rfl⟩, ?_⟩
    rintro n ph rfl
    exact (LockPhase.rest_of_pos hpos).symm
  · next houter =>
    obtain rfl : d = 0 := by omega
    rw [follows_act]
    refine ⟨⟨rfl, rfl⟩, ?_⟩
    rintro n ph ⟨rfl, rfl⟩
    rw [follows_assert]
    refine ⟨⟨rfl, rfl⟩, ?_⟩
    rintro n ph rfl
    rw [follows_act]
    refine ⟨⟨rfl, rfl, rfl⟩, ?_⟩
    rintro n ph rfl
    rw [follows_act]
    refine ⟨⟨rfl, rfl, rfl, rfl⟩, ?_⟩
    rintro n ph rfl
    rw [follows_act]
    refine ⟨⟨rfl, rfl, rfl⟩, ?_⟩
    rintro n ph rfl
    rfl

end SyncCode

/-! ## The locks -/

/-- The phases of all threads with all locks. -/
abbrev LockPhases : Type := Nat → Nat → LockPhase

def LockPhases.set (γ : LockPhases) (t l : Nat) (ph : LockPhase) : LockPhases :=
  Function.update γ t (Function.update (γ t) l ph)

section Phases

variable {γ : LockPhases} {t u l k : Nat} {ph : LockPhase}

@[simp] theorem LockPhases.set_same : γ.set t l ph t l = ph := by
  simp [LockPhases.set]

theorem LockPhases.set_lock_ne (h : k ≠ l) : γ.set t l ph u k = γ u k := by
  by_cases hu : u = t
  · simp [LockPhases.set, hu, h]
  · simp [LockPhases.set, hu]

theorem LockPhases.set_thread_ne (h : u ≠ t) : γ.set t l ph u k = γ u k := by
  simp [LockPhases.set, h]

theorem LockPhases.set_self : γ.set t l (γ t l) = γ := by
  simp [LockPhases.set]

end Phases

/-- The lock is free, or one thread has its semaphore. -/
def LockMatches (s : SyncState) (γ : LockPhases) (l : Nat) : Prop :=
  (s.semaphore l).value = 1 ∧ (s.holder l, s.holderRepeatNr l) = (none, 0) ∧
      (∀ t, γ t l = .out) ∨
    ∃ t, (s.semaphore l).value = 0 ∧ γ t l ≠ .out ∧
      (s.holder l, s.holderRepeatNr l) = (γ t l).fields t ∧ ∀ u ≠ t, γ u l = .out

/-- The thread is about to test the value of the semaphore of `l`. -/
def AtSemaDown (l : Nat) : SyncCode → Prop
  | .act (.semaDown k) _ => k = l
  | _ => False

structure SyncOk (s : SyncState) (γ : LockPhases) (code : Nat → SyncCode) : Prop where
  lock : ∀ l, LockMatches s γ l
  waiters_nodup : ∀ l, (s.semaphore l).waiters.Nodup
  waiters : ∀ l t, t ∈ (s.semaphore l).waiters → s.blocked t = true ∧ AtSemaDown l (code t)
  wakeup : ∀ l, (s.semaphore l).value = 1 → (s.semaphore l).waiters = [] ∨
    ∃ t, s.woken t = true ∧ s.blocked t = false ∧ AtSemaDown l (code t)

section SyncOk

variable {s : SyncState} {γ : LockPhases} {code : Nat → SyncCode} {t l : Nat} {c : SyncCode}
  {ph : LockPhase}

theorem LockMatches.of_phase (h : LockMatches s γ l) (ht : γ t l ≠ .out) :
    (s.semaphore l).value = 0 ∧ (s.holder l, s.holderRepeatNr l) = (γ t l).fields t ∧
      ∀ u ≠ t, γ u l = .out := by
  rcases h with ⟨-, -, hout⟩ | ⟨u, hvalue, -, hfields, hother⟩
  · exact absurd (hout t) ht
  · have htu : t = u := by
      by_contra hne
      exact ht (hother t hne)
    subst htu
    exact ⟨hvalue, hfields, hother⟩

theorem LockMatches.value (h : LockMatches s γ l) : (s.semaphore l).value = 0 ∨ (s.semaphore l).value = 1 := by
  rcases h with ⟨hvalue, -⟩ | ⟨_, hvalue, -⟩
  · exact Or.inr hvalue
  · exact Or.inl hvalue

/-- A thread out of the lock is not the holder. -/
theorem LockMatches.holder_ne (h : LockMatches s γ l) (ht : γ t l = .out) : s.holder l ≠ some t := by
  rcases h with ⟨-, hfields, -⟩ | ⟨u, -, hu, hfields, -⟩
  · rw [(Prod.mk.inj hfields).1]
    simp
  · have hne : u ≠ t := fun heq => hu (heq ▸ ht)
    rw [show s.holder l = _ from congrArg Prod.fst hfields]
    cases hph : γ u l <;> simp [LockPhase.fields, hne]

/-- A thread that is not about to test a semaphore goes on. -/
theorem SyncOk.setCode (h : SyncOk s γ code) (ht : ∀ k, ¬ AtSemaDown k (code t)) :
    SyncOk s γ (Function.update code t c) where
  lock := h.lock
  waiters_nodup := h.waiters_nodup
  waiters := by
    intro k u hu
    obtain ⟨hblocked, hat⟩ := h.waiters k u hu
    have hne : u ≠ t := fun heq => ht k (heq ▸ hat)
    rw [Function.update_of_ne hne]
    exact ⟨hblocked, hat⟩
  wakeup := by
    intro k hvalue
    rcases h.wakeup k hvalue with hnil | ⟨u, hwoken, hblocked, hat⟩
    · exact Or.inl hnil
    · have hne : u ≠ t := fun heq => ht k (heq ▸ hat)
      refine Or.inr ⟨u, hwoken, hblocked, ?_⟩
      rw [Function.update_of_ne hne]
      exact hat

/-- The thread that has the semaphore writes a field of the lock. -/
theorem SyncOk.setFields (h : SyncOk s γ code) (ht : γ t l ≠ .out) (hph : ph ≠ .out)
    {holder : Nat → Option Nat} {repeatNr : Nat → Nat}
    (hother : ∀ k ≠ l, holder k = s.holder k ∧ repeatNr k = s.holderRepeatNr k)
    (hfields : (holder l, repeatNr l) = ph.fields t) :
    SyncOk { s with holder := holder, holderRepeatNr := repeatNr } (γ.set t l ph) code where
  lock := by
    intro k
    by_cases hk : k = l
    · subst hk
      obtain ⟨hvalue, -, hout⟩ := (h.lock k).of_phase ht
      refine Or.inr ⟨t, hvalue, by rwa [LockPhases.set_same], ?_, fun u hu => ?_⟩
      · rw [LockPhases.set_same]
        exact hfields
      · rw [LockPhases.set_thread_ne hu]
        exact hout u hu
    · have hsame (u : Nat) : γ.set t l ph u k = γ u k := LockPhases.set_lock_ne hk
      have hok := h.lock k
      simpa [LockMatches, hsame, hother k hk] using hok
  waiters_nodup := h.waiters_nodup
  waiters := h.waiters
  wakeup := h.wakeup

theorem AtSemaDown.unique {k : Nat} (h : AtSemaDown l c) (h' : AtSemaDown k c) : k = l := by
  cases c with
  | ret a => exact absurd h id
  | act a f =>
    cases a <;> first | exact absurd h id | exact h'.symm.trans h

/-- `sema_down` of a semaphore that is up. -/
theorem SyncOk.semaDown_taken (h : SyncOk s γ code) (hvalue : (s.semaphore l).value = 1)
    (hblocked : s.blocked t = false) (hat : AtSemaDown l (code t)) :
    SyncOk ((s.setSemaphore l { s.semaphore l with value := 0 }).setWoken t false)
      (γ.set t l .taken) (Function.update code t c) where
  lock := by
    intro k
    by_cases hk : k = l
    · subst hk
      rcases h.lock k with ⟨-, hfields, hout⟩ | ⟨u, hdown, -⟩
      · refine Or.inr ⟨t, by simp [SyncState.setSemaphore, SyncState.setWoken], ?_, ?_, ?_⟩
        · simp
        · rw [LockPhases.set_same]
          exact hfields
        · intro u hu
          rw [LockPhases.set_thread_ne hu]
          exact hout u
      · omega
    · have hsame (u : Nat) : γ.set t l .taken u k = γ u k := LockPhases.set_lock_ne hk
      have hok := h.lock k
      simpa [LockMatches, hsame, SyncState.setSemaphore, SyncState.setWoken, hk] using hok
  waiters_nodup := by
    intro k
    by_cases hk : k = l
    · subst hk
      simpa [SyncState.setSemaphore, SyncState.setWoken] using h.waiters_nodup k
    · simpa [SyncState.setSemaphore, SyncState.setWoken, hk] using h.waiters_nodup k
  waiters := by
    intro k u hu
    have hmem : u ∈ (s.semaphore k).waiters := by
      by_cases hk : k = l
      · subst hk
        simpa [SyncState.setSemaphore, SyncState.setWoken] using hu
      · simpa [SyncState.setSemaphore, SyncState.setWoken, hk] using hu
    obtain ⟨hu', hatu⟩ := h.waiters k u hmem
    have hne : u ≠ t := by
      rintro rfl
      rw [hblocked] at hu'
      cases hu'
    rw [Function.update_of_ne hne]
    exact ⟨hu', hatu⟩
  wakeup := by
    intro k hup
    have hk : k ≠ l := by
      rintro rfl
      simp [SyncState.setSemaphore, SyncState.setWoken] at hup
    have hsema : (((s.setSemaphore l { s.semaphore l with value := 0 }).setWoken t
        false).semaphore k) = s.semaphore k := by
      simp [SyncState.setSemaphore, SyncState.setWoken, hk]
    rw [hsema] at hup ⊢
    rcases h.wakeup k hup with hnil | ⟨u, hwoken, hu, hatu⟩
    · exact Or.inl hnil
    · have hne : u ≠ t := by
        rintro rfl
        exact hk (hat.unique hatu)
      refine Or.inr ⟨u, ?_, hu, ?_⟩
      · simpa [SyncState.setSemaphore, SyncState.setWoken, hne] using hwoken
      · rw [Function.update_of_ne hne]
        exact hatu

/-- `sema_down` of a semaphore that is down: the thread queues itself and sleeps. -/
theorem SyncOk.semaDown_asleep (h : SyncOk s γ code) (hvalue : (s.semaphore l).value = 0)
    (hblocked : s.blocked t = false) (hat : AtSemaDown l (code t)) :
    SyncOk (((s.setSemaphore l { s.semaphore l with waiters := (s.semaphore l).waiters ++
      [t] }).setBlocked t true).setWoken t false) γ code where
  lock := by
    intro k
    have hok := h.lock k
    by_cases hk : k = l
    · subst hk
      simpa [LockMatches, SyncState.setSemaphore, SyncState.setWoken, SyncState.setBlocked] using hok
    · simpa [LockMatches, SyncState.setSemaphore, SyncState.setWoken, SyncState.setBlocked, hk] using hok
  waiters_nodup := by
    intro k
    by_cases hk : k = l
    · subst hk
      have hnodup : ((s.semaphore k).waiters ++ [t]).Nodup := by
        rw [List.nodup_append]
        refine ⟨h.waiters_nodup k, List.nodup_singleton t, fun u hu v hv heq => ?_⟩
        obtain rfl := List.mem_singleton.mp hv
        have hu' := (h.waiters k u hu).1
        rw [heq, hblocked] at hu'
        cases hu'
      simpa [SyncState.setSemaphore, SyncState.setWoken, SyncState.setBlocked] using hnodup
    · simpa [SyncState.setSemaphore, SyncState.setWoken, SyncState.setBlocked, hk] using
        h.waiters_nodup k
  waiters := by
    intro k u hu
    show Function.update s.blocked t true u = true ∧ _
    by_cases hne : u = t
    · subst hne
      have hkl : k = l := by
        by_contra hk
        have hmem : u ∈ (s.semaphore k).waiters := by
          simpa [SyncState.setSemaphore, SyncState.setWoken, SyncState.setBlocked, hk] using hu
        have hu' := (h.waiters k u hmem).1
        rw [hblocked] at hu'
        cases hu'
      exact ⟨Function.update_self .., hkl ▸ hat⟩
    · have hmem : u ∈ (s.semaphore k).waiters := by
        by_cases hk : k = l
        · subst hk
          simpa [SyncState.setSemaphore, SyncState.setWoken, SyncState.setBlocked, hne] using hu
        · simpa [SyncState.setSemaphore, SyncState.setWoken, SyncState.setBlocked, hk] using hu
      rw [Function.update_of_ne hne]
      exact h.waiters k u hmem
  wakeup := by
    intro k hup
    have hk : k ≠ l := by
      rintro rfl
      simp [SyncState.setSemaphore, SyncState.setWoken, SyncState.setBlocked, hvalue] at hup
    have hup' : (s.semaphore k).value = 1 := by
      simpa [SyncState.setSemaphore, SyncState.setWoken, SyncState.setBlocked, hk] using hup
    rcases h.wakeup k hup' with hnil | ⟨u, hwoken, hu, hatu⟩
    · left
      simpa [SyncState.setSemaphore, SyncState.setWoken, SyncState.setBlocked, hk] using hnil
    · have hne : u ≠ t := by
        rintro rfl
        exact hk (hat.unique hatu)
      refine Or.inr ⟨u, ?_, ?_, hatu⟩
      · simpa [SyncState.setSemaphore, SyncState.setWoken, SyncState.setBlocked, hne] using hwoken
      · simpa [SyncState.setSemaphore, SyncState.setWoken, SyncState.setBlocked, hne] using hu

/-- The value goes up again. -/
theorem SyncOk.lock_up (h : SyncOk s γ code) (ht : γ t l = .cleared 0) {s' : SyncState}
    (hholder : s'.holder = s.holder) (hrepeat : s'.holderRepeatNr = s.holderRepeatNr)
    (hvalue : (s'.semaphore l).value = 1) (hother : ∀ k ≠ l, s'.semaphore k = s.semaphore k) (k : Nat) :
    LockMatches s' (γ.set t l .out) k := by
  by_cases hk : k = l
  · subst hk
    obtain ⟨-, hfields, hout⟩ := (h.lock k).of_phase (t := t) (by rw [ht]; simp)
    refine Or.inl ⟨hvalue, ?_, fun u => ?_⟩
    · rw [hholder, hrepeat, hfields, ht]
      rfl
    · by_cases hu : u = t
      · rw [hu, LockPhases.set_same]
      · rw [LockPhases.set_thread_ne hu]
        exact hout u hu
  · have hsame (u : Nat) : γ.set t l .out u k = γ u k := LockPhases.set_lock_ne hk
    have hok := h.lock k
    simpa [LockMatches, hsame, hholder, hrepeat, hother k hk] using hok

/-- `sema_up` where nobody waits. -/
theorem SyncOk.semaUp_idle (h : SyncOk s γ code) (ht : γ t l = .cleared 0)
    (hnil : (s.semaphore l).waiters = []) (hat : ∀ k, ¬ AtSemaDown k (code t)) :
    SyncOk (s.setSemaphore l { s.semaphore l with value := 1 }) (γ.set t l .out)
      (Function.update code t c) := by
  have hcode := h.setCode (c := c) hat
  exact
    { lock := h.lock_up ht rfl rfl (by simp [SyncState.setSemaphore]) fun k hk => by
        simp [SyncState.setSemaphore, hk]
      waiters_nodup := by
        intro k
        by_cases hk : k = l
        · subst hk
          simp [SyncState.setSemaphore, hnil]
        · simpa [SyncState.setSemaphore, hk] using h.waiters_nodup k
      waiters := by
        intro k u hu
        have hmem : u ∈ (s.semaphore k).waiters := by
          by_cases hk : k = l
          · subst hk
            simpa [SyncState.setSemaphore] using hu
          · simpa [SyncState.setSemaphore, hk] using hu
        exact hcode.waiters k u hmem
      wakeup := by
        intro k hup
        by_cases hk : k = l
        · subst hk
          left
          simp [SyncState.setSemaphore, hnil]
        · have hsema : (s.setSemaphore l { s.semaphore l with value := 1 }).semaphore k =
              s.semaphore k := by
            simp [SyncState.setSemaphore, hk]
          rw [hsema] at hup ⊢
          exact hcode.wakeup k hup }

/-- `sema_up` wakes the first waiter. -/
theorem SyncOk.semaUp_wakes (h : SyncOk s γ code) (ht : γ t l = .cleared 0) {w : Nat} {ws : List Nat}
    (hlist : (s.semaphore l).waiters = w :: ws) (hat : ∀ k, ¬ AtSemaDown k (code t)) :
    SyncOk (((s.setSemaphore l ⟨1, ws⟩).setBlocked w false).setWoken w true) (γ.set t l .out)
      (Function.update code t c) := by
  have hcode := h.setCode (c := c) hat
  have hnodup : (w :: ws).Nodup := hlist ▸ h.waiters_nodup l
  have hw : w ∈ (s.semaphore l).waiters := hlist ▸ List.mem_cons_self
  have hatw := (hcode.waiters l w hw).2
  exact
    { lock := h.lock_up ht rfl rfl
        (by simp [SyncState.setSemaphore, SyncState.setWoken, SyncState.setBlocked]) fun k hk => by
          simp [SyncState.setSemaphore, SyncState.setWoken, SyncState.setBlocked, hk]
      waiters_nodup := by
        intro k
        by_cases hk : k = l
        · subst hk
          simpa [SyncState.setSemaphore, SyncState.setWoken, SyncState.setBlocked] using
            hnodup.of_cons
        · simpa [SyncState.setSemaphore, SyncState.setWoken, SyncState.setBlocked, hk] using
            h.waiters_nodup k
      waiters := by
        intro k u hu
        have hmem : u ∈ (s.semaphore k).waiters ∧ u ≠ w := by
          by_cases hk : k = l
          · subst hk
            have hu' : u ∈ ws := by
              simpa [SyncState.setSemaphore, SyncState.setWoken, SyncState.setBlocked] using hu
            refine ⟨hlist ▸ List.mem_cons_of_mem w hu', ?_⟩
            rintro rfl
            exact (List.nodup_cons.mp hnodup).1 hu'
          · have hu' : u ∈ (s.semaphore k).waiters := by
              simpa [SyncState.setSemaphore, SyncState.setWoken, SyncState.setBlocked, hk] using hu
            refine ⟨hu', ?_⟩
            rintro rfl
            exact hk (hatw.unique (hcode.waiters k u hu').2)
        show Function.update s.blocked w false u = true ∧ _
        rw [Function.update_of_ne hmem.2]
        exact hcode.waiters k u hmem.1
      wakeup := by
        intro k hup
        by_cases hk : k = l
        · -- the thread that has just been woken will test the value
          subst hk
          refine Or.inr ⟨w, Function.update_self .., Function.update_self .., hatw⟩
        · have hup' : (s.semaphore k).value = 1 := by
            simpa [SyncState.setSemaphore, SyncState.setWoken, SyncState.setBlocked, hk] using hup
          rcases hcode.wakeup k hup' with hnil | ⟨u, hwoken, hu, hatu⟩
          · left
            simpa [SyncState.setSemaphore, SyncState.setWoken, SyncState.setBlocked, hk] using hnil
          · have hne : u ≠ w := by
              rintro rfl
              exact hk (hatw.unique hatu)
            refine Or.inr ⟨u, ?_, ?_, hatu⟩
            · simpa [SyncState.setSemaphore, SyncState.setWoken, SyncState.setBlocked, hne] using
                hwoken
            · simpa [SyncState.setSemaphore, SyncState.setWoken, SyncState.setBlocked, hne] using hu }

/-- What an allowed act of a thread does: it is answered and leads to a phase of the
    discipline, or the thread sleeps in `sema_down`. -/
theorem SyncOk.act (h : SyncOk s γ code) {call : LockCall} {d : Nat} {a : SyncAct}
    {k : Nat → SyncCode} (hcode : code t = .act a k) (hblocked : s.blocked t = false)
    (hallows : (lockDiscipline call d).allows (γ t call.plock) a) :
    (∃ n s' ph', a.exec t s = some (some n, s') ∧
        (lockDiscipline call d).next (γ t call.plock) a n ph' ∧
        ∀ c, SyncOk s' (γ.set t call.plock ph') (Function.update code t c)) ∨
      ∃ s', a.exec t s = some (none, s') ∧ SyncOk s' γ code := by
  have hlock := h.lock call.plock
  -- an act that reads leaves the lock and the phase alone
  have hsame (hat : ∀ l, ¬ AtSemaDown l (code t)) (c : SyncCode) :
      SyncOk s (γ.set t call.plock (γ t call.plock)) (Function.update code t c) := by
    rw [LockPhases.set_self]
    exact h.setCode hat
  cases a with
  | assert p =>
    have hp : p = true := allows_assert hallows
    refine Or.inl ⟨0, s, γ t call.plock, by simp [SyncAct.exec, hp], ?_, hsame ?_⟩
    · cases hph : γ t call.plock <;> rfl
    · intro l
      rw [hcode]
      exact id
  | holderIsSelf l =>
    have hat : ∀ k, ¬ AtSemaDown k (code t) := fun k => by rw [hcode]; exact id
    obtain ⟨rfl, hph | ⟨n, hph⟩⟩ := allows_holderIsSelf hallows
    · refine Or.inl ⟨0, s, _, by simp [SyncAct.exec, hlock.holder_ne hph], ?_, hsame hat⟩
      rw [hph]
      exact ⟨rfl, rfl⟩
    · have hfields := (hlock.of_phase (t := t) (by rw [hph]; simp)).2.1
      rw [hph] at hfields
      have hholder : s.holder call.plock = some t := congrArg Prod.fst hfields
      refine Or.inl ⟨1, s, _, by simp [SyncAct.exec, hholder], ?_, hsame hat⟩
      rw [hph]
      exact ⟨Nat.one_ne_zero, rfl⟩
  | semaDown l =>
    obtain ⟨rfl, hph⟩ := allows_semaDown hallows
    have hat : AtSemaDown call.plock (code t) := by
      rw [hcode]
      rfl
    rcases hlock.value with hvalue | hvalue
    · -- the thread is not in the queue, because it does not sleep
      have hmem : t ∉ (s.semaphore call.plock).waiters := by
        intro hmem
        have hsleeps := (h.waiters _ _ hmem).1
        rw [hblocked] at hsleeps
        cases hsleeps
      refine Or.inr ⟨_, ?_, h.semaDown_asleep hvalue hblocked hat⟩
      simp [SyncAct.exec, hvalue, hmem]
    · refine Or.inl ⟨0, _, .taken, ?_, ?_, fun c => h.semaDown_taken hvalue hblocked hat⟩
      · simp [SyncAct.exec, hvalue]
      · rw [hph]
        rfl
  | setHolder l =>
    have hat : ∀ k, ¬ AtSemaDown k (code t) := fun k => by rw [hcode]; exact id
    obtain ⟨rfl, hph⟩ := allows_setHolder hallows
    have hfields := (hlock.of_phase (t := t) (by rw [hph]; simp)).2.1
    rw [hph] at hfields
    refine Or.inl ⟨0, _, .owner 0, rfl, ?_, fun c => (h.setCode hat).setFields ?_ ?_ ?_ ?_⟩
    · rw [hph]
      rfl
    · rw [hph]
      simp
    · simp
    · intro k hk
      exact ⟨Function.update_of_ne hk .., rfl⟩
    · rw [Function.update_self, show s.holderRepeatNr call.plock = 0 from congrArg Prod.snd hfields]
      rfl
  | clearHolder l =>
    have hat : ∀ k, ¬ AtSemaDown k (code t) := fun k => by rw [hcode]; exact id
    obtain ⟨rfl, n, hph⟩ := allows_clearHolder hallows
    have hfields := (hlock.of_phase (t := t) (by rw [hph]; simp)).2.1
    rw [hph] at hfields
    refine Or.inl ⟨0, _, .cleared n, rfl, ?_, fun c => (h.setCode hat).setFields ?_ ?_ ?_ ?_⟩
    · rw [hph]
      rfl
    · rw [hph]
      simp
    · simp
    · intro k hk
      exact ⟨Function.update_of_ne hk .., rfl⟩
    · rw [Function.update_self, show s.holderRepeatNr call.plock = n from congrArg Prod.snd hfields]
      rfl
  | holderRepeatNr l =>
    have hat : ∀ k, ¬ AtSemaDown k (code t) := fun k => by rw [hcode]; exact id
    obtain ⟨rfl, n, hph⟩ := allows_holderRepeatNr hallows
    have hfields := (hlock.of_phase (t := t) (by rw [hph]; simp)).2.1
    rw [hph] at hfields
    have hrepeat : s.holderRepeatNr call.plock = n := congrArg Prod.snd hfields
    refine Or.inl ⟨n, s, _, by simp [SyncAct.exec, hrepeat], ?_, hsame hat⟩
    rw [hph]
    exact ⟨rfl, rfl⟩
  | setHolderRepeatNr l n =>
    have hat : ∀ k, ¬ AtSemaDown k (code t) := fun k => by rw [hcode]; exact id
    obtain ⟨rfl, ⟨m, hph⟩ | ⟨m, hph⟩⟩ := allows_setHolderRepeatNr hallows
    · have hfields := (hlock.of_phase (t := t) (by rw [hph]; simp)).2.1
      rw [hph] at hfields
      refine Or.inl ⟨0, _, .owner n, rfl, ?_, fun c => (h.setCode hat).setFields ?_ ?_ ?_ ?_⟩
      · rw [hph]
        rfl
      · rw [hph]
        simp
      · simp
      · intro k hk
        exact ⟨rfl, Function.update_of_ne hk ..⟩
      · rw [Function.update_self, show s.holder call.plock = some t from congrArg Prod.fst hfields]
        rfl
    · have hfields := (hlock.of_phase (t := t) (by rw [hph]; simp)).2.1
      rw [hph] at hfields
      refine Or.inl ⟨0, _, .cleared n, rfl, ?_, fun c => (h.setCode hat).setFields ?_ ?_ ?_ ?_⟩
      · rw [hph]
        rfl
      · rw [hph]
        simp
      · simp
      · intro k hk
        exact ⟨rfl, Function.update_of_ne hk ..⟩
      · rw [Function.update_self, show s.holder call.plock = none from congrArg Prod.fst hfields]
        rfl
  | semaUp l =>
    have hat : ∀ k, ¬ AtSemaDown k (code t) := fun k => by rw [hcode]; exact id
    obtain ⟨rfl, hph⟩ := allows_semaUp hallows
    have hvalue := (hlock.of_phase (t := t) (by rw [hph]; simp)).1
    left
    cases hlist : (s.semaphore call.plock).waiters with
    | nil =>
      refine ⟨0, _, .out, ?_, ?_, fun c => h.semaUp_idle hph hlist hat⟩
      · simp [SyncAct.exec, hvalue, hlist]
      · rw [hph]
        rfl
    | cons w ws =>
      have hw := (h.waiters _ w (hlist ▸ List.mem_cons_self)).1
      refine ⟨0, _, .out, ?_, ?_, fun c => h.semaUp_wakes hph hlist hat⟩
      · simp [SyncAct.exec, hvalue, hlist, hw]
      · rw [hph]
        rfl

end SyncOk

end ZxyOs
