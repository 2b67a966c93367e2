/-
  ZxyOs.Kernel.LockRuns

  Runs of threads that acquire and release locks.

  `LockSystem.Ok` joins the locks (`SyncOk`) with the calls: a thread in a call keeps
  to the discipline of the call, a thread in no call has each lock as often as it has
  acquired it.  Every step keeps it as long as the counter does not overflow, so the
  locks are sound in every run (`locks_sound`).  A thread that acquires a lock
  `2 ^ 32` times leaves 0 in the counter (`repeat_nr_wraps`).
-/

import ZxyOs.Kernel.LockInv

namespace ZxyOs

open Lib Lib.Prog

namespace LockCall

/-- How often the thread has the lock after the call. -/
def target (d : Nat) : LockCall → Nat
  | acquire _ => d + 1
  | release _ => d

end LockCall

namespace LockSystem

structure Ok (s : LockSystem) (γ : LockPhases) : Prop where
  sync : SyncOk s.shared γ s.code
  idle : ∀ t, s.call t = none → s.code t = .ret () ∧ ∀ l, γ t l = .rest (s.depth t l)
  busy : ∀ t c, s.call t = some c → (∀ l ≠ c.plock, γ t l = .rest (s.depth t l)) ∧
    (∃ a k, s.code t = .act a k) ∧
    Follows (lockDiscipline c (s.depth t c.plock)) (s.code t) (γ t c.plock)
      fun ph _ => ph = .rest (c.target (s.depth t c.plock))

/-- What the two functions promise at every statement. -/
structure LocksSound (s : LockSystem) : Prop where
  exclusive : ∀ l t u, 0 < s.depth t l → 0 < s.depth u l → t = u
  holder : ∀ l t, 0 < s.depth t l → s.shared.holder l = some t
  /-- a thread in a nested `lock_release` may be about to count down -/
  repeatNr : ∀ l t, 0 < s.depth t l → s.shared.holderRepeatNr l = s.depth t l ∨
    s.call t = some (.release l) ∧ s.shared.holderRepeatNr l = s.depth t l + 1
  value : ∀ l, (s.shared.semaphore l).value = 0 ∨ (s.shared.semaphore l).value = 1
  asserts : ∀ t a k, s.code t = .act a k → s.shared.blocked t = false →
    (a.exec t s.shared).isSome
  wakeup : ∀ l, (s.shared.semaphore l).value = 1 → (s.shared.semaphore l).waiters ≠ [] →
    ∃ t, s.shared.woken t = true ∧ s.shared.blocked t = false ∧ AtSemaDown l (s.code t)

section Runs

variable {s s' : LockSystem} {γ : LockPhases} {t l : Nat}

theorem Initial.ok (h : s.Initial) : s.Ok fun _ _ => .out where
  sync :=
    { lock := by
        intro l
        refine Or.inl ⟨by rw [h.semaphore l], ?_, fun t => rfl⟩
        rw [h.holder l, h.holderRepeatNr l]
      waiters_nodup := by
        intro l
        rw [h.semaphore l]
        exact List.nodup_nil
      waiters := by
        intro l t ht
        rw [h.semaphore l] at ht
        cases ht
      wakeup := by
        intro l _
        left
        rw [h.semaphore l] }
  idle := by
    intro t _
    refine ⟨h.code t, fun l => ?_⟩
    rw [h.depth t l]
    rfl
  busy := by
    intro t c hc
    rw [h.call t] at hc
    cases hc

/-- The phase of a thread that has acquired the lock. -/
theorem Ok.phase (h : s.Ok γ) (hd : 0 < s.depth t l) :
    γ t l = .owner (s.depth t l) ∨
      s.call t = some (.release l) ∧ γ t l = .owner (s.depth t l + 1) := by
  cases hcall : s.call t with
  | none =>
    left
    rw [(h.idle t hcall).2 l]
    exact LockPhase.rest_of_pos hd
  | some c =>
    obtain ⟨hother, ⟨a, k, hcode⟩, hfollows⟩ := h.busy t c hcall
    by_cases hl : l = c.plock
    · -- the next act is one of the call, and it is allowed
      subst hl
      rw [hcode] at hfollows
      cases c with
      | acquire l => exact Or.inl (allows_acquire_nested hfollows.1 hd)
      | release l => exact Or.inr ⟨rfl, allows_release_nested hfollows.1 hd⟩
    · left
      rw [hother l hl]
      exact LockPhase.rest_of_pos hd

theorem Ok.not_out (h : s.Ok γ) (hd : 0 < s.depth t l) : γ t l ≠ .out := by
  rcases h.phase hd with hph | ⟨-, hph⟩ <;> rw [hph] <;> simp

theorem Ok.locksSound (h : s.Ok γ) : s.LocksSound where
  exclusive := by
    intro l t u ht hu
    by_contra hne
    have hout : γ u l = .out := ((h.sync.lock l).of_phase (h.not_out ht)).2.2 u (Ne.symm hne)
    exact h.not_out hu hout
  holder := by
    intro l t hd
    have hfields := ((h.sync.lock l).of_phase (h.not_out hd)).2.1
    rcases h.phase hd with hph | ⟨-, hph⟩ <;>
    · rw [hph] at hfields
      exact congrArg Prod.fst hfields
  repeatNr := by
    intro l t hd
    have hfields := ((h.sync.lock l).of_phase (h.not_out hd)).2.1
    rcases h.phase hd with hph | ⟨hcall, hph⟩
    · rw [hph] at hfields
      exact Or.inl (congrArg Prod.snd hfields)
    · rw [hph] at hfields
      exact Or.inr ⟨hcall, congrArg Prod.snd hfields⟩
  value := fun l => (h.sync.lock l).value
  asserts := by
    intro t a k hcode hblocked
    cases hcall : s.call t with
    | none =>
      rw [(h.idle t hcall).1] at hcode
      cases hcode
    | some c =>
      obtain ⟨-, -, hfollows⟩ := h.busy t c hcall
      rw [hcode] at hfollows
      rcases h.sync.act hcode hblocked hfollows.1 with ⟨n, s', ph', hexec, -⟩ | ⟨s', hexec, -⟩ <;>
      · rw [hexec]
        rfl
  wakeup := fun l hvalue hne => (h.sync.wakeup l hvalue).resolve_left hne

/-- A call starts. -/
theorem Ok.start (h : s.Ok γ) {c : LockCall} (hidle : s.call t = none)
    (hshallow : Shallow s (.call t c)) (hstart : s.start t c = some s') : s'.Ok γ := by
  obtain ⟨hcode, hphase⟩ := h.idle t hidle
  have hat : ∀ k, ¬ AtSemaDown k (s.code t) := fun k => by rw [hcode]; exact id
  cases c with
  | acquire l =>
    obtain rfl := Option.some.inj hstart
    refine ⟨h.sync.setCode hat, fun u hu => ?_, fun u c hc => ?_⟩
    · have hne : u ≠ t := by
        rintro rfl
        simp [setCode] at hu
      simpa [setCode, hne] using h.idle u (by simpa [setCode, hne] using hu)
    · by_cases hne : u = t
      · subst hne
        obtain rfl : LockCall.acquire l = c := by simpa [setCode] using hc
        refine ⟨fun k _ => hphase k, ⟨_, _, Function.update_self ..⟩, ?_⟩
        have hfollows := SyncCode.lockAcquire_follows (l := l) (d := s.depth u l) hshallow
        simpa [setCode, LockCall.plock, LockCall.target, hphase l] using hfollows
      · simpa [setCode, hne] using h.busy u c (by simpa [setCode, hne] using hc)
  | release l =>
    simp only [LockSystem.start] at hstart
    split at hstart
    · next hpos =>
      obtain rfl := Option.some.inj hstart
      refine ⟨h.sync.setCode hat, fun u hu => ?_, fun u c hc => ?_⟩
      · have hne : u ≠ t := by
          rintro rfl
          simp [setCode, setDepth] at hu
        simpa [setCode, setDepth, hne] using h.idle u (by simpa [setCode, setDepth, hne] using hu)
      · by_cases hne : u = t
        · subst hne
          obtain rfl : LockCall.release l = c := by simpa [setCode, setDepth] using hc
          refine ⟨fun k hk => ?_, ⟨_, _, Function.update_self ..⟩, ?_⟩
          · have hk' : k ≠ l := hk
            simpa [setCode, setDepth, hk'] using hphase k
          · obtain ⟨d, hd⟩ : ∃ d, s.depth u l = d + 1 := ⟨s.depth u l - 1, by omega⟩
            have hfollows := SyncCode.lockRelease_follows (l := l) (d := d)
            simpa [setCode, setDepth, LockCall.plock, LockCall.target, hphase l, hd] using hfollows
        · simpa [setCode, setDepth, hne] using h.busy u c (by simpa [setCode, setDepth, hne] using hc)
    · cases hstart

/-- The call goes on with the answer, or it returns. -/
theorem Ok.proceed (h : s.Ok γ) {c : LockCall} {shared : SyncState} {ph : LockPhase}
    {code : SyncCode} (hcall : s.call t = some c)
    (hsync : ∀ code', SyncOk shared (γ.set t c.plock ph) (Function.update s.code t code'))
    (hfollows : Follows (lockDiscipline c (s.depth t c.plock)) code ph
      fun ph _ => ph = .rest (c.target (s.depth t c.plock))) :
    (({ s with shared := shared }).proceed t c code).Ok (γ.set t c.plock ph) := by
  have hother := (h.busy t c hcall).1
  have hthread (u k : Nat) (hu : u ≠ t) : γ.set t c.plock ph u k = γ u k :=
    LockPhases.set_thread_ne hu
  cases code with
  | act a k =>
    refine ⟨hsync _, fun u hu => ?_, fun u c' hc => ?_⟩
    · have hne : u ≠ t := by
        rintro rfl
        simp [LockSystem.proceed, setCode] at hu
      simpa [LockSystem.proceed, setCode, hne, hthread u _ hne] using
        h.idle u (by simpa [LockSystem.proceed, setCode, hne] using hu)
    · by_cases hne : u = t
      · subst hne
        obtain rfl : c = c' := by simpa [LockSystem.proceed, setCode] using hc
        refine ⟨fun k hk => ?_, ⟨a, k, Function.update_self ..⟩, ?_⟩
        · rw [LockPhases.set_lock_ne hk]
          exact hother k hk
        · simpa [LockSystem.proceed, setCode] using hfollows
      · simpa [LockSystem.proceed, setCode, hne, hthread u _ hne] using
          h.busy u c' (by simpa [LockSystem.proceed, setCode, hne] using hc)
  | ret a =>
    have hph : ph = .rest (c.target (s.depth t c.plock)) := hfollows
    -- the call is over, and the depth is the one the phase says
    have hidle (d : Nat → Nat → Nat) (hd : ∀ u k, u ≠ t → d u k = s.depth u k)
        (hdt : ∀ k ≠ c.plock, d t k = s.depth t k)
        (hdc : d t c.plock = c.target (s.depth t c.plock)) :
        LockSystem.Ok ⟨shared, Function.update s.call t none,
          Function.update s.code t (.ret ()), d⟩ (γ.set t c.plock ph) := by
      refine ⟨hsync _, fun u hu => ?_, fun u c' hc => ?_⟩
      · by_cases hne : u = t
        · subst hne
          refine ⟨Function.update_self .., fun k => ?_⟩
          show γ.set u c.plock ph u k = .rest (d u k)
          by_cases hk : k = c.plock
          · rw [hk, LockPhases.set_same, hph, hdc]
          · rw [LockPhases.set_lock_ne hk, hdt k hk]
            exact hother k hk
        · simpa [hne, hthread u _ hne, hd u _ hne] using h.idle u (by simpa [hne] using hu)
      · have hne : u ≠ t := by
          rintro rfl
          simp at hc
        simpa [hne, hthread u _ hne, hd u _ hne] using h.busy u c' (by simpa [hne] using hc)
    cases c with
    | acquire l =>
      apply hidle
      · intro u k hu
        exact congrFun (Function.update_of_ne hu ..) k
      · intro k hk
        have hk' : k ≠ l := hk
        show Function.update s.depth t (Function.update (s.depth t) l _) t k = s.depth t k
        simp [hk']
      · simp [LockCall.plock, LockCall.target]
    | release l =>
      apply hidle
      · exact fun _ _ _ => rfl
      · exact fun _ _ => rfl
      · rfl

theorem Ok.act (h : s.Ok γ) (hstep : s.step (.act t) = some s') : ∃ γ', s'.Ok γ' := by
  simp only [LockSystem.step] at hstep
  split at hstep
  · next c a k hcall hcode hblocked =>
    obtain ⟨hother, -, hfollows⟩ := h.busy t c hcall
    rw [hcode] at hfollows
    rcases h.sync.act hcode hblocked hfollows.1 with
      ⟨n, shared, ph, hexec, hnext, hsync⟩ | ⟨shared, hexec, hsync⟩
    · rw [hexec] at hstep
      obtain rfl := Option.some.inj hstep
      exact ⟨_, h.proceed hcall hsync (hfollows.2 n ph hnext)⟩
    · rw [hexec] at hstep
      obtain rfl := Option.some.inj hstep
      exact ⟨γ, hsync, h.idle, h.busy⟩
  · cases hstep

theorem Ok.step (h : s.Ok γ) {e : LockEvent} (hshallow : s.Shallow e)
    (hstep : s.step e = some s') : ∃ γ', s'.Ok γ' := by
  cases e with
  | call t c =>
    cases hcall : s.call t with
    | none =>
      simp only [LockSystem.step, hcall] at hstep
      exact ⟨γ, h.start hcall hshallow hstep⟩
    | some c' =>
      simp only [LockSystem.step, hcall] at hstep
      cases hstep
  | act t => exact h.act hstep

theorem ok_of_run {s₀ : LockSystem} (h₀ : s₀.Initial) (hrun : Run Shallow s₀ s) :
    ∃ γ, s.Ok γ := by
  apply hrun.invariant (I := fun s => ∃ γ, s.Ok γ)
  · exact ⟨_, h₀.ok⟩
  · intro s e s' ⟨γ, hok⟩ hshallow hstep
    exact hok.step hshallow hstep

end Runs

end LockSystem

/-- The locks are sound at every statement of every run in which no counter
    overflows. -/
theorem locks_sound (s₀ s : LockSystem) (h₀ : s₀.Initial)
    (hrun : LockSystem.Run LockSystem.Shallow s₀ s) : s.LocksSound := by
  obtain ⟨γ, hok⟩ := LockSystem.ok_of_run h₀ hrun
  exact hok.locksSound

/-! ## The counter overflows -/

namespace LockSystem

/-- Nobody has called anything yet. -/
def quiet : LockSystem where
  shared :=
    { holder := fun _ => none
      holderRepeatNr := fun _ => 0
      semaphore := fun _ => { value := 1 }
      blocked := fun _ => false
      woken := fun _ => false }
  call := fun _ => none
  code := fun _ => .ret ()
  depth := fun _ _ => 0

theorem quiet_initial : quiet.Initial := by
  constructor <;> intros <;> rfl

/-- Thread 0 has acquired lock 0 `n` times and is in no call. -/
structure Nested (n : Nat) (s : LockSystem) : Prop where
  call : s.call 0 = none
  blocked : s.shared.blocked 0 = false
  depth : s.depth 0 0 = n
  holder : s.shared.holder 0 = if n = 0 then none else some 0
  repeatNr : s.shared.holderRepeatNr 0 = n % 2 ^ 32
  value : n = 0 → (s.shared.semaphore 0).value = 1

theorem quiet_nested : Nested 0 quiet := by
  constructor <;> intros <;> rfl

section Nested

variable {P : LockSystem → LockEvent → Prop} {s₀ s : LockSystem} {n : Nat}

/-- An act of thread 0 that is answered. -/
theorem run_act (hrun : Run P s₀ s) (hP : P s (.act 0)) {c : LockCall} {a : SyncAct}
    {k : Nat → SyncCode} {n : Nat} {shared : SyncState} (hcall : s.call 0 = some c)
    (hcode : s.code 0 = .act a k) (hblocked : s.shared.blocked 0 = false)
    (hexec : a.exec 0 s.shared = some (some n, shared)) :
    Run P s₀ (({ s with shared := shared }).proceed 0 c (k n)) := by
  apply hrun.next (.act 0) hP
  simp [LockSystem.step, hcall, hcode, hblocked, hexec]

/-- Thread 0 acquires the lock once more. -/
theorem run_acquire (hrun : Run P s₀ s) (hn : Nested n s)
    (hP : ∀ s', P s' (.act 0)) (hP' : P s (.call 0 (.acquire 0))) :
    ∃ s', Run P s₀ s' ∧ Nested (n + 1) s' := by
  have hcalled : Run P s₀ (s.setCode 0 (some (.acquire 0)) (SyncCode.lockAcquire 0)) := by
    apply hrun.next (.call 0 (.acquire 0)) hP'
    simp [LockSystem.step, hn.call, start]
  by_cases hzero : n = 0
  · have hholder : s.shared.holder 0 ≠ some 0 := by simp [hn.holder, hzero]
    have hrepeat : s.shared.holderRepeatNr 0 = 0 := by simp [hn.repeatNr, hzero]
    have hvalue := hn.value hzero
    have h₁ := run_act hcalled (hP _) (n := 0) rfl rfl hn.blocked (by
      show some (some (if s.shared.holder 0 = some 0 then 1 else 0), s.shared) = _
      rw [if_neg hholder])
    have h₂ := run_act h₁ (hP _) (n := 0) rfl rfl hn.blocked (by
      show SyncAct.exec 0 s.shared (.semaDown 0) = _
      simp only [SyncAct.exec, hvalue]
      rfl)
    have h₃ := run_act h₂ (hP _) (n := 0) rfl rfl hn.blocked rfl
    have h₄ := run_act h₃ (hP _) (n := 0) rfl rfl hn.blocked (by
      show some (some (s.shared.holderRepeatNr 0), _) = _
      rw [hrepeat])
    have h₅ := run_act h₄ (hP _) (n := 0) rfl rfl hn.blocked rfl
    have h₆ := run_act h₅ (hP _) (n := 0) rfl rfl hn.blocked rfl
    refine ⟨_, h₆, rfl, hn.blocked, ?_, ?_, ?_, fun h => absurd h (Nat.succ_ne_zero n)⟩
    · show Function.update s.depth 0 (Function.update (s.depth 0) 0 (s.depth 0 0 + 1)) 0 0 = _
      simp [hn.depth]
    · rw [if_neg (Nat.succ_ne_zero n)]
      rfl
    · rw [hzero]
      rfl
  · have hholder : s.shared.holder 0 = some 0 := by simp [hn.holder, hzero]
    have h₁ := run_act hcalled (hP _) (n := 1) rfl rfl hn.blocked (by
      show some (some (if s.shared.holder 0 = some 0 then 1 else 0), s.shared) = _
      rw [if_pos hholder])
    have h₂ := run_act h₁ (hP _) (n := s.shared.holderRepeatNr 0) rfl rfl hn.blocked rfl
    have h₃ := run_act h₂ (hP _) (n := 0) rfl rfl hn.blocked rfl
    refine ⟨_, h₃, rfl, hn.blocked, ?_, ?_, ?_, fun h => absurd h (Nat.succ_ne_zero n)⟩
    · show Function.update s.depth 0 (Function.update (s.depth 0) 0 (s.depth 0 0 + 1)) 0 0 = _
      simp [hn.depth]
    · rw [if_neg (Nat.succ_ne_zero n)]
      exact hholder
    · show (s.shared.holderRepeatNr 0 + 1) % 2 ^ 32 = (n + 1) % 2 ^ 32
      rw [hn.repeatNr, Nat.mod_add_mod]

theorem exists_nested (n : Nat) :
    ∃ s, Run (fun _ _ => True) quiet s ∧ Nested n s := by
  induction n with
  | zero => exact ⟨quiet, .start, quiet_nested⟩
  | succ n ih =>
    obtain ⟨s, hrun, hn⟩ := ih
    exact run_acquire hrun hn (fun _ => trivial) trivial

end Nested

end LockSystem

theorem locks_sound_nested : ∃ s, LockSystem.Run LockSystem.Shallow LockSystem.quiet s ∧
    s.depth 0 0 = 2 ∧ s.LocksSound := by
  have hfirst : LockSystem.Shallow LockSystem.quiet (.call 0 (.acquire 0)) := by
    show 0 + 1 < 2 ^ 32
    decide
  obtain ⟨s₁, h₁, hn₁⟩ := LockSystem.run_acquire (P := LockSystem.Shallow) .start
    LockSystem.quiet_nested (fun _ => trivial) hfirst
  have hshallow : LockSystem.Shallow s₁ (.call 0 (.acquire 0)) := by
    show s₁.depth 0 0 + 1 < 2 ^ 32
    rw [hn₁.depth]
    decide
  obtain ⟨s₂, h₂, hn₂⟩ := LockSystem.run_acquire h₁ hn₁ (fun _ => trivial) hshallow
  exact ⟨s₂, h₂, hn₂.depth, locks_sound _ _ LockSystem.quiet_initial h₂⟩

/-- A thread that has acquired a lock `2 ^ 32` times finds 0 in `holder_repeat_nr`. -/
theorem repeat_nr_wraps :
    ¬ ∀ s₀ s : LockSystem, s₀.Initial → LockSystem.Run (fun _ _ => True) s₀ s → s.LocksSound := by
  intro hclaim
  obtain ⟨s, hrun, hn⟩ := LockSystem.exists_nested (2 ^ 32)
  have hsound := hclaim _ s LockSystem.quiet_initial hrun
  have hpos : 0 < s.depth 0 0 := by
    rw [hn.depth]
    exact Nat.two_pow_pos 32
  have hzero : s.shared.holderRepeatNr 0 = 0 := by
    rw [hn.repeatNr, Nat.mod_self]
  rcases hsound.repeatNr 0 0 hpos with hrepeat | ⟨hcall, -⟩
  · omega
  · rw [hn.call] at hcall
    cases hcall

end ZxyOs
