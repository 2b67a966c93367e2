/-
  ZxyOs.User.WaitRun

  Runs of `fork`, `exit` and `wait`.

  Every exit is returned by one `sys_wait` at most, that of the parent, with the pid and
  the status of the process (`exits_reaped_once`).  A parent that sleeps in `sys_wait` is
  woken by the exit of its child, and `init` is not woken when it adopts a child that has
  ended already: with that left out, no sleeping parent has a hanging child
  (`no_zombie_of_waiting`), and three generations are enough for the other case
  (`init_sleeps_over_zombie`).
-/

import ZxyOs.User.WaitSteps

namespace ZxyOs

open Lib Lib.Exec

namespace Procs

/-! ## Who is reaped -/

/-- `c` has the parent `t`; the threads of the kernel and `init` have none. -/
def ChildOf (s : Procs) (t c : Nat) : Prop :=
  s.parentPid c ≠ -1 ∧ s.parent c = t

section Parents

variable {s s' : Procs} {e : ProcEvent} {t c : Nat}

/-- The parent of a process changes when it exits, and `init` takes its place. -/
theorem ProcsOk.parent_step (h : s.ProcsOk) (hstep : Step s e s') (hc : c < s.nextThread) :
    s'.parent c = s.parent c ∨ s'.parent c = initProc ∧ ∃ status, e = .exit (s.parent c) status := by
  cases e with
  | fork t =>
    obtain ⟨-, -, hret⟩ := hstep
    obtain ⟨i, -, rfl⟩ := forkCopy_inv hret
    exact Or.inl (Function.update_of_ne (Nat.ne_of_lt hc) ..)
  | forkEnd t =>
    obtain ⟨-, d, -, hret⟩ := hstep
    obtain ⟨-, rfl⟩ := forkEnd_inv hret
    exact Or.inl rfl
  | forkFails t =>
    obtain ⟨-, d, -, hret⟩ := hstep
    obtain rfl := (returns_update _ _).mp hret
    exact Or.inl rfl
  | exit t status =>
    obtain ⟨⟨ht, -, -⟩, -, hret⟩ := hstep
    obtain ⟨-, rfl⟩ := exitStart_inv hret
    by_cases hchild : s.IsChild t c
    · right
      rw [h.parent_eq ht hchild]
      exact ⟨if_pos hchild, status, rfl⟩
    · exact Or.inl (if_neg hchild)
  | exitEnd t =>
    obtain ⟨-, -, hret⟩ := hstep
    obtain ⟨q, -, rfl⟩ := exitEnd_inv hret
    exact Or.inl rfl
  | wait t =>
    obtain ⟨-, -, o, hret⟩ := hstep
    rcases sysWait_inv hret with ⟨-, d, -, -, -, rfl⟩ | ⟨-, -, rfl⟩ | ⟨-, -, rfl⟩
    · exact Or.inl rfl
    · exact Or.inl rfl
    · exact Or.inl rfl
  | waitEnd t =>
    obtain ⟨-, d, pid, status, -, hret⟩ := hstep
    obtain rfl := waitEnd_inv hret
    exact Or.inl rfl
  | threadEnds t =>
    obtain ⟨-, -, hret⟩ := hstep
    obtain rfl := threadEnds_inv hret
    exact Or.inl rfl

/-- `sys_wait` finds no child only where there is none. -/
theorem ProcsOk.no_child (h : s.ProcsOk) (hret : Returns (sysWait t) s .noChild s')
    (hc : c ∈ s.threadAllList) : ¬ s.ChildOf t c := by
  rintro ⟨hpar, heq⟩
  have hpid : s.pid (s.parent c) = s.parentPid c := (h.parented c hc hpar).pid
  rw [heq] at hpid
  rcases sysWait_inv hret with ⟨hcontra, -⟩ | ⟨-, hnone, -⟩ | ⟨hcontra, -⟩
  · cases hcontra
  · exact hnone c hc hpid.symm
  · cases hcontra

end Parents

end Procs

/-- Every exit is reaped once at most, by the parent, which gets the pid and the status;
    the parent is the creator until it exits, and then `init`; a control block is freed
    after its process was `HANGING`; and `sys_wait` says that there is no child only
    where there is none. -/
theorem exits_reaped_once (s₀ s : Procs) (h₀ : s₀.Initial)
    (hrun : Procs.Run (fun _ _ => True) s₀ s) :
    (s.reaped.map Reaped.child).Nodup ∧
      (∀ r ∈ s.reaped, s.parent r.child = r.parent ∧ r.childPid = s.pid r.child ∧
        ∃ a, s.exitArg r.child = some a ∧ r.status = toInt8 a) ∧
      (∀ t ∈ s.freed, t ∈ s.hung) ∧
      (∀ t s', Procs.Step s (.fork t) s' → s'.parent s.nextThread = t) ∧
      (∀ e s', Procs.Step s e s' → ∀ c < s.nextThread, s'.parent c = s.parent c ∨
        s'.parent c = initProc ∧ ∃ status, e = .exit (s.parent c) status) ∧
      ∀ t s', Returns (Procs.sysWait t) s .noChild s' → ∀ c ∈ s.threadAllList, ¬ s.ChildOf t c := by
  have hok : s.ProcsOk := hrun.procsOk h₀
  refine ⟨hok.reaped_nodup, ?_, hok.freed, ?_, fun e s' hstep c => hok.parent_step hstep,
    fun t s' hret c => hok.no_child hret⟩
  · intro r hr
    have hwas := hok.reaped r hr
    exact ⟨hwas.parent, hwas.pid, hwas.status⟩
  · rintro t s' ⟨-, -, hret⟩
    obtain ⟨i, -, rfl⟩ := Procs.forkCopy_inv hret
    exact Function.update_self ..

/-! ## Computed runs -/

namespace Procs

instance (s : Procs) (t : Nat) : Decidable (s.MayRun t) :=
  inferInstanceAs (Decidable (_ ∧ _ ∧ _))

/-- A step, computed. -/
def step? (s : Procs) : ProcEvent → Option Procs
  | .fork t => if s.MayRun t ∧ s.place t = .user then final? (forkCopy t) s else none
  | .forkEnd t =>
    match s.place t with
    | .forking c => if s.MayRun t then final? (Procs.forkEnd t c) s else none
    | _ => none
  | .exit t status => if s.MayRun t ∧ s.place t = .user then final? (exitStart t status) s else none
  | .exitEnd t => if s.MayRun t ∧ s.place t = .exiting then final? (Procs.exitEnd t) s else none
  | .wait t => if s.MayRun t ∧ s.place t = .user then final? (sysWait t) s else none
  | .waitEnd t =>
    match s.place t with
    | .reaping c pid status =>
      if s.MayRun t then final? (Procs.waitEnd t c pid status) s else none
    | _ => none
  | _ => none

theorem step_of_step? {s s' : Procs} {e : ProcEvent} (h : step? s e = some s') : Step s e s' := by
  cases e with
  | fork t =>
    obtain ⟨⟨hmay, hplace⟩, h⟩ := Option.ite_none_right_eq_some.mp h
    obtain ⟨_, hret⟩ := final?_eq_some.mp h
    exact ⟨hmay, hplace, hret⟩
  | forkEnd t =>
    simp only [step?] at h
    split at h
    · next c hplace =>
      obtain ⟨hmay, h⟩ := Option.ite_none_right_eq_some.mp h
      obtain ⟨_, hret⟩ := final?_eq_some.mp h
      exact ⟨hmay, c, hplace, hret⟩
    · cases h
  | forkFails t => cases h
  | exit t status =>
    obtain ⟨⟨hmay, hplace⟩, h⟩ := Option.ite_none_right_eq_some.mp h
    obtain ⟨_, hret⟩ := final?_eq_some.mp h
    exact ⟨hmay, hplace, hret⟩
  | exitEnd t =>
    obtain ⟨⟨hmay, hplace⟩, h⟩ := Option.ite_none_right_eq_some.mp h
    obtain ⟨_, hret⟩ := final?_eq_some.mp h
    exact ⟨hmay, hplace, hret⟩
  | wait t =>
    obtain ⟨⟨hmay, hplace⟩, h⟩ := Option.ite_none_right_eq_some.mp h
    obtain ⟨o, hret⟩ := final?_eq_some.mp h
    exact ⟨hmay, Or.inl hplace, o, hret⟩
  | waitEnd t =>
    simp only [step?] at h
    split at h
    · next c pid status hplace =>
      obtain ⟨hmay, h⟩ := Option.ite_none_right_eq_some.mp h
      obtain ⟨_, hret⟩ := final?_eq_some.mp h
      exact ⟨hmay, c, pid, status, hplace, hret⟩
    · cases h
  | threadEnds t => cases h

/-- `init`, the main thread and idle. -/
def boot : Procs where
  pid := fun t => t + 1
  parentPid := fun _ => -1
  status := fun _ => .ready
  exitStatus := fun _ => 0
  isProcess := fun t => decide (t = initProc)
  threadAllList := [0, 1, 2]
  pidBitmap := { btmpBytesLen := 128, bit := fun i => decide (i < 3) }
  place := fun _ => .user
  nextThread := 3
  parent := fun _ => 0
  exitArg := fun _ => none
  hung := []
  freed := []
  reaped := []

theorem boot_initial : boot.Initial where
  all := rfl
  pid := fun _ _ => rfl
  parentPid := fun _ _ => rfl
  status := fun _ _ => rfl
  isProcess := fun _ _ => rfl
  place := fun _ _ => rfl
  bytes := rfl
  bit := fun _ => rfl
  nextThread := rfl
  hung := rfl
  freed := rfl
  reaped := rfl

theorem run_of_foldlM {events : List ProcEvent} {s : Procs}
    (h : events.foldlM step? boot = some s) : Run (fun _ _ => True) boot s :=
  Run.of_foldlM (fun _ _ _ hstep => ⟨trivial, step_of_step? hstep⟩) h

end Procs

/-- `init` forks process 3, which calls `exit(300)`, and waits for it. -/
theorem exits_reaped_once_init_waits : ∃ s : Procs, Procs.boot.Initial ∧
    (s.reaped.map fun r => (r.parent, r.child, r.childPid, r.status)) = [(0, 3, 4, 44)] ∧
    s.parent 3 = 0 ∧ (s.reaped.map Reaped.child).Nodup := by
  have hend : ([.fork 0, .forkEnd 0, .exit 3 300, .exitEnd 3, .wait 0, .waitEnd 0].foldlM
      Procs.step? Procs.boot).map (fun s =>
        (s.reaped.map (fun r => (r.parent, r.child, r.childPid, r.status)), s.parent 3)) =
      some ([(0, 3, 4, 44)], 0) := by
    decide +kernel
  obtain ⟨s, hrun, hs⟩ := Option.map_eq_some_iff.mp hend
  obtain ⟨hreaped, hparent⟩ := Prod.mk.inj hs
  exact ⟨s, Procs.boot_initial, hreaped, hparent,
    (exits_reaped_once Procs.boot s Procs.boot_initial (Procs.run_of_foldlM hrun)).1⟩

/-! ## Who sleeps in `wait` -/

namespace Procs

/-- `q` sleeps in `sys_wait` and has the child `c`, which is `HANGING`. -/
structure WaitsOverZombie (s : Procs) (q c : Nat) : Prop where
  parent_mem : q ∈ s.threadAllList
  waiting : s.status q = .waiting
  mem : c ∈ s.threadAllList
  hanging : s.status c = .hanging
  parentPid : s.parentPid c = s.pid q

/-- A process that exits leaves no `HANGING` child to a sleeping `init`, or it is a
    child of `init` itself. -/
def InitSees (s : Procs) : ProcEvent → Prop
  | .exit t _ => s.parentPid t = 1 ∨ s.status initProc ≠ .waiting ∨
      ∀ c ∈ s.threadAllList, s.parentPid c = s.pid t → s.status c ≠ .hanging
  | _ => True

instance (s : Procs) (e : ProcEvent) : Decidable (s.InitSees e) :=
  match e with
  | .exit t _ => inferInstanceAs (Decidable (s.parentPid t = 1 ∨ _ ∨ _))
  | .fork _ | .forkEnd _ | .forkFails _ | .exitEnd _ | .wait _ | .waitEnd _ | .threadEnds _ =>
    isTrue trivial

/-- A sleeping parent with a hanging child is `init`, and a child of it is about to
    wake it. -/
def InitIsWoken (s : Procs) : Prop :=
  ∀ q c, s.WaitsOverZombie q c → q = initProc ∧
    ∃ p ∈ s.threadAllList, s.place p = .exiting ∧ s.parentPid p = 1

section Sleepers

variable {s s' : Procs} {e : ProcEvent} {q c p t : Nat} {status : Int}

/-- What a step leaves alone of sleeping parents, zombies and exiting processes. -/
theorem InitIsWoken.mono (h : s.InitIsWoken)
    (hback : ∀ q c, s'.WaitsOverZombie q c → s.WaitsOverZombie q c)
    (hexit : ∀ p ∈ s.threadAllList, s.place p = .exiting → s.parentPid p = 1 →
      p ∈ s'.threadAllList ∧ s'.place p = .exiting ∧ s'.parentPid p = 1) : s'.InitIsWoken := by
  intro q c hz
  obtain ⟨hq, p, hp, hplace, hpar⟩ := h q c (hback q c hz)
  obtain ⟨hp', hplace', hpar'⟩ := hexit p hp hplace hpar
  exact ⟨hq, p, hp', hplace', hpar'⟩

/-- A process that is not in `sys_exit` changes its place. -/
theorem InitIsWoken.setPlace (h : s.InitIsWoken) {w : Place} (hplace : s.place t ≠ .exiting) :
    (s.setPlace t w).InitIsWoken := by
  apply h.mono
  · exact fun q c hz => { hz with }
  · intro p hp hexit hpar
    have hne : p ≠ t := fun heq => hplace (heq ▸ hexit)
    exact ⟨hp, (Function.update_of_ne hne ..).trans hexit, hpar⟩

theorem InitIsWoken.forked (h : s.InitIsWoken) (hok : s.ProcsOk) (hplace : s.place t ≠ .exiting)
    {i : Nat} : (s.forked t i).InitIsWoken := by
  have hother {β : Type} (f : Nat → β) (v : β) (u : Nat) (hu : u ∈ s.threadAllList) :
      Function.update f s.nextThread v u = f u :=
    Function.update_of_ne (Nat.ne_of_lt (hok.lt hu)) ..
  apply h.mono
  · intro q c hz
    exact
      { parent_mem := hz.parent_mem
        waiting := (hother s.status .ready q hz.parent_mem).symm.trans hz.waiting
        mem := hz.mem
        hanging := (hother s.status .ready c hz.mem).symm.trans hz.hanging
        parentPid := (hother s.parentPid _ c hz.mem).symm.trans
          (hz.parentPid.trans (hother s.pid _ q hz.parent_mem)) }
  · intro p hp hexit hpar
    have hne : p ≠ t := fun heq => hplace (heq ▸ hexit)
    refine ⟨hp, ?_, (hother s.parentPid _ p hp).trans hpar⟩
    exact (Function.update_of_ne hne ..).trans ((hother s.place .user p hp).trans hexit)

/-- The child that joins the list is ready. -/
theorem InitIsWoken.joins (h : s.InitIsWoken) (hready : s.status c = .ready)
    (hplace : s.place t ≠ .exiting) :
    InitIsWoken { s.setPlace t .user with threadAllList := s.threadAllList ++ [c] } := by
  have hold (u : Nat) (hu : u ∈ s.threadAllList ++ [c]) (hne : s.status u ≠ .ready) :
      u ∈ s.threadAllList := by
    rcases List.mem_append.mp hu with hmem | hmem
    · exact hmem
    · rw [List.mem_singleton.mp hmem] at hne
      exact absurd hready hne
  apply (h.setPlace (w := .user) hplace).mono
  · intro q d hz
    have hwait : s.status q = .waiting := hz.waiting
    have hhang : s.status d = .hanging := hz.hanging
    exact
      { hz with
        parent_mem := hold q hz.parent_mem (by rw [hwait]; simp)
        mem := hold d hz.mem (by rw [hhang]; simp) }
  · exact fun p hp hexit hpar => ⟨List.mem_append_left [c] hp, hexit, hpar⟩

/-- The zombies of `t` come to `init`, and are seen by the condition. -/
theorem InitIsWoken.adopted (h : s.InitIsWoken) (hok : s.ProcsOk) (ht : t ∈ s.threadAllList)
    (hplace : s.place t ≠ .exiting) (hsees : s.InitSees (.exit t status)) :
    (s.adopted t status).InitIsWoken := by
  have hself : (s.adopted t status).place t = .exiting := Function.update_self ..
  have hone (p : Nat) (hpar : s.parentPid p = 1) : (s.adopted t status).parentPid p = 1 := by
    by_cases hchild : s.IsChild t p
    · exact if_pos hchild
    · exact (if_neg hchild).trans hpar
  intro q c hz
  have hwait : s.status q = .waiting := hz.waiting
  have hhang : s.status c = .hanging := hz.hanging
  have hmemq : q ∈ s.threadAllList := hz.parent_mem
  have hmemc : c ∈ s.threadAllList := hz.mem
  have hpar : (s.adopted t status).parentPid c = s.pid q := hz.parentPid
  by_cases hchild : s.IsChild t c
  · -- a zombie that is adopted now
    have hpidq : s.pid q = 1 := hpar.symm.trans (if_pos hchild)
    obtain rfl : q = initProc :=
      hok.holder_inj q initProc (Or.inl hmemq) (Or.inl hok.init_mem) (hpidq.trans hok.init_pid.symm)
    rcases hsees with hpart | hnot | hnone
    · exact ⟨rfl, t, ht, hself, hone t hpart⟩
    · exact absurd hwait hnot
    · exact absurd hhang (hnone c hmemc hchild.2)
  · have hold : s.WaitsOverZombie q c :=
      { parent_mem := hmemq
        waiting := hwait
        mem := hmemc
        hanging := hhang
        parentPid := (if_neg hchild).symm.trans hpar }
    obtain ⟨hq, p, hp, hexit, hparp⟩ := h q c hold
    have hne : p ≠ t := fun heq => hplace (heq ▸ hexit)
    exact ⟨hq, p, hp, (Function.update_of_ne hne ..).trans hexit, hone p hparp⟩

/-- The process that ends wakes its own parent. -/
theorem InitIsWoken.hangs (h : s.InitIsWoken) (hok : s.ProcsOk) (ht : t ∈ s.threadAllList)
    (hq : q ∈ s.threadAllList) (hpid : s.pid q = s.parentPid t) : (s.hangs t q).InitIsWoken := by
  intro r c hz
  have hwaitr : (s.hangs t q).status r = .waiting := hz.waiting
  have hhangc : (s.hangs t q).status c = .hanging := hz.hanging
  have hmemr : r ∈ s.threadAllList := hz.parent_mem
  have hmemc : c ∈ s.threadAllList := hz.mem
  have hpar : s.parentPid c = s.pid r := hz.parentPid
  have hself : (s.hangs t q).status t = .hanging := Function.update_self ..
  have hother (u : Nat) (hut : u ≠ t) (huq : u ≠ q) : (s.hangs t q).status u = s.status u :=
    (Function.update_of_ne hut ..).trans (Function.update_of_ne huq ..)
  have hwoken (hqt : q ≠ t) : (s.hangs t q).status q =
      if s.status q = .waiting then .ready else s.status q :=
    (Function.update_of_ne hqt ..).trans (Function.update_self ..)
  have hrt : r ≠ t := by
    rintro rfl
    rw [hself] at hwaitr
    cases hwaitr
  have hrq : r ≠ q := by
    rintro rfl
    rw [hwoken hrt] at hwaitr
    split at hwaitr
    · cases hwaitr
    · contradiction
  have hct : c ≠ t := by
    -- the parent of the process that ends is the one just woken
    rintro rfl
    exact hrq (hok.holder_inj r q (Or.inl hmemr) (Or.inl hq) (hpar.symm.trans hpid.symm))
  have hhang : s.status c = .hanging := by
    by_cases hcq : c = q
    · subst hcq
      rw [hwoken hct] at hhangc
      split at hhangc
      · cases hhangc
      · exact hhangc
    · rw [← hother c hct hcq]
      exact hhangc
  obtain ⟨hinit, p, hp, hexit, hparp⟩ := h r c
    { parent_mem := hmemr
      waiting := (hother r hrt hrq).symm.trans hwaitr
      mem := hmemc
      hanging := hhang
      parentPid := hpar }
  have hpt : p ≠ t := by
    rintro rfl
    apply hrq
    apply hok.holder_inj r q (Or.inl hmemr) (Or.inl hq)
    rw [hpid, hparp, hinit, hok.init_pid]
  exact ⟨hinit, p, hp, (Function.update_of_ne hpt ..).trans hexit, hparp⟩

/-- A hanging child is taken out of the list. -/
theorem InitIsWoken.taken (h : s.InitIsWoken) (hok : s.ProcsOk) (hc : c ∈ s.threadAllList)
    (hhang : s.status c = .hanging) (hplace : s.place t ≠ .exiting) :
    (s.taken t c).InitIsWoken := by
  have hother (u : Nat) (hu : u ≠ c) : (s.taken t c).status u = s.status u :=
    Function.update_of_ne hu ..
  have hmem (u : Nat) (hu : u ∈ (s.taken t c).threadAllList) : u ≠ c ∧ u ∈ s.threadAllList :=
    hok.all_nodup.mem_erase_iff.mp hu
  apply h.mono
  · intro q d hz
    obtain ⟨hqc, hq⟩ := hmem q hz.parent_mem
    obtain ⟨hdc, hd⟩ := hmem d hz.mem
    exact
      { parent_mem := hq
        waiting := (hother q hqc).symm.trans hz.waiting
        mem := hd
        hanging := (hother d hdc).symm.trans hz.hanging
        parentPid := hz.parentPid }
  · intro p hp hexit hpar
    have hpc : p ≠ c := by
      rintro rfl
      rw [(hok.hanging p hc).mp hhang] at hexit
      cases hexit
    have hpt : p ≠ t := fun heq => hplace (heq ▸ hexit)
    exact ⟨hok.all_nodup.mem_erase_iff.mpr ⟨hpc, hp⟩, (Function.update_of_ne hpt ..).trans hexit,
      hpar⟩

/-- A process without a hanging child sleeps. -/
theorem InitIsWoken.sleeps (h : s.InitIsWoken) (hplace : s.place t ≠ .exiting)
    (hnone : ∀ c ∈ s.threadAllList, ¬ (s.status c = .hanging ∧ s.parentPid c = s.pid t)) :
    ((s.setStatus t .waiting).setPlace t .waiting).InitIsWoken := by
  have hself : ((s.setStatus t .waiting).setPlace t .waiting).status t = .waiting :=
    Function.update_self ..
  have hother (u : Nat) (hu : u ≠ t) :
      ((s.setStatus t .waiting).setPlace t .waiting).status u = s.status u :=
    Function.update_of_ne hu ..
  apply (h.setPlace (w := .waiting) hplace).mono
  · intro q c hz
    have hct : c ≠ t := by
      rintro rfl
      have hhang := hz.hanging
      rw [hself] at hhang
      cases hhang
    have hhang : s.status c = .hanging := (hother c hct).symm.trans hz.hanging
    have hqt : q ≠ t := by
      rintro rfl
      exact hnone c hz.mem ⟨hhang, hz.parentPid⟩
    exact
      { parent_mem := hz.parent_mem
        waiting := (hother q hqt).symm.trans hz.waiting
        mem := hz.mem
        hanging := hhang
        parentPid := hz.parentPid }
  · exact fun p hp hexit hpar => ⟨hp, hexit, hpar⟩

theorem InitIsWoken.ended (h : s.InitIsWoken) (hok : s.ProcsOk) (ht : t ∈ s.threadAllList)
    (hkernel : s.isProcess t = false) {b : Bitmap} :
    InitIsWoken { s.unlinked t with pidBitmap := b } := by
  have hother (u : Nat) (hu : u ≠ t) : (s.unlinked t).status u = s.status u :=
    Function.update_of_ne hu ..
  have hmem (u : Nat) (hu : u ∈ (s.unlinked t).threadAllList) : u ≠ t ∧ u ∈ s.threadAllList :=
    hok.all_nodup.mem_erase_iff.mp hu
  apply h.mono
  · intro q d hz
    obtain ⟨hqt, hq⟩ := hmem q hz.parent_mem
    obtain ⟨hdt, hd⟩ := hmem d hz.mem
    exact
      { parent_mem := hq
        waiting := (hother q hqt).symm.trans hz.waiting
        mem := hd
        hanging := (hother d hdt).symm.trans hz.hanging
        parentPid := hz.parentPid }
  · intro p hp hexit hpar
    have hpt : p ≠ t := by
      rintro rfl
      rw [hok.kernel p ht hkernel] at hexit
      cases hexit
    exact ⟨hok.all_nodup.mem_erase_iff.mpr ⟨hpt, hp⟩, hexit, hpar⟩

theorem InitIsWoken.step (h : s.InitIsWoken) (hok : s.ProcsOk) (hsees : s.InitSees e)
    (hstep : Step s e s') : s'.InitIsWoken := by
  cases e with
  | fork t =>
    obtain ⟨-, hplace, hret⟩ := hstep
    obtain ⟨i, -, rfl⟩ := forkCopy_inv hret
    exact h.forked hok (by rw [hplace]; simp)
  | forkEnd t =>
    obtain ⟨⟨ht, -, -⟩, c, hplace, hret⟩ := hstep
    obtain ⟨-, rfl⟩ := forkEnd_inv hret
    obtain ⟨-, -, -, hready, -⟩ := hok.forking t ht c hplace
    exact h.joins hready (by rw [hplace]; simp)
  | forkFails t =>
    obtain ⟨-, c, hplace, hret⟩ := hstep
    obtain rfl := (returns_update _ _).mp hret
    exact h.setPlace (by rw [hplace]; simp)
  | exit t status =>
    obtain ⟨⟨ht, -, -⟩, hplace, hret⟩ := hstep
    obtain ⟨-, rfl⟩ := exitStart_inv hret
    exact h.adopted hok ht (by rw [hplace]; simp) hsees
  | exitEnd t =>
    obtain ⟨⟨ht, -, -⟩, -, hret⟩ := hstep
    obtain ⟨q, hfind, rfl⟩ := exitEnd_inv hret
    have hpid : s.pid q = s.parentPid t := by simpa using List.find?_some hfind
    exact h.hangs hok ht (List.mem_of_find?_eq_some hfind) hpid
  | wait t =>
    obtain ⟨-, hplace, o, hret⟩ := hstep
    have hnot : s.place t ≠ .exiting := by
      rcases hplace with hplace | hplace
      · rw [hplace]
        simp
      · rw [hplace]
        simp
    rcases sysWait_inv hret with ⟨-, c, hc, hhang, -, rfl⟩ | ⟨-, -, rfl⟩ | ⟨-, hnone, rfl⟩
    · exact h.taken hok hc hhang hnot
    · exact h.setPlace hnot
    · exact h.sleeps hnot hnone
  | waitEnd t =>
    obtain ⟨-, c, pid, status, hplace, hret⟩ := hstep
    obtain rfl := waitEnd_inv hret
    apply (h.setPlace (w := .user) (t := t) (by rw [hplace]; simp)).mono
    · exact fun q c hz => { hz with }
    · exact fun p hp hexit hpar => ⟨hp, hexit, hpar⟩
  | threadEnds t =>
    obtain ⟨ht, hkernel, hret⟩ := hstep
    obtain rfl := threadEnds_inv hret
    exact h.ended hok ht hkernel

theorem Initial.initIsWoken (h : s.Initial) : s.InitIsWoken := by
  intro q c hz
  have hlt : q < 3 := by
    have hmem := hz.parent_mem
    rw [h.all] at hmem
    simp at hmem
    omega
  have hwait := hz.waiting
  rw [h.status q hlt] at hwait
  cases hwait

end Sleepers

end Procs

/-- Where no process is in `sys_exit`, no sleeping parent has a hanging child. -/
theorem no_zombie_of_waiting (s₀ s : Procs) (h₀ : s₀.Initial)
    (hrun : Procs.Run Procs.InitSees s₀ s)
    (hexit : ∀ p ∈ s.threadAllList, s.place p ≠ .exiting) :
    ∀ q ∈ s.threadAllList, s.status q = .waiting → ∀ c ∈ s.threadAllList,
      s.parentPid c = s.pid q → s.status c ≠ .hanging := by
  have hboth : s.ProcsOk ∧ s.InitIsWoken := by
    apply hrun.invariant (I := fun s => s.ProcsOk ∧ s.InitIsWoken) ⟨h₀.procsOk, h₀.initIsWoken⟩
    intro s e s' hs hsees hstep
    exact ⟨hs.1.step hstep, hs.2.step hs.1 hsees hstep⟩
  intro q hq hwait c hc hpar hhang
  obtain ⟨-, p, hp, hplace, -⟩ := hboth.2 q c ⟨hq, hwait, hc, hhang, hpar⟩
  exact hexit p hp hplace

/-- A step that meets the condition, computed. -/
def Procs.seenStep? (s : Procs) (e : Procs.ProcEvent) : Option Procs :=
  if s.InitSees e then s.step? e else none

/-- `init` and its child 3 sleep, and 4 ends and wakes 3. -/
theorem no_zombie_of_waiting_child_woken : ∃ s : Procs,
    (s.status 0, s.status 3, s.status 4) = (.waiting, .ready, .hanging) ∧
      ∀ c ∈ s.threadAllList, s.parentPid c = s.pid 0 → s.status c ≠ .hanging := by
  have hend : ([.fork 0, .forkEnd 0, .fork 3, .forkEnd 3, .wait 0, .wait 3, .exit 4 0,
      .exitEnd 4].foldlM Procs.seenStep? Procs.boot).map (fun s =>
        ((s.status 0, s.status 3, s.status 4), decide (0 ∈ s.threadAllList),
          decide (∀ p ∈ s.threadAllList, s.place p ≠ .exiting))) =
      some ((.waiting, .ready, .hanging), true, true) := by
    decide +kernel
  obtain ⟨s, hfold, hs⟩ := Option.map_eq_some_iff.mp hend
  obtain ⟨hstatus, hrest⟩ := Prod.mk.inj hs
  obtain ⟨hmem, hexit⟩ := Prod.mk.inj hrest
  have hrun : Procs.Run Procs.InitSees Procs.boot s := by
    refine Run.of_foldlM ?_ hfold
    intro s e s' hstep
    obtain ⟨hsees, hstep⟩ := Option.ite_none_right_eq_some.mp hstep
    exact ⟨hsees, Procs.step_of_step? hstep⟩
  exact ⟨s, hstatus, no_zombie_of_waiting Procs.boot s Procs.boot_initial hrun
    (of_decide_eq_true hexit) 0 (of_decide_eq_true hmem) (Prod.mk.inj hstatus).1⟩

/-! ## Three generations -/

/-- `init` forks 3, which forks 4, which forks 5; `init` waits, 5 ends, and then 4. -/
def adoptedZombieRun : List Procs.ProcEvent :=
  [.fork 0, .forkEnd 0, .fork 3, .forkEnd 3, .fork 4, .forkEnd 4,
    .wait 0, .exit 5 0, .exitEnd 5,
    -- 5 is HANGING and gets `init` for its parent; 4 wakes its own parent only
    .exit 4 0, .exitEnd 4]

theorem adoptedZombie_end : (adoptedZombieRun.foldlM Procs.step? Procs.boot).map (fun s =>
    (s.threadAllList, s.threadAllList.map s.place, s.status 0, s.status 5, s.parentPid 5, s.pid 0)) =
      some ([0, 1, 2, 3, 4, 5], [.waiting, .user, .user, .user, .hanging, .hanging], .waiting,
        .hanging, 1, 1) := by
  decide +kernel

/-- `init` sleeps over a zombie, and no process is in `sys_exit`. -/
theorem init_sleeps_over_zombie :
    ¬ ∀ s₀ s : Procs, s₀.Initial → Procs.Run (fun _ _ => True) s₀ s →
      (∀ p ∈ s.threadAllList, s.place p ≠ .exiting) →
      ∀ q ∈ s.threadAllList, s.status q = .waiting → ∀ c ∈ s.threadAllList,
        s.parentPid c = s.pid q → s.status c ≠ .hanging := by
  intro hclaim
  obtain ⟨s, hrun, hs⟩ := Option.map_eq_some_iff.mp adoptedZombie_end
  simp only [Prod.mk.injEq] at hs
  obtain ⟨hall, hplaces, hwait, hhang, hparent, hpid⟩ := hs
  rw [hall] at hplaces
  simp only [List.map_cons, List.map_nil, List.cons.injEq] at hplaces
  obtain ⟨h0, h1, h2, h3, h4, h5, -⟩ := hplaces
  refine hclaim Procs.boot s Procs.boot_initial (Procs.run_of_foldlM hrun) ?_ 0 (by simp [hall])
    hwait 5 (by simp [hall]) (hparent.trans hpid.symm) hhang
  intro p hp
  rw [hall] at hp
  simp only [List.mem_cons, List.not_mem_nil, or_false] at hp
  rcases hp with rfl | rfl | rfl | rfl | rfl | rfl <;> simp [*]

end ZxyOs
