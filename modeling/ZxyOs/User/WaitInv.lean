/-
  ZxyOs.User.WaitInv

  What holds of processes, pids and parents between any two cuts of the system calls.

  What a function can do is said once, as an edit of the state (`forked`, `adopted`,
  `hangs`, `taken`), and each function is inverted to it.  `ProcsOk` has three groups
  of facts: the pids in use are distinct and their bits are set; the parent pid of a
  process is the pid of the process that created or adopted it, which has not called
  `exit`; and who is being reaped, or has been, was `HANGING` and is in no list.
-/

import ZxyOs.User.WaitExit

namespace ZxyOs

open Lib Lib.Exec

namespace Procs

/-! ## What the functions do -/

/-- `sys_fork` has filled in the control block of a child of `t`, with pid `i + 1`. -/
def forked (s : Procs) (t i : Nat) : Procs :=
  { s with
    exitStatus := Function.update s.exitStatus s.nextThread (s.exitStatus t)
    isProcess := Function.update s.isProcess s.nextThread (s.isProcess t)
    pid := Function.update s.pid s.nextThread (i + 1)
    status := Function.update s.status s.nextThread .ready
    parentPid := Function.update s.parentPid s.nextThread (s.pid t)
    pidBitmap := s.pidBitmap.bitmapSet i true
    nextThread := s.nextThread + 1
    parent := Function.update s.parent s.nextThread t
    place := Function.update (Function.update s.place s.nextThread .user) t
      (.forking s.nextThread) }

/-- `c` is a child of `t` by its pid. -/
abbrev IsChild (s : Procs) (t c : Nat) : Prop := c ∈ s.threadAllList ∧ s.parentPid c = s.pid t

/-- `sys_exit` has given the children of `t` to `init`. -/
def adopted (s : Procs) (t : Nat) (status : Int) : Procs :=
  { s with
    exitStatus := Function.update s.exitStatus t (toInt8 status)
    exitArg := Function.update s.exitArg t (some status)
    parentPid := fun c => if s.IsChild t c then 1 else s.parentPid c
    parent := fun c => if s.IsChild t c then initProc else s.parent c
    place := Function.update s.place t .exiting }

/-- `sys_exit` of `t` is over: a waiting parent `q` is awake. -/
def hangs (s : Procs) (t q : Nat) : Procs :=
  { s with
    status := Function.update
      (Function.update s.status q (if s.status q = .waiting then .ready else s.status q)) t .hanging
    place := Function.update s.place t .hanging
    hung := t :: s.hung }

/-- `sys_wait` of `t` has unlinked its child `c`. -/
def taken (s : Procs) (t c : Nat) : Procs :=
  { s with
    status := Function.update s.status c .died
    threadAllList := s.threadAllList.erase c
    freed := c :: s.freed
    place := Function.update s.place t (.reaping c (s.pid c) (s.exitStatus c)) }

section Inversion

variable {s s' : Procs} {t c : Nat} {pid status : Int} {o : WaitOutcome}

theorem forkCopy_inv (h : Returns (forkCopy t) s () s') :
    ∃ i, s.pidBitmap.IsFirstClear i ∧ s' = s.forked t i := by
  simp only [forkCopy, allocatePid, returns_bind, returns_query, returns_assert] at h
  obtain ⟨_, _, ⟨rfl, rfl⟩, _, _, ⟨-, rfl⟩, child, _, ⟨rfl, rfl⟩, pid, s₁, hpid, h⟩ := h
  obtain ⟨b, _, ⟨rfl, rfl⟩, r, _, hscan, hpid⟩ := hpid
  obtain ⟨rfl, i, rfl, hi⟩ := Bitmap.returns_bitmapScan_one.mp hscan
  simp only [returns_bind, returns_update, returns_pure] at hpid h
  obtain ⟨_, _, rfl, rfl, rfl⟩ := hpid
  obtain ⟨_, _, rfl, _, _, rfl, rfl⟩ := h
  exact ⟨i, hi, rfl⟩

theorem forkEnd_inv (h : Returns (forkEnd t c) s () s') : c ∉ s.threadAllList ∧
    s' = { s.setPlace t .user with threadAllList := s.threadAllList ++ [c] } := by
  simp only [forkEnd, returns_bind, returns_query, returns_assert, returns_update] at h
  obtain ⟨_, _, ⟨rfl, rfl⟩, _, _, ⟨hmem, rfl⟩, _, _, rfl, rfl⟩ := h
  exact ⟨hmem, rfl⟩

theorem exitStart_inv (h : Returns (exitStart t status) s () s') :
    s.parentPid t ≠ -1 ∧ s' = s.adopted t status := by
  simp only [exitStart, adoptChildren, returns_bind, returns_query, returns_assert,
    returns_update] at h
  obtain ⟨_, _, rfl, _, _, ⟨rfl, rfl⟩, _, _, ⟨hparent, rfl⟩, _, _, ⟨rfl, rfl⟩, _, _, rfl, rfl⟩ := h
  exact ⟨hparent, rfl⟩

theorem exitEnd_inv (h : Returns (exitEnd t) s () s') :
    ∃ q, s.threadAllList.find? (fun c => s.pid c = s.parentPid t) = some q ∧ s' = s.hangs t q := by
  simp only [exitEnd, pidToThread, returns_bind, returns_query, returns_pure, returns_deref] at h
  obtain ⟨_, _, ⟨rfl, rfl⟩, _, _, ⟨_, _, ⟨rfl, rfl⟩, rfl, rfl⟩, q, _, ⟨hfind, rfl⟩, stat, _,
    ⟨rfl, rfl⟩, h⟩ := h
  refine ⟨q, hfind, ?_⟩
  by_cases hwait : s.status q = .waiting
  · simp only [hwait, if_true, returns_bind, returns_update] at h
    obtain ⟨_, _, rfl, _, _, rfl, rfl⟩ := h
    simp [hangs, hwait, setStatus, setPlace]
  · simp only [hwait, if_false, returns_bind, returns_update] at h
    obtain ⟨_, _, rfl, rfl⟩ := h
    simp [hangs, hwait, setStatus, setPlace]

/-- `sys_wait` reaps the first hanging child, or finds no child, or sleeps. -/
theorem sysWait_inv (h : Returns (sysWait t) s o s') :
    o = .reaps ∧ (∃ c ∈ s.threadAllList, s.status c = .hanging ∧ s.parentPid c = s.pid t ∧
        s' = s.taken t c) ∨
      o = .noChild ∧ (∀ c ∈ s.threadAllList, s.parentPid c ≠ s.pid t) ∧ s' = s.setPlace t .user ∨
      o = .sleeps ∧ (∀ c ∈ s.threadAllList, ¬ (s.status c = .hanging ∧ s.parentPid c = s.pid t)) ∧
        s' = (s.setStatus t .waiting).setPlace t .waiting := by
  simp only [sysWait, findHangingChild, findChild, returns_bind, returns_query, returns_pure] at h
  obtain ⟨_, _, ⟨rfl, rfl⟩, _, _, ⟨_, _, ⟨rfl, rfl⟩, rfl, rfl⟩, h⟩ := h
  simp only [id_eq] at h
  cases hhanging : s.threadAllList.find? fun c => s.status c = .hanging ∧
      s.parentPid c = s.pid t with
  | some c =>
    have hc : s.status c = .hanging ∧ s.parentPid c = s.pid t := by
      simpa using List.find?_some hhanging
    have hmem : c ∈ s.threadAllList := List.mem_of_find?_eq_some hhanging
    rw [hhanging] at h
    simp only [threadExit, returns_bind, returns_query, returns_update, returns_require,
      returns_pure] at h
    obtain ⟨_, _, ⟨rfl, rfl⟩, _, _, ⟨rfl, rfl⟩, _, _, ⟨_, _, rfl, _, _, ⟨rfl, rfl⟩, _, _,
      ⟨-, rfl⟩, rfl⟩, _, _, rfl, rfl, rfl⟩ := h
    exact Or.inl ⟨rfl, c, hmem, hc.1, hc.2, rfl⟩
  | none =>
    have hnone : ∀ c ∈ s.threadAllList, ¬ (s.status c = .hanging ∧ s.parentPid c = s.pid t) := by
      simpa using hhanging
    right
    rw [hhanging] at h
    simp only [returns_bind, returns_query, returns_pure] at h
    obtain ⟨_, _, ⟨_, _, ⟨rfl, rfl⟩, rfl, rfl⟩, h⟩ := h
    simp only [id_eq] at h
    cases hchild : s.threadAllList.find? fun c => s.parentPid c = s.pid t with
    | none =>
      rw [hchild] at h
      simp only [returns_bind, returns_update, returns_pure] at h
      obtain ⟨_, _, rfl, rfl, rfl⟩ := h
      have hall : ∀ c ∈ s.threadAllList, s.parentPid c ≠ s.pid t := by simpa using hchild
      exact Or.inl ⟨rfl, hall, rfl⟩
    | some c =>
      rw [hchild] at h
      simp only [returns_bind, returns_update, returns_pure] at h
      obtain ⟨_, _, rfl, _, _, rfl, rfl, rfl⟩ := h
      exact Or.inr ⟨rfl, hnone, rfl⟩

theorem waitEnd_inv (h : Returns (waitEnd t c pid status) s () s') :
    s' = { s.setPlace t .user with
      pidBitmap := s.pidBitmap.bitmapSet (s.pid c - 1).toNat false
      reaped := ⟨t, c, pid, status⟩ :: s.reaped } := by
  simp only [waitEnd, releasePid, returns_bind, returns_query, returns_update] at h
  obtain ⟨_, _, ⟨rfl, rfl⟩, _, _, rfl, rfl⟩ := h
  rfl

theorem threadEnds_inv (h : Returns (threadEnds t) s () s') :
    s' = { s.setStatus t .died with
      threadAllList := s.threadAllList.erase t
      pidBitmap := s.pidBitmap.bitmapSet (s.pid t - 1).toNat false } := by
  simp only [threadEnds, releasePid, returns_bind, returns_query, returns_update] at h
  obtain ⟨_, _, rfl, _, _, rfl, _, _, ⟨rfl, rfl⟩, rfl⟩ := h
  rfl

end Inversion

end Procs

/-- The control block a process has in hand, that of its new or of its ended child. -/
def Place.child : Place → Option Nat
  | .forking c => some c
  | .reaping c _ _ => some c
  | _ => none

namespace Procs

/-- The thread has a pid: it is in the list, or being created or reaped. -/
def Holder (s : Procs) (t : Nat) : Prop :=
  t ∈ s.threadAllList ∨ ∃ p ∈ s.threadAllList, (s.place p).child = some t

/-- The parent pid of `c` is that of `parent c`, which has not called `exit`. -/
structure Parented (s : Procs) (c : Nat) : Prop where
  mem : s.parent c ∈ s.threadAllList
  pid : s.pid (s.parent c) = s.parentPid c
  isProcess : s.isProcess (s.parent c) = true
  not_exiting : s.place (s.parent c) ≠ .exiting
  not_hanging : s.place (s.parent c) ≠ .hanging

/-- What is known of a child that has been reaped. -/
structure WasReaped (s : Procs) (e : Reaped) : Prop where
  lt : e.child < s.nextThread
  not_mem : e.child ∉ s.threadAllList
  parent : s.parent e.child = e.parent
  pid : e.childPid = s.pid e.child
  status : ∃ a, s.exitArg e.child = some a ∧ e.status = toInt8 a
  hung : e.child ∈ s.hung
  freed : e.child ∈ s.freed

structure ProcsOk (s : Procs) : Prop where
  all_nodup : s.threadAllList.Nodup
  holder_lt : ∀ t, s.Holder t → t < s.nextThread
  holder_pid : ∀ t, s.Holder t → ∃ i : Nat, s.pid t = i + 1 ∧ s.pidBitmap.bit i = true
  holder_inj : ∀ t u, s.Holder t → s.Holder u → s.pid t = s.pid u → t = u
  init_mem : initProc ∈ s.threadAllList
  init_pid : s.pid initProc = 1
  init_parent : s.parentPid initProc = -1
  init_process : s.isProcess initProc = true
  parented : ∀ c ∈ s.threadAllList, s.parentPid c ≠ -1 → s.Parented c
  kernel : ∀ t ∈ s.threadAllList, s.isProcess t = false → s.place t = .user
  hand_not_mem : ∀ p ∈ s.threadAllList, ∀ c, (s.place p).child = some c → c ∉ s.threadAllList
  hand_unique : ∀ p ∈ s.threadAllList, ∀ q ∈ s.threadAllList, ∀ c, (s.place p).child = some c →
    (s.place q).child = some c → p = q
  hand_fresh : ∀ p ∈ s.threadAllList, ∀ c, (s.place p).child = some c → ∀ e ∈ s.reaped, e.child ≠ c
  forking : ∀ p ∈ s.threadAllList, ∀ c, s.place p = .forking c → s.parent c = p ∧
    s.parentPid c = s.pid p ∧ s.place c = .user ∧ s.status c = .ready ∧ s.isProcess c = true
  reaping : ∀ p ∈ s.threadAllList, ∀ c pid status, s.place p = .reaping c pid status →
    s.WasReaped ⟨p, c, pid, status⟩
  hanging : ∀ t ∈ s.threadAllList, s.status t = .hanging ↔ s.place t = .hanging
  waiting : ∀ t ∈ s.threadAllList, s.status t = .waiting → s.place t = .waiting
  exits : ∀ t ∈ s.threadAllList, s.place t = .exiting ∨ s.place t = .hanging →
    s.parentPid t ≠ -1 ∧ ∃ a, s.exitArg t = some a ∧ s.exitStatus t = toInt8 a
  hung : ∀ t ∈ s.threadAllList, s.place t = .hanging → t ∈ s.hung
  freed : ∀ t ∈ s.freed, t ∈ s.hung
  reaped : ∀ e ∈ s.reaped, s.WasReaped e
  reaped_nodup : (s.reaped.map Reaped.child).Nodup

section Keeps

variable {s : Procs} {t c q i : Nat} {p : Place}

theorem ProcsOk.lt (h : s.ProcsOk) (ht : t ∈ s.threadAllList) : t < s.nextThread :=
  h.holder_lt t (Or.inl ht)

/-- No process is its own child. -/
theorem ProcsOk.pid_pos (h : s.ProcsOk) (ht : t ∈ s.threadAllList) : 1 ≤ s.pid t := by
  obtain ⟨i, hi, -⟩ := h.holder_pid t (Or.inl ht)
  omega

/-- A child by pid is one by `parent`. -/
theorem ProcsOk.parent_eq (h : s.ProcsOk) (ht : t ∈ s.threadAllList) (hc : s.IsChild t c) :
    s.parent c = t := by
  have hpos := h.pid_pos ht
  have hparented := h.parented c hc.1 (by rw [hc.2]; omega)
  exact h.holder_inj _ _ (Or.inl hparented.mem) (Or.inl ht) (hparented.pid.trans hc.2)

/-- The control block `c` may be taken in hand: it has a pid of its own, and nobody
    knows it. -/
structure Loose (s : Procs) (c : Nat) : Prop where
  lt : c < s.nextThread
  pid : ∃ i : Nat, s.pid c = i + 1 ∧ s.pidBitmap.bit i = true
  alone : ∀ u, s.Holder u → s.pid u = s.pid c → u = c
  not_mem : c ∉ s.threadAllList
  no_hand : ∀ q ∈ s.threadAllList, (s.place q).child ≠ some c
  fresh : ∀ e ∈ s.reaped, e.child ≠ c

/-- A process goes to another place, and may take a child in hand. -/
theorem ProcsOk.setPlace (h : s.ProcsOk) (ht : t ∈ s.threadAllList)
    (hprocess : s.isProcess t = true) (hready : s.status t = .ready)
    (hp : p ≠ .exiting ∧ p ≠ .hanging) (hhand : ∀ c, p.child = some c → s.Loose c)
    (hforking : ∀ c, p = .forking c → s.parent c = t ∧ s.parentPid c = s.pid t ∧
      s.place c = .user ∧ s.status c = .ready ∧ s.isProcess c = true)
    (hreaping : ∀ c pid status, p = .reaping c pid status → s.WasReaped ⟨t, c, pid, status⟩) :
    (s.setPlace t p).ProcsOk := by
  have hother (u : Nat) (hu : u ≠ t) : (s.setPlace t p).place u = s.place u :=
    Function.update_of_ne hu ..
  have hself : (s.setPlace t p).place t = p := Function.update_self ..
  have hholder (u : Nat) (hu : (s.setPlace t p).Holder u) : s.Holder u ∨ s.Loose u := by
    rcases hu with hmem | ⟨v, hv, hvu⟩
    · exact Or.inl (Or.inl hmem)
    · by_cases hne : v = t
      · rw [hne, hself] at hvu
        exact Or.inr (hhand u hvu)
      · rw [hother v hne] at hvu
        exact Or.inl (Or.inr ⟨v, hv, hvu⟩)
  -- a child in hand is one of before, or it is the one just taken
  have hcases (u c : Nat) (hu : ((s.setPlace t p).place u).child = some c) :
      u = t ∧ s.Loose c ∨ u ≠ t ∧ (s.place u).child = some c := by
    by_cases hne : u = t
    · subst hne
      rw [hself] at hu
      exact Or.inl ⟨rfl, hhand c hu⟩
    · rw [hother u hne] at hu
      exact Or.inr ⟨hne, hu⟩
  exact
    { h with
      holder_lt := by
        intro u hu
        rcases hholder u hu with hold | hloose
        · exact h.holder_lt u hold
        · exact hloose.lt
      holder_pid := by
        intro u hu
        rcases hholder u hu with hold | hloose
        · exact h.holder_pid u hold
        · exact hloose.pid
      holder_inj := by
        intro u v hu hv heq
        rcases hholder u hu with hold | hloose
        · rcases hholder v hv with hold' | hloose'
          · exact h.holder_inj u v hold hold' heq
          · exact hloose'.alone u hold heq
        · rcases hu with hmem | ⟨w, hw, hwu⟩
          · exact absurd hmem hloose.not_mem
          · rcases hv with hmem' | ⟨w', hw', hwv⟩
            · exact (hloose.alone v (Or.inl hmem') heq.symm).symm
            · rcases hcases w' v hwv with ⟨rfl, -⟩ | ⟨-, hold⟩
              · rcases hcases w u hwu with ⟨rfl, -⟩ | ⟨-, hold'⟩
                · exact Option.some.inj (hwu.symm.trans hwv)
                · exact absurd hold' (hloose.no_hand w hw)
              · exact (hloose.alone v (Or.inr ⟨w', hw', hold⟩) heq.symm).symm
      parented := by
        intro c hc hpar
        have hparented := h.parented c hc hpar
        by_cases hne : s.parent c = t
        · refine { hparented with not_exiting := ?_, not_hanging := ?_ }
          · show Function.update s.place t p (s.parent c) ≠ .exiting
            rw [hne, Function.update_self]
            exact hp.1
          · show Function.update s.place t p (s.parent c) ≠ .hanging
            rw [hne, Function.update_self]
            exact hp.2
        · refine { hparented with not_exiting := ?_, not_hanging := ?_ }
          · show Function.update s.place t p (s.parent c) ≠ .exiting
            rw [Function.update_of_ne hne]
            exact hparented.not_exiting
          · show Function.update s.place t p (s.parent c) ≠ .hanging
            rw [Function.update_of_ne hne]
            exact hparented.not_hanging
      kernel := by
        intro u hu hkernel
        have hne : u ≠ t := by
          rintro rfl
          have hk : s.isProcess u = false := hkernel
          rw [hprocess] at hk
          cases hk
        rw [hother u hne]
        exact h.kernel u hu hkernel
      hand_not_mem := by
        intro u hu c hc
        rcases hcases u c hc with ⟨-, hloose⟩ | ⟨-, hold⟩
        · exact hloose.not_mem
        · exact h.hand_not_mem u hu c hold
      hand_unique := by
        intro u hu v hv c hc hc'
        rcases hcases u c hc with ⟨hut, hloose⟩ | ⟨-, hold⟩
        · rcases hcases v c hc' with ⟨hvt, -⟩ | ⟨-, hold'⟩
          · exact hut.trans hvt.symm
          · exact absurd hold' (hloose.no_hand v hv)
        · rcases hcases v c hc' with ⟨-, hloose⟩ | ⟨-, hold'⟩
          · exact absurd hold (hloose.no_hand u hu)
          · exact h.hand_unique u hu v hv c hold hold'
      hand_fresh := by
        intro u hu c hc
        rcases hcases u c hc with ⟨-, hloose⟩ | ⟨-, hold⟩
        · exact hloose.fresh
        · exact h.hand_fresh u hu c hold
      forking := by
        intro u hu c hc
        have hknown : c ∉ s.threadAllList ∧ s.parent c = u ∧ s.parentPid c = s.pid u ∧
            s.place c = .user ∧ s.status c = .ready ∧ s.isProcess c = true := by
          by_cases hne : u = t
          · subst hne
            rw [hself] at hc
            exact ⟨(hhand c (by rw [hc]; rfl)).not_mem, hforking c hc⟩
          · rw [hother u hne] at hc
            exact ⟨h.hand_not_mem u hu c (by rw [hc]; rfl), h.forking u hu c hc⟩
        obtain ⟨hmem, hparent, hpid, hplace, hrest⟩ := hknown
        have hne : c ≠ t := fun heq => hmem (heq ▸ ht)
        refine ⟨hparent, hpid, ?_, hrest⟩
        rw [hother c hne]
        exact hplace
      reaping := by
        intro u hu c pid status hc
        have hwas : s.WasReaped ⟨u, c, pid, status⟩ := by
          by_cases hne : u = t
          · subst hne
            rw [hself] at hc
            exact hreaping c pid status hc
          · rw [hother u hne] at hc
            exact h.reaping u hu c pid status hc
        exact { hwas with }
      hanging := by
        intro u hu
        by_cases hne : u = t
        · subst hne
          rw [hself]
          have hstat : (s.setPlace u p).status u = .ready := hready
          rw [hstat]
          exact ⟨fun hc => (by cases hc), fun hc => absurd hc hp.2⟩
        · rw [hother u hne]
          exact h.hanging u hu
      waiting := by
        intro u hu hwait
        have hne : u ≠ t := by
          rintro rfl
          have hwait' : s.status u = .waiting := hwait
          rw [hready] at hwait'
          cases hwait'
        rw [hother u hne]
        exact h.waiting u hu hwait
      exits := by
        intro u hu hexit
        have hne : u ≠ t := by
          rintro rfl
          rw [hself] at hexit
          exact hexit.elim hp.1 hp.2
        rw [hother u hne] at hexit
        exact h.exits u hu hexit
      hung := by
        intro u hu hhang
        have hne : u ≠ t := by
          rintro rfl
          rw [hself] at hhang
          exact hp.2 hhang
        rw [hother u hne] at hhang
        exact h.hung u hu hhang
      reaped := fun e he => { h.reaped e he with } }

/-- A process goes to a place without a child in hand. -/
theorem ProcsOk.letGo (h : s.ProcsOk) (ht : t ∈ s.threadAllList) (hprocess : s.isProcess t = true)
    (hready : s.status t = .ready) (hp : p = .user ∨ p = .waiting) : (s.setPlace t p).ProcsOk := by
  apply h.setPlace ht hprocess hready
  · rcases hp with rfl | rfl <;> simp
  · rintro c hc
    rcases hp with rfl | rfl <;> cases hc
  · rintro c rfl
    simp at hp
  · rintro c pid status rfl
    simp at hp

/-- The status of a thread in the list changes in step with its place. -/
theorem ProcsOk.setStatus (h : s.ProcsOk) (ht : t ∈ s.threadAllList) {stat : TaskStatus}
    (hhang : stat = .hanging ↔ s.place t = .hanging) (hwait : stat = .waiting → s.place t = .waiting) :
    (s.setStatus t stat).ProcsOk := by
  have hother (u : Nat) (hu : u ≠ t) : (s.setStatus t stat).status u = s.status u :=
    Function.update_of_ne hu ..
  have hself : (s.setStatus t stat).status t = stat := Function.update_self ..
  exact
    { h with
      parented := fun c hc hpar => { h.parented c hc hpar with }
      forking := by
        intro u hu c hc
        obtain ⟨hparent, hpid, hplace, hstat, hrest⟩ := h.forking u hu c hc
        have hne : c ≠ t := by
          rintro rfl
          have hc' : s.place u = .forking c := hc
          exact h.hand_not_mem u hu c (by rw [hc']; rfl) ht
        refine ⟨hparent, hpid, hplace, ?_, hrest⟩
        rw [hother c hne]
        exact hstat
      reaping := fun u hu c pid status hc => { h.reaping u hu c pid status hc with }
      hanging := by
        intro u hu
        by_cases hne : u = t
        · rw [hne, hself]
          exact hhang
        · rw [hother u hne]
          exact h.hanging u hu
      waiting := by
        intro u hu hw
        by_cases hne : u = t
        · rw [hne, hself] at hw
          rw [hne]
          exact hwait hw
        · rw [hother u hne] at hw
          exact h.waiting u hu hw
      reaped := fun e he => { h.reaped e he with } }

/-- The thread leaves the list of all threads. -/
def unlinked (s : Procs) (c : Nat) : Procs :=
  { s.setStatus c .died with threadAllList := s.threadAllList.erase c }

/-- A thread without children leaves the list. -/
theorem ProcsOk.unlinked (h : s.ProcsOk) (hc : c ∈ s.threadAllList) (hinit : c ≠ initProc)
    (hparent : ∀ d ∈ s.threadAllList, s.Parented d → s.parent d ≠ c) : (s.unlinked c).ProcsOk := by
  have hmem (u : Nat) (hu : u ∈ (s.unlinked c).threadAllList) : u ≠ c ∧ u ∈ s.threadAllList :=
    h.all_nodup.mem_erase_iff.mp hu
  have hback (u : Nat) (hu : u ∈ s.threadAllList) (hne : u ≠ c) :
      u ∈ (s.unlinked c).threadAllList :=
    h.all_nodup.mem_erase_iff.mpr ⟨hne, hu⟩
  have hstat (u : Nat) (hu : u ≠ c) : (s.unlinked c).status u = s.status u :=
    Function.update_of_ne hu ..
  have hholder (u : Nat) (hu : (s.unlinked c).Holder u) : s.Holder u := by
    rcases hu with hu | ⟨v, hv, hvu⟩
    · exact Or.inl (hmem u hu).2
    · exact Or.inr ⟨v, (hmem v hv).2, hvu⟩
  have hgone (u : Nat) (hu : u ∉ s.threadAllList) : u ∉ (s.unlinked c).threadAllList :=
    fun hu' => hu (hmem u hu').2
  have hwas (e : Reaped) (he : s.WasReaped e) : (s.unlinked c).WasReaped e :=
    { he with not_mem := hgone _ he.not_mem }
  exact
    { h with
      all_nodup := h.all_nodup.erase c
      holder_lt := fun u hu => h.holder_lt u (hholder u hu)
      holder_pid := fun u hu => h.holder_pid u (hholder u hu)
      holder_inj := fun u v hu hv => h.holder_inj u v (hholder u hu) (hholder v hv)
      init_mem := hback _ h.init_mem (Ne.symm hinit)
      parented := by
        intro d hd hpar
        have hparented := h.parented d (hmem d hd).2 hpar
        exact { hparented with
          mem := hback _ hparented.mem (hparent d (hmem d hd).2 hparented) }
      kernel := fun u hu => h.kernel u (hmem u hu).2
      hand_not_mem := fun u hu d hd => hgone d (h.hand_not_mem u (hmem u hu).2 d hd)
      hand_unique := fun u hu v hv => h.hand_unique u (hmem u hu).2 v (hmem v hv).2
      hand_fresh := fun u hu => h.hand_fresh u (hmem u hu).2
      forking := by
        intro u hu d hd
        obtain ⟨hparent, hpid, hplace, hready, hrest⟩ := h.forking u (hmem u hu).2 d hd
        refine ⟨hparent, hpid, hplace, ?_, hrest⟩
        have hne : d ≠ c := by
          rintro rfl
          have hd' : s.place u = .forking d := hd
          exact h.hand_not_mem u (hmem u hu).2 d (by rw [hd']; rfl) hc
        rw [hstat d hne]
        exact hready
      reaping := fun u hu d pid status hd => hwas _ (h.reaping u (hmem u hu).2 d pid status hd)
      hanging := by
        intro u hu
        rw [hstat u (hmem u hu).1]
        exact h.hanging u (hmem u hu).2
      waiting := by
        intro u hu hw
        rw [hstat u (hmem u hu).1] at hw
        exact h.waiting u (hmem u hu).2 hw
      exits := fun u hu => h.exits u (hmem u hu).2
      hung := fun u hu => h.hung u (hmem u hu).2
      reaped := fun e he => hwas e (h.reaped e he) }

/-- The bit of a pid nobody has is cleared. -/
theorem ProcsOk.clearPid (h : s.ProcsOk) {pid : Int} (hfree : ∀ u, s.Holder u → s.pid u ≠ pid)
    (hpos : 1 ≤ pid) :
    ProcsOk { s with pidBitmap := s.pidBitmap.bitmapSet (pid - 1).toNat false } :=
  { h with
    holder_pid := by
      intro u hu
      obtain ⟨i, hi, hbit⟩ := h.holder_pid u hu
      refine ⟨i, hi, ?_⟩
      have hne : i ≠ (pid - 1).toNat := by
        have hpid := hfree u hu
        omega
      show (s.pidBitmap.bitmapSet _ false).bit i = true
      rw [Bitmap.bitmapSet_bit_ne hne]
      exact hbit
    parented := fun c hc hpar => { h.parented c hc hpar with }
    reaping := fun u hu c pid status hc => { h.reaping u hu c pid status hc with }
    reaped := fun e he => { h.reaped e he with } }

/-- `sys_wait` of `t` takes its hanging child `c`. -/
theorem ProcsOk.taken (h : s.ProcsOk) (ht : t ∈ s.threadAllList) (hprocess : s.isProcess t = true)
    (hready : s.status t = .ready) (hc : s.IsChild t c)
    (hhang : s.status c = .hanging) : (s.taken t c).ProcsOk := by
  have hne : c ≠ t := by
    rintro rfl
    rw [hready] at hhang
    cases hhang
  have hplacec : s.place c = .hanging := (h.hanging c hc.1).mp hhang
  have hinit : c ≠ initProc := by
    rintro rfl
    have hpos := h.pid_pos ht
    rw [← hc.2, h.init_parent] at hpos
    omega
  have hunlinked : (s.unlinked c).ProcsOk := by
    apply h.unlinked hc.1 hinit
    intro d hd hparented heq
    exact hparented.not_hanging (heq ▸ hplacec)
  have hother (u : Nat) (hu : u ≠ c) : (s.unlinked c).status u = s.status u :=
    Function.update_of_ne hu ..
  have hmem (u : Nat) (hu : u ∈ (s.unlinked c).threadAllList) : u ∈ s.threadAllList :=
    List.mem_of_mem_erase hu
  have hholder (u : Nat) (hu : (s.unlinked c).Holder u) : s.Holder u := by
    rcases hu with hu | ⟨v, hv, hvu⟩
    · exact Or.inl (hmem u hu)
    · exact Or.inr ⟨v, hmem v hv, hvu⟩
  obtain ⟨-, a, harg, hstatus⟩ := h.exits c hc.1 (Or.inr hplacec)
  have hhung : c ∈ s.hung := h.hung c hc.1 hplacec
  have hgone : c ∉ (s.unlinked c).threadAllList := fun hc' =>
    (h.all_nodup.mem_erase_iff.mp hc').1 rfl
  have hfreed : ProcsOk { s.unlinked c with freed := c :: s.freed } :=
    { hunlinked with
      parented := fun d hd hpar => { hunlinked.parented d hd hpar with }
      reaping := fun u hu d pid status hd =>
        { hunlinked.reaping u hu d pid status hd with
          freed := List.mem_cons_of_mem c (hunlinked.reaping u hu d pid status hd).freed }
      freed := by
        intro d hd
        rcases List.mem_cons.mp hd with rfl | hd
        · exact hhung
        · exact h.freed d hd
      reaped := fun e he =>
        { hunlinked.reaped e he with
          freed := List.mem_cons_of_mem c (hunlinked.reaped e he).freed } }
  apply hfreed.setPlace (t := t)
  · exact h.all_nodup.mem_erase_iff.mpr ⟨Ne.symm hne, ht⟩
  · exact hprocess
  · exact (hother t (Ne.symm hne)).trans hready
  · simp
  · intro d hd
    obtain rfl : c = d := Option.some.inj hd
    exact
      { lt := h.lt hc.1
        pid := h.holder_pid c (Or.inl hc.1)
        alone := fun u hu heq => h.holder_inj u c (hholder u hu) (Or.inl hc.1) heq
        not_mem := hgone
        no_hand := fun q hq hq' => h.hand_not_mem q (hmem q hq) c hq' hc.1
        fresh := fun e he heq => (h.reaped e he).not_mem (heq ▸ hc.1) }
  · intro d hd
    cases hd
  · intro d pid status hd
    injection hd with hcd hpid hstat
    subst hcd hpid hstat
    exact
      { lt := h.lt hc.1
        not_mem := hgone
        parent := h.parent_eq ht hc
        pid := rfl
        status := ⟨a, harg, hstatus⟩
        hung := hhung
        freed := List.mem_cons_self }

end Keeps

end Procs

end ZxyOs
