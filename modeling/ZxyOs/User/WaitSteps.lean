/-
  ZxyOs.User.WaitSteps

  Every step of the processes keeps `ProcsOk`.

  `sys_fork` writes fields nobody reads yet and hands the new control block to the
  parent, which puts it in the list; `sys_exit` makes `init` the parent of the children
  before it sleeps for good; `sys_wait` takes a sleeping child out of the list and frees
  its pid when nobody has it.
-/

import ZxyOs.User.WaitInv

namespace ZxyOs

open Lib Lib.Exec

namespace Procs

section Keeps

variable {s : Procs} {t c q i : Nat}

/-! ## fork -/

/-- The fields of the control block at `nextThread` are written, and its bit is set. -/
def allocated (s : Procs) (t i : Nat) : Procs :=
  { s.forked t i with place := Function.update s.place s.nextThread .user }

theorem ProcsOk.allocated (h : s.ProcsOk) : (s.allocated t i).ProcsOk := by
  -- the new number is nobody's, so the fields of the others are left alone
  have hother {β : Type} (f : Nat → β) (v : β) (u : Nat) (hu : u < s.nextThread) :
      Function.update f s.nextThread v u = f u :=
    Function.update_of_ne (Nat.ne_of_lt hu) ..
  have hlt (u : Nat) (hu : u ∈ s.threadAllList) : u < s.nextThread := h.lt hu
  have hplace (u : Nat) (hu : u ∈ s.threadAllList) : (s.allocated t i).place u = s.place u :=
    hother s.place .user u (hlt u hu)
  have hpid (u : Nat) (hu : u < s.nextThread) : (s.allocated t i).pid u = s.pid u :=
    hother s.pid _ u hu
  have hparent (u : Nat) (hu : u < s.nextThread) : (s.allocated t i).parent u = s.parent u :=
    hother s.parent _ u hu
  have hparentPid (u : Nat) (hu : u < s.nextThread) :
      (s.allocated t i).parentPid u = s.parentPid u :=
    hother s.parentPid _ u hu
  have hstatus (u : Nat) (hu : u < s.nextThread) : (s.allocated t i).status u = s.status u :=
    hother s.status _ u hu
  have hprocess (u : Nat) (hu : u < s.nextThread) :
      (s.allocated t i).isProcess u = s.isProcess u :=
    hother s.isProcess _ u hu
  have hholder (u : Nat) (hu : (s.allocated t i).Holder u) : s.Holder u := by
    rcases hu with hmem | ⟨v, hv, hvu⟩
    · exact Or.inl hmem
    · rw [hplace v hv] at hvu
      exact Or.inr ⟨v, hv, hvu⟩
  have hinit : initProc < s.nextThread := hlt _ h.init_mem
  have hwas (e : Reaped) (he : s.WasReaped e) : (s.allocated t i).WasReaped e :=
    { he with
      lt := Nat.lt_succ_of_lt he.lt
      parent := (hparent _ he.lt).trans he.parent
      pid := he.pid.trans (hpid _ he.lt).symm }
  exact
    { h with
      holder_lt := fun u hu => Nat.lt_succ_of_lt (h.holder_lt u (hholder u hu))
      holder_pid := by
        intro u hu
        obtain ⟨j, hj, hbit⟩ := h.holder_pid u (hholder u hu)
        refine ⟨j, (hpid u (h.holder_lt u (hholder u hu))).trans hj, ?_⟩
        show (s.pidBitmap.bitmapSet i true).bit j = true
        by_cases hji : j = i
        · rw [hji, Bitmap.bitmapSet_bit_self]
        · rw [Bitmap.bitmapSet_bit_ne hji]
          exact hbit
      holder_inj := by
        intro u v hu hv heq
        rw [hpid u (h.holder_lt u (hholder u hu)), hpid v (h.holder_lt v (hholder v hv))] at heq
        exact h.holder_inj u v (hholder u hu) (hholder v hv) heq
      init_pid := (hpid _ hinit).trans h.init_pid
      init_parent := (hparentPid _ hinit).trans h.init_parent
      init_process := (hprocess _ hinit).trans h.init_process
      parented := by
        intro c hc hpar
        rw [hparentPid c (hlt c hc)] at hpar
        have hparented := h.parented c hc hpar
        have hmem := hparented.mem
        refine ⟨?_, ?_, ?_, ?_, ?_⟩
        · rw [hparent c (hlt c hc)]
          exact hmem
        · rw [hparent c (hlt c hc), hparentPid c (hlt c hc), hpid _ (hlt _ hmem)]
          exact hparented.pid
        · rw [hparent c (hlt c hc), hprocess _ (hlt _ hmem)]
          exact hparented.isProcess
        · rw [hparent c (hlt c hc), hplace _ hmem]
          exact hparented.not_exiting
        · rw [hparent c (hlt c hc), hplace _ hmem]
          exact hparented.not_hanging
      kernel := by
        intro u hu hkernel
        rw [hprocess u (hlt u hu)] at hkernel
        rw [hplace u hu]
        exact h.kernel u hu hkernel
      hand_not_mem := by
        intro u hu c hc
        rw [hplace u hu] at hc
        exact h.hand_not_mem u hu c hc
      hand_unique := by
        intro u hu v hv c hc hc'
        rw [hplace u hu] at hc
        rw [hplace v hv] at hc'
        exact h.hand_unique u hu v hv c hc hc'
      hand_fresh := by
        intro u hu c hc
        rw [hplace u hu] at hc
        exact h.hand_fresh u hu c hc
      forking := by
        intro u hu c hc
        rw [hplace u hu] at hc
        have hclt : c < s.nextThread := h.holder_lt c (Or.inr ⟨u, hu, by rw [hc]; rfl⟩)
        obtain ⟨hpar, hppid, hplc, hready, hproc⟩ := h.forking u hu c hc
        rw [hparent c hclt, hparentPid c hclt, hpid u (hlt u hu), hstatus c hclt, hprocess c hclt]
        exact ⟨hpar, hppid, (hother s.place .user c hclt).trans hplc, hready, hproc⟩
      reaping := by
        intro u hu c pid status hc
        rw [hplace u hu] at hc
        exact hwas _ (h.reaping u hu c pid status hc)
      hanging := by
        intro u hu
        rw [hstatus u (hlt u hu), hplace u hu]
        exact h.hanging u hu
      waiting := by
        intro u hu hw
        rw [hstatus u (hlt u hu)] at hw
        rw [hplace u hu]
        exact h.waiting u hu hw
      exits := by
        intro u hu hexit
        rw [hplace u hu] at hexit
        have hexitStatus : (s.allocated t i).exitStatus u = s.exitStatus u :=
          hother s.exitStatus _ u (hlt u hu)
        rw [hparentPid u (hlt u hu), hexitStatus]
        exact h.exits u hu hexit
      hung := by
        intro u hu hplc
        rw [hplace u hu] at hplc
        exact h.hung u hu hplc
      reaped := fun e he => hwas e (h.reaped e he) }

theorem ProcsOk.forked (h : s.ProcsOk) (ht : t ∈ s.threadAllList) (hprocess : s.isProcess t = true)
    (hready : s.status t = .ready) (hi : s.pidBitmap.IsFirstClear i) : (s.forked t i).ProcsOk := by
  have hlt : t < s.nextThread := h.lt ht
  have hne : t ≠ s.nextThread := Nat.ne_of_lt hlt
  have hplace (u : Nat) (hu : u ∈ s.threadAllList) : (s.allocated t i).place u = s.place u :=
    Function.update_of_ne (Nat.ne_of_lt (h.lt hu)) ..
  have hholder (u : Nat) (hu : (s.allocated t i).Holder u) : s.Holder u := by
    rcases hu with hmem | ⟨v, hv, hvu⟩
    · exact Or.inl hmem
    · rw [hplace v hv] at hvu
      exact Or.inr ⟨v, hv, hvu⟩
  have hself {β : Type} (f : Nat → β) (v : β) : Function.update f s.nextThread v s.nextThread = v :=
    Function.update_self ..
  have hpid : (s.allocated t i).pid s.nextThread = i + 1 := hself s.pid _
  have hpidt : (s.allocated t i).pid t = s.pid t := Function.update_of_ne hne ..
  apply h.allocated.setPlace (t := t)
  · exact ht
  · exact (Function.update_of_ne hne ..).trans hprocess
  · exact (Function.update_of_ne hne ..).trans hready
  · simp
  · intro c hc
    obtain rfl : s.nextThread = c := Option.some.inj hc
    refine
      { lt := Nat.lt_succ_self _
        pid := ⟨i, hpid, Bitmap.bitmapSet_bit_self ..⟩
        alone := ?_
        not_mem := fun hmem => Nat.lt_irrefl _ (h.lt hmem)
        no_hand := ?_
        fresh := fun e he heq => Nat.ne_of_lt (h.reaped e he).lt heq }
    · intro u hu heq
      -- the bit of the new pid was clear
      obtain ⟨j, hj, hbit⟩ := h.holder_pid u (hholder u hu)
      have hpidu : (s.allocated t i).pid u = s.pid u :=
        Function.update_of_ne (Nat.ne_of_lt (h.holder_lt u (hholder u hu))) ..
      rw [hpid, hpidu, hj] at heq
      obtain rfl : j = i := by omega
      rw [hi.2.1] at hbit
      cases hbit
    · intro q hq hhand
      rw [hplace q hq] at hhand
      exact Nat.lt_irrefl _ (h.holder_lt _ (Or.inr ⟨q, hq, hhand⟩))
  · intro c hc
    injection hc with hc
    subst hc
    exact ⟨hself s.parent t, (hself s.parentPid _).trans hpidt.symm, hself s.place .user,
      hself s.status .ready, (hself s.isProcess _).trans hprocess⟩
  · intro c pid status hc
    cases hc

/-- The child joins the list of all threads at the end of `sys_fork`. -/
theorem ProcsOk.joins (h : s.ProcsOk) (ht : t ∈ s.threadAllList) (hprocess : s.isProcess t = true)
    (hready : s.status t = .ready) (hplace : s.place t = .forking c) :
    ProcsOk { s.setPlace t .user with threadAllList := s.threadAllList ++ [c] } := by
  have hhand : (s.place t).child = some c := by rw [hplace]; rfl
  have hnot : c ∉ s.threadAllList := h.hand_not_mem t ht c hhand
  have hct : c ≠ t := fun heq => hnot (heq ▸ ht)
  obtain ⟨hparent, hparentPid, hplacec, hreadyc, hprocessc⟩ := h.forking t ht c hplace
  have hgo := h.letGo ht hprocess hready (Or.inl rfl)
  have hself : (s.setPlace t .user).place t = .user := Function.update_self ..
  have hother (u : Nat) (hu : u ≠ t) : (s.setPlace t .user).place u = s.place u :=
    Function.update_of_ne hu ..
  have hplacec' : (s.setPlace t .user).place c = .user := (hother c hct).trans hplacec
  have hholder (u : Nat)
      (hu : Holder { s.setPlace t .user with threadAllList := s.threadAllList ++ [c] } u) :
      s.Holder u := by
    rcases hu with hmem | ⟨v, hv, hvu⟩
    · rcases List.mem_append.mp hmem with hmem | hmem
      · exact Or.inl hmem
      · rw [List.mem_singleton.mp hmem]
        exact Or.inr ⟨t, ht, hhand⟩
    · -- neither the child nor its parent has a child in hand now
      have hvu' : ((s.setPlace t .user).place v).child = some u := hvu
      have hvt : v ≠ t := by
        rintro rfl
        rw [hself] at hvu'
        cases hvu'
      rcases List.mem_append.mp hv with hv | hv
      · rw [hother v hvt] at hvu'
        exact Or.inr ⟨v, hv, hvu'⟩
      · rw [List.mem_singleton.mp hv, hplacec'] at hvu'
        cases hvu'
  have hcases (u : Nat) (hu : u ∈ s.threadAllList ++ [c]) : u ∈ s.threadAllList ∨ u = c := by
    rcases List.mem_append.mp hu with hmem | hmem
    · exact Or.inl hmem
    · exact Or.inr (List.mem_singleton.mp hmem)
  -- a process with a child in hand was in the list, and the child in hand is not `c`
  have hin (u d : Nat) (hu : u ∈ s.threadAllList ++ [c])
      (hd : ((s.setPlace t .user).place u).child = some d) : u ∈ s.threadAllList ∧ d ≠ c := by
    rcases hcases u hu with hmem | rfl
    · refine ⟨hmem, ?_⟩
      rintro rfl
      have hut : u ≠ t := by
        rintro rfl
        rw [hself] at hd
        cases hd
      rw [hother u hut] at hd
      exact hut (h.hand_unique u hmem t ht d hd hhand)
    · rw [hplacec'] at hd
      cases hd
  have hwas (e : Reaped) (he : (s.setPlace t .user).WasReaped e) (hne : e.child ≠ c) :
      WasReaped { s.setPlace t .user with threadAllList := s.threadAllList ++ [c] } e :=
    { he with
      not_mem := by
        intro hmem
        rcases hcases _ hmem with hmem | heq
        · exact he.not_mem hmem
        · exact hne heq }
  have hback (u : Nat) (hu : u ∈ s.threadAllList) : u ∈ s.threadAllList ++ [c] :=
    List.mem_append_left [c] hu
  exact
    { hgo with
      all_nodup := by
        apply List.Nodup.append h.all_nodup (List.nodup_singleton c)
        simpa using hnot
      holder_lt := fun u hu => h.holder_lt u (hholder u hu)
      holder_pid := fun u hu => h.holder_pid u (hholder u hu)
      holder_inj := fun u v hu hv => h.holder_inj u v (hholder u hu) (hholder v hv)
      init_mem := hback _ h.init_mem
      parented := by
        intro d hd hpar
        rcases hcases d hd with hmem | rfl
        · have hparented := hgo.parented d hmem hpar
          exact { hparented with mem := hback _ hparented.mem }
        · refine ⟨?_, ?_, ?_, ?_, ?_⟩
          · show s.parent d ∈ s.threadAllList ++ [d]
            rw [hparent]
            exact hback t ht
          · show s.pid (s.parent d) = s.parentPid d
            rw [hparent, hparentPid]
          · show s.isProcess (s.parent d) = true
            rw [hparent]
            exact hprocess
          · show (s.setPlace t .user).place (s.parent d) ≠ .exiting
            rw [hparent, hself]
            simp
          · show (s.setPlace t .user).place (s.parent d) ≠ .hanging
            rw [hparent, hself]
            simp
      kernel := by
        intro u hu hkernel
        rcases hcases u hu with hmem | rfl
        · exact hgo.kernel u hmem hkernel
        · exact hplacec'
      hand_not_mem := by
        intro u hu d hd hmem
        obtain ⟨hu', hne⟩ := hin u d hu hd
        rcases hcases d hmem with hmem | heq
        · exact hgo.hand_not_mem u hu' d hd hmem
        · exact hne heq
      hand_unique := fun u hu v hv d hd hd' =>
        hgo.hand_unique u (hin u d hu hd).1 v (hin v d hv hd').1 d hd hd'
      hand_fresh := fun u hu d hd => hgo.hand_fresh u (hin u d hu hd).1 d hd
      forking := by
        intro u hu d hd
        have hu' := (hin u d hu (by rw [hd]; rfl)).1
        exact hgo.forking u hu' d hd
      reaping := by
        intro u hu d pid status hd
        obtain ⟨hu', hne⟩ := hin u d hu (by rw [hd]; rfl)
        exact hwas _ (hgo.reaping u hu' d pid status hd) hne
      hanging := by
        intro u hu
        rcases hcases u hu with hmem | rfl
        · exact hgo.hanging u hmem
        · show s.status u = .hanging ↔ (s.setPlace t .user).place u = .hanging
          rw [hreadyc, hplacec']
          simp
      waiting := by
        intro u hu hw
        rcases hcases u hu with hmem | rfl
        · exact hgo.waiting u hmem hw
        · have hw' : s.status u = .waiting := hw
          rw [hreadyc] at hw'
          cases hw'
      exits := by
        intro u hu hexit
        rcases hcases u hu with hmem | rfl
        · exact hgo.exits u hmem hexit
        · have hexit' : (s.setPlace t .user).place u = .exiting ∨
              (s.setPlace t .user).place u = .hanging := hexit
          rw [hplacec'] at hexit'
          simp at hexit'
      hung := by
        intro u hu hhang
        rcases hcases u hu with hmem | rfl
        · exact hgo.hung u hmem hhang
        · have hhang' : (s.setPlace t .user).place u = .hanging := hhang
          rw [hplacec'] at hhang'
          cases hhang'
      reaped := by
        intro e he
        exact hwas e (hgo.reaped e he) (h.hand_fresh t ht c hhand e he) }

/-! ## exit -/

/-- The children of `t` go to `init`, and `t` is no parent any more. -/
theorem ProcsOk.adopted (h : s.ProcsOk) (ht : t ∈ s.threadAllList) (hprocess : s.isProcess t = true)
    (hready : s.status t = .ready) (hplace : s.place t = .user) (hpar : s.parentPid t ≠ -1)
    {status : Int} : (s.adopted t status).ProcsOk := by
  have hself : (s.adopted t status).place t = .exiting := Function.update_self ..
  have hother (u : Nat) (hu : u ≠ t) : (s.adopted t status).place u = s.place u :=
    Function.update_of_ne hu ..
  have hhand (u : Nat) : ((s.adopted t status).place u).child = (s.place u).child := by
    by_cases hne : u = t
    · rw [hne, hself, hplace]
      rfl
    · rw [hother u hne]
  have hholder (u : Nat) (hu : (s.adopted t status).Holder u) : s.Holder u := by
    rcases hu with hmem | ⟨v, hv, hvu⟩
    · exact Or.inl hmem
    · rw [hhand v] at hvu
      exact Or.inr ⟨v, hv, hvu⟩
  have hkeep (c : Nat) (hc : ¬ s.IsChild t c) : (s.adopted t status).parentPid c = s.parentPid c ∧
      (s.adopted t status).parent c = s.parent c :=
    ⟨if_neg hc, if_neg hc⟩
  have hgive (c : Nat) (hc : s.IsChild t c) : (s.adopted t status).parentPid c = 1 ∧
      (s.adopted t status).parent c = initProc :=
    ⟨if_pos hc, if_pos hc⟩
  have hnotinit : ¬ s.IsChild t initProc := by
    rintro ⟨-, heq⟩
    have hpos := h.pid_pos ht
    rw [h.init_parent] at heq
    omega
  have hinit : initProc ≠ t := fun heq => hpar (heq ▸ h.init_parent)
  have hinitplace : s.place initProc ≠ .exiting ∧ s.place initProc ≠ .hanging := by
    constructor
    · intro hexit
      exact (h.exits _ h.init_mem (Or.inl hexit)).1 h.init_parent
    · intro hhang
      exact (h.exits _ h.init_mem (Or.inr hhang)).1 h.init_parent
  have hwas (e : Reaped) (he : s.WasReaped e) : (s.adopted t status).WasReaped e := by
    have hne : e.child ≠ t := fun heq => he.not_mem (heq ▸ ht)
    obtain ⟨a, ha, hstat⟩ := he.status
    exact
      { he with
        parent := (hkeep _ fun hc => he.not_mem hc.1).2.trans he.parent
        status := ⟨a, (Function.update_of_ne hne ..).trans ha, hstat⟩ }
  exact
    { h with
      holder_lt := fun u hu => h.holder_lt u (hholder u hu)
      holder_pid := fun u hu => h.holder_pid u (hholder u hu)
      holder_inj := fun u v hu hv => h.holder_inj u v (hholder u hu) (hholder v hv)
      init_parent := (hkeep _ hnotinit).1.trans h.init_parent
      parented := by
        intro c hc hparc
        by_cases hchild : s.IsChild t c
        · obtain ⟨hpid, hparent⟩ := hgive c hchild
          refine ⟨?_, ?_, ?_, ?_, ?_⟩
          · rw [hparent]
            exact h.init_mem
          · rw [hparent, hpid]
            exact h.init_pid
          · rw [hparent]
            exact h.init_process
          · rw [hparent, hother _ hinit]
            exact hinitplace.1
          · rw [hparent, hother _ hinit]
            exact hinitplace.2
        · obtain ⟨hpid, hparent⟩ := hkeep c hchild
          rw [hpid] at hparc
          have hparented := h.parented c hc hparc
          have hne : s.parent c ≠ t := fun heq => hchild ⟨hc, (heq ▸ hparented.pid).symm⟩
          refine ⟨?_, ?_, ?_, ?_, ?_⟩
          · rw [hparent]
            exact hparented.mem
          · rw [hparent, hpid]
            exact hparented.pid
          · rw [hparent]
            exact hparented.isProcess
          · rw [hparent, hother _ hne]
            exact hparented.not_exiting
          · rw [hparent, hother _ hne]
            exact hparented.not_hanging
      kernel := by
        intro u hu hkernel
        have hne : u ≠ t := by
          rintro rfl
          have hk : s.isProcess u = false := hkernel
          rw [hprocess] at hk
          cases hk
        rw [hother u hne]
        exact h.kernel u hu hkernel
      hand_not_mem := by
        intro u hu c hc
        rw [hhand u] at hc
        exact h.hand_not_mem u hu c hc
      hand_unique := by
        intro u hu v hv c hc hc'
        rw [hhand u] at hc
        rw [hhand v] at hc'
        exact h.hand_unique u hu v hv c hc hc'
      hand_fresh := by
        intro u hu c hc
        rw [hhand u] at hc
        exact h.hand_fresh u hu c hc
      forking := by
        intro u hu c hc
        have hne : u ≠ t := by
          rintro rfl
          rw [hself] at hc
          cases hc
        rw [hother u hne] at hc
        have hnot : c ∉ s.threadAllList := h.hand_not_mem u hu c (by rw [hc]; rfl)
        obtain ⟨hparent, hpid, hplc, hrest⟩ := h.forking u hu c hc
        obtain ⟨hpid', hparent'⟩ := hkeep c fun hchild => hnot hchild.1
        refine ⟨hparent'.trans hparent, hpid'.trans hpid, ?_, hrest⟩
        rw [hother c fun heq => hnot (heq ▸ ht)]
        exact hplc
      reaping := by
        intro u hu c pid stat hc
        have hne : u ≠ t := by
          rintro rfl
          rw [hself] at hc
          cases hc
        rw [hother u hne] at hc
        exact hwas _ (h.reaping u hu c pid stat hc)
      hanging := by
        intro u hu
        by_cases hne : u = t
        · subst hne
          rw [hself]
          have hstat : (s.adopted u status).status u = .ready := hready
          rw [hstat]
          simp
        · rw [hother u hne]
          exact h.hanging u hu
      waiting := by
        intro u hu hw
        have hne : u ≠ t := by
          rintro rfl
          have hw' : s.status u = .waiting := hw
          rw [hready] at hw'
          cases hw'
        rw [hother u hne]
        exact h.waiting u hu hw
      exits := by
        intro u hu hexit
        have hparentPid (hold : s.parentPid u ≠ -1) : (s.adopted t status).parentPid u ≠ -1 := by
          by_cases hchild : s.IsChild t u
          · rw [(hgive u hchild).1]
            omega
          · rw [(hkeep u hchild).1]
            exact hold
        by_cases hne : u = t
        · subst hne
          exact ⟨hparentPid hpar, status, Function.update_self .., Function.update_self ..⟩
        · rw [hother u hne] at hexit
          obtain ⟨hold, a, ha, hstat⟩ := h.exits u hu hexit
          exact ⟨hparentPid hold, a, (Function.update_of_ne hne ..).trans ha,
            (Function.update_of_ne hne ..).trans hstat⟩
      hung := by
        intro u hu hhang
        have hne : u ≠ t := by
          rintro rfl
          rw [hself] at hhang
          cases hhang
        rw [hother u hne] at hhang
        exact h.hung u hu hhang
      reaped := fun e he => hwas e (h.reaped e he) }

/-- A process at the end of `sys_exit` is `HANGING`. -/
theorem ProcsOk.hangs (h : s.ProcsOk) (ht : t ∈ s.threadAllList) (hprocess : s.isProcess t = true)
    (hready : s.status t = .ready) (hplace : s.place t = .exiting) (hq : q ∈ s.threadAllList) :
    (s.hangs t q).ProcsOk := by
  -- the waiting parent is awake
  have hwoken : (s.setStatus q (if s.status q = .waiting then .ready else s.status q)).ProcsOk := by
    by_cases hwait : s.status q = .waiting
    · rw [if_pos hwait]
      apply h.setStatus hq
      · rw [h.waiting q hq hwait]
        simp
      · intro hc
        cases hc
    · rw [if_neg hwait]
      exact h.setStatus hq (h.hanging q hq) (h.waiting q hq)
  generalize hw : s.setStatus q (if s.status q = .waiting then .ready else s.status q) = w at hwoken
  have heq : s.hangs t q = { (w.setStatus t .hanging).setPlace t .hanging with hung := t :: w.hung } := by
    rw [← hw]
    rfl
  have htw : t ∈ w.threadAllList := hw ▸ ht
  have hplacew : w.place t = .exiting := hw ▸ hplace
  have hprocessw : w.isProcess t = true := hw ▸ hprocess
  rw [heq]
  have hself : ((w.setStatus t .hanging).setPlace t .hanging).place t = .hanging :=
    Function.update_self ..
  have hother (u : Nat) (hu : u ≠ t) :
      ((w.setStatus t .hanging).setPlace t .hanging).place u = w.place u :=
    Function.update_of_ne hu ..
  have hstatself : ((w.setStatus t .hanging).setPlace t .hanging).status t = .hanging :=
    Function.update_self ..
  have hstat (u : Nat) (hu : u ≠ t) :
      ((w.setStatus t .hanging).setPlace t .hanging).status u = w.status u :=
    Function.update_of_ne hu ..
  have hhand (u : Nat) :
      (((w.setStatus t .hanging).setPlace t .hanging).place u).child = (w.place u).child := by
    by_cases hne : u = t
    · rw [hne, hself, hplacew]
      rfl
    · rw [hother u hne]
  have hholder (u : Nat) (hu : Holder { (w.setStatus t .hanging).setPlace t .hanging with
      hung := t :: w.hung } u) : w.Holder u := by
    rcases hu with hmem | ⟨v, hv, hvu⟩
    · exact Or.inl hmem
    · have hvu' : (((w.setStatus t .hanging).setPlace t .hanging).place v).child = some u := hvu
      rw [hhand v] at hvu'
      exact Or.inr ⟨v, hv, hvu'⟩
  have hwas (e : Reaped) (he : w.WasReaped e) :
      WasReaped { (w.setStatus t .hanging).setPlace t .hanging with hung := t :: w.hung } e :=
    { he with hung := List.mem_cons_of_mem t he.hung }
  exact
    { hwoken with
      holder_lt := fun u hu => hwoken.holder_lt u (hholder u hu)
      holder_pid := fun u hu => hwoken.holder_pid u (hholder u hu)
      holder_inj := fun u v hu hv => hwoken.holder_inj u v (hholder u hu) (hholder v hv)
      parented := by
        intro c hc hpar
        have hparented := hwoken.parented c hc hpar
        have hne : w.parent c ≠ t := by
          intro heq
          exact hparented.not_exiting (heq ▸ hplacew)
        refine { hparented with not_exiting := ?_, not_hanging := ?_ }
        · show ((w.setStatus t .hanging).setPlace t .hanging).place (w.parent c) ≠ .exiting
          rw [hother _ hne]
          exact hparented.not_exiting
        · show ((w.setStatus t .hanging).setPlace t .hanging).place (w.parent c) ≠ .hanging
          rw [hother _ hne]
          exact hparented.not_hanging
      kernel := by
        intro u hu hkernel
        have hne : u ≠ t := by
          rintro rfl
          have hk : w.isProcess u = false := hkernel
          rw [hprocessw] at hk
          cases hk
        show ((w.setStatus t .hanging).setPlace t .hanging).place u = .user
        rw [hother u hne]
        exact hwoken.kernel u hu hkernel
      hand_not_mem := by
        intro u hu c hc
        exact hwoken.hand_not_mem u hu c ((hhand u).symm.trans hc)
      hand_unique := by
        intro u hu v hv c hc hc'
        exact hwoken.hand_unique u hu v hv c ((hhand u).symm.trans hc) ((hhand v).symm.trans hc')
      hand_fresh := by
        intro u hu c hc
        exact hwoken.hand_fresh u hu c ((hhand u).symm.trans hc)
      forking := by
        intro u hu c hc
        have hc' : ((w.setStatus t .hanging).setPlace t .hanging).place u = .forking c := hc
        have hne : u ≠ t := by
          rintro rfl
          rw [hself] at hc'
          cases hc'
        rw [hother u hne] at hc'
        obtain ⟨hparent, hpid, hplc, hready, hrest⟩ := hwoken.forking u hu c hc'
        have hct : c ≠ t := by
          rintro rfl
          exact hwoken.hand_not_mem u hu c (by rw [hc']; rfl) htw
        exact ⟨hparent, hpid, (hother c hct).trans hplc, (hstat c hct).trans hready, hrest⟩
      reaping := by
        intro u hu c pid status hc
        have hc' : ((w.setStatus t .hanging).setPlace t .hanging).place u =
          .reaping c pid status := hc
        have hne : u ≠ t := by
          rintro rfl
          rw [hself] at hc'
          cases hc'
        rw [hother u hne] at hc'
        exact hwas _ (hwoken.reaping u hu c pid status hc')
      hanging := by
        intro u hu
        show ((w.setStatus t .hanging).setPlace t .hanging).status u = .hanging ↔
          ((w.setStatus t .hanging).setPlace t .hanging).place u = .hanging
        by_cases hne : u = t
        · subst hne
          rw [hself, hstatself]
          simp
        · rw [hstat u hne, hother u hne]
          exact hwoken.hanging u hu
      waiting := by
        intro u hu hw
        have hw' : ((w.setStatus t .hanging).setPlace t .hanging).status u = .waiting := hw
        have hne : u ≠ t := by
          rintro rfl
          rw [hstatself] at hw'
          cases hw'
        rw [hstat u hne] at hw'
        exact (hother u hne).trans (hwoken.waiting u hu hw')
      exits := by
        intro u hu hexit
        by_cases hne : u = t
        · subst hne
          exact hwoken.exits u hu (Or.inl hplacew)
        · have hexit' : ((w.setStatus t .hanging).setPlace t .hanging).place u = .exiting ∨
              ((w.setStatus t .hanging).setPlace t .hanging).place u = .hanging := hexit
          rw [hother u hne] at hexit'
          exact hwoken.exits u hu hexit'
      hung := by
        intro u hu hhang
        by_cases hne : u = t
        · rw [hne]
          exact List.mem_cons_self
        · have hhang' : ((w.setStatus t .hanging).setPlace t .hanging).place u = .hanging := hhang
          rw [hother u hne] at hhang'
          exact List.mem_cons_of_mem t (hwoken.hung u hu hhang')
      freed := fun u hu => List.mem_cons_of_mem t (hwoken.freed u hu)
      reaped := fun e he => hwas e (hwoken.reaped e he) }

/-! ## wait -/

/-- A process without a hanging child sleeps. -/
theorem ProcsOk.sleeps (h : s.ProcsOk) (ht : t ∈ s.threadAllList) (hprocess : s.isProcess t = true)
    (hready : s.status t = .ready) : ((s.setStatus t .waiting).setPlace t .waiting).ProcsOk := by
  have hself : (s.setPlace t .waiting).place t = .waiting := Function.update_self ..
  have hgo := h.letGo ht hprocess hready (Or.inr rfl)
  have hwait : ((s.setPlace t .waiting).setStatus t .waiting).ProcsOk :=
    hgo.setStatus ht (by rw [hself]; simp) fun _ => hself
  exact hwait

/-- The pid of the child is free, and `sys_wait` returns it. -/
theorem ProcsOk.waited (h : s.ProcsOk) (ht : t ∈ s.threadAllList) (hprocess : s.isProcess t = true)
    (hready : s.status t = .ready) {pid status : Int} (hplace : s.place t = .reaping c pid status) :
    ProcsOk { s.setPlace t .user with
      pidBitmap := s.pidBitmap.bitmapSet (s.pid c - 1).toNat false
      reaped := ⟨t, c, pid, status⟩ :: s.reaped } := by
  have hhand : (s.place t).child = some c := by rw [hplace]; rfl
  have hnot : c ∉ s.threadAllList := h.hand_not_mem t ht c hhand
  have hold : s.Holder c := Or.inr ⟨t, ht, hhand⟩
  have hgo := h.letGo ht hprocess hready (Or.inl rfl)
  have hself : (s.setPlace t .user).place t = .user := Function.update_self ..
  have hcase (u d : Nat) (hd : ((s.setPlace t .user).place u).child = some d) :
      u ≠ t ∧ (s.place u).child = some d := by
    have hne : u ≠ t := by
      rintro rfl
      rw [hself] at hd
      cases hd
    rw [show (s.setPlace t .user).place u = s.place u from Function.update_of_ne hne ..] at hd
    exact ⟨hne, hd⟩
  -- no other process has the child in hand
  have hunknown (u : Nat) (hu : u ∈ s.threadAllList) :
      ((s.setPlace t .user).place u).child ≠ some c := by
    intro hd
    obtain ⟨hne, hd⟩ := hcase u c hd
    exact hne (h.hand_unique u hu t ht c hd hhand)
  have hfree : ∀ u, (s.setPlace t .user).Holder u → (s.setPlace t .user).pid u ≠ s.pid c := by
    intro u hu heq
    have holdu : s.Holder u := by
      rcases hu with hmem | ⟨v, hv, hvu⟩
      · exact Or.inl hmem
      · exact Or.inr ⟨v, hv, (hcase v u hvu).2⟩
    obtain rfl := h.holder_inj u c holdu hold heq
    rcases hu with hmem | ⟨v, hv, hvu⟩
    · exact hnot hmem
    · exact hunknown v hv hvu
  obtain ⟨i, hi, -⟩ := h.holder_pid c hold
  have hclear := hgo.clearPid hfree (by omega)
  have hwas := h.reaping t ht c pid status hplace
  exact
    { hclear with
      parented := fun d hd hpar => { hclear.parented d hd hpar with }
      hand_fresh := by
        intro u hu d hd e he
        rcases List.mem_cons.mp he with rfl | he
        · rintro rfl
          exact hunknown u hu hd
        · exact hclear.hand_fresh u hu d hd e he
      reaping := fun u hu d pid status hd => { hclear.reaping u hu d pid status hd with }
      reaped := by
        intro e he
        rcases List.mem_cons.mp he with rfl | he
        · exact { hwas with }
        · exact { hclear.reaped e he with }
      reaped_nodup := by
        show (c :: s.reaped.map Reaped.child).Nodup
        refine List.nodup_cons.mpr ⟨?_, h.reaped_nodup⟩
        intro hmem
        obtain ⟨e, he, heq⟩ := List.mem_map.mp hmem
        exact h.hand_fresh t ht c hhand e he heq }

/-- A thread of the kernel ends. -/
theorem ProcsOk.ended (h : s.ProcsOk) (ht : t ∈ s.threadAllList) (hkernel : s.isProcess t = false) :
    ProcsOk { s.unlinked t with
      pidBitmap := s.pidBitmap.bitmapSet (s.pid t - 1).toNat false } := by
  have hinit : t ≠ initProc := by
    rintro rfl
    rw [h.init_process] at hkernel
    cases hkernel
  have hunlinked : (s.unlinked t).ProcsOk := by
    apply h.unlinked ht hinit
    intro d hd hparented heq
    have hprocess := hparented.isProcess
    rw [heq, hkernel] at hprocess
    cases hprocess
  have hfree : ∀ u, (s.unlinked t).Holder u → (s.unlinked t).pid u ≠ s.pid t := by
    intro u hu heq
    have holdu : s.Holder u := by
      rcases hu with hmem | ⟨v, hv, hvu⟩
      · exact Or.inl (List.mem_of_mem_erase hmem)
      · exact Or.inr ⟨v, List.mem_of_mem_erase hv, hvu⟩
    obtain rfl := h.holder_inj u t holdu (Or.inl ht) heq
    rcases hu with hmem | ⟨v, hv, hvu⟩
    · exact (h.all_nodup.mem_erase_iff.mp hmem).1 rfl
    · exact h.hand_not_mem v (List.mem_of_mem_erase hv) u hvu ht
  exact hunlinked.clearPid hfree (h.pid_pos ht)

end Keeps

/-! ## Steps -/

section Steps

variable {s s' : Procs} {e : ProcEvent}

theorem ProcsOk.step (h : s.ProcsOk) (hstep : Step s e s') : s'.ProcsOk := by
  cases e with
  | fork t =>
    obtain ⟨⟨ht, hprocess, hready⟩, -, hret⟩ := hstep
    obtain ⟨i, hi, rfl⟩ := forkCopy_inv hret
    exact h.forked ht hprocess hready hi
  | forkEnd t =>
    obtain ⟨⟨ht, hprocess, hready⟩, c, hplace, hret⟩ := hstep
    obtain ⟨-, rfl⟩ := forkEnd_inv hret
    exact h.joins ht hprocess hready hplace
  | forkFails t =>
    obtain ⟨⟨ht, hprocess, hready⟩, c, -, hret⟩ := hstep
    obtain rfl := (returns_update _ _).mp hret
    exact h.letGo ht hprocess hready (Or.inl rfl)
  | exit t status =>
    obtain ⟨⟨ht, hprocess, hready⟩, hplace, hret⟩ := hstep
    obtain ⟨hpar, rfl⟩ := exitStart_inv hret
    exact h.adopted ht hprocess hready hplace hpar
  | exitEnd t =>
    obtain ⟨⟨ht, hprocess, hready⟩, hplace, hret⟩ := hstep
    obtain ⟨q, hfind, rfl⟩ := exitEnd_inv hret
    exact h.hangs ht hprocess hready hplace (List.mem_of_find?_eq_some hfind)
  | wait t =>
    obtain ⟨⟨ht, hprocess, hready⟩, -, o, hret⟩ := hstep
    rcases sysWait_inv hret with ⟨-, c, hc, hhang, hpar, rfl⟩ | ⟨-, -, rfl⟩ | ⟨-, -, rfl⟩
    · exact h.taken ht hprocess hready ⟨hc, hpar⟩ hhang
    · exact h.letGo ht hprocess hready (Or.inl rfl)
    · exact h.sleeps ht hprocess hready
  | waitEnd t =>
    obtain ⟨⟨ht, hprocess, hready⟩, c, pid, status, hplace, hret⟩ := hstep
    obtain rfl := waitEnd_inv hret
    exact h.waited ht hprocess hready hplace
  | threadEnds t =>
    obtain ⟨ht, hkernel, hret⟩ := hstep
    obtain rfl := threadEnds_inv hret
    exact h.ended ht hkernel

theorem Initial.procsOk (h : s.Initial) : s.ProcsOk := by
  have hmem (t : Nat) (ht : t ∈ s.threadAllList) : t < 3 := by
    rw [h.all] at ht
    simp at ht
    omega
  have hplace (t : Nat) (ht : t ∈ s.threadAllList) : s.place t = .user := h.place t (hmem t ht)
  have hholder (t : Nat) (ht : s.Holder t) : t < 3 := by
    rcases ht with ht | ⟨p, hp, hpt⟩
    · exact hmem t ht
    · rw [hplace p hp] at hpt
      cases hpt
  have hhand (p : Nat) (hp : p ∈ s.threadAllList) (c : Nat) : (s.place p).child ≠ some c := by
    rw [hplace p hp]
    simp [Place.child]
  exact
    { all_nodup := by rw [h.all]; decide
      holder_lt := by
        intro t ht
        rw [h.nextThread]
        exact hholder t ht
      holder_pid := by
        intro t ht
        refine ⟨t, h.pid t (hholder t ht), ?_⟩
        rw [h.bit t]
        simpa using hholder t ht
      holder_inj := by
        intro t u ht hu heq
        rw [h.pid t (hholder t ht), h.pid u (hholder u hu)] at heq
        omega
      init_mem := by rw [h.all]; decide
      init_pid := h.pid 0 (by decide)
      init_parent := h.parentPid 0 (by decide)
      init_process := h.isProcess 0 (by decide)
      parented := fun c hc hpar => absurd (h.parentPid c (hmem c hc)) hpar
      kernel := fun t ht _ => hplace t ht
      hand_not_mem := fun p hp c hc => absurd hc (hhand p hp c)
      hand_unique := fun p hp _ _ c hc => absurd hc (hhand p hp c)
      hand_fresh := fun p hp c hc => absurd hc (hhand p hp c)
      forking := fun p hp c hc => absurd (hc ▸ rfl) (hhand p hp c)
      reaping := fun p hp c _ _ hc => absurd (hc ▸ rfl) (hhand p hp c)
      hanging := by
        intro t ht
        rw [h.status t (hmem t ht), hplace t ht]
        simp
      waiting := by
        intro t ht hw
        rw [h.status t (hmem t ht)] at hw
        cases hw
      exits := by
        intro t ht hexit
        rw [hplace t ht] at hexit
        simp at hexit
      hung := by
        intro t ht hhang
        rw [hplace t ht] at hhang
        cases hhang
      freed := by
        intro t ht
        rw [h.freed] at ht
        cases ht
      reaped := by
        intro e he
        rw [h.reaped] at he
        cases he
      reaped_nodup := by rw [h.reaped]; exact List.nodup_nil }

theorem Run.procsOk {P : Procs → ProcEvent → Prop} {s₀ : Procs} (h₀ : s₀.Initial)
    (hrun : Run P s₀ s) : s.ProcsOk :=
  hrun.invariant h₀.procsOk fun _ _ _ hok _ hstep => hok.step hstep

end Steps

end Procs

end ZxyOs
