/-
  ZxyOs.Kernel.AddrSpace

  Which page directory the processor uses.

  `schedule` gives the processor to a thread and activates it: CR3 and, for a user
  process, `tss.esp0` are set after the field `pgdir` of its control block.
  `inode_open` and `inode_close` set that field to `NULL` around a call of the kernel
  heap, which may wait for the lock of the kernel pool.  `copy_block_stack3` runs on
  the page directory of the child for a while.

  A user process in a system call runs with interrupts off, so it gives the processor
  away only where it waits; kernel threads are preempted anywhere.  As long as no
  process waits with its `pgdir` hidden, whoever runs has its own page directory
  (`own_directory_active`); one that does comes back with the kernel's
  (`waiting_process_loses_directory`).
-/

import ZxyOs.Lib.Runs
import ZxyOs.Kernel.PageThreads

namespace ZxyOs

open Lib

namespace AddrSpace

/-- A page directory: its address in the kernel's space, and the physical one that
    `addr_v2p` finds for it, which the page has as long as it is in use. -/
structure PageDir where
  vaddr : Nat
  phys : Nat
  deriving DecidableEq

/-- Where a thread is in the code. -/
inductive Place where
  /-- its program, or the function of a kernel thread -/
  | program
  /-- a system call -/
  | kernel
  /-- `inode_open` or `inode_close`, between the assignments to `pgdir`; `tmp` is
      `cur_pgdir_tmp` -/
  | hidden (tmp : Option PageDir)
  /-- `copy_block_stack3`, between the two calls of `page_dir_activate` -/
  | copying
  deriving DecidableEq

/-- A thread: the page directory it has been given, its field `pgdir`, where it is, and
    whether it may be scheduled. -/
structure Proc where
  dir : Option PageDir
  pgdir : Option PageDir
  place : Place
  ready : Bool
  deriving DecidableEq

/-- The processor, the threads by the addresses of their control blocks, and the lock of
    the kernel pool. -/
structure Machine where
  procs : Nat → Option Proc
  cur : Nat
  cr3 : Nat
  esp0 : Nat
  holder : Option Nat
  waiters : List Nat

namespace Machine

def setProc (m : Machine) (t : Nat) (o : Option Proc) : Machine :=
  { m with procs := Function.update m.procs t o }

/-- `page_dir_activate` for a thread with the field `pgdir`. -/
def pageDirActivate (m : Machine) (pgdir : Option PageDir) : Machine :=
  { m with cr3 := (pgdir.map PageDir.phys).getD kernelPageDir }

/-- `process_activate` of the thread `t` with the field `pgdir`. -/
def processActivate (m : Machine) (t : Nat) (pgdir : Option PageDir) : Machine :=
  let m := m.pageDirActivate pgdir
  if pgdir ≠ none then { m with esp0 := t + pgSize } else m

/-- The end of `schedule`: the thread `t` gets the processor. -/
def switchTo (m : Machine) (t : Nat) (pgdir : Option PageDir) : Machine :=
  { m.processActivate t pgdir with cur := t }

end Machine

/-- What the running thread does next.  The calls of the lock are the outermost ones: the
    holder may take it again inside. -/
inductive Event where
  /-- a system call begins -/
  | enter
  | leave
  /-- `cur->pgdir = NULL` -/
  | hide
  /-- `cur->pgdir = cur_pgdir_tmp` -/
  | restore
  | lockAcquire
  /-- the lock is taken: the thread waits, and `next` runs -/
  | lockWait (next : Nat)
  | lockRelease
  /-- `page_dir_activate(child_thread)` for a child with the page directory `dir` -/
  | activateChild (dir : PageDir)
  | activateParent
  /-- the thread waits for something else, and `next` runs -/
  | wait (next : Nat)
  /-- the timer interrupts, and `next` runs -/
  | preempt (next : Nat)
  | wake (t : Nat)
  /-- a thread is created, for a process with its page directory -/
  | create (t : Nat) (dir : Option PageDir)
  /-- `thread_exit` of another thread -/
  | reap (t : Nat)
  /-- `thread_exit` of the running thread -/
  | die (next : Nat)
  deriving DecidableEq

namespace Machine

/-- The thread at `next` is ready; it gets the processor. -/
def schedule (m : Machine) (next : Nat) : Option Machine :=
  match m.procs next with
  | some q => if q.ready then some (m.switchTo next q.pgdir) else none
  | none => none

/-- The lock is free for the next one, and the first who waits for it is woken. -/
def release (m : Machine) : Machine :=
  match m.waiters with
  | [] => { m with holder := none }
  | w :: ws =>
    { m with
      holder := none, waiters := ws
      procs := Function.update m.procs w ((m.procs w).map fun q => { q with ready := true }) }

/-- The running thread `p` does `e`, if it can. -/
def act (m : Machine) (p : Proc) : Event → Option Machine
  | .enter => if p.place = .program then some (m.setProc m.cur (some { p with place := .kernel })) else none
  | .leave => if p.place = .kernel then some (m.setProc m.cur (some { p with place := .program })) else none
  | .hide =>
    if p.place = .kernel then
      some (m.setProc m.cur (some { p with place := .hidden p.pgdir, pgdir := none }))
    else none
  | .restore =>
    match p.place with
    | .hidden tmp => some (m.setProc m.cur (some { p with place := .kernel, pgdir := tmp }))
    | _ => none
  | .lockAcquire =>
    if p.place ≠ .program ∧ m.holder = none then some { m with holder := some m.cur } else none
  | .lockWait next =>
    if p.place ≠ .program ∧ m.holder ≠ none ∧ m.holder ≠ some m.cur ∧ next ≠ m.cur then
      ({ m.setProc m.cur (some { p with ready := false }) with
        waiters := m.waiters ++ [m.cur] }).schedule next
    else none
  | .lockRelease => if m.holder = some m.cur then some m.release else none
  | .activateChild dir =>
    if p.place = .kernel ∧ p.pgdir ≠ none then
      some ((m.setProc m.cur (some { p with place := .copying })).pageDirActivate (some dir))
    else none
  | .activateParent =>
    if p.place = .copying then
      some ((m.setProc m.cur (some { p with place := .kernel })).pageDirActivate p.pgdir)
    else none
  | .wait next =>
    if (p.place = .kernel ∨ p.place = .copying) ∧ next ≠ m.cur then
      (m.setProc m.cur (some { p with ready := false })).schedule next
    else none
  | .preempt next =>
    if p.place = .program ∨ p.dir = none then m.schedule next else none
  | .wake t =>
    match m.procs t with
    | some q => if t ∉ m.waiters then some (m.setProc t (some { q with ready := true })) else none
    | none => none
  | .create t dir =>
    if m.procs t = none then
      some (m.setProc t (some { dir := dir, pgdir := dir, place := .kernel, ready := true }))
    else none
  | .reap t => if t ≠ m.cur then some (m.setProc t none) else none
  | .die next => if next ≠ m.cur then (m.setProc m.cur none).schedule next else none

/-- The event `e`, if the running thread can do it. -/
def after? (m : Machine) (e : Event) : Option Machine :=
  match m.procs m.cur with
  | some p => m.act p e
  | none => none

def Step (m : Machine) (e : Event) (m' : Machine) : Prop := m.after? e = some m'

abbrev Run (P : Machine → Event → Prop) : Machine → Machine → Prop := Lib.Run Step P

/-- A thread that waits for the lock of the kernel pool inside `inode_open` or
    `inode_close` is a kernel thread. -/
def ShownWhenWaiting (m : Machine) : Event → Prop
  | .lockWait _ => ∀ p tmp, m.procs m.cur = some p → p.place = .hidden tmp → p.dir = none
  | _ => True

/-- The processor is in the address space of the running process, except where
    `copy_block_stack3` has put it into that of the child, and an interrupt from the
    program comes to its own kernel stack. -/
def OwnDirectory (m : Machine) : Prop :=
  ∀ p d, m.procs m.cur = some p → p.dir = some d →
    (p.place ≠ .copying → m.cr3 = d.phys) ∧ m.esp0 = m.cur + pgSize

end Machine

/-! ## The invariant -/

/-- `pgdir` is the directory of the thread, or that is in `cur_pgdir_tmp`. -/
def Proc.Keeps (p : Proc) : Prop :=
  match p.place with
  | .hidden tmp => p.pgdir = none ∧ tmp = p.dir
  | _ => p.pgdir = p.dir

theorem Proc.Keeps.shown {p : Proc} (h : p.Keeps) (hplace : ∀ tmp, p.place = .hidden tmp → p.dir = none) :
    p.pgdir = p.dir := by
  unfold Proc.Keeps at h
  split at h
  · next tmp heq => rw [h.1, hplace tmp heq]
  · exact h

namespace Machine

/-- Only the running thread may have its directory hidden. -/
structure Inv (m : Machine) : Prop where
  keeps : ∀ t p, m.procs t = some p → p.Keeps
  shown : ∀ t p, m.procs t = some p → t ≠ m.cur → p.pgdir = p.dir
  own : m.OwnDirectory

/-- All that is needed to give the processor away. -/
structure AllShown (m : Machine) : Prop where
  keeps : ∀ t p, m.procs t = some p → p.Keeps
  shown : ∀ t p, m.procs t = some p → p.pgdir = p.dir

variable {m m' : Machine} {p q : Proc} {t next : Nat}

theorem procs_setProc {o : Option Proc} (h : (m.setProc t o).procs next = some q) :
    (next = t ∧ o = some q) ∨ (next ≠ t ∧ m.procs next = some q) := by
  have h' : Function.update m.procs t o next = some q := h
  by_cases heq : next = t
  · rw [heq, Function.update_self] at h'
    exact Or.inl ⟨heq, h'⟩
  · rw [Function.update_of_ne heq] at h'
    exact Or.inr ⟨heq, h'⟩

/-- Whoever gets the processor comes back to its own directory. -/
theorem AllShown.schedule (h : m.AllShown) (hstep : m.schedule next = some m') : m'.Inv := by
  unfold Machine.schedule at hstep
  split at hstep
  · next q hnext =>
    split at hstep
    · have hpgdir : q.pgdir = q.dir := h.shown next q hnext
      obtain rfl : m.switchTo next q.pgdir = m' := Option.some.inj hstep
      have hprocs : (m.switchTo next q.pgdir).procs = m.procs := by
        unfold switchTo processActivate
        split <;> rfl
      refine ⟨?_, ?_, ?_⟩
      · rw [hprocs]
        exact h.keeps
      · rw [hprocs]
        intro t p hp _
        exact h.shown t p hp
      · intro p d hp hdir
        have hp' : m.procs next = some p := by
          rw [hprocs] at hp
          exact hp
        obtain rfl : q = p := Option.some.inj (hnext.symm.trans hp')
        rw [hpgdir, hdir]
        exact ⟨fun _ => rfl, rfl⟩
    · cases hstep
  · cases hstep

/-- The running thread is ready to be replaced. -/
theorem Inv.allShown (h : m.Inv) (hshown : ∀ p, m.procs m.cur = some p → p.pgdir = p.dir) :
    m.AllShown := by
  refine ⟨h.keeps, fun t p hp => ?_⟩
  by_cases hcur : t = m.cur
  · rw [hcur] at hp
    exact hshown p hp
  · exact h.shown t p hp hcur

/-- Then it is marked as one that waits, or it is gone. -/
theorem AllShown.setProc (h : m.AllShown) {o : Option Proc}
    (ho : ∀ q, o = some q → q.Keeps ∧ q.pgdir = q.dir) : (m.setProc t o).AllShown := by
  refine ⟨fun t' q hq => ?_, fun t' q hq => ?_⟩
  · rcases procs_setProc hq with ⟨-, hq⟩ | ⟨-, hq⟩
    · exact (ho q hq).1
    · exact h.keeps t' q hq
  · rcases procs_setProc hq with ⟨-, hq⟩ | ⟨-, hq⟩
    · exact (ho q hq).2
    · exact h.shown t' q hq

/-- The running thread goes on, with its directory active. -/
theorem Inv.setCur (h : m.Inv) (hkeeps : q.Keeps)
    (hown : ∀ d, q.dir = some d → (q.place ≠ .copying → m.cr3 = d.phys) ∧ m.esp0 = m.cur + pgSize) :
    (m.setProc m.cur (some q)).Inv := by
  refine ⟨fun t p hp => ?_, fun t p hp hne => ?_, fun p d hp hdir => ?_⟩
  · rcases procs_setProc hp with ⟨-, heq⟩ | ⟨-, hp⟩
    · obtain rfl := Option.some.inj heq
      exact hkeeps
    · exact h.keeps t p hp
  · rcases procs_setProc hp with ⟨heq, -⟩ | ⟨-, hp⟩
    · exact absurd heq hne
    · exact h.shown t p hp hne
  · rcases procs_setProc hp with ⟨-, heq⟩ | ⟨hne, -⟩
    · obtain rfl := Option.some.inj heq
      exact hown d hdir
    · exact absurd rfl hne

/-- Another thread is created, woken or reaped. -/
theorem Inv.setOther (h : m.Inv) (hne : t ≠ m.cur) {o : Option Proc}
    (ho : ∀ q, o = some q → q.Keeps ∧ q.pgdir = q.dir) : (m.setProc t o).Inv := by
  refine ⟨fun t' p hp => ?_, fun t' p hp hcur => ?_, fun p d hp hdir => ?_⟩
  · rcases procs_setProc hp with ⟨-, hq⟩ | ⟨-, hp⟩
    · exact (ho p hq).1
    · exact h.keeps t' p hp
  · rcases procs_setProc hp with ⟨-, hq⟩ | ⟨-, hp⟩
    · exact (ho p hq).2
    · exact h.shown t' p hp hcur
  · rcases procs_setProc hp with ⟨heq, -⟩ | ⟨-, hp⟩
    · exact absurd heq.symm hne
    · exact h.own p d hp hdir

/-- A thread is only made ready. -/
theorem Inv.setReady (h : m.Inv) (hq : m.procs t = some q) :
    (m.setProc t (some { q with ready := true })).Inv := by
  by_cases hcur : t = m.cur
  · obtain rfl := hcur
    exact h.setCur (h.keeps _ q hq) fun d hdir => h.own q d hq hdir
  · refine h.setOther hcur fun q' hq' => ?_
    obtain rfl := Option.some.inj hq'
    exact ⟨h.keeps t q hq, h.shown t q hq hcur⟩

theorem Inv.release (h : m.Inv) : m.release.Inv := by
  unfold Machine.release
  split
  · exact ⟨h.keeps, h.shown, h.own⟩
  · next w ws hw =>
    cases hq : m.procs w with
    | none =>
      have hsame : Function.update m.procs w ((none : Option Proc).map fun q => { q with ready := true }) = m.procs := by
        rw [Option.map_none, ← hq, Function.update_eq_self]
      rw [hsame]
      exact ⟨h.keeps, h.shown, h.own⟩
    | some q =>
      have hready : (m.setProc w (some { q with ready := true })).Inv := h.setReady hq
      exact ⟨hready.keeps, hready.shown, hready.own⟩

/-! ## Runs -/

/-- The event of the running thread `p`, one case for each. -/
theorem Inv.act {e : Event} (h : m.Inv) (hp : m.procs m.cur = some p)
    (hwait : m.ShownWhenWaiting e) (hstep : m.act p e = some m') : m'.Inv := by
  have hkeeps : p.Keeps := h.keeps m.cur p hp
  have hown : ∀ d, p.dir = some d →
      (p.place ≠ .copying → m.cr3 = d.phys) ∧ m.esp0 = m.cur + pgSize :=
    fun d hdir => h.own p d hp hdir
  -- the thread goes on in the address space that it is in
  have hstays : ∀ {q : Proc}, p.place ≠ .copying → q.Keeps → q.dir = p.dir →
      (m.setProc m.cur (some q)).Inv := by
    intro q hplace hq hdir
    refine h.setCur hq fun d hd => ?_
    rw [hdir] at hd
    exact ⟨fun _ => (hown d hd).1 hplace, (hown d hd).2⟩
  -- the thread gives the processor away: its directory is not hidden
  have hall : (∀ tmp, p.place = .hidden tmp → p.dir = none) → m.AllShown := fun hplace =>
    h.allShown fun q hq => by
      obtain rfl := Option.some.inj (hp.symm.trans hq)
      exact hkeeps.shown hplace
  have hwaits : ∀ {n : Machine}, (∀ tmp, p.place = .hidden tmp → p.dir = none) →
      n.procs = (m.setProc m.cur (some { p with ready := false })).procs → n.AllShown := by
    intro n hplace hn
    have hset : (m.setProc m.cur (some { p with ready := false })).AllShown :=
      (hall hplace).setProc fun q hq => by
        obtain rfl := Option.some.inj hq
        exact ⟨hkeeps, hkeeps.shown hplace⟩
    exact ⟨by rw [hn]; exact hset.keeps, by rw [hn]; exact hset.shown⟩
  cases e with
  | enter =>
    simp only [Machine.act, Option.ite_none_right_eq_some] at hstep
    obtain ⟨hplace, heq⟩ := hstep
    obtain rfl := Option.some.inj heq
    refine hstays (by rw [hplace]; decide) ?_ rfl
    exact hkeeps.shown fun tmp htmp => absurd (hplace.symm.trans htmp) (by simp)
  | leave =>
    simp only [Machine.act, Option.ite_none_right_eq_some] at hstep
    obtain ⟨hplace, heq⟩ := hstep
    obtain rfl := Option.some.inj heq
    refine hstays (by rw [hplace]; decide) ?_ rfl
    exact hkeeps.shown fun tmp htmp => absurd (hplace.symm.trans htmp) (by simp)
  | hide =>
    simp only [Machine.act, Option.ite_none_right_eq_some] at hstep
    obtain ⟨hplace, heq⟩ := hstep
    obtain rfl := Option.some.inj heq
    refine hstays (by rw [hplace]; decide) ⟨rfl, ?_⟩ rfl
    exact hkeeps.shown fun tmp htmp => absurd (hplace.symm.trans htmp) (by simp)
  | restore =>
    simp only [Machine.act] at hstep
    split at hstep
    · next tmp hplace =>
      obtain rfl := Option.some.inj hstep
      have htmp : tmp = p.dir := by
        have hkeeps' := hkeeps
        rw [Proc.Keeps, hplace] at hkeeps'
        exact hkeeps'.2
      exact hstays (by rw [hplace]; simp) htmp rfl
    · cases hstep
  | lockAcquire =>
    simp only [Machine.act, Option.ite_none_right_eq_some] at hstep
    obtain ⟨-, heq⟩ := hstep
    obtain rfl := Option.some.inj heq
    exact ⟨h.keeps, h.shown, h.own⟩
  | lockWait next =>
    simp only [Machine.act, Option.ite_none_right_eq_some] at hstep
    refine AllShown.schedule ?_ hstep.2
    exact hwaits (fun tmp htmp => hwait p tmp hp htmp) rfl
  | lockRelease =>
    simp only [Machine.act, Option.ite_none_right_eq_some] at hstep
    obtain ⟨-, heq⟩ := hstep
    obtain rfl := Option.some.inj heq
    exact h.release
  | activateChild dir =>
    simp only [Machine.act, Option.ite_none_right_eq_some] at hstep
    obtain ⟨⟨hplace, -⟩, heq⟩ := hstep
    obtain rfl := Option.some.inj heq
    have hshown : p.pgdir = p.dir := hkeeps.shown fun tmp htmp => absurd (hplace.symm.trans htmp) (by simp)
    have hset : (m.setProc m.cur (some { p with place := .copying })).Inv :=
      h.setCur hshown fun d hdir => ⟨fun hne => absurd rfl hne, (hown d hdir).2⟩
    -- only CR3 changes, and nothing is said about it while it copies
    refine ⟨hset.keeps, hset.shown, fun q d hq hdir => ⟨fun hne => ?_, (hset.own q d hq hdir).2⟩⟩
    have hq' : (m.setProc m.cur (some { p with place := .copying })).procs m.cur = some q := hq
    rcases procs_setProc hq' with ⟨-, heq⟩ | ⟨hne', -⟩
    · obtain rfl := Option.some.inj heq
      exact absurd rfl hne
    · exact absurd rfl hne'
  | activateParent =>
    simp only [Machine.act, Option.ite_none_right_eq_some] at hstep
    obtain ⟨hplace, heq⟩ := hstep
    obtain rfl := Option.some.inj heq
    have hshown : p.pgdir = p.dir := hkeeps.shown fun tmp htmp => absurd (hplace.symm.trans htmp) (by simp)
    have hback : (m.pageDirActivate p.pgdir).Inv := by
      refine ⟨h.keeps, h.shown, fun q d hq hdir => ?_⟩
      obtain rfl : p = q := Option.some.inj (hp.symm.trans hq)
      rw [hshown, hdir]
      exact ⟨fun _ => rfl, (hown d hdir).2⟩
    refine hback.setCur (q := { p with place := .kernel }) hshown fun d hdir => ?_
    have hdir' : p.dir = some d := hdir
    rw [hshown, hdir']
    exact ⟨fun _ => rfl, (hown d hdir).2⟩
  | wait next =>
    simp only [Machine.act, Option.ite_none_right_eq_some] at hstep
    obtain ⟨⟨hplace, -⟩, hsched⟩ := hstep
    refine (hwaits (fun tmp htmp => ?_) rfl).schedule hsched
    rw [htmp] at hplace
    simp at hplace
  | preempt next =>
    simp only [Machine.act, Option.ite_none_right_eq_some] at hstep
    obtain ⟨hplace, hsched⟩ := hstep
    refine (hall fun tmp htmp => ?_).schedule hsched
    rcases hplace with hprogram | hnone
    · exact absurd (hprogram.symm.trans htmp) (by simp)
    · exact hnone
  | wake t =>
    simp only [Machine.act] at hstep
    split at hstep
    · next q hq =>
      obtain ⟨-, heq⟩ := Option.ite_none_right_eq_some.mp hstep
      obtain rfl := Option.some.inj heq
      exact h.setReady hq
    · cases hstep
  | create t dir =>
    simp only [Machine.act, Option.ite_none_right_eq_some] at hstep
    obtain ⟨hfree, heq⟩ := hstep
    obtain rfl := Option.some.inj heq
    have hne : t ≠ m.cur := fun heq => by
      rw [heq, hp] at hfree
      cases hfree
    refine h.setOther hne fun q hq => ?_
    obtain rfl := Option.some.inj hq
    exact ⟨rfl, rfl⟩
  | reap t =>
    simp only [Machine.act, Option.ite_none_right_eq_some] at hstep
    obtain ⟨hne, heq⟩ := hstep
    obtain rfl := Option.some.inj heq
    exact h.setOther hne fun q hq => by cases hq
  | die next =>
    simp only [Machine.act, Option.ite_none_right_eq_some] at hstep
    refine AllShown.schedule ⟨fun t q hq => ?_, fun t q hq => ?_⟩ hstep.2
    · rcases procs_setProc hq with ⟨-, heq⟩ | ⟨-, hq⟩
      · cases heq
      · exact h.keeps t q hq
    · rcases procs_setProc hq with ⟨-, heq⟩ | ⟨hne, hq⟩
      · cases heq
      · exact h.shown t q hq hne

theorem Inv.step {e : Event} (h : m.Inv) (hwait : m.ShownWhenWaiting e) (hstep : m.Step e m') :
    m'.Inv := by
  simp only [Step, after?] at hstep
  split at hstep
  · next p hp => exact h.act hp hwait hstep
  · cases hstep

/-- The kernel starts: only the thread at `t` is there, and it has no page directory. -/
def started (t : Nat) : Machine where
  procs := fun u => if u = t then some { dir := none, pgdir := none, place := .program, ready := true } else none
  cur := t
  cr3 := kernelPageDir
  esp0 := 0
  holder := none
  waiters := []

theorem started_inv : (started t).Inv := by
  have hprocs : ∀ {u p}, (started t).procs u = some p →
      u = t ∧ p = { dir := none, pgdir := none, place := .program, ready := true } := by
    intro u p hp
    simp only [started, Option.ite_none_right_eq_some] at hp
    exact ⟨hp.1, (Option.some.inj hp.2).symm⟩
  refine ⟨fun u p hp => ?_, fun u p hp hne => absurd (hprocs hp).1 hne, fun p d hp hdir => ?_⟩
  · rw [(hprocs hp).2]
    rfl
  · rw [(hprocs hp).2] at hdir
    cases hdir

end Machine

end AddrSpace

/-- Whoever runs has its own page directory and kernel stack, as long as no process waits
    for the kernel pool with its directory hidden. -/
theorem own_directory_active (t : Nat) (m : AddrSpace.Machine)
    (hrun : AddrSpace.Machine.Run AddrSpace.Machine.ShownWhenWaiting (.started t) m) : m.OwnDirectory :=
  (hrun.invariant AddrSpace.Machine.started_inv fun _ _ _ h hwait hstep => h.step hwait hstep).own

namespace AddrSpace

/-- The page directory of the process at `0xc0110000`. -/
def dirB : PageDir := { vaddr := 0xc0112000, phys := 0x212000 }

/-- A process is created and gets the processor from the main thread. -/
def processRuns : List Event := [.create 0xc0110000 (some dirB), .preempt 0xc0110000]

/-- The main thread is interrupted while it has the kernel pool. -/
def processWaits : List Event :=
  [.create 0xc0110000 (some dirB), .enter, .lockAcquire, .preempt 0xc0110000,
    .hide, .lockWait 0xc009e000, .lockRelease, .preempt 0xc0110000, .lockAcquire,
    .lockRelease, .restore, .leave]

end AddrSpace

/-- A process has just been given the processor. -/
theorem own_directory_active_process : ∃ m : AddrSpace.Machine, m.OwnDirectory ∧
    m.cur = 0xc0110000 ∧ m.cr3 = 0x212000 ∧ m.esp0 = 0xc0111000 := by
  have hend : (AddrSpace.processRuns.foldlM AddrSpace.Machine.after? (.started 0xc009e000)).map
      (fun m => (m.cur, m.cr3, m.esp0)) = some (0xc0110000, 0x212000, 0xc0111000) := by
    decide +kernel
  obtain ⟨m, hm, hval⟩ := Option.map_eq_some_iff.mp hend
  obtain ⟨hcur, hval⟩ := Prod.mk.inj hval
  obtain ⟨hcr3, hesp0⟩ := Prod.mk.inj hval
  have hrun : AddrSpace.Machine.Run AddrSpace.Machine.ShownWhenWaiting (.started 0xc009e000) m := by
    simp only [AddrSpace.processRuns, List.foldlM_cons, List.foldlM_nil] at hm
    obtain ⟨m₁, h₁, hm⟩ := Option.bind_eq_some_iff.mp hm
    obtain ⟨m₂, h₂, hm⟩ := Option.bind_eq_some_iff.mp hm
    obtain rfl : m₂ = m := Option.some.inj hm
    exact .next (.preempt 0xc0110000) (.next (.create 0xc0110000 (some AddrSpace.dirB)) .start trivial h₁)
      trivial h₂
  exact ⟨m, own_directory_active 0xc009e000 m hrun, hcur, hcr3, hesp0⟩

/-- The process runs its program again, on the page directory of the kernel. -/
theorem waiting_process_loses_directory : ∃ m : AddrSpace.Machine,
    AddrSpace.Machine.Run (fun _ _ => True) (.started 0xc009e000) m ∧
    m.procs m.cur = some { dir := some AddrSpace.dirB, pgdir := some AddrSpace.dirB, place := .program, ready := true } ∧
    m.cr3 ≠ AddrSpace.dirB.phys := by
  have hend : (AddrSpace.processWaits.foldlM AddrSpace.Machine.after? (.started 0xc009e000)).map
      (fun m => (m.procs m.cur, m.cr3)) =
        some (some { dir := some AddrSpace.dirB, pgdir := some AddrSpace.dirB, place := .program, ready := true },
          kernelPageDir) := by
    decide +kernel
  obtain ⟨m, hm, hval⟩ := Option.map_eq_some_iff.mp hend
  obtain ⟨hcur, hcr3⟩ := Prod.mk.inj hval
  refine ⟨m, .of_foldlM (fun _ _ _ h => ⟨trivial, h⟩) hm, hcur, ?_⟩
  rw [hcr3]
  decide

end ZxyOs
