/-
  ZxyOs.User.PipeRun

  Runs of `sys_pipe`, `sys_fork`, `sys_close`, `sys_exit`, `sys_fd_redirect` and
  `sys_lseek` by any processes, one call after the other.

  The count of a pipe is right as long as no call changes the references to a pipe, or
  `fd_pos`, behind its back (`PipeKept`): then the ring buffer is freed when the last
  descriptor goes, and not before (`pipes_counted`).  Redirecting a descriptor of a pipe
  is enough to break the count (`redirect_breaks_count`).
-/

import ZxyOs.Lib.Runs
import ZxyOs.User.PipeCalls

namespace ZxyOs

open Lib Lib.Exec

/-- The pairs of a live process and a descriptor from 3 on. -/
def heldOf (live : Finset Nat) : Finset (Nat × Fin 8) := live ×ˢ localFds.toFinset

theorem mem_heldOf {live : Finset Nat} {t : Nat} {fd : Fin 8} :
    (t, fd) ∈ heldOf live ↔ t ∈ live ∧ 3 ≤ fd := by
  rw [heldOf, Finset.mem_product, List.mem_toFinset, mem_localFds]

theorem card_heldOf (live : Finset Nat) : (heldOf live).card = live.card * 5 :=
  Finset.card_product ..

/-- What `sys_fd_redirect` stores. -/
def Fs.redirectTo (s : Fs) (t newLocalFd : Nat) : Int :=
  if newLocalFd < 3 then newLocalFd
  else if h : newLocalFd < 8 then s.fdAt t ⟨newLocalFd, h⟩
  else -1

namespace FileProcs

/-- The pairs of a live process and a descriptor from 3 on that refer to slot `i`. -/
def refs (d : FileProcs) (i : Nat) : Finset (Nat × Fin 8) := d.fs.refs (heldOf d.live) i

/-- The call does not spoil the count of a pipe: `sys_pipe` finds two descriptors, a file
    that is closed has no other descriptor, a redirected descriptor refers to the same
    slot as before or to no pipe before and after, and no offset is set on a pipe. -/
def PipeKept (d : FileProcs) (e : Nat × FdCall) : Prop :=
  match e.2 with
  | .pipe => Fs.RoomForPipe { d.fs with cur := e.1 }
  | .fork _ => True
  | .close fd => ∀ f : Fin 8, f.val = fd → d.fs.Alone (heldOf d.live) (e.1, f)
  | .exit => ∀ f ∈ localFds, d.fs.Alone (heldOf d.live) (e.1, f)
  | .fdRedirect old new => ∀ f : Fin 8, f.val = old → 3 ≤ f →
      d.fs.redirectTo e.1 new = d.fs.fdAt e.1 f ∨
        ∀ i a, d.fs.HoldsPipe i a → d.fs.fdAt e.1 f ≠ i ∧ d.fs.redirectTo e.1 new ≠ i
  | .lseek fd offset whence => ∀ f : Fin 8, f.val = fd → ∀ g : Nat, d.fs.fdAt e.1 f = g →
      (d.fs.fileTable g).fdFlag = pipeFlag →
        lseekPos whence offset (d.fs.fileTable g).fdPos 1 ≠ 0

/-- No pipe yet; files may be open. -/
structure Initial (d : FileProcs) : Prop where
  no_pipe : ∀ i, (d.fs.fileTable i).fdFlag ≠ pipeFlag
  low : ∀ i < 3, (d.fs.fileTable i).fdInode = none
  opened : ∀ t ∈ d.live, ∀ fd : Fin 8, 3 ≤ fd → ∀ i : Nat, 3 ≤ i → d.fs.fdAt t fd = i →
    (d.fs.fileTable i).fdInode ≠ none
  rings : ∀ a, d.fs.rings a = none
  live : d.live.card ≤ 1024

structure Ok (d : FileProcs) : Prop where
  pipes : PipesOk d.fs (heldOf d.live)
  live : d.live.card ≤ 1024

/-- Runs all of whose calls meet `P`. -/
abbrev Run (P : FileProcs → Nat × FdCall → Prop) : FileProcs → FileProcs → Prop := Lib.Run Step P

section Steps

variable {d d' : FileProcs} {e : Nat × FdCall} {t i a : Nat}

theorem Initial.ok (h : d.Initial) : d.Ok := by
  have hnone (i a : Nat) : ¬ d.fs.HoldsPipe i a := fun hi => h.no_pipe i hi.1
  refine ⟨⟨fun i hi => ⟨h.low i hi, h.no_pipe i⟩, fun i hi hfree => ?_, ?_, ?_, ?_, ?_, ?_, ?_⟩, h.live⟩
  · apply Finset.eq_empty_of_forall_notMem
    rintro ⟨t, fd⟩ hx
    obtain ⟨hmem, hfd⟩ := Fs.mem_refs.mp hx
    obtain ⟨ht, h3⟩ := mem_heldOf.mp hmem
    exact h.opened t ht fd h3 i hi hfd hfree
  · exact fun i a hi => absurd hi (hnone i a)
  · exact fun i a hi => absurd hi (hnone i a)
  · exact fun i a hi => absurd hi (hnone i a)
  · exact fun i _ a hi => absurd hi (hnone i a)
  · exact fun a ha => absurd (h.rings a) ha
  · have := h.live
    rw [card_heldOf]
    omega

/-- The running process is not looked at. -/
theorem Ok.withCur (h : d.Ok) (t : Nat) : PipesOk { d.fs with cur := t } (heldOf d.live) :=
  h.pipes.congr rfl rfl le_rfl (fun _ => rfl) h.pipes.small

/-- A pipe is as it was, or its page and its slot are free. -/
def Settled (d d' : FileProcs) : Prop :=
  ∀ i a, d.fs.HoldsPipe i a →
    d'.fs.HoldsPipe i a ∨ (d'.fs.fileTable i).fdInode = none ∧ d'.fs.rings a = none

theorem Ok.pipe (h : d.Ok) (ht : t ∈ d.live) (hkept : d.PipeKept (t, .pipe))
    (hret : Returns (FdCall.code .pipe) { d.fs with cur := t } () d'.fs) (hlive : d'.live = d.live) :
    d'.Ok ∧ d.Settled d' := by
  simp only [FdCall.code, returns_bind, returns_pure] at hret
  obtain ⟨r, _, hret, -, rfl⟩ := hret
  obtain ⟨hok, hkeep, -⟩ := (h.withCur t).sysPipe hkept
    (fun fd hfd => mem_heldOf.mpr ⟨ht, hfd⟩) hret
  exact ⟨⟨by rw [hlive]; exact hok, by rw [hlive]; exact h.live⟩, fun i a hi => Or.inl (hkeep i a hi)⟩

theorem Ok.fork (h : d.Ok) (ht : t ∈ d.live) {child : Nat} (hchild : child ∉ d.live)
    (hpids : d.live.card < 1024)
    (hret : Returns (FdCall.code (.fork child)) { d.fs with cur := t } () d'.fs)
    (hlive : d'.live = insert child d.live) : d'.Ok ∧ d.Settled d' := by
  simp only [FdCall.code, sysFork, returns_bind, returns_runningThread, returns_update] at hret
  obtain ⟨k, _, ⟨hk, rfl⟩, _, _, rfl, hret⟩ := hret
  have hne : t ≠ child := fun heq => hchild (heq ▸ ht)
  have hk' : d.fs.tasks t = some k := hk
  let s₁ : Fs := { d.fs with cur := t, tasks := Function.update d.fs.tasks child (some k) }
  have hfd (p : Nat) (fd : Fin 8) (hp : p ≠ child) : s₁.fdAt p fd = d.fs.fdAt p fd := by
    simp only [Fs.fdAt, s₁, Function.update_of_ne hp]
  -- the new control block is not held yet
  have hok : PipesOk s₁ (heldOf d.live) := by
    refine h.pipes.congr ?_ ?_ ?_ (fun i => ?_) h.pipes.small
    · rfl
    · rfl
    · exact le_rfl
    ext ⟨p, fd⟩
    rw [Fs.mem_refs, Fs.mem_refs]
    constructor
    · rintro ⟨hmem, hi⟩
      have hp : p ≠ child := fun heq => hchild (heq ▸ (mem_heldOf.mp hmem).1)
      rw [hfd p fd hp] at hi
      exact ⟨hmem, hi⟩
    · rintro ⟨hmem, hi⟩
      have hp : p ≠ child := fun heq => hchild (heq ▸ (mem_heldOf.mp hmem).1)
      refine ⟨hmem, ?_⟩
      rw [hfd p fd hp]
      exact hi
  obtain ⟨hok', hkeep, -⟩ := hok.updateInodeOpenCnts (by decide)
    (fun fd _ hmem => hchild (mem_heldOf.mp hmem).1)
    (fun fd hfd => mem_heldOf.mpr ⟨ht, (mem_localFds fd).mp hfd⟩)
    (fun fd => by
      have hchildfd : s₁.fdAt child fd = k.fdtable fd := by
        simp only [Fs.fdAt, s₁, Function.update_self]
      have hparent : s₁.fdAt t fd = k.fdtable fd := by
        rw [hfd t fd hne]
        simp only [Fs.fdAt, hk']
      exact hchildfd.trans hparent.symm)
    (by
      rw [card_heldOf]
      show d.live.card * 5 + 5 < 2 ^ 32
      omega)
    hret
  have hheld : heldOf d'.live = heldOf d.live ∪ localFds.toFinset.image fun fd => (child, fd) := by
    rw [hlive]
    ext ⟨p, fd⟩
    rw [mem_heldOf, Finset.mem_union, mem_heldOf, Finset.mem_insert, Finset.mem_image]
    simp only [List.mem_toFinset, mem_localFds, Prod.mk.injEq]
    constructor
    · rintro ⟨rfl | hp, h3⟩
      · exact Or.inr ⟨fd, h3, rfl, rfl⟩
      · exact Or.inl ⟨hp, h3⟩
    · rintro (⟨hp, h3⟩ | ⟨_, h3, rfl, rfl⟩)
      · exact ⟨Or.inr hp, h3⟩
      · exact ⟨Or.inl rfl, h3⟩
  refine ⟨⟨by rw [hheld]; exact hok', ?_⟩, fun i a hi => Or.inl (hkeep i a hi)⟩
  rw [hlive, Finset.card_insert_of_notMem hchild]
  omega

theorem Ok.close (h : d.Ok) (ht : t ∈ d.live) {fd : Int} (hkept : d.PipeKept (t, .close fd))
    (hret : Returns (FdCall.code (.close fd)) { d.fs with cur := t } () d'.fs)
    (hlive : d'.live = d.live) : d'.Ok ∧ d.Settled d' := by
  simp only [FdCall.code, returns_bind, returns_pure] at hret
  obtain ⟨r, _, hret, -, rfl⟩ := hret
  by_cases hfd : 2 < fd
  · -- `fd_local_to_global` has looked the descriptor up
    have hlt : fd < 8 := by
      simp only [sysClose, if_pos hfd, returns_bind] at hret
      obtain ⟨g, _, hg, -⟩ := hret
      obtain ⟨-, ⟨-, hlt⟩, -⟩ := returns_fdLocalToGlobal hg
      exact hlt
    obtain ⟨f, rfl⟩ : ∃ f : Fin 8, (f.val : Int) = fd :=
      ⟨⟨fd.toNat, by omega⟩, Int.toNat_of_nonneg (by omega)⟩
    have hf : 3 ≤ f := by
      show 3 ≤ f.val
      omega
    obtain ⟨hok, -, hcloses⟩ := (h.withCur t).closePair hf (mem_heldOf.mpr ⟨ht, hf⟩)
      (hkept f rfl) hret
    exact ⟨⟨by rw [hlive]; exact hok, by rw [hlive]; exact h.live⟩, hcloses.drop.pipe⟩
  · rw [sysClose, if_neg hfd] at hret
    obtain ⟨-, heq⟩ := returns_pure.mp hret
    refine ⟨⟨?_, by rw [hlive]; exact h.live⟩, fun i a hi => Or.inl ?_⟩
    · rw [hlive, ← heq]
      exact h.withCur t
    · rw [← heq]
      exact hi

theorem Ok.exit (h : d.Ok) (ht : t ∈ d.live) (hkept : d.PipeKept (t, .exit))
    (hret : Returns (FdCall.code .exit) { d.fs with cur := t } () d'.fs)
    (hlive : d'.live = d.live.erase t) : d'.Ok ∧ d.Settled d' := by
  simp only [FdCall.code, sysExit, returns_bind, returns_update] at hret
  obtain ⟨_, s₁, hloop, heq⟩ := hret
  obtain ⟨hok, hdrop, hother, hcur, -⟩ := (h.withCur t).releaseFds
    (fun fd hfd => (mem_localFds fd).mp hfd) (by decide)
    (fun fd hfd => mem_heldOf.mpr ⟨ht, (mem_localFds fd).mp hfd⟩) hkept hloop
  have hheld : heldOf d'.live = (heldOf d.live).filter fun y => ¬ (y.1 = t ∧ y.2 ∈ localFds) := by
    rw [hlive]
    ext ⟨p, fd⟩
    rw [mem_heldOf, Finset.mem_filter, mem_heldOf, Finset.mem_erase]
    simp only [mem_localFds]
    tauto
  have hcur' : s₁.cur = t := hcur
  have hfile : d'.fs.fileTable = s₁.fileTable := by rw [← heq]
  have hrings : d'.fs.rings = s₁.rings := by rw [← heq]
  refine ⟨⟨?_, ?_⟩, ?_⟩
  · apply hok.congr hfile hrings
    · rw [← heq]
    · intro i
      rw [hheld]
      ext ⟨p, fd⟩
      rw [Fs.mem_refs, Fs.mem_refs]
      -- the control block that goes is not held
      have hfd (hmem : (p, fd) ∈ (heldOf d.live).filter fun y => ¬ (y.1 = t ∧ y.2 ∈ localFds)) :
          d'.fs.fdAt p fd = s₁.fdAt p fd := by
        have hp : p ≠ t := by
          rintro rfl
          obtain ⟨hmem, hnot⟩ := Finset.mem_filter.mp hmem
          exact hnot ⟨rfl, (mem_localFds fd).mpr (mem_heldOf.mp hmem).2⟩
        rw [← heq]
        simp only [Fs.fdAt, hcur', Function.update_of_ne hp]
      constructor
      · rintro ⟨hmem, hi⟩
        rw [hfd hmem] at hi
        exact ⟨hmem, hi⟩
      · rintro ⟨hmem, hi⟩
        refine ⟨hmem, ?_⟩
        rw [hfd hmem]
        exact hi
    · rw [hheld]
      exact hok.small
  · rw [hlive]
    exact (Finset.card_le_card (Finset.erase_subset t d.live)).trans h.live
  · exact (hdrop.trans (.of_eq hfile hrings)).pipe

theorem Ok.fdRedirect (h : d.Ok) (ht : t ∈ d.live) {old new : Nat}
    (hkept : d.PipeKept (t, .fdRedirect old new))
    (hret : Returns (FdCall.code (.fdRedirect old new)) { d.fs with cur := t } () d'.fs)
    (hlive : d'.live = d.live) : d'.Ok ∧ d.Settled d' := by
  have hset : Returns (setFd old (d.fs.redirectTo t new)) { d.fs with cur := t } () d'.fs := by
    simp only [FdCall.code, sysFdRedirect] at hret
    by_cases hnew : new < 3
    · rw [if_pos hnew] at hret
      rw [Fs.redirectTo, if_pos hnew]
      exact hret
    · rw [if_neg hnew] at hret
      simp only [returns_bind, returns_runningThread] at hret
      obtain ⟨k, _, ⟨hk, rfl⟩, hret⟩ := hret
      split at hret
      · next hlt =>
        have hval : d.fs.fdAt t ⟨new, hlt⟩ = k.fdtable ⟨new, hlt⟩ := by
          have hk' : d.fs.tasks t = some k := hk
          simp only [Fs.fdAt, hk']
        rw [Fs.redirectTo, if_neg hnew, dif_pos hlt, hval]
        exact hret
      · exact absurd hret (returns_stop _)
  obtain ⟨hlt, hself, hother, hfile, hrings, hheap, -, -⟩ := returns_setFd hset
  obtain ⟨f, rfl⟩ : ∃ f : Fin 8, f.val = old := ⟨⟨old, by omega⟩, rfl⟩
  have hfin : (⟨(f.val : Int).toNat, by omega⟩ : Fin 8) = f := Fin.ext (by simp)
  rw [hfin] at hself hother
  have hself' : d'.fs.fdAt t f = d.fs.redirectTo t new := hself
  have hother' (y : Nat × Fin 8) (hy : y ≠ (t, f)) : d'.fs.fdAt y.1 y.2 = d.fs.fdAt y.1 y.2 :=
    hother y hy
  have hsettled : d.Settled d' := (PipesDrop.of_eq (s := d.fs) hfile hrings).pipe
  refine ⟨⟨?_, by rw [hlive]; exact h.live⟩, hsettled⟩
  rw [hlive]
  -- no reference changes, or none to a pipe
  have hsame (heq : ∀ y ∈ heldOf d.live, d'.fs.fdAt y.1 y.2 = d.fs.fdAt y.1 y.2) :
      PipesOk d'.fs (heldOf d.live) := by
    apply h.pipes.congr hfile hrings (by rw [hheap]) (fun i => ?_) h.pipes.small
    ext y
    rw [Fs.mem_refs, Fs.mem_refs]
    constructor
    · rintro ⟨hmem, hi⟩
      rw [heq y hmem] at hi
      exact ⟨hmem, hi⟩
    · rintro ⟨hmem, hi⟩
      refine ⟨hmem, ?_⟩
      rw [heq y hmem]
      exact hi
  by_cases hf : 3 ≤ f
  · rcases hkept f rfl hf with hval | hpipe
    · apply hsame
      intro y _
      by_cases hy : y = (t, f)
      · rw [hy]
        exact hself'.trans hval
      · exact hother' y hy
    · apply h.pipes.redirect (x := (t, f)) hfile hrings hheap hother'
      · intro i a hi
        rw [hself']
        exact hpipe i a hi
      · intro i hi h3 hnone
        rw [hself', Fs.redirectTo] at hi
        split at hi
        · omega
        · next hnew =>
          split at hi
          · next hnew8 =>
            -- the slot of another held descriptor is not free
            have hmem : (t, (⟨new, hnew8⟩ : Fin 8)) ∈ d.fs.refs (heldOf d.live) i := by
              refine Fs.mem_refs.mpr ⟨mem_heldOf.mpr ⟨ht, ?_⟩, hi⟩
              show 3 ≤ new
              omega
            rw [h.pipes.free i h3 hnone] at hmem
            simp at hmem
          · omega
  · apply hsame
    rintro ⟨p, fd⟩ hmem
    apply hother'
    intro heq
    rw [(Prod.mk.inj heq).2] at hmem
    exact hf (mem_heldOf.mp hmem).2

theorem Ok.lseek (h : d.Ok) {fd offset : Int} {whence : Nat}
    (hkept : d.PipeKept (t, .lseek fd offset whence))
    (hret : Returns (FdCall.code (.lseek fd offset whence)) { d.fs with cur := t } () d'.fs)
    (hlive : d'.live = d.live) : d'.Ok ∧ d.Settled d' := by
  simp only [FdCall.code, sysLseek, returns_bind, returns_assert, returns_query, returns_deref] at hret
  obtain ⟨r, _, ⟨_, _, ⟨hfd, rfl⟩, _, _, ⟨-, rfl⟩, g, _, hg, f, _, ⟨rfl, rfl⟩, a, _, ⟨ha, rfl⟩, size,
    s₁, hsize, hret⟩, hend⟩ := hret
  obtain ⟨-, rfl⟩ := returns_pure.mp hend
  obtain ⟨rfl, hlt, hat⟩ := returns_fdLocalToGlobal hg
  have hsame : s₁ = { d.fs with cur := t } ∧ (d.fs.rings a ≠ none → size = 1) := by
    simp only [fileSize, returns_bind, returns_query] at hsize
    obtain ⟨_, _, ⟨rfl, rfl⟩, hsize⟩ := hsize
    simp only [id_eq] at hsize
    cases hring : d.fs.rings a with
    | none =>
      rw [hring] at hsize
      simp only [returns_bind, returns_getInode, returns_pure] at hsize
      obtain ⟨v, _, ⟨-, rfl⟩, -, rfl⟩ := hsize
      exact ⟨rfl, fun hc => absurd rfl hc⟩
    | some b =>
      rw [hring] at hsize
      obtain ⟨rfl, rfl⟩ := returns_pure.mp hsize
      exact ⟨rfl, fun _ => rfl⟩
  obtain ⟨rfl, hone⟩ := hsame
  have hcur := h.withCur t
  split at hret
  · obtain ⟨-, heq⟩ := returns_pure.mp hret
    refine ⟨⟨?_, by rw [hlive]; exact h.live⟩, fun i a hi => Or.inl ?_⟩
    · rw [hlive, ← heq]
      exact hcur
    · rw [← heq]
      exact hi
  · next hvalid =>
    simp only [putFile, returns_bind, returns_update, returns_pure] at hret
    obtain ⟨_, _, rfl, -, heq⟩ := hret
    -- on a pipe the only valid offset is 0
    have hflag : (d.fs.fileTable g).fdFlag ≠ pipeFlag := by
      intro hflag
      rw [hone (h.pipes.ring g a ⟨hflag, ha⟩)] at hvalid
      refine hkept ⟨fd.toNat, by omega⟩ (Int.toNat_of_nonneg hlt.1) g hat hflag ?_
      have hpos : ¬ (lseekPos whence offset (d.fs.fileTable g).fdPos 1 < 0 ∨
          lseekPos whence offset (d.fs.fileTable g).fdPos 1 > 1 - 1) := hvalid
      omega
    have hset : d'.fs = Fs.setSlot { d.fs with cur := t } g { d.fs.fileTable g with
        fdPos := (lseekPos whence offset (d.fs.fileTable g).fdPos size).toNat } := heq.symm
    refine ⟨⟨?_, by rw [hlive]; exact h.live⟩, fun i a hi => Or.inl ?_⟩
    · rw [hlive, hset]
      exact hcur.setPos hflag
    · have hig : i ≠ g := by
        rintro rfl
        exact hflag hi.1
      rw [hset, Fs.HoldsPipe]
      show (Function.update d.fs.fileTable g _ i).fdFlag = pipeFlag ∧
        (Function.update d.fs.fileTable g _ i).fdInode = some a
      rw [Function.update_of_ne hig]
      exact hi

theorem Ok.step (h : d.Ok) (hkept : d.PipeKept e) (hstep : d.Step e d') : d'.Ok ∧ d.Settled d' := by
  obtain ⟨t, c⟩ := e
  obtain ⟨ht, hgrants, hret, hlive⟩ := hstep
  cases c with
  | pipe => exact h.pipe ht hkept hret hlive
  | fork child => exact h.fork ht hgrants.1 hgrants.2 hret hlive
  | close fd => exact h.close ht hkept hret hlive
  | exit => exact h.exit ht hkept hret hlive
  | fdRedirect old new => exact h.fdRedirect ht hkept hret hlive
  | lseek fd offset whence => exact h.lseek hkept hret hlive

theorem Run.ok {d₀ : FileProcs} (h₀ : d₀.Initial) (hrun : Run PipeKept d₀ d) : d.Ok :=
  hrun.invariant h₀.ok fun _ _ _ hok hkept hstep => (hok.step hkept hstep).1

end Steps

end FileProcs

/-- `fd_pos` of a pipe is the number of descriptors that refer to it; a call frees the
    ring buffer where no descriptor is left, and there only, and the slot with it; and a
    free slot is found again. -/
theorem pipes_counted (d₀ d : FileProcs) (h₀ : d₀.Initial)
    (hrun : FileProcs.Run FileProcs.PipeKept d₀ d) :
    (∀ i a, d.fs.HoldsPipe i a → (d.fs.fileTable i).fdPos = (d.refs i).card) ∧
      (∀ e d', d.PipeKept e → d.Step e d' → ∀ i a, d.fs.HoldsPipe i a →
        (d'.fs.rings a = none ↔ d'.refs i = ∅) ∧
          (d'.refs i = ∅ → (d'.fs.fileTable i).fdInode = none)) ∧
      ∀ i, 3 ≤ i → i < maxFilesOpen → (d.fs.fileTable i).fdInode = none →
        ∃ j ≤ i, Returns getFreeSlotInGlobal d.fs (some j) d.fs := by
  have hok : d.Ok := hrun.ok h₀
  refine ⟨hok.pipes.count, fun e d' hkept hstep i a hi => ?_, fun i h3 h32 hnone => ?_⟩
  · obtain ⟨hok', hsettled⟩ := hok.step hkept hstep
    rcases hsettled i a hi with hi' | ⟨hfree, hring⟩
    · have hne : d'.refs i ≠ ∅ := (hok'.pipes.referred i a hi').ne_empty
      exact ⟨⟨fun hring => absurd hring (hok'.pipes.ring i a hi'), fun hc => absurd hc hne⟩,
        fun hc => absurd hc hne⟩
    · have h3 : 3 ≤ i := by
        by_contra hlt
        exact (hok.pipes.low i (by omega)).2 hi.1
      exact ⟨⟨fun _ => hok'.pipes.free i h3 hfree, fun _ => hring⟩, fun _ => hfree⟩
  · obtain ⟨j, hj, hslot⟩ := freeSlotFrom_exists (n := maxFilesOpen - 3) h3 (by omega) hnone
    refine ⟨j, hj, ?_⟩
    simp only [getFreeSlotInGlobal, returns_bind, returns_query, returns_pure]
    exact ⟨d.fs, d.fs, ⟨rfl, rfl⟩, hslot, rfl⟩

/-! ## A redirected pipe -/

/-- Process 0 with the standard descriptors, and no file open. -/
def bootFiles : FileProcs where
  fs := {
    part := { startLba := 0, secCnt := 0, sb := {
      magic := 0, secCnt := 0, inodeCnt := 0, partLbaBase := 0, blockBitmapLba := 0,
      blockBitmapSecs := 0, inodeBitmapLba := 0, inodeBitmapSecs := 0, inodeTableLba := 0,
      inodeTableSecs := 0, dataStartLba := 0, rootInodeNo := 0, dirEntrySize := 24 } }
    disk := Bytes.zero
    blockBitmap := { btmpBytesLen := 0, bit := fun _ => false }
    inodeMap := { btmpBytesLen := 0, bit := fun _ => false }
    openInodes := []
    inodes := fun _ => none
    dirs := fun _ => none
    rings := fun _ => none
    rootDir := { inode := 0, dirPose := 0 }
    fileTable := fun _ => { fdPos := 0, fdFlag := 0, fdInode := none }
    heap := { next := 1, live := [], full := fun _ => false }
    tasks := fun t =>
      if t = 0 then
        some { fdtable := fun fd => if fd < 3 then fd.val else -1, cwdInodeNr := 0, userSpace := true }
      else none
    cur := 0 }
  live := {0}

theorem bootFiles_initial : bootFiles.Initial where
  no_pipe := fun _ => (by decide : (0 : Nat) ≠ pipeFlag)
  low := fun _ _ => rfl
  opened := by
    intro t ht fd hfd i hi hat
    obtain rfl : t = 0 := Finset.mem_singleton.mp ht
    have hneg : bootFiles.fs.fdAt 0 fd = -1 := if_neg (not_lt_of_ge hfd)
    rw [hneg] at hat
    omega
  rings := fun _ => rfl
  live := by decide

namespace FileProcs

/-- `code` of process `t`, computed. -/
def after? (d : FileProcs) (t : Nat) (c : FdCall) : Option FileProcs :=
  (final? c.code { d.fs with cur := t }).map fun s => ⟨s, c.lives d.live t⟩

theorem step_of_after? {d d' : FileProcs} {t : Nat} {c : FdCall} (ht : t ∈ d.live)
    (hgrants : c.Grants d.live) (h : d.after? t c = some d') : d.Step (t, c) d' := by
  obtain ⟨s, hs, rfl⟩ := Option.map_eq_some_iff.mp h
  obtain ⟨_, hret⟩ := final?_eq_some.mp hs
  exact ⟨ht, hgrants, hret, rfl⟩

end FileProcs

/-- Process 0 makes a pipe and forks: 4 descriptors. -/
theorem pipes_counted_fork : ∃ d : FileProcs,
    (d.fs.fileTable 3).fdPos = 4 ∧ (d.fs.fileTable 3).fdPos = (d.refs 3).card := by
  have hpipe : bootFiles.PipeKept (0, .pipe) :=
    ⟨by decide, 3, 4, by decide, by decide, by decide, by decide⟩
  have hend : ((bootFiles.after? 0 .pipe).bind fun d => d.after? 0 (.fork 1)).map (fun d =>
      ((d.fs.fileTable 3).fdPos, (d.fs.fileTable 3).fdFlag, (d.fs.fileTable 3).fdInode)) =
      some (4, pipeFlag, some 1) := by
    decide +kernel
  obtain ⟨d₂, hd₂, hval⟩ := Option.map_eq_some_iff.mp hend
  obtain ⟨d₁, hd₁, hd₂⟩ := Option.bind_eq_some_iff.mp hd₂
  simp only [Prod.mk.injEq] at hval
  have hlive : d₁.live = {0} := by
    obtain ⟨s, -, rfl⟩ := Option.map_eq_some_iff.mp hd₁
    rfl
  have hstep₁ := FileProcs.step_of_after? (t := 0) (c := .pipe) (by decide) trivial hd₁
  have hstep₂ := FileProcs.step_of_after? (t := 0) (c := .fork 1) (by rw [hlive]; decide)
    (by rw [hlive]; exact ⟨by decide, by decide⟩) hd₂
  exact ⟨d₂, hval.1, (pipes_counted bootFiles d₂ bootFiles_initial
    (.next (0, .fork 1) (.next _ .start hpipe hstep₁) trivial hstep₂)).1 3 1 ⟨hval.2.1, hval.2.2⟩⟩

/-- Process 0 makes a pipe and redirects descriptor 3 to the screen: `fd_pos` is 2. -/
theorem redirect_breaks_count :
    ¬ ∀ d₀ d : FileProcs, d₀.Initial → FileProcs.Run (fun _ _ => True) d₀ d →
      ∀ i a, d.fs.HoldsPipe i a → (d.fs.fileTable i).fdPos = (d.refs i).card := by
  intro hclaim
  have hend : ((bootFiles.after? 0 .pipe).bind fun d => d.after? 0 (.fdRedirect 3 1)).map (fun d =>
      ((d.fs.fileTable 3).fdPos, (d.fs.fileTable 3).fdFlag, (d.fs.fileTable 3).fdInode,
        (d.refs 3).card)) = some (2, pipeFlag, some 1, 1) := by
    decide +kernel
  obtain ⟨d₂, hd₂, hval⟩ := Option.map_eq_some_iff.mp hend
  obtain ⟨d₁, hd₁, hd₂⟩ := Option.bind_eq_some_iff.mp hd₂
  simp only [Prod.mk.injEq] at hval
  have hlive : d₁.live = {0} := by
    obtain ⟨s, -, rfl⟩ := Option.map_eq_some_iff.mp hd₁
    rfl
  have hstep₁ := FileProcs.step_of_after? (t := 0) (c := .pipe) (by decide) trivial hd₁
  have hstep₂ := FileProcs.step_of_after? (t := 0) (c := .fdRedirect 3 1) (by rw [hlive]; decide)
    trivial hd₂
  have hcount := hclaim bootFiles d₂ bootFiles_initial
    (.next _ (.next _ .start trivial hstep₁) trivial hstep₂) 3 1 ⟨hval.2.1, hval.2.2.1⟩
  rw [hval.1, hval.2.2.2] at hcount
  cases hcount

end ZxyOs
