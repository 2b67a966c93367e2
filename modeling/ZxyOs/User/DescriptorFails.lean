/-
  ZxyOs.User.DescriptorFails

  What `sys_open` and `sys_pipe` leave behind where they give out no descriptor.

  `sys_pipe` returns 0 whatever it has stored in `pipefd`: its `return -1` stands behind
  the initialisation of the page whose address it tests.  So it reports no failure at all.
-/

import ZxyOs.Fs.OpenUndo
import ZxyOs.User.Descriptors

namespace ZxyOs

open Lib Lib.Exec

/-- What `sys_pipe` returns. -/
def sysPipeResult : FsM Int := do
  let _ ← sysPipe
  return 0

/-- `sys_pipe` stores two descriptors. -/
def Fs.DeliversPipe (s : Fs) : Prop :=
  ∃ fds s', Returns sysPipe s fds s' ∧ 0 ≤ fds.1 ∧ 0 ≤ fds.2

/-- A slot of `file_table` and a page are left, and the running process has two free
    descriptors. -/
def Fs.CanPipe (s : Fs) : Prop :=
  s.SlotFree ∧ s.heap.full s.heap.next = false ∧ ∃ k, s.tasks s.cur = some k ∧
    ∃ fd fd' : Fin 8, fd ≠ fd' ∧ 2 ≤ fd.val ∧ 2 ≤ fd'.val ∧ k.fdtable fd = -1 ∧ k.fdtable fd' = -1

section Pipe

variable {s s' : Fs} {g : Nat}

theorem pcbFdInstall_free {k : Task} {fd : Fin 8} (hk : s.tasks s.cur = some k)
    (hfd : freeFdFrom k.fdtable 6 2 = some fd) :
    Returns (pcbFdInstall g) s fd.val
      (s.setTask s.cur { k with fdtable := Function.update k.fdtable fd g }) := by
  simp only [pcbFdInstall, returns_bind, returns_runningThread]
  refine ⟨k, s, ⟨hk, rfl⟩, ?_⟩
  rw [hfd]
  simp only [returns_bind, returns_putThread, returns_pure]
  exact ⟨(), _, rfl, trivial, rfl⟩

/-- The state in which `sys_pipe` looks for its descriptors. -/
def Fs.pipeReady (s : Fs) (g : Nat) : Fs :=
  { s with
    heap := { s.heap with next := s.heap.next + 1 }
    rings := Function.update s.rings s.heap.next (some { head := 0, tail := 0, buf := Bytes.zero })
    fileTable := Function.update s.fileTable g
      { fdInode := some s.heap.next, fdFlag := pipeFlag, fdPos := 2 } }

/-- `sys_pipe` needs a slot and a page, and then looks for its descriptors. -/
theorem returns_sysPipe {fds : Int × Int} :
    Returns sysPipe s fds s' ↔ s.heap.full s.heap.next = false ∧
      ∃ g s₁, freeSlotFrom s.fileTable (maxFilesOpen - 3) 3 = some g ∧
        Returns (pcbFdInstall g) (s.pipeReady g) fds.1 s₁ ∧ Returns (pcbFdInstall g) s₁ fds.2 s' := by
  simp only [sysPipe, getFreeSlotInGlobal, getKernelPage, ioqueueInit, putFile, returns_bind,
    returns_query, returns_deref, returns_update, returns_pure]
  constructor
  · rintro ⟨slot, _, ⟨_, _, ⟨rfl, rfl⟩, rfl, rfl⟩, g, _, ⟨hslot, rfl⟩, page, _,
      ⟨_, _, ⟨rfl, rfl⟩, _, _, rfl, rfl, rfl⟩, a, _, ⟨hpage, rfl⟩, _, _, rfl, _, _, rfl, fd0, s₁, h₀,
      fd1, _, h₁, rfl, rfl⟩
    cases hfull : s.heap.full s.heap.next with
    | true =>
      rw [hfull, if_pos rfl] at hpage
      cases hpage
    | false =>
      rw [hfull, if_neg (by simp)] at hpage
      obtain rfl := Option.some.inj hpage
      exact ⟨rfl, g, s₁, hslot, h₀, h₁⟩
  · rintro ⟨hfull, g, s₁, hslot, h₀, h₁⟩
    refine ⟨some g, s, ⟨s, s, ⟨rfl, rfl⟩, hslot, rfl⟩, g, s, ⟨rfl, rfl⟩, some s.heap.next, _,
      ⟨s.heap, s, ⟨rfl, rfl⟩, (), _, rfl, ?_, rfl⟩, s.heap.next, _, ⟨rfl, rfl⟩, (), _, rfl, (), _, rfl, fds.1,
      s₁, h₀, fds.2, s', h₁, rfl, rfl⟩
    rw [hfull, if_neg (by simp)]

theorem deliversPipe_iff : s.DeliversPipe ↔ s.CanPipe := by
  constructor
  · rintro ⟨fds, s', hret, h0, h1⟩
    obtain ⟨hfull, g, s₁, hslot, h₀, h₁⟩ := returns_sysPipe.mp hret
    obtain ⟨k, hk, ⟨-, hr, -⟩ | ⟨fd, hfd, -, rfl⟩⟩ := pcbFdInstall_cases h₀
    · omega
    obtain ⟨k', hk', ⟨-, hr, -⟩ | ⟨fd', hfd', -, -⟩⟩ := pcbFdInstall_cases h₁
    · omega
    have hk'' : (s.pipeReady g).tasks s.cur = some k := hk
    obtain rfl : { k with fdtable := Function.update k.fdtable fd g } = k' := by
      have hself := Function.update_self s.cur
        (some { k with fdtable := Function.update k.fdtable fd g }) s.tasks
      exact Option.some.inj (hself.symm.trans hk')
    obtain ⟨hle, hneg⟩ := freeFdFrom_some hfd
    obtain ⟨hle', hneg'⟩ := freeFdFrom_some hfd'
    dsimp only at hneg'
    -- the first descriptor is taken when the second one is looked for
    have hne : fd ≠ fd' := by
      rintro rfl
      rw [Function.update_self] at hneg'
      omega
    rw [Function.update_of_ne hne.symm] at hneg'
    refine ⟨?_, hfull, k, hk'', fd, fd', hne, hle, hle', hneg, hneg'⟩
    rw [Fs.SlotFree, hslot]
    simp
  · rintro ⟨hslot, hfull, k, hk, fd, fd', hne, hle, hle', hneg, hneg'⟩
    obtain ⟨g, hg⟩ := Option.ne_none_iff_exists'.mp hslot
    obtain ⟨e, he⟩ := freeFdFrom_exists (n := 6) (i := 2) hle (by omega) hneg
    -- one of the two is left
    obtain ⟨f, hf, hlef, hnegf⟩ : ∃ f : Fin 8, f ≠ e ∧ 2 ≤ f.val ∧ k.fdtable f = -1 := by
      by_cases hfe : fd = e
      · exact ⟨fd', fun heq => hne (hfe.trans heq.symm), hle', hneg'⟩
      · exact ⟨fd, hfe, hle, hneg⟩
    have hrest : Function.update k.fdtable e (g : Int) f = -1 := by
      rw [Function.update_of_ne hf, hnegf]
    obtain ⟨e', he'⟩ := freeFdFrom_exists (n := 6) (i := 2) hlef (by omega) hrest
    have h₀ := pcbFdInstall_free (s := s.pipeReady g) (g := g) hk he
    have hk' := Function.update_self s.cur
      (some { k with fdtable := Function.update k.fdtable e (g : Int) }) s.tasks
    have h₁ := pcbFdInstall_free (g := g)
      (s := (s.pipeReady g).setTask s.cur { k with fdtable := Function.update k.fdtable e g }) hk' he'
    exact ⟨(e.val, e'.val), _, returns_sysPipe.mpr ⟨hfull, g, _, hg, h₀, h₁⟩, by omega, by omega⟩

end Pipe

/-- A failing `sys_open` leaves no trace but in the cases of `OpenTraces`, and `sys_pipe` reports
    no failure: it behaves only where it has two descriptors to give. -/
theorem failed_descriptors_iff (s : Fs) (hok : s.CacheOk) (hlive : s.heap.LiveBelow) :
    (∀ path flags s', Returns (sysOpen path flags) s (-1) s' →
      (NoTrace s s' ↔ ¬ s.OpenTraces path flags)) ∧
    ((¬ s.DeliversPipe → ∃ s', Returns sysPipeResult s (-1) s' ∧ NoTrace s s') ↔ s.CanPipe) := by
  refine ⟨fun path flags s' h => sysOpen_noTrace_iff hok hlive h, ?_⟩
  rw [← deliversPipe_iff]
  constructor
  · intro hfails
    by_contra hno
    obtain ⟨s', hret, -⟩ := hfails hno
    simp only [sysPipeResult, returns_bind, returns_pure] at hret
    obtain ⟨fds, _, -, hzero, -⟩ := hret
    cases hzero
  · intro hyes hno
    exact absurd hyes hno

/-- `"/x"`. -/
def SmallTree.missingPath : CStr := [47, 120]

theorem SmallTree.liveBelow : SmallTree.fs.heap.LiveBelow := nofun

/-- Opening a file that is not there. -/
theorem failed_descriptors_missing : ∃ s', Returns (sysOpen SmallTree.missingPath 0) SmallTree.fs (-1) s' ∧
    NoTrace SmallTree.fs s' := by
  have hend : (sysOpen SmallTree.missingPath 0).checks SmallTree.fs (fun r _ => r = -1) = true := by
    decide +kernel
  obtain ⟨r, s', hret, hr⟩ := checks_eq_true.mp hend
  obtain rfl := of_decide_eq_true hr
  refine ⟨s', hret, ?_⟩
  apply ((failed_descriptors_iff SmallTree.fs SmallTree.cacheOk SmallTree.liveBelow).1 _ _ _ hret).mpr
  have hnone : (searchFile SmallTree.missingPath).checks SmallTree.fs (fun r _ => r.1 = none) = true := by
    decide +kernel
  rintro (⟨n, rec, s₁, hfinds, -⟩ | ⟨rec, s₁, -, hcreate, -⟩)
  · have hfound := of_decide_eq_true (hfinds.search.of_checks hnone)
    cases hfound
  · exact absurd hcreate (by decide)

/-- A second writer of `"/g"` is turned away and keeps slot 4. -/
theorem second_writer_keeps_slot : ∃ s s' : Fs, s.CacheOk ∧ s.heap.LiveBelow ∧
    Returns (sysOpen SmallTree.flatPath 1) s (-1) s' ∧ ¬ NoTrace s s' := by
  have hfirst : (sysOpen SmallTree.flatPath 1).checks SmallTree.fs (fun r s =>
      r ≠ -1 ∧ (∀ b ∈ s.heap.live, b.1 < s.heap.next) ∧ (sysOpen SmallTree.flatPath 1).checks s (fun r' s' =>
        r' = -1 ∧ (s'.fileTable 4).fdInode ≠ (s.fileTable 4).fdInode) = true) = true := by
    decide +kernel
  obtain ⟨r, s, hret, hval⟩ := checks_eq_true.mp hfirst
  obtain ⟨hr, hlive, hsecond⟩ := of_decide_eq_true hval
  obtain ⟨r', s', hret', hval'⟩ := checks_eq_true.mp hsecond
  obtain ⟨rfl, hslot⟩ := of_decide_eq_true hval'
  refine ⟨s, s', ?_, hlive, hret', fun hno => hslot (by rw [hno.fileTable])⟩
  rcases sysOpen_opened SmallTree.cacheOk hret with ⟨hneg, -⟩ | ⟨g, a, d, hopened⟩
  · exact absurd hneg hr
  · exact hopened.refs.ok

end ZxyOs
