/-
  ZxyOs.Fs.FdTable

  The descriptor table of a process and the table of open files: what the functions that
  read and write a descriptor do, and what the searches for a free descriptor and for a
  free slot find.
-/

import ZxyOs.Fs.Syscall

namespace ZxyOs

open Lib Lib.Exec

/-- The slot of descriptor `fd` of process `t`, `-1` for none. -/
def Fs.fdAt (s : Fs) (t : Nat) (fd : Fin 8) : Int :=
  match s.tasks t with
  | some k => k.fdtable fd
  | none => -1

/-- Slot `g` is written. -/
def Fs.setSlot (s : Fs) (g : Nat) (f : File) : Fs :=
  { s with fileTable := Function.update s.fileTable g f }

/-- The control block of process `t` is written. -/
def Fs.setTask (s : Fs) (t : Nat) (k : Task) : Fs :=
  { s with tasks := Function.update s.tasks t (some k) }

section FdTable

variable {s s' : Fs} {g : Nat}

theorem returns_fdLocalToGlobal {fd : Int} (h : Returns (fdLocalToGlobal fd) s g s') :
    s = s' ∧ ∃ hfd : 0 ≤ fd ∧ fd < 8, s.fdAt s.cur ⟨fd.toNat, fdtable_lt hfd⟩ = g := by
  simp only [fdLocalToGlobal, returns_bind, returns_runningThread] at h
  obtain ⟨k, _, ⟨hk, rfl⟩, h⟩ := h
  split at h
  · next hfd =>
    simp only [returns_bind, returns_assert, returns_pure] at h
    obtain ⟨_, _, ⟨hrange, rfl⟩, rfl, rfl⟩ := h
    refine ⟨rfl, hfd, ?_⟩
    simp only [Fs.fdAt, hk]
    omega
  · exact absurd h (returns_stop _)

theorem returns_isPipe {fd : Int} {b : Bool} (h : Returns (isPipe fd) s b s') :
    s = s' ∧ ∃ g : Nat, (∃ hfd : 0 ≤ fd ∧ fd < 8, s.fdAt s.cur ⟨fd.toNat, fdtable_lt hfd⟩ = g) ∧
      b = decide ((s.fileTable g).fdFlag = pipeFlag) := by
  simp only [isPipe, returns_bind, returns_query, returns_pure] at h
  obtain ⟨g, s₁, hg, _, _, ⟨rfl, rfl⟩, rfl, rfl⟩ := h
  obtain ⟨rfl, hfd⟩ := returns_fdLocalToGlobal hg
  exact ⟨rfl, g, hfd, rfl⟩

/-- `setFd` changes one descriptor of the running process. -/
theorem returns_setFd {fd v : Int} (h : Returns (setFd fd v) s () s') :
    ∃ hfd : 0 ≤ fd ∧ fd < 8, s'.fdAt s.cur ⟨fd.toNat, fdtable_lt hfd⟩ = v ∧
      (∀ y : Nat × Fin 8, y ≠ (s.cur, ⟨fd.toNat, fdtable_lt hfd⟩) → s'.fdAt y.1 y.2 = s.fdAt y.1 y.2) ∧
      s'.fileTable = s.fileTable ∧ s'.rings = s.rings ∧ s'.heap = s.heap ∧ s'.cur = s.cur ∧
      (∀ t, s'.tasks t = none ↔ s.tasks t = none) := by
  simp only [setFd, returns_bind, returns_runningThread] at h
  obtain ⟨k, _, ⟨hk, rfl⟩, h⟩ := h
  split at h
  · next hfd =>
    obtain rfl := returns_putThread.mp h
    refine ⟨hfd, ?_, ?_, rfl, rfl, rfl, rfl, ?_⟩
    · simp [Fs.fdAt]
    · rintro ⟨p, e⟩ hne
      by_cases hp : p = s.cur
      · subst hp
        have he : e ≠ ⟨fd.toNat, fdtable_lt hfd⟩ := fun heq => hne (by rw [heq])
        simp [Fs.fdAt, hk, he]
      · simp [Fs.fdAt, hp]
    · intro t
      by_cases ht : t = s.cur
      · subst ht
        simp [hk]
      · simp [ht]
  · exact absurd h (returns_stop _)

/-! ## Free descriptors and slots -/

theorem freeSlotFrom_some {fileTable : Nat → File} {n i j : Nat}
    (h : freeSlotFrom fileTable n i = some j) : i ≤ j ∧ (fileTable j).fdInode = none := by
  induction n generalizing i with
  | zero => cases h
  | succ n ih =>
    rw [freeSlotFrom] at h
    split at h
    · next hnone =>
      obtain rfl := Option.some.inj h
      exact ⟨le_rfl, hnone⟩
    · obtain ⟨hle, hnone⟩ := ih h
      exact ⟨by omega, hnone⟩

/-- A free slot is found at or below every free slot. -/
theorem freeSlotFrom_exists {fileTable : Nat → File} {n i k : Nat} (hik : i ≤ k) (hk : k < i + n)
    (hnone : (fileTable k).fdInode = none) : ∃ j ≤ k, freeSlotFrom fileTable n i = some j := by
  induction n generalizing i with
  | zero => omega
  | succ n ih =>
    rw [freeSlotFrom]
    by_cases hi : (fileTable i).fdInode = none
    · rw [if_pos hi]
      exact ⟨i, hik, rfl⟩
    · rw [if_neg hi]
      have hne : i ≠ k := by
        rintro rfl
        exact hi hnone
      exact ih (by omega) (by omega)

theorem freeFdFrom_some {fdtable : Fin 8 → Int} {n i : Nat} {fd : Fin 8}
    (h : freeFdFrom fdtable n i = some fd) : i ≤ fd.val ∧ fdtable fd = -1 := by
  induction n generalizing i with
  | zero => cases h
  | succ n ih =>
    rw [freeFdFrom] at h
    split at h
    · split at h
      · next hneg =>
        obtain rfl := Option.some.inj h
        exact ⟨le_rfl, hneg⟩
      · obtain ⟨hle, hneg⟩ := ih h
        exact ⟨by omega, hneg⟩
    · cases h

theorem freeFdFrom_exists {fdtable : Fin 8 → Int} {n i : Nat} {e : Fin 8} (hie : i ≤ e.val)
    (he : e.val < i + n) (hneg : fdtable e = -1) : ∃ fd, freeFdFrom fdtable n i = some fd := by
  induction n generalizing i with
  | zero => omega
  | succ n ih =>
    have hi : i < 8 := by omega
    rw [freeFdFrom, dif_pos hi]
    split
    · exact ⟨_, rfl⟩
    · next hne =>
      have hie' : i ≠ e.val := by
        rintro rfl
        exact hne hneg
      exact ih (by omega) (by omega)

/-- `pcb_fd_install` hands out the first free descriptor, or `-1`. -/
theorem pcbFdInstall_cases {r : Int} (h : Returns (pcbFdInstall g) s r s') :
    ∃ k, s.tasks s.cur = some k ∧
      (freeFdFrom k.fdtable 6 2 = none ∧ r = -1 ∧ s = s' ∨
        ∃ fd, freeFdFrom k.fdtable 6 2 = some fd ∧ r = fd.val ∧
          s' = s.setTask s.cur { k with fdtable := Function.update k.fdtable fd g }) := by
  simp only [pcbFdInstall, returns_bind, returns_runningThread] at h
  obtain ⟨k, _, ⟨hk, rfl⟩, h⟩ := h
  refine ⟨k, hk, ?_⟩
  split at h
  · next hfull =>
    obtain ⟨rfl, rfl⟩ := returns_pure.mp h
    exact Or.inl ⟨hfull, rfl, rfl⟩
  · next fd hfd =>
    simp only [returns_bind, returns_putThread, returns_pure] at h
    obtain ⟨_, _, rfl, rfl, rfl⟩ := h
    exact Or.inr ⟨fd, hfd, rfl, rfl⟩

/-- `pcb_fd_install` where a descriptor is left. -/
theorem returns_pcbFdInstall {r : Int} (h : Returns (pcbFdInstall g) s r s')
    (hroom : ∃ e : Fin 8, 2 ≤ e.val ∧ s.fdAt s.cur e = -1) :
    ∃ fd : Fin 8, 2 ≤ fd.val ∧ s.fdAt s.cur fd = -1 ∧ s'.fdAt s.cur fd = g ∧
      (∀ y : Nat × Fin 8, y ≠ (s.cur, fd) → s'.fdAt y.1 y.2 = s.fdAt y.1 y.2) ∧
      s'.fileTable = s.fileTable ∧ s'.rings = s.rings ∧ s'.heap = s.heap ∧ s'.cur = s.cur ∧
      ∀ t, s'.tasks t = none ↔ s.tasks t = none := by
  simp only [pcbFdInstall, returns_bind, returns_runningThread] at h
  obtain ⟨k, _, ⟨hk, rfl⟩, h⟩ := h
  have hat (e : Fin 8) : s.fdAt s.cur e = k.fdtable e := by simp only [Fs.fdAt, hk]
  obtain ⟨e, he2, he⟩ := hroom
  rw [hat] at he
  obtain ⟨fd, hfd⟩ := freeFdFrom_exists (n := 6) (i := 2) he2 (by omega) he
  obtain ⟨hfd2, hneg⟩ := freeFdFrom_some hfd
  rw [hfd] at h
  simp only [returns_bind, returns_putThread, returns_pure] at h
  obtain ⟨_, _, rfl, -, rfl⟩ := h
  refine ⟨fd, hfd2, (hat fd).trans hneg, by simp [Fs.fdAt], ?_, rfl, rfl, rfl, rfl, fun t => ?_⟩
  · rintro ⟨p, f⟩ hne
    by_cases hp : p = s.cur
    · subst hp
      have hf : f ≠ fd := fun heq => hne (by rw [heq])
      simp [Fs.fdAt, hk, hf]
    · simp [Fs.fdAt, hp]
  · by_cases ht : t = s.cur
    · subst ht
      simp [hk]
    · simp [ht]

end FdTable

end ZxyOs
