/-
  ZxyOs.User.PipeCount

  What the count in `fd_pos` of a pipe counts.

  `held` is the set of the pairs of a process and a descriptor that are to be counted:
  the descriptors from 3 on of the live processes, less those an exiting process has
  dropped and those of a child that are not counted yet.  `refs s held i` are the pairs
  of it that refer to slot `i`, and `PipesOk` says that `fd_pos` is their number.
  Each edit of a slot takes one pair from `held` or adds one (`dropPipe`, `countPipe`).
-/

import ZxyOs.User.Descriptors
import ZxyOs.Fs.FdTable

namespace ZxyOs

open Lib Lib.Exec

/-- Slot `i` holds the pipe with the ring buffer `a`. -/
def Fs.HoldsPipe (s : Fs) (i a : Nat) : Prop :=
  (s.fileTable i).fdFlag = pipeFlag ∧ (s.fileTable i).fdInode = some a

/-- The pairs in `held` that refer to slot `i`. -/
def Fs.refs (s : Fs) (held : Finset (Nat × Fin 8)) (i : Nat) : Finset (Nat × Fin 8) :=
  held.filter fun x => s.fdAt x.1 x.2 = i

theorem Fs.mem_refs {s : Fs} {held : Finset (Nat × Fin 8)} {i : Nat} {x : Nat × Fin 8} :
    x ∈ s.refs held i ↔ x ∈ held ∧ s.fdAt x.1 x.2 = i :=
  Finset.mem_filter

/-- The page `p` is freed. -/
def Fs.freeRing (s : Fs) (p : Option Nat) : Fs :=
  { s with rings := fun a => if some a = p then none else s.rings a }

structure PipesOk (s : Fs) (held : Finset (Nat × Fin 8)) : Prop where
  low : ∀ i < 3, (s.fileTable i).fdInode = none ∧ (s.fileTable i).fdFlag ≠ pipeFlag
  free : ∀ i, 3 ≤ i → (s.fileTable i).fdInode = none → s.refs held i = ∅
  count : ∀ i a, s.HoldsPipe i a → (s.fileTable i).fdPos = (s.refs held i).card
  referred : ∀ i a, s.HoldsPipe i a → (s.refs held i).Nonempty
  ring : ∀ i a, s.HoldsPipe i a → s.rings a ≠ none
  inj : ∀ i j a, s.HoldsPipe i a → s.HoldsPipe j a → i = j
  ring_lt : ∀ a, s.rings a ≠ none → a < s.heap.next
  small : held.card < 2 ^ 32

/-- A call that drops descriptors leaves a pipe alone, or frees its page and its slot. -/
structure PipesDrop (s s' : Fs) : Prop where
  pipe : ∀ i a, s.HoldsPipe i a → s'.HoldsPipe i a ∨
    (s'.fileTable i).fdInode = none ∧ s'.rings a = none
  free : ∀ i, (s.fileTable i).fdInode = none → (s'.fileTable i).fdInode = none
  rings : ∀ a, s.rings a = none → s'.rings a = none

theorem PipesDrop.refl (s : Fs) : PipesDrop s s :=
  ⟨fun _ _ hi => Or.inl hi, fun _ hi => hi, fun _ ha => ha⟩

theorem PipesDrop.trans {s₁ s₂ s₃ : Fs} (h : PipesDrop s₁ s₂) (h' : PipesDrop s₂ s₃) :
    PipesDrop s₁ s₃ where
  pipe := by
    intro i a hi
    rcases h.pipe i a hi with hi | ⟨hi, ha⟩
    · exact h'.pipe i a hi
    · exact Or.inr ⟨h'.free i hi, h'.rings a ha⟩
  free := fun i hi => h'.free i (h.free i hi)
  rings := fun a ha => h'.rings a (h.rings a ha)

theorem PipesDrop.of_eq {s s' : Fs} (hfile : s'.fileTable = s.fileTable)
    (hrings : s'.rings = s.rings) : PipesDrop s s' where
  pipe := by
    intro i a hi
    left
    rw [Fs.HoldsPipe, hfile]
    exact hi
  free := by
    rw [hfile]
    exact fun _ hi => hi
  rings := by
    rw [hrings]
    exact fun _ ha => ha

section Edits

variable {s s' : Fs} {held held' : Finset (Nat × Fin 8)} {x : Nat × Fin 8} {g a : Nat}

/-- Only the slots, the rings and the references matter. -/
theorem PipesOk.congr (h : PipesOk s held) (hfile : s'.fileTable = s.fileTable)
    (hrings : s'.rings = s.rings) (hnext : s.heap.next ≤ s'.heap.next)
    (hrefs : ∀ i, s'.refs held' i = s.refs held i) (hsmall : held'.card < 2 ^ 32) :
    PipesOk s' held' := by
  have hholds (i a : Nat) (hi : s'.HoldsPipe i a) : s.HoldsPipe i a := by
    rw [Fs.HoldsPipe, hfile] at hi
    exact hi
  constructor
  · rw [hfile]
    exact h.low
  · intro i hi hnone
    rw [hfile] at hnone
    rw [hrefs i]
    exact h.free i hi hnone
  · intro i a hi
    rw [hfile, hrefs i]
    exact h.count i a (hholds i a hi)
  · intro i a hi
    rw [hrefs i]
    exact h.referred i a (hholds i a hi)
  · intro i a hi
    rw [hrings]
    exact h.ring i a (hholds i a hi)
  · intro i j a hi hj
    exact h.inj i j a (hholds i a hi) (hholds j a hj)
  · intro a ha
    rw [hrings] at ha
    exact Nat.lt_of_lt_of_le (h.ring_lt a ha) hnext
  · exact hsmall

/-- One slot is edited, and the pages of the other pipes are left alone. -/
theorem PipesOk.edit (h : PipesOk s held) (g : Nat) (hg : 3 ≤ g)
    (hfile : ∀ i ≠ g, s'.fileTable i = s.fileTable i)
    (hrefs : ∀ i ≠ g, s'.refs held' i = s.refs held i)
    (hrings : ∀ i ≠ g, ∀ a, s.HoldsPipe i a → s'.rings a ≠ none)
    (hlt : ∀ a, s'.rings a ≠ none → a < s'.heap.next)
    (hfree : (s'.fileTable g).fdInode = none → s'.refs held' g = ∅)
    (hpipe : ∀ a, s'.HoldsPipe g a → (s'.fileTable g).fdPos = (s'.refs held' g).card ∧
      (s'.refs held' g).Nonempty ∧ s'.rings a ≠ none ∧ ∀ j ≠ g, ¬ s.HoldsPipe j a)
    (hsmall : held'.card < 2 ^ 32) : PipesOk s' held' := by
  have hholds (i a : Nat) (hne : i ≠ g) (hi : s'.HoldsPipe i a) : s.HoldsPipe i a := by
    rw [Fs.HoldsPipe, hfile i hne] at hi
    exact hi
  constructor
  · intro i hi
    rw [hfile i (by omega)]
    exact h.low i hi
  · intro i hi hnone
    by_cases hne : i = g
    · subst hne
      exact hfree hnone
    · rw [hfile i hne] at hnone
      rw [hrefs i hne]
      exact h.free i hi hnone
  · intro i a hi
    by_cases hne : i = g
    · subst hne
      exact (hpipe a hi).1
    · rw [hfile i hne, hrefs i hne]
      exact h.count i a (hholds i a hne hi)
  · intro i a hi
    by_cases hne : i = g
    · subst hne
      exact (hpipe a hi).2.1
    · rw [hrefs i hne]
      exact h.referred i a (hholds i a hne hi)
  · intro i a hi
    by_cases hne : i = g
    · subst hne
      exact (hpipe a hi).2.2.1
    · exact hrings i hne a (hholds i a hne hi)
  · intro i j a hi hj
    by_cases hig : i = g
    · subst hig
      by_contra hne
      exact (hpipe a hi).2.2.2 j (Ne.symm hne) (hholds j a (Ne.symm hne) hj)
    · by_cases hjg : j = g
      · subst hjg
        exact absurd (hholds i a hig hi) ((hpipe a hj).2.2.2 i hig)
      · exact h.inj i j a (hholds i a hig hi) (hholds j a hjg hj)
  · exact hlt
  · exact hsmall

/-- A pair that refers to slot `g` is counted at `g` alone. -/
theorem Fs.refs_erase (s' : Fs) (held : Finset (Nat × Fin 8)) (hx : s.fdAt x.1 x.2 = g) (hfd : s'.fdAt = s.fdAt) :
    (∀ i ≠ g, s'.refs (held.erase x) i = s.refs held i) ∧
      s'.refs (held.erase x) g = (s.refs held g).erase x := by
  constructor
  · intro i hne
    ext y
    rw [Fs.mem_refs, Fs.mem_refs, hfd, Finset.mem_erase]
    constructor
    · rintro ⟨⟨-, hy⟩, hi⟩
      exact ⟨hy, hi⟩
    · rintro ⟨hy, hi⟩
      refine ⟨⟨?_, hy⟩, hi⟩
      rintro rfl
      rw [hx] at hi
      exact hne (by exact_mod_cast hi.symm)
  · ext y
    rw [Finset.mem_erase, Fs.mem_refs, Fs.mem_refs, hfd, Finset.mem_erase, and_assoc]

theorem Fs.refs_insert (s' : Fs) (held : Finset (Nat × Fin 8)) (hx : s.fdAt x.1 x.2 = g) (hfd : s'.fdAt = s.fdAt) :
    (∀ i ≠ g, s'.refs (insert x held) i = s.refs held i) ∧
      s'.refs (insert x held) g = insert x (s.refs held g) := by
  constructor
  · intro i hne
    ext y
    rw [Fs.mem_refs, Fs.mem_refs, hfd, Finset.mem_insert]
    constructor
    · rintro ⟨hy, hi⟩
      refine ⟨hy.resolve_left ?_, hi⟩
      rintro rfl
      rw [hx] at hi
      exact hne (by exact_mod_cast hi.symm)
    · rintro ⟨hy, hi⟩
      exact ⟨Or.inr hy, hi⟩
  · ext y
    rw [Finset.mem_insert, Fs.mem_refs, Fs.mem_refs, hfd, Finset.mem_insert]
    constructor
    · rintro ⟨rfl | hy, hi⟩
      · exact Or.inl rfl
      · exact Or.inr ⟨hy, hi⟩
    · rintro (rfl | ⟨hy, hi⟩)
      · exact ⟨Or.inl rfl, hx⟩
      · exact ⟨Or.inr hy, hi⟩

/-- A pair without a descriptor counts nowhere. -/
theorem Fs.refs_erase_neg (held : Finset (Nat × Fin 8)) (hx : s'.fdAt x.1 x.2 = -1)
    (hfd : ∀ y ≠ x, s'.fdAt y.1 y.2 = s.fdAt y.1 y.2) (i : Nat) :
    s'.refs held i = s.refs (held.erase x) i := by
  ext y
  rw [Fs.mem_refs, Fs.mem_refs, Finset.mem_erase]
  constructor
  · rintro ⟨hy, hi⟩
    have hne : y ≠ x := by
      rintro rfl
      omega
    rw [hfd y hne] at hi
    exact ⟨⟨hne, hy⟩, hi⟩
  · rintro ⟨⟨hne, hy⟩, hi⟩
    rw [hfd y hne]
    exact ⟨hy, hi⟩

/-! ## One descriptor less on a pipe -/

/-- Slot `g` has one descriptor less, and is free with its page after the last one. -/
def PipeClosed (s : Fs) (g : Nat) (s' : Fs) : Prop :=
  ∃ pos, pos = ((s.fileTable g).fdPos + (2 ^ 32 - 1)) % 2 ^ 32 ∧
    (pos ≠ 0 ∧ s' = s.setSlot g { s.fileTable g with fdPos := pos } ∨
      pos = 0 ∧ s' = (s.freeRing (s.fileTable g).fdInode).setSlot g
        { s.fileTable g with fdPos := pos, fdInode := none })

theorem pipeClose_inv (h : Returns (pipeClose g) s () s') : PipeClosed s g s' := by
  simp only [pipeClose, putFile, returns_bind, returns_query, returns_update] at h
  obtain ⟨_, _, ⟨rfl, rfl⟩, _, _, rfl, h⟩ := h
  simp only [id_eq] at h
  refine ⟨_, rfl, ?_⟩
  split at h
  · next hpos =>
    simp only [returns_bind, returns_assert, returns_update] at h
    obtain ⟨_, _, ⟨-, rfl⟩, _, _, rfl, rfl⟩ := h
    right
    refine ⟨hpos, ?_⟩
    simp only [Fs.setSlot, Fs.freeRing, Function.update_idem]
  · next hpos =>
    simp only [returns_pure] at h
    obtain ⟨-, rfl⟩ := h
    exact Or.inl ⟨hpos, rfl⟩

theorem PipeClosed.frame (h : PipeClosed s g s') :
    s'.tasks = s.tasks ∧ s'.cur = s.cur ∧ ∀ i, (s'.fileTable i).fdFlag = (s.fileTable i).fdFlag := by
  have hflag (f : File) (hf : f.fdFlag = (s.fileTable g).fdFlag) (i : Nat) :
      (Function.update s.fileTable g f i).fdFlag = (s.fileTable i).fdFlag := by
    by_cases hig : i = g
    · subst hig
      rw [Function.update_self]
      exact hf
    · rw [Function.update_of_ne hig]
  obtain ⟨pos, -, ⟨-, rfl⟩ | ⟨-, rfl⟩⟩ := h
  · exact ⟨rfl, rfl, hflag _ rfl⟩
  · exact ⟨rfl, rfl, hflag _ rfl⟩

theorem PipesOk.dropPipe (h : PipesOk s held) (hx : x ∈ held) (hg : s.fdAt x.1 x.2 = g)
    (hflag : (s.fileTable g).fdFlag = pipeFlag) (hclosed : PipeClosed s g s') :
    PipesOk s' (held.erase x) ∧ PipesDrop s s' := by
  have hmem : x ∈ s.refs held g := Fs.mem_refs.mpr ⟨hx, hg⟩
  have hg3 : 3 ≤ g := by
    by_contra hlt
    exact (h.low g (by omega)).2 hflag
  obtain ⟨a, ha⟩ : ∃ a, (s.fileTable g).fdInode = some a := by
    apply Option.ne_none_iff_exists'.mp
    intro hnone
    rw [h.free g hg3 hnone] at hmem
    simp at hmem
  have hpipe : s.HoldsPipe g a := ⟨hflag, ha⟩
  have hcount := h.count g a hpipe
  have hpos : 0 < (s.refs held g).card := Finset.card_pos.mpr ⟨x, hmem⟩
  have hle : (s.refs held g).card ≤ held.card := Finset.card_filter_le ..
  have hsmall := h.small
  have hcard : ((s.refs held g).erase x).card = (s.refs held g).card - 1 :=
    Finset.card_erase_of_mem hmem
  have hless : (held.erase x).card < 2 ^ 32 :=
    Nat.lt_of_le_of_lt (Finset.card_le_card (Finset.erase_subset x held)) hsmall
  obtain ⟨pos, hposeq, hcase⟩ := hclosed
  have hposeq' : pos = (s.refs held g).card - 1 := by
    rw [hposeq, hcount]
    omega
  rcases hcase with ⟨hne, rfl⟩ | ⟨hzero, rfl⟩
  · have hself : (s.setSlot g { s.fileTable g with fdPos := pos }).fileTable g =
        { s.fileTable g with fdPos := pos } := Function.update_self ..
    have hother (i : Nat) (hi : i ≠ g) :
        (s.setSlot g { s.fileTable g with fdPos := pos }).fileTable i = s.fileTable i :=
      Function.update_of_ne hi ..
    obtain ⟨hrefs, hrefsg⟩ := Fs.refs_erase
      (s.setSlot g { s.fileTable g with fdPos := pos }) held hg rfl
    constructor
    · apply h.edit g hg3 hother hrefs (fun i _ a hi => h.ring i a hi) h.ring_lt
      · intro hnone
        rw [hself] at hnone
        rw [ha] at hnone
        cases hnone
      · intro b hb
        obtain ⟨-, hb⟩ := hb
        rw [hself] at hb ⊢
        obtain rfl : a = b := Option.some.inj (ha.symm.trans hb)
        rw [hrefsg]
        refine ⟨hposeq'.trans hcard.symm, ?_, h.ring g a hpipe, ?_⟩
        · apply Finset.card_pos.mp
          omega
        · exact fun j hj hja => hj (h.inj j g a hja hpipe)
      · exact hless
    · refine ⟨fun i b hi => Or.inl ?_, fun i hi => ?_, fun _ hb => hb⟩
      · by_cases hig : i = g
        · subst hig
          rw [Fs.HoldsPipe, hself]
          exact hi
        · rw [Fs.HoldsPipe, hother i hig]
          exact hi
      · by_cases hig : i = g
        · subst hig
          rw [hself]
          exact hi
        · rw [hother i hig]
          exact hi
  · -- the last descriptor: the page is freed, and so is the slot
    have hself : ((s.freeRing (s.fileTable g).fdInode).setSlot g
        { s.fileTable g with fdPos := pos, fdInode := none }).fileTable g =
        { s.fileTable g with fdPos := pos, fdInode := none } := Function.update_self ..
    have hother (i : Nat) (hi : i ≠ g) : ((s.freeRing (s.fileTable g).fdInode).setSlot g
        { s.fileTable g with fdPos := pos, fdInode := none }).fileTable i = s.fileTable i :=
      Function.update_of_ne hi ..
    have hring (b : Nat) : ((s.freeRing (s.fileTable g).fdInode).setSlot g
        { s.fileTable g with fdPos := pos, fdInode := none }).rings b =
        if some b = (s.fileTable g).fdInode then none else s.rings b := rfl
    have hkeep (i : Nat) (hi : i ≠ g) (b : Nat) (hb : s.HoldsPipe i b) :
        ¬ some b = (s.fileTable g).fdInode := by
      intro hab
      exact hi (h.inj i g b hb ⟨hflag, hab.symm⟩)
    obtain ⟨hrefs, hrefsg⟩ := Fs.refs_erase ((s.freeRing (s.fileTable g).fdInode).setSlot g
        { s.fileTable g with fdPos := pos, fdInode := none }) held hg rfl
    constructor
    · apply h.edit g hg3 hother hrefs
      · intro i hi b hb
        rw [hring, if_neg (hkeep i hi b hb)]
        exact h.ring i b hb
      · intro b hb
        apply h.ring_lt b
        intro hnone
        rw [hring, hnone, ite_self] at hb
        exact hb rfl
      · intro _
        rw [hrefsg]
        apply Finset.card_eq_zero.mp
        omega
      · intro b hb
        obtain ⟨-, hb⟩ := hb
        rw [hself] at hb
        cases hb
      · exact hless
    · refine ⟨fun i b hi => ?_, fun i hi => ?_, fun b hb => ?_⟩
      · by_cases hig : i = g
        · subst hig
          right
          rw [hself]
          exact ⟨rfl, if_pos hi.2.symm⟩
        · left
          rw [Fs.HoldsPipe, hother i hig]
          exact hi
      · by_cases hig : i = g
        · subst hig
          rw [hself]
        · rw [hother i hig]
          exact hi
      · rw [hring, hb, ite_self]

/-- A file that nothing else refers to is closed. -/
theorem PipesOk.dropFile (h : PipesOk s held) (hg : s.fdAt x.1 x.2 = g)
    (hflag : (s.fileTable g).fdFlag ≠ pipeFlag) (halone : ∀ y ∈ s.refs held g, y = x)
    (hsome : (s.fileTable g).fdInode ≠ none)
    (hfile : s'.fileTable = Function.update s.fileTable g { s.fileTable g with fdInode := none })
    (hrings : s'.rings = s.rings) (hnext : s'.heap.next = s.heap.next)
    (htasks : s'.tasks = s.tasks) : PipesOk s' (held.erase x) ∧ PipesDrop s s' := by
  have hg3 : 3 ≤ g := by
    by_contra hlt
    exact hsome (h.low g (by omega)).1
  have hself : s'.fileTable g = { s.fileTable g with fdInode := none } := by
    rw [hfile, Function.update_self]
  have hother (i : Nat) (hi : i ≠ g) : s'.fileTable i = s.fileTable i := by
    rw [hfile, Function.update_of_ne hi]
  have hfd : s'.fdAt = s.fdAt := by
    funext t fd
    rw [Fs.fdAt, Fs.fdAt, htasks]
  obtain ⟨hrefs, hrefsg⟩ := Fs.refs_erase s' held hg hfd
  constructor
  · apply h.edit g hg3 hother hrefs
    · intro i _ a hi
      rw [hrings]
      exact h.ring i a hi
    · intro a ha
      rw [hrings] at ha
      rw [hnext]
      exact h.ring_lt a ha
    · intro _
      rw [hrefsg]
      ext y
      simp only [Finset.mem_erase, Finset.notMem_empty, iff_false, not_and]
      intro hne hy
      exact hne (halone y hy)
    · intro a ha
      obtain ⟨ha, -⟩ := ha
      rw [hself] at ha
      exact absurd ha hflag
    · exact Nat.lt_of_le_of_lt (Finset.card_le_card (Finset.erase_subset x held)) h.small
  · refine ⟨fun i a hi => Or.inl ?_, fun i hi => ?_, fun a ha => ?_⟩
    · have hig : i ≠ g := by
        rintro rfl
        exact hflag hi.1
      rw [Fs.HoldsPipe, hother i hig]
      exact hi
    · by_cases hig : i = g
      · rw [hig, hself]
      · rw [hother i hig]
        exact hi
    · rw [hrings]
      exact ha

end Edits

end ZxyOs
