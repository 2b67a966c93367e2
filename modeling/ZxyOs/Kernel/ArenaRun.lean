/-
  ZxyOs.Kernel.ArenaRun

  Runs of the kernel around the allocator: `block_desc_init`, then calls of
  `sys_malloc` and `sys_free` and writes by the owners of blocks and by other code,
  in any order.  The invariant holds in every state of a run, and what it says about
  the blocks handed out and about the next call is collected in `AllocatorOk`.
-/

import ZxyOs.Kernel.ArenaCalls
import Mathlib.Logic.Relation

namespace ZxyOs

open Lib Lib.Exec

/-! ## The start of a run -/

section Init

variable {descs i n w : Nat} {m : Mem}

theorem blockDescInitFrom_spec :
    (∀ w, w < descAt descs i → blockDescInitFrom descs n i (blockSize i) m w = m w) ∧
      ∀ j, i ≤ j → j < i + n →
        blockDescInitFrom descs n i (blockSize i) m (descAt descs j) = blockSize j ∧
        blockDescInitFrom descs n i (blockSize i) m (descAt descs j + 4) = perArena j ∧
        (blockDescInitFrom descs n i (blockSize i) m).IsList (descAt descs j + 8) [] := by
  induction n generalizing i m with
  | zero => exact ⟨fun w _ => rfl, fun j h1 h2 => by omega⟩
  | succ n ih =>
    have hdouble : blockSize i * 2 = blockSize (i + 1) := by
      rw [blockSize, blockSize, Nat.pow_succ, Nat.mul_assoc]
    rw [blockDescInitFrom, hdouble]
    set m' : Mem := Mem.listInit (Function.update (Function.update m (descAt descs i) (blockSize i))
      (descAt descs i + 4) ((pgSize - 12) / blockSize i)) (descAt descs i + 8) with hm'
    obtain ⟨hbelow, hrest⟩ := ih (i := i + 1) (m := m')
    have hnext : descAt descs (i + 1) = descAt descs i + 24 := by
      simp only [descAt]
      omega
    rw [hnext] at hbelow
    constructor
    · intro w hw
      rw [hbelow w (by omega), hm', Mem.listInit_outside (by omega),
        Function.update_of_ne (by omega), Function.update_of_ne (by omega)]
    · intro j h1 h2
      by_cases hj : j = i
      · subst hj
        refine ⟨?_, ?_, ?_⟩
        · rw [hbelow _ (by omega), hm', Mem.listInit_outside (by omega),
            Function.update_of_ne (by omega), Function.update_self]
        · rw [hbelow _ (by omega), hm', Mem.listInit_outside (by omega), Function.update_self]
          rfl
        · have hlist : m'.IsList (descAt descs j + 8) [] := Mem.isList_listInit _ _
          rw [Mem.isList_nil_iff] at hlist ⊢
          rw [hbelow _ (by omega), hbelow _ (by omega)]
          exact hlist
      · exact hrest j (by omega) (by omega)

/-- After `block_desc_init` the invariant holds, with no block on any list. -/
theorem arenaInv_init (hpos : 0 < descs) :
    ArenaInv descs (Kernel.init descs m) (fun _ => []) none := by
  obtain ⟨-, hspec⟩ := @blockDescInitFrom_spec descs 0 7 m
  have hnot {r : Nat × Nat} (hr : r ∈ (Kernel.init descs m).heap.held) : False :=
    List.not_mem_nil hr
  exact {
    descsPos := hpos
    pages :=
      { aligned := fun r hr => (hnot hr).elim
        descs := fun r hr => (hnot hr).elim
        disjoint := List.Pairwise.nil }
    desc := fun j hj => ⟨(hspec j (by omega) (by omega)).1, (hspec j (by omega) (by omega)).2.1⟩
    lists := fun j hj => (hspec j (by omega) (by omega)).2.2
    nodup := fun _ _ => List.nodup_nil
    freeBlock := fun _ _ b hb => (List.not_mem_nil hb).elim
    kinds := fun r hr => (hnot hr).elim
    cnt := fun a j hs => (hnot hs.held).elim
    live := fun x hx => (List.not_mem_nil hx).elim
    liveNodup := List.nodup_nil
    ownedSmall := fun b a j hb => (hnot hb.1.held).elim
    ownedLarge := fun a c hl => (hnot hl.held).elim
    busy := fun a j hs => (hnot hs.held).elim }

end Init

/-! ## One step -/

section Step

variable {descs poolSize : Nat} {σ τ : Kernel} {free : Nat → List Nat} {m : Mem} {w : Nat}

/-- Owners of blocks write neither to the headers, nor to the descriptors, nor to
    free blocks. -/
theorem ArenaInv.not_foreign (h : ArenaInv descs σ free none)
    (hw : (descs ≤ w ∧ w < descs + 168) ∨ (∃ r ∈ σ.heap.held, r.1 ≤ w ∧ w < r.1 + 12) ∨
      ∃ i b, i < 7 ∧ b ∈ free i ∧ b ≤ w ∧ w < b + 8) : ¬ σ.Foreign descs w := by
  rintro (⟨x, hx, h1, h2⟩ | ⟨h1, h2⟩)
  · -- inside a block handed out
    rcases (h.live x hx).2 with ⟨a, i, hb, hle, hnot⟩ | ⟨a, c, hl, heq, hle⟩
    · rcases hw with hw | ⟨r, hr, hw⟩ | ⟨j, b, hj, hfree, hw⟩
      · have := h.block_desc hb
        omega
      · have := h.block_header hb hr
        omega
      · obtain ⟨a', hb'⟩ := h.freeBlock j hj b hfree
        have hne : x.1 ≠ b := fun heq => h.live_not_free (List.mem_map_of_mem hx) hj (heq ▸ hfree)
        have h3 := h.block_apart hb hb' hne
        have h4 := blockSize_ge j
        omega
    · rcases hw with hw | ⟨r, hr, hw⟩ | ⟨j, b, hj, hfree, hw⟩
      · have := h.pages.descs _ hl.held
        simp only at this
        omega
      · by_cases hra : r = (a, c)
        · rw [hra] at hw
          simp only at hw
          omega
        · have h3 := h.pages.apart hr hl.held hra
          have h4 := (h.pages.aligned r hr).2.2.1
          simp only at h3
          omega
      · obtain ⟨a', hb'⟩ := h.freeBlock j hj b hfree
        have h3 := hb'.bounds
        have h4 := blockSize_ge j
        have hne : (a', 1) ≠ (a, c) := fun heq => by
          have haa : a' = a := congrArg Prod.fst heq
          have h5 := hb'.1.large
          rw [haa, hl.large] at h5
          omega
        have h6 := h.pages.apart hb'.1.held hl.held hne
        simp only at h6
        omega
  · -- outside the pages in use and the descriptors
    simp only [descCnt, pgSize] at h1 h2
    rcases hw with hw | ⟨r, hr, hw⟩ | ⟨j, b, hj, hfree, hw⟩
    · omega
    · have h3 := h1 r hr
      have h4 := (h.pages.aligned r hr).2.2.1
      omega
    · obtain ⟨a', hb'⟩ := h.freeBlock j hj b hfree
      have h3 := hb'.bounds
      have h4 := h1 _ hb'.1.held
      have h5 := blockSize_ge j
      simp only at h4
      omega

/-- Writes by the owners of blocks and by other code keep the invariant. -/
theorem ArenaInv.write (h : ArenaInv descs σ free none)
    (hm : ∀ w, ¬ σ.Foreign descs w → m w = σ.heap.mem w) :
    ArenaInv descs { σ with heap := { σ.heap with mem := m } } free none := by
  have hdesc (w : Nat) (hw : descs ≤ w ∧ w < descs + 168) : m w = σ.heap.mem w :=
    hm w (h.not_foreign (Or.inl hw))
  have hhdr (r : Nat × Nat) (hr : r ∈ σ.heap.held) (w : Nat) (hw : r.1 ≤ w ∧ w < r.1 + 12) :
      m w = σ.heap.mem w :=
    hm w (h.not_foreign (Or.inr (Or.inl ⟨r, hr, hw⟩)))
  set s' : KHeap := { σ.heap with mem := m } with hs'
  have hsmall {a i : Nat} : SmallArena descs s' a i ↔ SmallArena descs σ.heap a i :=
    smallArena_congr rfl fun r hr => ⟨hhdr r hr _ (by omega), hhdr r hr _ (by omega)⟩
  have hblock {b a i : Nat} : IsBlock descs s' b a i ↔ IsBlock descs σ.heap b a i :=
    and_congr_left fun _ => hsmall
  have hlarge {a c : Nat} : LargeArena s' a c ↔ LargeArena σ.heap a c := by
    have hw (hin : (a, c) ∈ σ.heap.held) (w : Nat) (hw : a ≤ w ∧ w < a + 12) :
        m w = σ.heap.mem w := hhdr _ hin w hw
    constructor
    · rintro ⟨h1, h2, h3, h4⟩
      exact ⟨h1, hw h1 a (by omega) ▸ h2, hw h1 (a + 4) (by omega) ▸ h3,
        hw h1 (a + 8) (by omega) ▸ h4⟩
    · rintro ⟨h1, h2, h3, h4⟩
      exact ⟨h1, (hw h1 a (by omega)).trans h2, (hw h1 (a + 4) (by omega)).trans h3,
        (hw h1 (a + 8) (by omega)).trans h4⟩
  exact {
    descsPos := h.descsPos
    pages := h.pages
    desc := fun i hi => by
      obtain ⟨e1, e2⟩ := h.desc i hi
      exact ⟨(hdesc _ (by simp only [descAt]; omega)).trans e1,
        (hdesc _ (by simp only [descAt]; omega)).trans e2⟩
    lists := fun i hi => by
      refine (h.lists i hi).congr fun x hx => ?_
      simp only [List.mem_append, List.mem_cons, List.not_mem_nil, or_false] at hx
      rcases hx with (rfl | hx) | rfl
      · constructor <;> refine hdesc _ ?_ <;> simp only [descAt] <;> omega
      · have hw (w : Nat) (hw : x ≤ w ∧ w < x + 8) : m w = σ.heap.mem w :=
          hm w (h.not_foreign (Or.inr (Or.inr ⟨i, x, hi, hx, hw⟩)))
        exact ⟨hw x (by omega), hw (x + 4) (by omega)⟩
      · constructor <;> refine hdesc _ ?_ <;> simp only [descAt] <;> omega
    nodup := h.nodup
    freeBlock := fun i hi b hb => by
      obtain ⟨a, hb'⟩ := h.freeBlock i hi b hb
      exact ⟨a, hblock.mpr hb'⟩
    kinds := fun r hr => by
      rcases h.kinds r hr with ⟨i, hone, hs⟩ | hl
      · exact Or.inl ⟨i, hone, hsmall.mpr hs⟩
      · exact Or.inr (hlarge.mpr hl)
    cnt := fun a i hs => by
      have hs' := hsmall.mp hs
      exact (hhdr _ hs'.held (a + 4) (by simp only; omega)).trans (h.cnt a i hs')
    live := fun x hx => by
      obtain ⟨hpos, ⟨a, i, hb, hrest⟩ | ⟨a, c, hl, hrest⟩⟩ := h.live x hx
      · exact ⟨hpos, Or.inl ⟨a, i, hblock.mpr hb, hrest⟩⟩
      · exact ⟨hpos, Or.inr ⟨a, c, hlarge.mpr hl, hrest⟩⟩
    liveNodup := h.liveNodup
    ownedSmall := fun b a i hb => h.ownedSmall b a i (hblock.mp hb)
    ownedLarge := fun a c hl => h.ownedLarge a c (hlarge.mp hl)
    busy := fun a i hs => h.busy a i (hsmall.mp hs) }

/-- Every step keeps the invariant. -/
theorem ArenaInv.step (h : ArenaInv descs σ free none) (hstep : Kernel.Step descs poolSize σ τ) :
    ∃ free', ArenaInv descs τ free' none := by
  cases hstep with
  | malloc hpage hret =>
    have hspec := @ArenaInv.kernelMalloc_returns _ poolSize _ _ _ h _ hpage _ _ _ rfl
    obtain ⟨rfl, rfl⟩ := (hspec.returns σ.heap.held).unique hret
    exact hspec.inv
  | free hx hret =>
    have hspec := h.kernelFree_returns hx rfl
    obtain ⟨-, rfl⟩ := (hspec.returns σ.heap.held fun _ hr => hr).unique hret
    exact hspec.inv
  | write hm => exact ⟨free, h.write hm⟩

/-- The invariant holds in every state of a run. -/
theorem arenaInv_run (hpos : 0 < descs)
    (hrun : Relation.ReflTransGen (Kernel.Step descs poolSize) (Kernel.init descs m) σ) :
    ∃ free, ArenaInv descs σ free none := by
  induction hrun with
  | refl => exact ⟨_, arenaInv_init hpos⟩
  | tail _ hstep ih =>
    obtain ⟨free, h⟩ := ih
    exact h.step hstep

end Step

/-! ## What holds in every state of a run -/

/-- The free lists say which blocks are free: each is a list without repetitions of
    blocks that are not handed out, and the count of an arena is the number of its
    blocks on the list of its descriptor. -/
structure FreeListsOk (descs : Nat) (σ : Kernel) (free : Nat → List Nat) : Prop where
  lists : ∀ i < descCnt, σ.heap.mem.IsList (descAt descs i + 8) (free i)
  once : ∀ i < descCnt, (free i).Nodup
  notLive : ∀ i < descCnt, ∀ x ∈ σ.live, x.1 ∉ free i
  cnt : ∀ r ∈ σ.heap.held, σ.heap.mem (r.1 + 8) = 0 → ∃ i < descCnt,
    σ.heap.mem r.1 = descAt descs i ∧
    σ.heap.mem (r.1 + 4) = ((free i).filter fun b => block2arena b = r.1).length

/-- The block at `p` lies in the pages of its arena, behind the header. -/
def KHeap.Inside (s : KHeap) (p : Nat) : Prop :=
  ∃ r ∈ s.held, r.1 = block2arena p ∧ r.1 + 12 ≤ p ∧ p + s.room p ≤ r.1 + pgSize * r.2

/-- What is expected of the allocator in a state: of the blocks handed out, of the
    free lists, and of the calls that may come next. -/
structure AllocatorOk (descs poolSize : Nat) (σ : Kernel) : Prop where
  freeLists : ∃ free, FreeListsOk descs σ free
  enough : ∀ x ∈ σ.live, x.2 ≤ σ.heap.room x.1
  inside : ∀ x ∈ σ.live, σ.heap.Inside x.1
  headers : ∀ x ∈ σ.live, ∀ r ∈ σ.heap.held,
    x.1 + σ.heap.room x.1 ≤ r.1 ∨ r.1 + 12 ≤ x.1
  apart : σ.live.Pairwise fun x y =>
    x.1 + σ.heap.room x.1 ≤ y.1 ∨ y.1 + σ.heap.room y.1 ≤ x.1
  inUse : ∀ r ∈ σ.heap.held, ∃ x ∈ σ.live, block2arena x.1 = r.1
  malloc : ∀ size page, PageOk descs σ.heap size page →
    ∃ r s', Returns (kernelMalloc descs poolSize size page) σ.heap r s' ∧
      (r = none → size = 0 ∨ poolSize ≤ size ∨ page = none) ∧
      ∀ p, r = some p →
        size ≤ s'.room p ∧ s'.Inside p ∧
        (∀ w, p ≤ w → w < p + s'.room p → s'.mem w = 0) ∧
        (∀ q ∈ s'.held, p + s'.room p ≤ q.1 ∨ q.1 + 12 ≤ p) ∧
        ∀ x ∈ σ.live, p + s'.room p ≤ x.1 ∨ x.1 + s'.room x.1 ≤ p
  free : ∀ x ∈ σ.live, ∃ s', Returns (kernelFree x.1) σ.heap () s' ∧ s'.held = σ.heldAfterFree x

section Main

variable {descs poolSize : Nat} {σ : Kernel} {free : Nat → List Nat} {m : Mem} {x y r : Nat × Nat}

namespace ArenaInv

variable (h : ArenaInv descs σ free none)
include h

theorem live_inside (hx : x ∈ σ.live) : x.2 ≤ σ.heap.room x.1 ∧ σ.heap.Inside x.1 := by
  rcases (h.live x hx).2 with ⟨a, i, hb, hle, -⟩ | ⟨a, c, hl, heq, hle⟩
  · have hbounds := hb.bounds
    rw [KHeap.Inside, h.room_small hb]
    exact ⟨hle, (a, 1), hb.1.held, (h.block2arena_eq hb).symm, hbounds.1, by
      simp only [pgSize]
      omega⟩
  · rw [KHeap.Inside, heq, room_large h.pages hl]
    refine ⟨by omega, (a, c), hl.held, (block2arena_large h.pages hl).symm, le_refl _, ?_⟩
    simp only [pgSize]
    omega

theorem live_header (hx : x ∈ σ.live) (hr : r ∈ σ.heap.held) :
    x.1 + σ.heap.room x.1 ≤ r.1 ∨ r.1 + 12 ≤ x.1 := by
  rcases (h.live x hx).2 with ⟨a, i, hb, -⟩ | ⟨a, c, hl, heq, -⟩
  · rw [h.room_small hb]
    exact h.block_header hb hr
  · rw [heq, room_large h.pages hl]
    have h1 := (h.pages.aligned r hr).2.2.1
    have h2 := (h.pages.aligned _ hl.held).2.2.1
    by_cases hra : r = (a, c)
    · rw [hra]
      exact Or.inr (le_refl _)
    · have h3 := h.pages.apart hl.held hr (Ne.symm hra)
      simp only at h2 h3
      omega

theorem live_apart (hx : x ∈ σ.live) (hy : y ∈ σ.live) (hne : x.1 ≠ y.1) :
    x.1 + σ.heap.room x.1 ≤ y.1 ∨ y.1 + σ.heap.room y.1 ≤ x.1 := by
  obtain ⟨-, rx, hrx, hax, hx1, hx2⟩ := h.live_inside hx
  obtain ⟨-, ry, hry, hay, hy1, hy2⟩ := h.live_inside hy
  simp only [pgSize] at hx2 hy2
  by_cases hr : rx = ry
  · -- two blocks of one arena are small
    have harena : block2arena y.1 = block2arena x.1 := by rw [← hax, ← hay, hr]
    rcases (h.live x hx).2 with ⟨a, i, hb, -⟩ | ⟨a, c, hl, heq, -⟩
    · rcases (h.live y hy).2 with ⟨a', j, hb', -⟩ | ⟨a', c, hl', heq', -⟩
      · rw [h.room_small hb, h.room_small hb']
        exact h.block_apart hb hb' hne
      · have haa : block2arena x.1 = a' := by
          rw [← harena, heq']
          exact block2arena_large h.pages hl'
        exact absurd ((h.arena_large hl' hx haa).trans heq'.symm) hne
    · have haa : block2arena y.1 = a := by
        rw [harena, heq]
        exact block2arena_large h.pages hl
      exact absurd (heq.trans (h.arena_large hl hy haa).symm) hne
  · have := h.pages.apart hrx hry hr
    omega

theorem live_pairwise : σ.live.Pairwise fun x y =>
    x.1 + σ.heap.room x.1 ≤ y.1 ∨ y.1 + σ.heap.room y.1 ≤ x.1 := by
  have hnodup := List.pairwise_map.mp h.liveNodup
  exact hnodup.imp_of_mem fun hx hy hne => h.live_apart hx hy hne

theorem held_inUse (hr : r ∈ σ.heap.held) : ∃ x ∈ σ.live, block2arena x.1 = r.1 := by
  rcases h.kinds r hr with ⟨i, -, hs⟩ | hl
  · exact (h.arena_live_iff hs).mpr (h.busy r.1 i hs (by simp))
  · obtain ⟨x, hx, heq⟩ := List.mem_map.mp (h.ownedLarge r.1 r.2 hl)
    refine ⟨x, hx, ?_⟩
    rw [heq]
    exact block2arena_large h.pages hl

/-- The blocks of an arena on the list of its descriptor are the elements that lead
    to its header. -/
theorem card_freeBlocks {a i : Nat} (hs : SmallArena descs σ.heap a i) :
    (freeBlocks (free i) a i).card = ((free i).filter fun b => block2arena b = a).length := by
  have halign := (h.pages.aligned _ hs.held).1
  have hset : (freeBlocks (free i) a i).image (blockAt a i) =
      ((free i).filter fun b => block2arena b = a).toFinset := by
    ext b
    simp only [freeBlocks, Finset.mem_image, Finset.mem_filter, Finset.mem_range,
      List.mem_toFinset, List.mem_filter, decide_eq_true_eq]
    constructor
    · rintro ⟨k, ⟨hk, hfree⟩, rfl⟩
      exact ⟨hfree, block2arena_blockAt halign hk⟩
    · rintro ⟨hfree, harena⟩
      obtain ⟨a', hb⟩ := h.freeBlock i hs.lt b hfree
      obtain rfl : a' = a := (h.block2arena_eq hb).symm.trans harena
      obtain ⟨-, k, hk, rfl⟩ := hb
      exact ⟨k, ⟨hk, hfree⟩, rfl⟩
  rw [← Finset.card_image_of_injective _ (blockAt_injective (a := a) (i := i)), hset,
    List.toFinset_card_of_nodup ((h.nodup i hs.lt).filter _)]

theorem freeListsOk : FreeListsOk descs σ free where
  lists := h.lists
  once := h.nodup
  notLive := fun i hi x hx => h.live_not_free (List.mem_map_of_mem hx) hi
  cnt := by
    intro r hr hlarge
    rcases h.kinds r hr with ⟨i, -, hs⟩ | hl
    · refine ⟨i, hs.lt, hs.desc, ?_⟩
      rw [h.cnt r.1 i hs, h.card_freeBlocks hs]
    · have := hl.large
      rw [hlarge] at this
      omega

/-- The invariant gives all that is expected of the allocator. -/
theorem allocatorOk : AllocatorOk descs poolSize σ where
  freeLists := ⟨free, h.freeListsOk⟩
  enough := fun _ hx => (h.live_inside hx).1
  inside := fun _ hx => (h.live_inside hx).2
  headers := fun _ hx _ hr => h.live_header hx hr
  apart := h.live_pairwise
  inUse := fun _ hr => h.held_inUse hr
  malloc := by
    intro size page hpage
    have hspec := @ArenaInv.kernelMalloc_returns _ poolSize _ _ _ h _ hpage _ _ _ rfl
    refine ⟨_, _, hspec.returns σ.heap.held, hspec.null, fun p hp => ?_⟩
    obtain ⟨free', hinv⟩ := hspec.inv
    have hzero := hspec.zero p hp
    rw [hp] at hinv
    -- the block handed out is the newest of the live blocks
    have hnew : (p, size) ∈ (p, size) :: σ.live := List.mem_cons_self
    obtain ⟨henough, hinside⟩ := hinv.live_inside hnew
    have hapart := List.pairwise_cons.mp hinv.live_pairwise
    exact ⟨henough, hinside, hzero, fun q hq => hinv.live_header hnew hq,
      fun x hx => hapart.1 x hx⟩
  free := by
    intro x hx
    have hspec := h.kernelFree_returns hx rfl
    exact ⟨_, hspec.returns σ.heap.held fun _ hr => hr, hspec.held⟩

end ArenaInv

/-- In every state of every run of the kernel the allocator is correct. -/
theorem allocator_correct (hpos : 0 < descs)
    (hrun : Relation.ReflTransGen (Kernel.Step descs poolSize) (Kernel.init descs m) σ) :
    AllocatorOk descs poolSize σ := by
  obtain ⟨free, h⟩ := arenaInv_run hpos hrun
  exact h.allocatorOk

/-- The descriptors at 4096, a pool of 256 pages, and a block of 100 bytes from a
    page at 8192. -/
theorem allocator_correct_one_block :
    ∃ σ, Relation.ReflTransGen (Kernel.Step 4096 (2 ^ 20)) (Kernel.init 4096 fun _ => 0) σ ∧
      σ.live.length = 1 ∧ AllocatorOk 4096 (2 ^ 20) σ := by
  have hpage : PageOk 4096 (Kernel.init 4096 fun _ => 0).heap 100 (some 8192) := by
    intro a ha
    obtain rfl := Option.some.inj ha
    exact ⟨by decide, by decide, by decide, by decide, fun r hr => (List.not_mem_nil hr).elim⟩
  have hinit : AllocatorOk 4096 (2 ^ 20) (Kernel.init 4096 fun _ => 0) :=
    allocator_correct (by decide) Relation.ReflTransGen.refl
  obtain ⟨r, s', hret, hnone, -⟩ := hinit.malloc 100 (some 8192) hpage
  have hstep := Kernel.Step.malloc hpage hret
  cases r with
  | none => simp at hnone
  | some p =>
    have hrun := Relation.ReflTransGen.single hstep
    exact ⟨_, hrun, rfl, allocator_correct (by decide) hrun⟩

end Main

end ZxyOs
