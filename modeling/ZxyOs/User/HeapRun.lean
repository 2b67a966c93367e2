/-
  ZxyOs.User.HeapRun

  Heaps of processes after `sys_fork`.

  The arenas a process has are its own, with headers that point to its descriptors,
  or old: small arenas it inherited, with headers that point to the descriptors of
  the process that opened them.  As long as a process frees no block of an old arena,
  its own arenas satisfy the invariant of the allocator, the old ones are memory it
  uses like any other, and no call of another process touches its part.
-/

import ZxyOs.User.HeapLocal

namespace ZxyOs

open Lib Lib.Exec

/-! ## The invariant -/

/-- The heap of the process at `p`: its ranges and blocks are its own or old. -/
structure HeapInv (σ : Heaps) (p : Nat) (free : Nat → List Nat) (own old : List (Nat × Nat))
    (liveOwn liveOld : List (Nat × Nat)) : Prop where
  held : (σ.held p).Perm (own ++ old)
  live : (σ.live p).Perm (liveOwn ++ liveOld)
  inv : ArenaInv (uBlockDesc p) { heap := { mem := σ.view p, held := own }, live := liveOwn }
    free none
  ranges : UserRanges (own ++ old)
  pages : PagesOk (uBlockDesc p) (own ++ old)
  oldLive : ∀ x ∈ liveOld, ∃ r ∈ old, r.1 = block2arena x.1 ∧ r.1 + 12 ≤ x.1 ∧
    x.1 + x.2 ≤ r.1 + 4096 * r.2
  oldHeader : ∀ r ∈ old, σ.view p (r.1 + 8) = 0 ∧
    ∃ q ∈ σ.procs, q ≠ p ∧ InDescs q (σ.view p r.1)

/-- Control blocks are pages of the kernel, and every process has a heap in order. -/
structure HeapsOk (σ : Heaps) : Prop where
  pcbs : ∀ p ∈ σ.procs, p % pgSize = 0 ∧ kernelBase ≤ p
  heaps : ∀ p ∈ σ.procs, ∃ free own old liveOwn liveOld,
    HeapInv σ p free own old liveOwn liveOld

section Views

variable {σ τ : Heaps} {p q w : Nat} {s : Kernel}

theorem view_user (hw : w < kernelBase) : σ.view p w = σ.umem p w := if_pos hw

theorem view_kernel (hw : kernelBase ≤ w) : σ.view p w = σ.kmem w := if_neg (by omega)

theorem view_put_self : (σ.put p s).view p = s.heap.mem := by
  funext w
  by_cases hw : w < kernelBase
  · rw [view_user hw, Heaps.put]
    simp only [Function.update_self]
  · rw [view_kernel (by omega), Heaps.put]
    simp only [if_neg hw]

/-- Two control blocks have different descriptors. -/
theorem inDescs_apart (hp : p % pgSize = 0) (hq : q % pgSize = 0) (hne : p ≠ q)
    (hw : InDescs p w) : ¬ InDescs q w := by
  simp only [InDescs, uBlockDesc, uBlockDescOffset, descCnt, pgSize] at *
  omega

/-- A call that leaves the kernel alone but for the descriptors of its process leaves
    the visible words of other processes alone. -/
theorem view_put_ne (hq : q ≠ p) (hqpcb : q % pgSize = 0) (hppcb : p % pgSize = 0)
    (hframe : ∀ w, kernelBase ≤ w → ¬ InDescs p w → s.heap.mem w = σ.view p w)
    (hw : Visible q w) : (σ.put p s).view q w = σ.view q w := by
  by_cases huser : w < kernelBase
  · rw [view_user huser, view_user huser, Heaps.put]
    simp only [Function.update_of_ne hq]
  · have hkernel : kernelBase ≤ w := by omega
    have hnot : ¬ InDescs p w := inDescs_apart hqpcb hppcb hq (hw.resolve_left huser)
    rw [view_kernel hkernel, Heaps.put]
    simp only [if_neg huser]
    rw [hframe w hkernel hnot, view_kernel hkernel, view_kernel hkernel]

theorem own_congr (hview : ∀ w, Visible p w → τ.view p w = σ.view p w)
    (hheld : τ.held p = σ.held p) (hlive : τ.live p = σ.live p) : τ.own p = σ.own p := by
  have hmem : (fun w => if w < kernelBase ∨ InDescs p w then τ.view p w else 0) =
      fun w => if w < kernelBase ∨ InDescs p w then σ.view p w else 0 := by
    funext w
    by_cases hw : w < kernelBase ∨ InDescs p w
    · rw [if_pos hw, if_pos hw, hview w hw]
    · rw [if_neg hw, if_neg hw]
  rw [Heaps.own, Heaps.own, hmem, hheld, hlive]

end Views

section Inv

variable {σ τ : Heaps} {p q w : Nat} {free : Nat → List Nat} {own old liveOwn liveOld : List (Nat × Nat)}
  {r : Nat × Nat} {m : Mem}

/-- The invariant of the allocator is about visible words. -/
theorem ArenaInv.visible {live : List (Nat × Nat)} {mem : Mem}
    (h : ArenaInv (uBlockDesc p) { heap := { mem := mem, held := own }, live := live } free none)
    (huser : UserRanges own) (hm : Agree (Visible p) mem m) :
    ArenaInv (uBlockDesc p) { heap := { mem := m, held := own }, live := live } free none := by
  refine h.write fun w hw => (hm w ?_).symm
  -- a word that is not foreign lies in a range or in the descriptors
  by_contra hnot
  refine hw (Or.inr ⟨fun r hr => ?_, ?_⟩)
  · have := huser r hr
    have hge : kernelBase ≤ w := by
      by_contra hlt
      exact hnot (Or.inl (by omega))
    simp only [pgSize]
    omega
  · have : ¬ InDescs p w := fun hin => hnot (Or.inr hin)
    simp only [InDescs] at this
    omega

theorem HeapInv.congr (h : HeapInv σ p free own old liveOwn liveOld)
    (hview : ∀ w, Visible p w → τ.view p w = σ.view p w) (hheld : τ.held p = σ.held p)
    (hlive : τ.live p = σ.live p) (hprocs : ∀ q ∈ σ.procs, q ∈ τ.procs) :
    HeapInv τ p free own old liveOwn liveOld where
  held := hheld ▸ h.held
  live := hlive ▸ h.live
  inv := h.inv.visible (fun r hr => h.ranges r (List.mem_append_left _ hr))
    fun w hw => (hview w hw).symm
  ranges := h.ranges
  pages := h.pages
  oldLive := h.oldLive
  oldHeader := by
    intro r hr
    have hin := List.mem_append_right own hr
    have huser := h.ranges r hin
    have hpos := (h.pages.aligned r hin).2.2.1
    rw [hview _ (Or.inl (by omega)), hview _ (Or.inl (by omega))]
    obtain ⟨hlarge, q, hq, hne, hdesc⟩ := h.oldHeader r hr
    exact ⟨hlarge, q, hprocs q hq, hne, hdesc⟩

/-- Ranges in two parts. -/
theorem PagesOk.append {descs : Nat} (h : PagesOk descs own) (h' : PagesOk descs old)
    (hapart : ∀ r ∈ own, ∀ r' ∈ old, r.1 + 4096 * r.2 ≤ r'.1 ∨ r'.1 + 4096 * r'.2 ≤ r.1) :
    PagesOk descs (own ++ old) where
  aligned := fun r hr => (List.mem_append.mp hr).elim (h.aligned r) (h'.aligned r)
  descs := fun r hr => (List.mem_append.mp hr).elim (h.descs r) (h'.descs r)
  disjoint := List.pairwise_append.mpr ⟨h.disjoint, h'.disjoint, hapart⟩

theorem PagesOk.sublist {descs : Nat} {l : List (Nat × Nat)} (h : PagesOk descs own)
    (hl : l.Sublist own) : PagesOk descs l where
  aligned := fun r hr => h.aligned r (hl.subset hr)
  descs := fun r hr => h.descs r (hl.subset hr)
  disjoint := h.disjoint.sublist hl

theorem HeapInv.apart (h : HeapInv σ p free own old liveOwn liveOld) {r' : Nat × Nat}
    (hr : r ∈ own) (hr' : r' ∈ old) : r.1 + 4096 * r.2 ≤ r'.1 ∨ r'.1 + 4096 * r'.2 ≤ r.1 :=
  (List.pairwise_append.mp h.pages.disjoint).2.2 r hr r' hr'

theorem HeapInv.userRanges (h : HeapInv σ p free own old liveOwn liveOld) : UserRanges own :=
  fun r hr => h.ranges r (List.mem_append_left _ hr)

theorem HeapInv.own_held (h : HeapInv σ p free own old liveOwn liveOld) (hr : r ∈ own) :
    r ∈ σ.held p :=
  h.held.mem_iff.mpr (List.mem_append_left _ hr)

theorem HeapInv.pageOk (h : HeapInv σ p free own old liveOwn liveOld) {size : Nat}
    {page : Option Nat} (hpage : UserPageOk (σ.held p) size page) : UserPageOk own size page := by
  intro a ha
  obtain ⟨h1, h2, h3, h4⟩ := hpage a ha
  exact ⟨h1, h2, h3, fun r hr => h4 r (h.own_held hr)⟩

/-- The header of an old arena is beyond the own ranges. -/
theorem HeapInv.old_beyond (h : HeapInv σ p free own old liveOwn liveOld) (hp : kernelBase ≤ p)
    {taken : List (Nat × Nat)}
    (htaken : ∀ q ∈ taken, ∀ r ∈ old, q.1 + 4096 * q.2 ≤ r.1 ∨ r.1 + 4096 * r.2 ≤ q.1)
    (hr : r ∈ old) (hw : r.1 ≤ w ∧ w < r.1 + 12) : Beyond (uBlockDesc p) (taken ++ own) w := by
  have hin := List.mem_append_right own hr
  have hpos := (h.pages.aligned r hin).2.2.1
  have huser := h.ranges r hin
  constructor
  · simp only [uBlockDesc]
    omega
  · intro q hq
    rcases List.mem_append.mp hq with hq | hq
    · have := htaken q hq r hr
      omega
    · have := h.apart hq hr
      omega

end Inv

/-! ## One call -/

section Step

variable {σ τ : Heaps} {p q poolSize : Nat} {free : Nat → List Nat}
  {own old liveOwn liveOld : List (Nat × Nat)} {s : Kernel} {c : Call}

/-- What a call of the process at `p` does: its heap stays in order, and of the
    kernel only its descriptors have changed. -/
def CallOk (σ : Heaps) (p : Nat) (s : Kernel) : Prop :=
  (∃ free own old liveOwn liveOld, HeapInv (σ.put p s) p free own old liveOwn liveOld) ∧
    ∀ w, kernelBase ≤ w → ¬ InDescs p w → s.heap.mem w = σ.view p w

/-- A word of the kernel outside the descriptors is beyond the ranges. -/
theorem beyond_kernel {ranges : List (Nat × Nat)} {w : Nat} (huser : UserRanges ranges)
    (hw : kernelBase ≤ w) (hnot : ¬ InDescs p w) : Beyond (uBlockDesc p) ranges w := by
  constructor
  · simp only [InDescs, descCnt] at hnot
    omega
  · intro r hr
    have := huser r hr
    omega

theorem HeapInv.sysMalloc (h : HeapInv σ p free own old liveOwn liveOld) (hp : kernelBase ≤ p)
    {size : Nat} {page r : Option Nat} {s' : KHeap} (hpage : UserPageOk (σ.held p) size page)
    (hret : Returns (kernelMalloc (uBlockDesc p) poolSize size page) (σ.seen p).heap r s') :
    CallOk σ p { heap := s', live := (r.map fun b => (b, size)).toList ++ σ.live p } := by
  have hown := h.pageOk hpage
  obtain ⟨r₁, m, taken, ho⟩ : ∃ r₁ m taken,
      mallocOutcome (uBlockDesc p) poolSize size page (σ.view p) = (r₁, m, taken) := ⟨_, _, _, rfl⟩
  have hspec := h.inv.kernelMalloc_returns (hown.pageOk hp) ho
  obtain ⟨rfl, rfl⟩ := (hspec.returns (σ.held p)).unique hret
  have hranges := hown.userRanges h.userRanges ho
  -- what was taken overlaps no range of the process
  have htaken (q : Nat × Nat) (hq : q ∈ taken) (r : Nat × Nat) (hr : r ∈ old) :
      q.1 + 4096 * q.2 ≤ r.1 ∨ r.1 + 4096 * r.2 ≤ q.1 := by
    obtain ⟨a, ha, rfl⟩ := mallocOutcome_taken ho q hq
    exact (hpage a ha).2.2.2 r (h.held.mem_iff.mpr (List.mem_append_right _ hr))
  obtain ⟨free', hinv⟩ := hspec.inv
  refine ⟨⟨free', taken ++ own, old, (r₁.map fun b => (b, size)).toList ++ liveOwn, liveOld, ?_⟩,
    fun w hw hnot => hspec.frame w (beyond_kernel hranges hw hnot)⟩
  have hold (r : Nat × Nat) (hr : r ∈ old) (w : Nat) (hw : r.1 ≤ w ∧ w < r.1 + 12) :
      m w = σ.view p w := hspec.frame w (h.old_beyond hp htaken hr hw)
  exact {
    held := by
      simp only [Heaps.put, Function.update_self, List.append_assoc]
      exact h.held.append_left _
    live := by
      simp only [Heaps.put, Function.update_self, List.append_assoc]
      exact h.live.append_left _
    inv := by
      rw [view_put_self]
      exact hinv
    ranges := by
      intro q hq
      rcases List.mem_append.mp hq with hq | hq
      · exact hranges q hq
      · exact h.ranges q (List.mem_append_right _ hq)
    pages := by
      refine hinv.pages.append (h.pages.sublist (List.sublist_append_right _ _)) ?_
      intro q hq r hr
      rcases List.mem_append.mp hq with hq | hq
      · exact htaken q hq r hr
      · exact h.apart hq hr
    oldLive := h.oldLive
    oldHeader := by
      intro r hr
      rw [view_put_self]
      simp only [hold r hr (r.1 + 8) (by omega), hold r hr r.1 (by omega)]
      exact h.oldHeader r hr }

theorem giveBack_subset {l : List (Nat × Nat)} {back : Option (Nat × Nat)} :
    (giveBack l back).Sublist l := by
  cases back with
  | none => exact List.Sublist.refl _
  | some r => exact List.erase_sublist

theorem giveBack_perm {l : List (Nat × Nat)} {back : Option (Nat × Nat)}
    (hl : l.Perm (own ++ old)) (hback : ∀ r, back = some r → r ∈ own) :
    (giveBack l back).Perm (giveBack own back ++ old) := by
  cases back with
  | none => exact hl
  | some r =>
    have hr := hback r rfl
    have herase := hl.erase r
    rwa [List.erase_append_left _ hr] at herase

theorem HeapInv.sysFree (h : HeapInv σ p free own old liveOwn liveOld) (hp : kernelBase ≤ p)
    {x : Nat × Nat} {s' : KHeap} (hx : x ∈ liveOwn)
    (hret : Returns (kernelFree x.1) (σ.seen p).heap () s') :
    CallOk σ p { heap := s', live := (σ.live p).erase x } := by
  obtain ⟨m, back, ho⟩ : ∃ m back, freeOutcome x.1 (σ.view p) = (m, back) := ⟨_, _, rfl⟩
  have hspec := h.inv.kernelFree_returns hx ho
  obtain ⟨-, rfl⟩ := (hspec.returns (σ.held p) fun r hr => h.own_held hr).unique hret
  obtain ⟨free', hinv⟩ := hspec.inv
  have hsub : (giveBack own back ++ old).Sublist (own ++ old) :=
    giveBack_subset.append_right _
  refine ⟨⟨free', giveBack own back, old, liveOwn.erase x, liveOld, ?_⟩,
    fun w hw hnot => hspec.frame w (beyond_kernel h.userRanges hw hnot)⟩
  have hold (r : Nat × Nat) (hr : r ∈ old) (w : Nat) (hw : r.1 ≤ w ∧ w < r.1 + 12) :
      m w = σ.view p w := by
    have hnone : ∀ q ∈ ([] : List (Nat × Nat)), ∀ r ∈ old,
        q.1 + 4096 * q.2 ≤ r.1 ∨ r.1 + 4096 * r.2 ≤ q.1 := fun q hq => absurd hq List.not_mem_nil
    exact hspec.frame w (h.old_beyond hp hnone hr hw)
  exact {
    held := by
      simp only [Heaps.put, Function.update_self]
      exact giveBack_perm h.held hspec.back_mem
    live := by
      simp only [Heaps.put, Function.update_self]
      have herase := h.live.erase x
      rwa [List.erase_append_left _ hx] at herase
    inv := by
      rw [view_put_self]
      exact hinv
    ranges := fun r hr => h.ranges r (hsub.subset hr)
    pages := h.pages.sublist hsub
    oldLive := h.oldLive
    oldHeader := by
      intro r hr
      rw [view_put_self]
      simp only [hold r hr (r.1 + 8) (by omega), hold r hr r.1 (by omega)]
      exact h.oldHeader r hr }

theorem HeapInv.write (h : HeapInv σ p free own old liveOwn liveOld) (hp : kernelBase ≤ p)
    {w v : Nat} (hw : Writable (σ.seen p) w) :
    CallOk σ p { heap := { mem := Function.update (σ.view p) w v, held := σ.held p }
                 live := σ.live p } := by
  obtain ⟨huser, hwhere⟩ := hw
  -- the word is in an own block, in an old block, or in no range
  have hcases : (∃ x ∈ liveOwn, x.1 ≤ w ∧ w < x.1 + x.2) ∨
      (∃ r ∈ old, r.1 + 12 ≤ w ∧ w < r.1 + 4096 * r.2) ∨
      ∀ r ∈ own ++ old, w < r.1 ∨ r.1 + 4096 * r.2 ≤ w := by
    rcases hwhere with ⟨x, hx, hxw⟩ | hout
    · rcases List.mem_append.mp (h.live.mem_iff.mp hx) with hx | hx
      · exact Or.inl ⟨x, hx, hxw⟩
      · obtain ⟨r, hr, -, h1, h2⟩ := h.oldLive x hx
        exact Or.inr (Or.inl ⟨r, hr, by omega, by omega⟩)
    · exact Or.inr (Or.inr fun r hr => hout r (h.held.mem_iff.mpr hr))
  have hforeign : Kernel.Foreign (uBlockDesc p)
      { heap := { mem := σ.view p, held := own }, live := liveOwn } w := by
    have hdesc : w < uBlockDesc p ∨ uBlockDesc p + 24 * descCnt ≤ w := by
      simp only [uBlockDesc]
      omega
    rcases hcases with hx | ⟨r, hr, h1, h2⟩ | hout
    · exact Or.inl hx
    · refine Or.inr ⟨fun q hq => ?_, hdesc⟩
      have := h.apart hq hr
      simp only [pgSize]
      omega
    · exact Or.inr ⟨fun q hq => hout q (List.mem_append_left _ hq), hdesc⟩
  have hold (r : Nat × Nat) (hr : r ∈ old) (w' : Nat) (hw' : r.1 ≤ w' ∧ w' < r.1 + 12) :
      Function.update (σ.view p) w v w' = σ.view p w' := by
    refine Function.update_of_ne (fun heq => ?_) _ _
    have hin := List.mem_append_right own hr
    have hpos := (h.pages.aligned r hin).2.2.1
    rcases hcases with ⟨x, hx, hxw⟩ | ⟨r', hr', h1, h2⟩ | hout
    · obtain ⟨-, q, hq, -, h1, h2⟩ := h.inv.live_inside hx
      have h3 : x.2 ≤ KHeap.room { mem := σ.view p, held := own } x.1 := (h.inv.live_inside hx).1
      have h4 := h.apart hq hr
      simp only [pgSize] at h2
      omega
    · by_cases hrr : r = r'
      · subst hrr
        omega
      · have := h.pages.apart (s := { mem := σ.view p, held := own ++ old }) hin (List.mem_append_right _ hr') hrr
        omega
    · have := hout r hin
      omega
  refine ⟨⟨free, own, old, liveOwn, liveOld, ?_⟩, fun w' hw' _ => ?_⟩
  · exact {
      held := by
        simp only [Heaps.put, Function.update_self]
        exact h.held
      live := by
        simp only [Heaps.put, Function.update_self]
        exact h.live
      inv := by
        rw [view_put_self]
        refine h.inv.write fun w' hw' => Function.update_of_ne (fun heq => ?_) _ _
        exact hw' (heq ▸ hforeign)
      ranges := h.ranges
      pages := h.pages
      oldLive := h.oldLive
      oldHeader := by
        intro r hr
        rw [view_put_self]
        simp only [hold r hr (r.1 + 8) (by omega), hold r hr r.1 (by omega)]
        exact h.oldHeader r hr }
  · exact Function.update_of_ne (by omega) _ _

/-- A block whose arena points to the descriptors of the process, or that is large,
    is one of its own. -/
theorem HeapInv.own_of_freesOwn (h : HeapInv σ p free own old liveOwn liveOld)
    (hpcbs : ∀ q ∈ σ.procs, q % pgSize = 0 ∧ kernelBase ≤ q) (hp : p ∈ σ.procs) {x : Nat × Nat}
    (hx : x ∈ σ.live p) (hok : σ.FreesOwn p (.free x)) : x ∈ liveOwn := by
  rcases List.mem_append.mp (h.live.mem_iff.mp hx) with hx | hx
  · exact hx
  · obtain ⟨r, hr, harena, -⟩ := h.oldLive x hx
    obtain ⟨hlarge, q, hq, hne, hdesc⟩ := h.oldHeader r hr
    rw [Heaps.FreesOwn, ← harena, hlarge] at hok
    rcases hok with hok | hok
    · omega
    · exact absurd hdesc (inDescs_apart (hpcbs p hp).1 (hpcbs q hq).1 (Ne.symm hne) hok)

/-- Every call keeps the heap of its process in order and leaves the kernel alone but
    for the descriptors of the process. -/
theorem HeapsOk.callOk (h : HeapsOk σ) (hp : p ∈ σ.procs) (hok : σ.FreesOwn p c)
    (hstep : UserStep p poolSize (σ.seen p) c s) : CallOk σ p s := by
  obtain ⟨free, own, old, liveOwn, liveOld, hinv⟩ := h.heaps p hp
  have hbase := (h.pcbs p hp).2
  cases hstep with
  | malloc hpage hret => exact hinv.sysMalloc hbase hpage hret
  | free hx hret => exact hinv.sysFree hbase (hinv.own_of_freesOwn h.pcbs hp hx hok) hret
  | write hw => exact hinv.write hbase hw

/-- Processes other than the one that makes a call see the words they saw. -/
theorem CallOk.view_ne (hcall : CallOk σ p s) (h : HeapsOk σ) (hp : p ∈ σ.procs)
    (hq : q ∈ σ.procs) (hne : q ≠ p) {w : Nat} (hw : Visible q w) :
    (σ.put p s).view q w = σ.view q w :=
  view_put_ne hne (h.pcbs q hq).1 (h.pcbs p hp).1 hcall.2 hw

theorem HeapsOk.step (h : HeapsOk σ) (hok : σ.FreesOwn p c)
    (hstep : Heaps.Step poolSize σ (p, c) τ) : HeapsOk τ := by
  obtain ⟨hp, hcall⟩ := hstep
  have hcallOk := h.callOk hp hok hcall
  constructor
  · exact h.pcbs
  · intro q hq
    by_cases hqp : q = p
    · rw [hqp]
      exact hcallOk.1
    · obtain ⟨free, own, old, liveOwn, liveOld, hinv⟩ := h.heaps q hq
      refine ⟨free, own, old, liveOwn, liveOld, hinv.congr (fun w hw => ?_) ?_ ?_ fun _ h => h⟩
      · exact hcallOk.view_ne h hp hq hqp hw
      · simp only [Heaps.put, Function.update_of_ne hqp]
      · simp only [Heaps.put, Function.update_of_ne hqp]

/-- A call leaves what belongs to other processes alone. -/
theorem HeapsOk.own_ne (h : HeapsOk σ) (hok : σ.FreesOwn p c)
    (hstep : Heaps.Step poolSize σ (p, c) τ) (hq : q ∈ σ.procs) (hqp : q ≠ p) :
    τ.own q = σ.own q := by
  obtain ⟨hp, hcall⟩ := hstep
  have hcallOk := h.callOk hp hok hcall
  refine own_congr (fun w hw => hcallOk.view_ne h hp hq hqp hw) ?_ ?_
  · simp only [Heaps.put, Function.update_of_ne hqp]
  · simp only [Heaps.put, Function.update_of_ne hqp]

end Step

/-! ## Forking -/

section Fork

variable {σ : Heaps} {p q w : Nat} {free : Nat → List Nat}
  {own old liveOwn liveOld : List (Nat × Nat)} {m : Mem}

theorem blockDescInitFrom_above {n i : Nat} (hw : descAt p i + 24 * n ≤ w) :
    blockDescInitFrom p n i (blockSize i) m w = m w := by
  induction n generalizing i m with
  | zero => rfl
  | succ n ih =>
    have hdouble : blockSize i * 2 = blockSize (i + 1) := by
      rw [blockSize, blockSize, Nat.pow_succ, Nat.mul_assoc]
    have hnext : descAt p (i + 1) = descAt p i + 24 := by
      simp only [descAt]
      omega
    rw [blockDescInitFrom, hdouble, ih (by omega)]
    rw [Mem.listInit_outside (by omega), Function.update_of_ne (by omega),
      Function.update_of_ne (by omega)]

/-- `block_desc_init` writes to the descriptors only. -/
theorem blockDescInit_outside (hw : w < p ∨ p + 168 ≤ w) : blockDescInit p m w = m w := by
  rcases hw with hw | hw
  · exact (@blockDescInitFrom_spec p 0 7 m).1 w
      (by simp only [descAt]; omega)
  · refine blockDescInitFrom_above (i := 0) (n := 7) ?_
    simp only [descAt]
    omega

theorem blockDescInit_spec {i : Nat} (hi : i < 7) :
    blockDescInit p m (descAt p i) = blockSize i ∧
      blockDescInit p m (descAt p i + 4) = perArena i ∧
      (blockDescInit p m).IsList (descAt p i + 8) [] :=
  (@blockDescInitFrom_spec p 0 7 m).2 i (by omega) (by omega)

/-- Processes that were there see the words they saw. -/
theorem view_fork (hq : q ∈ σ.procs) (hc : σ.FreshPcb p) (hqpcb : q % pgSize = 0)
    {parent : Nat} (hw : Visible q w) : (σ.fork parent p).view q w = σ.view q w := by
  have hne : q ≠ p := fun heq => hc.2.2 (heq ▸ hq)
  by_cases huser : w < kernelBase
  · rw [view_user huser, view_user huser, Heaps.fork]
    simp only [Function.update_of_ne hne]
  · -- a word of the descriptors of `q` is not in the page of the child
    have hdesc := hw.resolve_left huser
    have hpage : w < p ∨ p + pgSize ≤ w := by
      have hp := hc.1
      simp only [InDescs, uBlockDesc, uBlockDescOffset, descCnt, pgSize] at *
      omega
    have hkernel : kernelBase ≤ w := by omega
    simp only [pgSize] at hpage
    rw [view_kernel hkernel, view_kernel hkernel]
    show blockDescInit (uBlockDesc p) (Heaps.copyPcb σ.kmem parent p) w = σ.kmem w
    rw [blockDescInit_outside (by simp only [uBlockDesc, uBlockDescOffset]; omega), Heaps.copyPcb,
      if_neg (by simp only [pgSize]; omega)]

/-- The child sees the user memory of its parent. -/
theorem view_child {parent : Nat} (hw : w < kernelBase) :
    (σ.fork parent p).view p w = σ.view parent w := by
  rw [view_user hw, view_user hw, Heaps.fork]
  simp only [Function.update_self]

/-- A range with a block of its own. -/
def IsLarge (m : Mem) (a : Nat) : Bool := m (a + 8) = 1

/-- The child keeps the large blocks of its parent; the small arenas are old. -/
theorem HeapInv.fork (h : HeapInv σ p free own old liveOwn liveOld) (hp : p ∈ σ.procs)
    (hc : σ.FreshPcb q) :
    HeapInv (σ.fork p q) q (fun _ => []) (own.filter fun r => IsLarge (σ.view p) r.1)
      (own.filter (fun r => ! IsLarge (σ.view p) r.1) ++ old)
      (liveOwn.filter fun x => IsLarge (σ.view p) (block2arena x.1))
      (liveOwn.filter (fun x => ! IsLarge (σ.view p) (block2arena x.1)) ++ liveOld) := by
  have hqbase := hc.2.1
  have hself : (σ.fork p q).held q = σ.held p := by
    simp only [Heaps.fork, Function.update_self]
  have hself' : (σ.fork p q).live q = σ.live p := by
    simp only [Heaps.fork, Function.update_self]
  have hheld : (own.filter (fun r => IsLarge (σ.view p) r.1) ++
      (own.filter (fun r => ! IsLarge (σ.view p) r.1) ++ old)).Perm (own ++ old) := by
    rw [← List.append_assoc]
    exact (List.filter_append_perm _ own).append_right old
  have hlive : (liveOwn.filter (fun x => IsLarge (σ.view p) (block2arena x.1)) ++
      (liveOwn.filter (fun x => ! IsLarge (σ.view p) (block2arena x.1)) ++ liveOld)).Perm
      (liveOwn ++ liveOld) := by
    rw [← List.append_assoc]
    exact (List.filter_append_perm _ liveOwn).append_right liveOld
  have hranges : UserRanges (own.filter (fun r => IsLarge (σ.view p) r.1) ++
      (own.filter (fun r => ! IsLarge (σ.view p) r.1) ++ old)) :=
    fun r hr => h.ranges r (hheld.mem_iff.mp hr)
  have hpages : PagesOk (uBlockDesc q) (own.filter (fun r => IsLarge (σ.view p) r.1) ++
      (own.filter (fun r => ! IsLarge (σ.view p) r.1) ++ old)) := by
    refine ⟨fun r hr => h.pages.aligned r (hheld.mem_iff.mp hr), fun r hr => Or.inr ?_, ?_⟩
    · have := hranges r hr
      simp only [uBlockDesc]
      omega
    · exact (hheld.pairwise_iff fun hrr => hrr.symm).mpr h.pages.disjoint
  -- header words of ranges are user words
  have hheader {r : Nat × Nat} (hr : r ∈ own ++ old) {w : Nat} (hw : r.1 ≤ w ∧ w < r.1 + 12) :
      (σ.fork p q).view q w = σ.view p w := by
    have h1 := h.ranges r hr
    have h2 := (h.pages.aligned r hr).2.2.1
    exact view_child (by omega)
  have hlargeOwn {r : Nat × Nat} (hr : r ∈ own.filter fun r => IsLarge (σ.view p) r.1) :
      r ∈ own ∧ σ.view p (r.1 + 8) = 1 := by
    obtain ⟨hin, hlarge⟩ := List.mem_filter.mp hr
    exact ⟨hin, by simpa [IsLarge] using hlarge⟩
  -- the ranges the child keeps are single large blocks, as they were for the parent
  have hlargeOf {a c : Nat}
      (hl : LargeArena
        { mem := (σ.fork p q).view q
          held := own.filter fun r => IsLarge (σ.view p) r.1 } a c) :
      LargeArena { mem := σ.view p, held := own } a c := by
    obtain ⟨hin, hlarge⟩ := hlargeOwn hl.held
    have hr := List.mem_append_left old hin
    exact ⟨hin, (hheader hr (by simp only; omega)).symm.trans hl.desc,
      (hheader hr (by simp only; omega)).symm.trans hl.cnt, hlarge⟩
  have hofLarge {a c : Nat} (hl : LargeArena { mem := σ.view p, held := own } a c) :
      LargeArena
        { mem := (σ.fork p q).view q
          held := own.filter fun r => IsLarge (σ.view p) r.1 } a c := by
    have hr := List.mem_append_left old hl.held
    have hlarge : σ.view p (a + 8) = 1 := hl.large
    exact ⟨List.mem_filter.mpr ⟨hl.held, by simp [IsLarge, hlarge]⟩,
      (hheader hr (by simp only; omega)).trans hl.desc,
      (hheader hr (by simp only; omega)).trans hl.cnt,
      (hheader hr (by simp only; omega)).trans hl.large⟩
  have hnoSmall {a i : Nat}
      (hs : SmallArena (uBlockDesc q)
        { mem := (σ.fork p q).view q
          held := own.filter fun r => IsLarge (σ.view p) r.1 } a i) : False := by
    obtain ⟨hin, hlarge⟩ := hlargeOwn hs.held
    have h1 : (σ.fork p q).view q (a + 8) = 0 := hs.large
    rw [hheader (List.mem_append_left old hin) (by simp only; omega)] at h1
    simp only at hlarge
    omega
  have hlargeLive {x : Nat × Nat}
      (hx : x ∈ liveOwn.filter fun x => IsLarge (σ.view p) (block2arena x.1)) :
      x ∈ liveOwn ∧ ∃ a c, LargeArena { mem := σ.view p, held := own } a c ∧ x.1 = a + 12 ∧
        x.2 + 12 ≤ 4096 * c := by
    obtain ⟨hin, hlarge⟩ := List.mem_filter.mp hx
    refine ⟨hin, ?_⟩
    rcases (h.inv.live x hin).2 with ⟨a, i, hb, -⟩ | hrest
    · have h1 : σ.view p (a + 8) = 0 := hb.1.large
      rw [h.inv.block2arena_eq hb] at hlarge
      simp [IsLarge, h1] at hlarge
    · exact hrest
  have hkernelView (w : Nat) (hw : kernelBase ≤ w) : (σ.fork p q).view q w =
      blockDescInit (uBlockDesc q) (Heaps.copyPcb σ.kmem p q) w := by
    rw [view_kernel hw, Heaps.fork]
  have hq : kernelBase ≤ uBlockDesc q := by
    simp only [uBlockDesc]
    omega
  exact {
    held := by
      rw [hself]
      exact h.held.trans hheld.symm
    live := by
      rw [hself']
      exact h.live.trans hlive.symm
    inv := {
      descsPos := by simp only [uBlockDesc, uBlockDescOffset]; omega
      pages := hpages.sublist (List.sublist_append_left _ _)
      desc := fun i hi => by
        obtain ⟨h1, h2, -⟩ := blockDescInit_spec (p := uBlockDesc q)
          (m := Heaps.copyPcb σ.kmem p q) hi
        exact ⟨(hkernelView _ (by simp only [descAt]; omega)).trans h1,
          (hkernelView _ (by simp only [descAt]; omega)).trans h2⟩
      lists := fun i hi => by
        obtain ⟨-, -, h3⟩ := blockDescInit_spec (p := uBlockDesc q)
          (m := Heaps.copyPcb σ.kmem p q) hi
        rw [Mem.isList_nil_iff] at h3 ⊢
        simp only
        rw [hkernelView _ (by simp only [descAt]; omega), hkernelView _ (by simp only [descAt]; omega)]
        exact h3
      nodup := fun _ _ => List.nodup_nil
      freeBlock := fun _ _ b hb => absurd hb List.not_mem_nil
      kinds := fun r hr => by
        refine Or.inr (hofLarge ?_)
        obtain ⟨hin, hlarge⟩ := hlargeOwn hr
        rcases h.inv.kinds r hin with ⟨i, -, hs⟩ | hl
        · have h1 : σ.view p (r.1 + 8) = 0 := hs.large
          omega
        · exact hl
      cnt := fun a i hs => (hnoSmall hs).elim
      live := fun x hx => by
        obtain ⟨hin, a, c, hl, hrest⟩ := hlargeLive hx
        exact ⟨(h.inv.live x hin).1, Or.inr ⟨a, c, hofLarge hl, hrest⟩⟩
      liveNodup := h.inv.liveNodup.sublist (List.filter_sublist.map _)
      ownedSmall := fun b a i hb => (hnoSmall hb.1).elim
      ownedLarge := fun a c hl => by
        have hl' := hlargeOf hl
        obtain ⟨x, hx, hxa⟩ := List.mem_map.mp (h.inv.ownedLarge a c hl')
        refine List.mem_map.mpr ⟨x, List.mem_filter.mpr ⟨hx, ?_⟩, hxa⟩
        have hlarge : σ.view p (a + 8) = 1 := hl'.large
        rw [hxa, block2arena_large h.inv.pages hl']
        simp [IsLarge, hlarge]
      busy := fun a i hs => (hnoSmall hs).elim }
    ranges := hranges
    pages := hpages
    oldLive := by
      intro x hx
      rcases List.mem_append.mp hx with hx | hx
      · obtain ⟨hin, hsmall⟩ := List.mem_filter.mp hx
        rcases (h.inv.live x hin).2 with ⟨a, i, hb, hle, -⟩ | ⟨a, c, hl, heq, -⟩
        · have hbounds := hb.bounds
          have h1 : σ.view p (a + 8) = 0 := hb.1.large
          refine ⟨(a, 1), List.mem_append_left _ (List.mem_filter.mpr ⟨hb.1.held, ?_⟩),
            (h.inv.block2arena_eq hb).symm, hbounds.1, by simp only; omega⟩
          simp [IsLarge, h1]
        · have h1 : σ.view p (a + 8) = 1 := hl.large
          rw [heq, block2arena_large h.inv.pages hl] at hsmall
          simp [IsLarge, h1] at hsmall
      · obtain ⟨r, hr, hrest⟩ := h.oldLive x hx
        exact ⟨r, List.mem_append_right _ hr, hrest⟩
    oldHeader := by
      intro r hr
      have hin : r ∈ own ++ old := hheld.mem_iff.mp (List.mem_append_right _ hr)
      rw [hheader hin (by omega), hheader hin (by omega)]
      have hprocs {q' : Nat} (hq' : q' ∈ σ.procs) : q' ∈ (σ.fork p q).procs ∧ q' ≠ q :=
        ⟨List.mem_cons_of_mem _ hq', fun heq => hc.2.2 (heq ▸ hq')⟩
      rcases List.mem_append.mp hr with hr | hr
      · -- an arena the parent opened points to the descriptors of the parent
        obtain ⟨hown, hsmall⟩ := List.mem_filter.mp hr
        rcases h.inv.kinds r hown with ⟨i, -, hs⟩ | hl
        · have h1 : σ.view p r.1 = descAt (uBlockDesc p) i := hs.desc
          have hlt := hs.lt
          refine ⟨hs.large, p, (hprocs hp).1, (hprocs hp).2, ?_⟩
          rw [h1]
          simp only [InDescs, descAt, descCnt]
          omega
        · have h1 : σ.view p (r.1 + 8) = 1 := hl.large
          simp [IsLarge, h1] at hsmall
      · obtain ⟨hlarge, q', hq', -, hdesc⟩ := h.oldHeader r hr
        exact ⟨hlarge, q', (hprocs hq').1, (hprocs hq').2, hdesc⟩ }

theorem HeapsOk.fork (h : HeapsOk σ) (hp : p ∈ σ.procs) (hc : σ.FreshPcb q) :
    HeapsOk (σ.fork p q) := by
  constructor
  · intro r hr
    rcases List.mem_cons.mp hr with rfl | hr
    · exact ⟨hc.1, hc.2.1⟩
    · exact h.pcbs r hr
  · intro r hr
    rcases List.mem_cons.mp hr with rfl | hr
    · obtain ⟨free, own, old, liveOwn, liveOld, hinv⟩ := h.heaps p hp
      exact ⟨_, _, _, _, _, hinv.fork hp hc⟩
    · obtain ⟨free, own, old, liveOwn, liveOld, hinv⟩ := h.heaps r hr
      have hne : r ≠ q := fun heq => hc.2.2 (heq ▸ hr)
      refine ⟨free, own, old, liveOwn, liveOld, hinv.congr
        (fun w hw => view_fork hr hc (h.pcbs r hr).1 hw) ?_ ?_ fun x hx => List.mem_cons_of_mem _ hx⟩
      · simp only [Heaps.fork, Function.update_of_ne hne]
      · simp only [Heaps.fork, Function.update_of_ne hne]

theorem heapsOk_boot {kmem umem : Mem} (hp : p % pgSize = 0 ∧ kernelBase ≤ p) :
    HeapsOk (Heaps.boot p kmem umem) := by
  have hview (w : Nat) (hw : kernelBase ≤ w) :
      (Heaps.boot p kmem umem).view p w = blockDescInit (uBlockDesc p) kmem w := by
    rw [view_kernel hw, Heaps.boot]
  have hdescs : kernelBase ≤ uBlockDesc p := by
    simp only [uBlockDesc]
    omega
  constructor
  · intro q hq
    rw [List.mem_singleton.mp hq]
    exact hp
  · intro q hq
    rw [List.mem_singleton.mp hq]
    have hinit := @arenaInv_init (uBlockDesc p) kmem
      (by simp only [uBlockDesc, uBlockDescOffset]; omega)
    refine ⟨fun _ => [], [], [], [], [], List.Perm.refl _, List.Perm.refl _, ?_,
      fun r hr => absurd hr List.not_mem_nil, hinit.pages, fun x hx => absurd hx List.not_mem_nil,
      fun r hr => absurd hr List.not_mem_nil⟩
    -- without ranges every word of the user memory is foreign
    refine hinit.write fun w hw => hview w ?_
    by_contra huser
    exact hw (Or.inr ⟨fun r hr => absurd hr List.not_mem_nil, Or.inl (by omega)⟩)

end Fork

end ZxyOs
