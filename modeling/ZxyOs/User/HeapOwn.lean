/-
  ZxyOs.User.HeapOwn

  The part of the heaps that belongs to a process depends on its own calls only.

  `Heaps.own` cuts out that part: the user memory, the descriptors, the page ranges
  and the blocks of the process.  A call of the process acts on the part as it acts
  on the heap the process sees, with the same result; a call of another process
  leaves it alone.  So a run of all processes is, seen from one of them, the run of
  its own calls.
-/

import ZxyOs.User.HeapRun

namespace ZxyOs

open Lib Lib.Exec

/-- The calls of the process at `p` in a run. -/
def callsOf (p : Nat) (tr : List (Nat × Call)) : List Call :=
  (tr.filter fun c => c.1 = p).map Prod.snd

/-- Calls of the process at `p` on its own part of the heaps. -/
inductive OwnCalls (p poolSize : Nat) : Kernel → List Call → Kernel → Prop where
  | nil {σ : Kernel} : OwnCalls p poolSize σ [] σ
  | cons {σ τ υ : Kernel} {c : Call} {cs : List Call} (hstep : UserStep p poolSize σ c τ)
      (h : OwnCalls p poolSize τ cs υ) : OwnCalls p poolSize σ (c :: cs) υ

section Unique

variable {p poolSize : Nat} {σ τ τ' : Kernel} {c : Call} {cs : List Call}

theorem UserStep.unique (h : UserStep p poolSize σ c τ) (h' : UserStep p poolSize σ c τ') :
    τ = τ' := by
  cases h with
  | malloc hpage hret =>
    cases h' with
    | malloc _ hret' =>
      obtain ⟨rfl, rfl⟩ := hret.unique hret'
      rfl
  | free hx hret =>
    cases h' with
    | free _ hret' =>
      obtain ⟨-, rfl⟩ := hret.unique hret'
      rfl
  | write _ =>
    cases h' with
    | write _ => rfl

theorem OwnCalls.unique (h : OwnCalls p poolSize σ cs τ) (h' : OwnCalls p poolSize σ cs τ') :
    τ = τ' := by
  induction h with
  | nil =>
    cases h' with
    | nil => rfl
  | cons hstep _ ih =>
    cases h' with
    | cons hstep' hrest' =>
      rw [← hstep.unique hstep'] at hrest'
      exact ih hrest'

end Unique

/-! ## One call -/

section Mask

variable {σ : Heaps} {p poolSize w : Nat} {m m' : Mem} {free : Nat → List Nat}
  {own old liveOwn liveOld : List (Nat × Nat)} {s : Kernel} {c : Call}

/-- Memory without the words that are not visible to the process at `p`. -/
def mask (p : Nat) (m : Mem) : Mem := fun w => if w < kernelBase ∨ InDescs p w then m w else 0

theorem mask_visible (hw : Visible p w) : mask p m w = m w := if_pos hw

theorem mask_hidden (hw : ¬ Visible p w) : mask p m w = 0 := if_neg hw

theorem agree_mask : Agree (Visible p) m (mask p m) := fun _ hw => (mask_visible hw).symm

/-- A memory without hidden words that agrees with `m` is what remains of `m`. -/
theorem Agree.eq_mask (h : Agree (Visible p) m m') (hm : ∀ w, ¬ Visible p w → m' w = 0) :
    m' = mask p m := by
  funext w
  by_cases hw : Visible p w
  · rw [mask_visible hw]
    exact (h w hw).symm
  · rw [mask_hidden hw]
    exact hm w hw

theorem own_eq : σ.own p =
    { heap := { mem := mask p (σ.view p), held := σ.held p }, live := σ.live p } := rfl

theorem own_put : (σ.put p s).own p =
    { heap := { mem := mask p s.heap.mem, held := s.heap.held }, live := s.live } := by
  rw [own_eq, view_put_self]
  simp only [Heaps.put, Function.update_self]

theorem hidden_beyond {ranges : List (Nat × Nat)} (huser : UserRanges ranges)
    (hw : ¬ Visible p w) : Beyond (uBlockDesc p) ranges w := by
  have hkernel : kernelBase ≤ w := by
    by_contra hlt
    exact hw (Or.inl (by omega))
  exact beyond_kernel huser hkernel fun hin => hw (Or.inr hin)

/-- The invariant holds of what is left of the memory. -/
theorem HeapInv.masked (h : HeapInv σ p free own old liveOwn liveOld) :
    ArenaInv (uBlockDesc p) { heap := { mem := mask p (σ.view p), held := own }, live := liveOwn }
      free none :=
  h.inv.visible h.userRanges agree_mask

theorem HeapInv.own_malloc (h : HeapInv σ p free own old liveOwn liveOld) (hp : kernelBase ≤ p)
    {size : Nat} {page r : Option Nat} {s' : KHeap} (hpage : UserPageOk (σ.held p) size page)
    (hret : Returns (kernelMalloc (uBlockDesc p) poolSize size page) (σ.seen p).heap r s') :
    Returns (kernelMalloc (uBlockDesc p) poolSize size page) (σ.own p).heap r
      { mem := mask p s'.mem, held := s'.held } := by
  have hown := h.pageOk hpage
  obtain ⟨r₁, m, taken, ho⟩ : ∃ r₁ m taken,
      mallocOutcome (uBlockDesc p) poolSize size page (σ.view p) = (r₁, m, taken) := ⟨_, _, _, rfl⟩
  have hspec := h.inv.kernelMalloc_returns (hown.pageOk hp) ho
  obtain ⟨rfl, rfl⟩ := (hspec.returns (σ.held p)).unique hret
  -- the same call on the masked memory
  obtain ⟨m₂, ho₂, hagree⟩ := h.inv.mallocOutcome_agree hp h.userRanges hown agree_mask ho
  have hspec₂ := h.masked.kernelMalloc_returns (hown.pageOk hp) ho₂
  have hranges := hown.userRanges h.userRanges ho
  have hm₂ : m₂ = mask p m := by
    apply hagree.eq_mask
    intro w hw
    rw [hspec₂.frame w (hidden_beyond hranges hw)]
    exact mask_hidden hw
  have hreturns := hspec₂.returns (σ.held p)
  rw [hm₂] at hreturns
  exact hreturns

theorem HeapInv.own_free (h : HeapInv σ p free own old liveOwn liveOld) {x : Nat × Nat}
    {s' : KHeap} (hx : x ∈ liveOwn) (hret : Returns (kernelFree x.1) (σ.seen p).heap () s') :
    Returns (kernelFree x.1) (σ.own p).heap () { mem := mask p s'.mem, held := s'.held } := by
  obtain ⟨m, back, ho⟩ : ∃ m back, freeOutcome x.1 (σ.view p) = (m, back) := ⟨_, _, rfl⟩
  have hheld : ∀ r ∈ own, r ∈ σ.held p := fun r hr => h.own_held hr
  have hspec := h.inv.kernelFree_returns hx ho
  obtain ⟨-, rfl⟩ := (hspec.returns (σ.held p) hheld).unique hret
  -- the same call on the masked memory
  obtain ⟨hback, hagree⟩ := h.inv.freeOutcome_agree h.userRanges hx (agree_mask (m := σ.view p))
  obtain ⟨m₂, back₂, ho₂⟩ : ∃ m₂ back₂, freeOutcome x.1 (mask p (σ.view p)) = (m₂, back₂) :=
    ⟨_, _, rfl⟩
  simp only [ho, ho₂] at hback hagree
  have hspec₂ := h.masked.kernelFree_returns hx ho₂
  have hm₂ : m₂ = mask p m := by
    apply hagree.eq_mask
    intro w hw
    rw [hspec₂.frame w (hidden_beyond h.userRanges hw)]
    exact mask_hidden hw
  have hreturns := hspec₂.returns (σ.held p) hheld
  rw [hm₂, ← hback] at hreturns
  exact hreturns

/-- A call of a process is a call on its own part. -/
theorem HeapsOk.own_step (h : HeapsOk σ) (hp : p ∈ σ.procs) (hok : σ.FreesOwn p c)
    (hstep : UserStep p poolSize (σ.seen p) c s) :
    UserStep p poolSize (σ.own p) c ((σ.put p s).own p) := by
  obtain ⟨free, own, old, liveOwn, liveOld, hinv⟩ := h.heaps p hp
  rw [own_put]
  cases hstep with
  | malloc hpage hret =>
    exact UserStep.malloc hpage (hinv.own_malloc (h.pcbs p hp).2 hpage hret)
  | free hx hret =>
    exact UserStep.free hx (hinv.own_free (hinv.own_of_freesOwn h.pcbs hp hx hok) hret)
  | @write w v hw =>
    have hmem : mask p (Function.update (σ.view p) w v) =
        Function.update (mask p (σ.view p)) w v := by
      symm
      apply agree_mask.update.eq_mask
      intro w' hw'
      have hne : w' ≠ w := fun heq => hw' (heq ▸ Or.inl hw.1)
      rw [Function.update_of_ne hne]
      exact mask_hidden hw'
    have hwrite : UserStep p poolSize (σ.own p) (.write w v) _ := UserStep.write hw
    rw [own_eq] at hwrite
    simp only at hwrite
    rw [← hmem] at hwrite
    exact hwrite

end Mask

/-! ## Runs -/

section Runs

variable {σ τ τ' : Heaps} {p poolSize : Nat} {tr tr' : List (Nat × Call)}

theorem heapsOk_reachable (h : Heaps.Reachable Heaps.FreesOwn poolSize σ) : HeapsOk σ := by
  induction h with
  | boot hp => exact heapsOk_boot hp
  | call _ hok hstep ih => exact ih.step hok hstep
  | fork _ hp hc ih => exact ih.fork hp hc

theorem HeapsOk.calls (h : HeapsOk σ) (hrun : Heaps.Calls Heaps.FreesOwn poolSize σ tr τ) :
    HeapsOk τ := by
  induction hrun with
  | nil => exact h
  | cons hok hstep _ ih => exact ih (h.step hok hstep)

/-- A run leaves a process with what its own calls make of its part. -/
theorem HeapsOk.own_calls (h : HeapsOk σ) (hp : p ∈ σ.procs)
    (hrun : Heaps.Calls Heaps.FreesOwn poolSize σ tr τ) :
    OwnCalls p poolSize (σ.own p) (callsOf p tr) (τ.own p) := by
  induction hrun with
  | nil => exact OwnCalls.nil
  | @cons σ τ υ q c tr hok hstep _ ih =>
    have hτ := h.step hok hstep
    have hpτ : p ∈ τ.procs := by
      cases hstep
      exact hp
    by_cases hqp : q = p
    · subst hqp
      have hcalls : callsOf q ((q, c) :: tr) = c :: callsOf q tr := by
        simp [callsOf]
      rw [hcalls]
      refine OwnCalls.cons ?_ (ih hτ hpτ)
      cases hstep with
      | call _ hcall => exact h.own_step hp hok hcall
    · have hcalls : callsOf p ((q, c) :: tr) = callsOf p tr := by
        simp [callsOf, hqp]
      rw [hcalls, ← h.own_ne hok hstep hp (Ne.symm hqp)]
      exact ih hτ hpτ

/-- The block `sys_malloc` hands out overlaps no block the process has. -/
theorem HeapsOk.malloc_apart (h : HeapsOk σ) (hp : p ∈ σ.procs) {size b : Nat} {page : Option Nat}
    {s' : KHeap} (hpage : UserPageOk (σ.held p) size page)
    (hret : Returns (kernelMalloc (uBlockDesc p) poolSize size page) (σ.seen p).heap (some b) s')
    {x : Nat × Nat} (hx : x ∈ σ.live p) : b + size ≤ x.1 ∨ x.1 + x.2 ≤ b := by
  obtain ⟨free, own, old, liveOwn, liveOld, hinv⟩ := h.heaps p hp
  have hown := hinv.pageOk hpage
  obtain ⟨r₁, m, taken, ho⟩ : ∃ r₁ m taken,
      mallocOutcome (uBlockDesc p) poolSize size page (σ.view p) = (r₁, m, taken) := ⟨_, _, _, rfl⟩
  have hspec := hinv.inv.kernelMalloc_returns (hown.pageOk (h.pcbs p hp).2) ho
  obtain ⟨rfl, -⟩ := (hspec.returns (σ.held p)).unique hret
  obtain ⟨free', hnew⟩ := hspec.inv
  have hb : (b, size) ∈ [(b, size)] ++ liveOwn := List.mem_cons_self
  obtain ⟨hroom, q, hq, -, hq1, hq2⟩ := hnew.live_inside hb
  simp only [pgSize] at hroom hq1 hq2
  rcases List.mem_append.mp (hinv.live.mem_iff.mp hx) with hx | hx
  · -- a block of its own
    have hx' : x ∈ [(b, size)] ++ liveOwn := List.mem_cons_of_mem _ hx
    obtain ⟨hxroom, -⟩ := hnew.live_inside hx'
    have hnodup : (b :: liveOwn.map Prod.fst).Nodup := hnew.liveNodup
    have hne : b ≠ x.1 := by
      intro heq
      exact (List.nodup_cons.mp hnodup).1 (heq ▸ List.mem_map_of_mem hx)
    have hapart := hnew.live_apart hb hx' hne
    simp only at hapart hxroom
    omega
  · -- a block of an old arena
    obtain ⟨r, hr, -, hr1, hr2⟩ := hinv.oldLive x hx
    have hapart : q.1 + 4096 * q.2 ≤ r.1 ∨ r.1 + 4096 * r.2 ≤ q.1 := by
      rcases List.mem_append.mp hq with hq | hq
      · obtain ⟨a, ha, rfl⟩ := mallocOutcome_taken ho q hq
        exact (hpage a ha).2.2.2 r (hinv.held.mem_iff.mpr (List.mem_append_right _ hr))
      · exact hinv.apart hq hr
    omega

end Runs

end ZxyOs
