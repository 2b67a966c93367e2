/-
  ZxyOs.User.HeapFork

  Whether the heaps of parent and child are independent after `sys_fork`.

  The header of a small arena points to the descriptor of the process that opened it,
  and `sys_fork` copies the header with the page.  A child that frees a block of such
  an arena appends it to a free list of its parent.  As long as no process does that,
  the heaps are independent (`heaps_independent`); where one does, `sys_malloc` of the
  parent may hand out a block the parent still has (`fork_hands_out_live_block`).
-/

import ZxyOs.User.HeapOwn

namespace ZxyOs

open Lib Lib.Exec

/-- What is expected of the heap of the process at `p`: calls that meet `ok` leave it
    with a heap that depends on its own calls only, and `sys_malloc` hands out memory
    that is in no block the process has. -/
structure Heaps.Independent (ok : Heaps → Nat → Call → Prop) (poolSize : Nat) (σ : Heaps)
    (p : Nat) : Prop where
  own : ∀ τ τ' tr tr', Calls ok poolSize σ tr τ → Calls ok poolSize σ tr' τ' →
    callsOf p tr = callsOf p tr' → τ.own p = τ'.own p
  apart : ∀ size page b s', UserPageOk (σ.held p) size page →
    Returns (kernelMalloc (uBlockDesc p) poolSize size page) (σ.seen p).heap (some b) s' →
    ∀ x ∈ σ.live p, b + size ≤ x.1 ∨ x.1 + x.2 ≤ b

/-! ## Runs, computed -/

instance (held : List (Nat × Nat)) (size : Nat) (page : Option Nat) :
    Decidable (UserPageOk held size page) :=
  match page with
  | none => isTrue fun _ h => nomatch h
  | some a => decidable_of_iff
      (a % pgSize = 0 ∧ 0 < a ∧ a + pgSize * pagesFor size ≤ kernelBase ∧
        ∀ r ∈ held, a + pgSize * pagesFor size ≤ r.1 ∨ r.1 + pgSize * r.2 ≤ a)
      ⟨fun h _ hb => Option.some.inj hb ▸ h, fun h => h a rfl⟩

instance (σ : Kernel) (w : Nat) : Decidable (Writable σ w) :=
  inferInstanceAs (Decidable (w < kernelBase ∧ (_ ∨ _)))

instance (σ : Heaps) (p : Nat) : DecidablePred (σ.FreesOwn p)
  | .free x => inferInstanceAs
      (Decidable (σ.view p (block2arena x.1 + 8) = 1 ∨ InDescs p (σ.view p (block2arena x.1))))
  | .malloc _ _ => isTrue trivial
  | .write _ _ => isTrue trivial

instance (σ : Heaps) : DecidablePred σ.FreshPcb :=
  fun p => inferInstanceAs (Decidable (p % pgSize = 0 ∧ kernelBase ≤ p ∧ p ∉ σ.procs))

/-- A call or a fork. -/
inductive Move where
  | call (p : Nat) (c : Call)
  | fork (parent child : Nat)

namespace Heaps

/-- The outcome of a call on the heap a process sees. -/
def callOutcome (poolSize p : Nat) (σ : Kernel) : Call → Option Kernel
  | .malloc size page =>
    match kernelMalloc (uBlockDesc p) poolSize size page σ.heap with
    | .ok (r, s') =>
      if UserPageOk σ.heap.held size page then
        some { heap := s', live := (r.map fun b => (b, size)).toList ++ σ.live }
      else none
    | .error _ => none
  | .free x =>
    match kernelFree x.1 σ.heap with
    | .ok (_, s') => if x ∈ σ.live then some { heap := s', live := σ.live.erase x } else none
    | .error _ => none
  | .write w v =>
    if Writable σ w then
      some { σ with heap := { σ.heap with mem := Function.update σ.heap.mem w v } }
    else none

section Run

variable {ok : Heaps → Nat → Call → Prop} [∀ σ p, DecidablePred (ok σ p)] {poolSize p : Nat}
  {σ τ : Heaps} {c : Call} {ms : List Move}

/-- The state a list of moves leads to, each meeting the condition `ok`. -/
def runMoves (ok : Heaps → Nat → Call → Prop) [∀ σ p, DecidablePred (ok σ p)] (poolSize : Nat)
    (σ : Heaps) : List Move → Option Heaps
  | [] => some σ
  | .call p c :: ms =>
    if p ∈ σ.procs ∧ ok σ p c then
      match callOutcome poolSize p (σ.seen p) c with
      | some s => runMoves ok poolSize (σ.put p s) ms
      | none => none
    else none
  | .fork parent child :: ms =>
    if parent ∈ σ.procs ∧ σ.FreshPcb child then
      runMoves ok poolSize (σ.fork parent child) ms
    else none

theorem callOutcome_step {σ s : Kernel} (h : callOutcome poolSize p σ c = some s) :
    UserStep p poolSize σ c s := by
  cases c with
  | malloc size page =>
    simp only [callOutcome] at h
    split at h
    · next r s' hret =>
      split at h
      · next hpage =>
        rw [← Option.some.inj h]
        exact UserStep.malloc hpage hret
      · cases h
    · cases h
  | free x =>
    simp only [callOutcome] at h
    split at h
    · next u s' hret =>
      split at h
      · next hx =>
        rw [← Option.some.inj h]
        exact UserStep.free hx hret
      · cases h
    · cases h
  | write w v =>
    simp only [callOutcome] at h
    split at h
    · next hw =>
      rw [← Option.some.inj h]
      exact UserStep.write hw
    · cases h

theorem runMoves_reachable (h : Reachable ok poolSize σ)
    (hrun : runMoves ok poolSize σ ms = some τ) : Reachable ok poolSize τ := by
  induction ms generalizing σ with
  | nil =>
    rw [← Option.some.inj hrun]
    exact h
  | cons move ms ih =>
    cases move with
    | call p c =>
      rw [runMoves] at hrun
      split at hrun
      · next hok =>
        split at hrun
        · next s hs =>
          refine ih (Reachable.call h hok.2 ?_) hrun
          exact Step.call hok.1 (callOutcome_step hs)
        · cases hrun
      · cases hrun
    | fork parent child =>
      rw [runMoves] at hrun
      split at hrun
      · next hok => exact ih (Reachable.fork h hok.1 hok.2) hrun
      · cases hrun

/-- What a computed run shows of some reachable state. -/
theorem reachable_of_runMoves (ms : List Move) (f : Heaps → Bool) (h : Reachable ok poolSize σ)
    (hrun : (runMoves ok poolSize σ ms).any f = true) :
    ∃ τ, Reachable ok poolSize τ ∧ f τ = true := by
  cases hτ : runMoves ok poolSize σ ms with
  | none =>
    rw [hτ] at hrun
    cases hrun
  | some τ =>
    rw [hτ] at hrun
    exact ⟨τ, runMoves_reachable h hτ, hrun⟩

end Run

end Heaps

/-! ## The results -/

/-- In every state of every run in which processes free only large blocks and blocks
    of arenas they opened, the heap of each process is independent of the others. -/
theorem heaps_independent {σ : Heaps} {p poolSize : Nat}
    (h : Heaps.Reachable Heaps.FreesOwn poolSize σ) (hp : p ∈ σ.procs) :
    σ.Independent Heaps.FreesOwn poolSize p := by
  have hσ := heapsOk_reachable h
  constructor
  · intro τ τ' tr tr' hrun hrun' hcalls
    have hτ := hσ.own_calls hp hrun
    have hτ' := hσ.own_calls hp hrun'
    rw [← hcalls] at hτ'
    exact hτ.unique hτ'
  · intro size page b s' hpage hret x hx
    exact hσ.malloc_apart hp hpage hret hx

/-- The process the runs below start with. -/
def bootParent : Heaps := Heaps.boot 0xc0100000 (fun _ => 0) fun _ => 0

/-- A parent with a block of 1024 bytes, and a child that has one more. -/
theorem heaps_independent_forked :
    ∃ σ, Heaps.Reachable Heaps.FreesOwn (2 ^ 20) σ ∧
      (0x804800c, 1024) ∈ σ.live 0xc0101000 ∧ (0x804900c, 1024) ∈ σ.live 0xc0101000 ∧
      σ.Independent Heaps.FreesOwn (2 ^ 20) 0xc0101000 := by
  have hboot : Heaps.Reachable Heaps.FreesOwn (2 ^ 20) bootParent := Heaps.Reachable.boot (by decide)
  obtain ⟨σ, hσ, hf⟩ := Heaps.reachable_of_runMoves
    [.call 0xc0100000 (.malloc 1024 (some 0x8048000)),
      .fork 0xc0100000 0xc0101000, .call 0xc0101000 (.malloc 1024 (some 0x8049000))]
    (fun σ => decide (0xc0101000 ∈ σ.procs ∧ (0x804800c, 1024) ∈ σ.live 0xc0101000 ∧
      (0x804900c, 1024) ∈ σ.live 0xc0101000))
    hboot (by decide +kernel)
  obtain ⟨hp, hfirst, hsecond⟩ := of_decide_eq_true hf
  exact ⟨σ, hσ, hfirst, hsecond, heaps_independent hσ hp⟩

/-- The parent fills an arena with three blocks and forks.  The child frees its copy
    of the first block, and `sys_malloc` hands the block out to the parent, which
    still has it.  (The parent has stored pointers into the block, which the removal
    from the free list follows.) -/
theorem fork_hands_out_live_block :
    ∃ σ, Heaps.Reachable (fun _ _ _ => True) (2 ^ 20) σ ∧ 0xc0100000 ∈ σ.procs ∧
      (0x804800c, 1024) ∈ σ.live 0xc0100000 ∧
      (∃ s', Returns (kernelMalloc (uBlockDesc 0xc0100000) (2 ^ 20) 1024 none)
        (σ.seen 0xc0100000).heap (some 0x804800c) s') ∧
      ¬ σ.Independent (fun _ _ _ => True) (2 ^ 20) 0xc0100000 := by
  have hboot : Heaps.Reachable (fun _ _ _ => True) (2 ^ 20) bootParent :=
    Heaps.Reachable.boot (by decide)
  obtain ⟨σ, hσ, hf⟩ := Heaps.reachable_of_runMoves
    [.call 0xc0100000 (.malloc 1024 (some 0x8048000)),
      .call 0xc0100000 (.malloc 1024 none), .call 0xc0100000 (.malloc 1024 none),
      .fork 0xc0100000 0xc0101000,
      .call 0xc0100000 (.write 0x804800c 0x8048800), .call 0xc0100000 (.write 0x8048010 0x8048800),
      .call 0xc0101000 (.free (0x804800c, 1024))]
    (fun σ => decide (0xc0100000 ∈ σ.procs ∧ (0x804800c, 1024) ∈ σ.live 0xc0100000 ∧
      (kernelMalloc (uBlockDesc 0xc0100000) (2 ^ 20) 1024 none).result?
        (σ.seen 0xc0100000).heap = some (some 0x804800c)))
    hboot (by decide +kernel)
  obtain ⟨hp, hlive, hret⟩ := of_decide_eq_true hf
  obtain ⟨s', hret⟩ := result?_eq_some.mp hret
  refine ⟨σ, hσ, hp, hlive, ⟨s', hret⟩, fun hind => ?_⟩
  have hapart := hind.apart 1024 none 0x804800c s' (fun _ h => nomatch h) hret _ hlive
  omega

end ZxyOs
