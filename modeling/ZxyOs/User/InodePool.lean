/-
  ZxyOs.User.InodePool

  The pool the cached inodes come from.

  `sys_malloc` takes a block from the pool of the running thread, and `inode_close` gives
  an inode back to the pool of the kernel.  `inode_open` hides the page directory of the
  thread around its request; `file_create` does not, so a file that a user process
  creates is cached in the heap of that process.

  `PoolStep ps` is what every call keeps: the inodes in memory are blocks of the kernel,
  and no other address, those of the buffers `ps` among them, gets an inode.  The buffers
  of a call may therefore be freed (`keeps_withBuffer`, `keeps_sysFree_buffer`).
-/

import ZxyOs.Fs.DirEntries
import ZxyOs.Fs.OpenCases
import ZxyOs.User.Calls

namespace ZxyOs

open Lib Lib.Exec

/-- The inodes in memory are live blocks from the pool of the kernel, the listed ones are
    in memory, and no directory handle is at the address of one. -/
structure Fs.PoolOk (s : Fs) : Prop where
  pool : ∀ a, s.inodes a ≠ none → (a, false) ∈ s.heap.live ∧ (a, true) ∉ s.heap.live
  listed : ∀ a ∈ s.openInodes, s.inodes a ≠ none
  live_lt : ∀ a u, (a, u) ∈ s.heap.live → a < s.heap.next
  dirs : ∀ d, s.dirs d ≠ none → d < s.heap.next ∧ s.inodes d = none

/-- The blocks `ps` have been handed out, and none of them holds an inode. -/
def Fs.Spare (s : Fs) (ps : List (Option Nat)) : Prop :=
  ∀ p, some p ∈ ps → p < s.heap.next ∧ s.inodes p = none

/-- Which pool the running thread allocates from. -/
def Fs.runner (s : Fs) : Option Bool := (s.tasks s.cur).map Task.userSpace

/-- The inodes stay in blocks of the kernel, and no block that has been handed out before
    gets one. -/
structure PoolKept (s s' : Fs) : Prop where
  ok : s'.PoolOk
  next : s.heap.next ≤ s'.heap.next
  gone : ∀ a < s.heap.next, s.inodes a = none → s'.inodes a = none
  runner : s'.runner = s.runner

/-- A step of a call that holds the blocks `ps`. -/
def PoolStep (ps : List (Option Nat)) (s s' : Fs) : Prop := s.PoolOk → s.Spare ps → PoolKept s s'

section Pool

variable {ps : List (Option Nat)} {s s' : Fs} {a : Nat} {d : DirPtr} {α : Type}

theorem Fs.PoolOk.inode_lt (h : s.PoolOk) (ha : s.inodes a ≠ none) : a < s.heap.next :=
  h.live_lt a false (h.pool a ha).1

/-- Blocks without an inode stay so. -/
theorem Fs.Spare.mono (hspare : s.Spare ps) (h : PoolKept s s') : s'.Spare ps := by
  intro p hp
  obtain ⟨hlt, hnone⟩ := hspare p hp
  exact ⟨Nat.lt_of_lt_of_le hlt h.next, h.gone p hlt hnone⟩

theorem PoolKept.trans {s₁ s₂ s₃ : Fs} (h : PoolKept s₁ s₂) (h' : PoolKept s₂ s₃) : PoolKept s₁ s₃ where
  ok := h'.ok
  next := h.next.trans h'.next
  gone := fun a ha hnone => h'.gone a (Nat.lt_of_lt_of_le ha h.next) (h.gone a ha hnone)
  runner := h'.runner.trans h.runner

instance : Std.Refl (PoolStep ps) := ⟨fun _ hok _ => ⟨hok, le_rfl, fun _ _ h => h, rfl⟩⟩

instance : IsTrans Fs (PoolStep ps) := ⟨fun _ _ _ h h' hok hspare =>
  (h hok hspare).trans (h' (h hok hspare).ok (hspare.mono (h hok hspare)))⟩

/-- An edit that leaves the heap alone, and which inodes and handles there are. -/
theorem PoolStep.of_eq (hheap : s'.heap = s.heap) (hopen : s'.openInodes = s.openInodes)
    (hinodes : ∀ a, s'.inodes a = none ↔ s.inodes a = none)
    (hdirs : ∀ d, s.dirs d = none → s'.dirs d = none) (hrunner : s'.runner = s.runner) :
    PoolStep ps s s' := by
  intro hok _
  refine ⟨⟨fun a ha => ?_, fun a ha => ?_, fun a u hu => ?_, fun d hd => ?_⟩, ?_, fun a _ => (hinodes a).mpr,
    hrunner⟩
  · rw [hheap]
    exact hok.pool a fun hnone => ha ((hinodes a).mpr hnone)
  · rw [hopen] at ha
    exact fun hnone => hok.listed a ha ((hinodes a).mp hnone)
  · rw [hheap] at hu ⊢
    exact hok.live_lt a u hu
  · rw [hheap, hinodes d]
    exact hok.dirs d fun hnone => hd (hdirs d hnone)
  · rw [hheap]

theorem update_none_iff {f : Nat → Option α} {b : Nat} {v w : α} (hv : f b = some v) (a : Nat) :
    Function.update f b (some w) a = none ↔ f a = none := by
  by_cases ha : a = b
  · rw [ha, Function.update_self, hv]
    simp
  · rw [Function.update_of_ne ha]

/-- The heap moves on, and what it hands out belongs to `user`. -/
theorem PoolStep.heap {live : List (Nat × Bool)}
    (hlive : live = s.heap.live ∨ ∃ u, live = (s.heap.next, u) :: s.heap.live) :
    PoolStep ps s { s with heap := { s.heap with next := s.heap.next + 1, live := live } } := by
  intro hok _
  have hmem (b : Nat) (u : Bool) (hb : b ≠ s.heap.next) : (b, u) ∈ live ↔ (b, u) ∈ s.heap.live := by
    rcases hlive with rfl | ⟨w, rfl⟩
    · rfl
    · simp [hb]
  have hlt (b : Nat) (u : Bool) (h : (b, u) ∈ live) : b < s.heap.next + 1 := by
    by_cases hb : b = s.heap.next
    · omega
    · have := hok.live_lt b u ((hmem b u hb).mp h)
      omega
  refine ⟨⟨fun a ha => ?_, hok.listed, hlt, fun d hd => ?_⟩, Nat.le_succ _, fun _ _ h => h, rfl⟩
  · have hne : a ≠ s.heap.next := Nat.ne_of_lt (hok.inode_lt ha)
    show (a, false) ∈ live ∧ (a, true) ∉ live
    rw [hmem a false hne, hmem a true hne]
    exact hok.pool a ha
  · exact ⟨Nat.lt_succ_of_lt (hok.dirs d hd).1, (hok.dirs d hd).2⟩

instance : Quiet (PoolStep ps) where
  disk _ _ := .of_eq rfl rfl (fun _ => Iff.rfl) (fun _ h => h) rfl
  inodeMap _ _ := .of_eq rfl rfl (fun _ => Iff.rfl) (fun _ h => h) rfl
  blockBitmap _ _ := .of_eq rfl rfl (fun _ => Iff.rfl) (fun _ h => h) rfl
  sector _ _ _ _ _ hv := .of_eq rfl rfl (update_none_iff hv) (fun _ h => h) rfl
  size _ _ _ _ hv := .of_eq rfl rfl (update_none_iff hv) (fun _ h => h) rfl
  refused _ := .heap (Or.inl rfl)
  served _ u := .heap (Or.inr ⟨u, rfl⟩)

/-! ## Buffers -/

/-- The block at `p` is freed, which holds no inode. -/
theorem PoolStep.free {p : Nat} (hp : s.inodes p = none) :
    PoolStep ps s { s with heap := { s.heap with live := s.heap.live.filter fun b => some b.1 ≠ some p } } := by
  intro hok _
  refine ⟨⟨fun a ha => ?_, hok.listed, fun a u hu => ?_, hok.dirs⟩, le_rfl, fun _ _ h => h, rfl⟩
  · have hne : a ≠ p := by
      rintro rfl
      exact ha hp
    obtain ⟨hin, hout⟩ := hok.pool a ha
    refine ⟨List.mem_filter.mpr ⟨hin, by simpa using hne⟩, fun hmem => hout (List.mem_filter.mp hmem).1⟩
  · exact hok.live_lt a u (List.mem_filter.mp hu).1

/-- A buffer of the call is freed. -/
theorem keeps_sysFree_buffer {ptr : Option Nat} (hptr : ptr ∈ ps) : Keeps (PoolStep ps) (sysFree ptr) := by
  intro s u s' h hok hspare
  simp only [sysFree, returns_bind, returns_assert, returns_update] at h
  obtain ⟨-, _, ⟨hne, rfl⟩, rfl⟩ := h
  obtain ⟨p, rfl⟩ := Option.ne_none_iff_exists'.mp hne
  exact PoolStep.free (hspare p hptr).2 hok hspare

/-- What `sys_malloc` hands out is a buffer of the call from then on. -/
theorem keeps_withBuffer {f : Option Nat → FsM α} (hf : ∀ buf, Keeps (PoolStep (buf :: ps)) (f buf)) :
    Keeps (PoolStep ps) (sysMalloc >>= f) := by
  intro s r s' h hok hspare
  obtain ⟨buf, t, hmalloc, h⟩ := returns_bind.mp h
  obtain ⟨-, hnext, haddr⟩ := returns_sysMalloc hmalloc
  have hkept := keeps_sysMalloc (R := PoolStep ps) hmalloc hok hspare
  have hinodes : t.inodes = s.inodes := by rw [(returns_sysMalloc hmalloc).1]
  have hspare₁ : t.Spare (buf :: ps) := by
    intro p hp
    rcases List.mem_cons.mp hp with heq | hp
    · have hpnext := haddr p heq.symm
      refine ⟨by omega, ?_⟩
      by_contra hsome
      rw [hinodes] at hsome
      have := hok.inode_lt hsome
      omega
    · exact hspare.mono hkept p hp
  exact hkept.trans (hf buf h hkept.ok hspare₁)

/-! ## Inodes -/

theorem keeps_putInode_pool {v : Inode} (hv : s.inodes a = some v) {w : Inode} {u : Unit}
    (h : Returns (putInode a w) s u s') : PoolStep ps s s' := by
  obtain rfl := returns_putInode.mp h
  exact .of_eq rfl rfl (update_none_iff hv) (fun _ h => h) rfl

theorem keeps_inodeClose_pool : Keeps (PoolStep ps) (inodeClose a) := by
  intro s u s' h
  simp only [inodeClose, returns_bind, returns_getInode] at h
  obtain ⟨v, _, ⟨hv, rfl⟩, _, s₁, hput, h⟩ := h
  have hstep : PoolStep ps s s₁ := keeps_putInode_pool hv hput
  generalize (if v.iOpenCnt = 0 then 2 ^ 32 - 1 else v.iOpenCnt - 1) = cnt at hput h
  split at h
  · simp only [returns_bind, returns_update, sysFree, returns_assert] at h
    obtain ⟨_, _, rfl, -, _, ⟨-, rfl⟩, rfl⟩ := h
    refine trans_of (PoolStep ps) hstep fun hok hspare => ?_
    -- the inode leaves the list, then its block is freed
    have hdrop : PoolStep ps s₁ { s₁ with openInodes := s₁.openInodes.filter (· ≠ a)
                                          inodes := Function.update s₁.inodes a none } := by
      intro hok _
      have hback (b : Nat) (hb : Function.update s₁.inodes a none b ≠ none) :
          b ≠ a ∧ s₁.inodes b ≠ none := by
        by_cases hba : b = a
        · rw [hba, Function.update_self] at hb
          exact absurd rfl hb
        · rw [Function.update_of_ne hba] at hb
          exact ⟨hba, hb⟩
      have hkeep (b : Nat) (hb : s₁.inodes b = none) : Function.update s₁.inodes a none b = none := by
        by_contra hne
        exact (hback b hne).2 hb
      refine ⟨⟨fun b hb => hok.pool b (hback b hb).2, fun b hb => ?_, hok.live_lt, fun d hd => ?_⟩, le_rfl,
        fun b _ hb => hkeep b hb, rfl⟩
      · obtain ⟨hmem, hne⟩ := List.mem_filter.mp hb
        have hne' : b ≠ a := by simpa using hne
        show Function.update s₁.inodes a none b ≠ none
        rw [Function.update_of_ne hne']
        exact hok.listed b hmem
      · exact ⟨(hok.dirs d hd).1, hkeep d (hok.dirs d hd).2⟩
    have hfree : PoolStep ps _ _ := PoolStep.free
      (s := { s₁ with openInodes := s₁.openInodes.filter (· ≠ a)
                      inodes := Function.update s₁.inodes a none }) (p := a) (Function.update_self ..)
    exact trans_of (PoolStep ps) hdrop hfree hok hspare
  · obtain ⟨-, rfl⟩ := returns_pure.mp h
    exact hstep

/-- A live block of the kernel without an inode or a handle. -/
structure Fs.KernelBlock (s : Fs) (b : Nat) : Prop where
  pool : (b, false) ∈ s.heap.live ∧ (b, true) ∉ s.heap.live
  empty : s.inodes b = none
  no_dir : s.dirs b = none

/-- An inode is put into a block of the kernel. -/
theorem Fs.PoolOk.setInode {b : Nat} {v : Inode} (h : s.PoolOk) (hb : s.KernelBlock b) :
    (s.setInode b v).PoolOk where
  pool := by
    intro a ha
    by_cases hab : a = b
    · rw [hab]
      exact hb.pool
    · have ha' : Function.update s.inodes b (some v) a ≠ none := ha
      rw [Function.update_of_ne hab] at ha'
      exact h.pool a ha'
  listed := by
    intro a ha
    show Function.update s.inodes b (some v) a ≠ none
    by_cases hab : a = b
    · rw [hab, Function.update_self]
      simp
    · rw [Function.update_of_ne hab]
      exact h.listed a ha
  live_lt := h.live_lt
  dirs := by
    intro d hd
    have hdb : d ≠ b := by
      rintro rfl
      exact hd hb.no_dir
    refine ⟨(h.dirs d hd).1, ?_⟩
    show Function.update s.inodes b (some v) d = none
    rw [Function.update_of_ne hdb]
    exact (h.dirs d hd).2

/-- An inode in memory is entered in the list. -/
theorem PoolStep.list (ha : s.inodes a ≠ none) :
    PoolStep ps s { s with openInodes := a :: s.openInodes } := by
  intro hok _
  refine ⟨⟨hok.pool, fun b hb => ?_, hok.live_lt, hok.dirs⟩, le_rfl, fun _ _ h => h, rfl⟩
  rcases List.mem_cons.mp hb with rfl | hb
  · exact ha
  · exact hok.listed b hb

/-- What the pool of the kernel hands out. -/
theorem kernelBlock_of_mallocFrom {b : Nat} (hok : s.PoolOk) (h : Returns (mallocFrom false) s (some b) s') :
    s'.KernelBlock b ∧ b = s.heap.next := by
  simp only [mallocFrom, returns_bind, returns_query] at h
  obtain ⟨_, _, ⟨rfl, rfl⟩, h⟩ := h
  split at h
  · simp only [returns_bind, returns_update, returns_pure] at h
    obtain ⟨_, _, -, hnone, -⟩ := h
    cases hnone
  · simp only [returns_bind, returns_update, returns_pure] at h
    obtain ⟨_, _, rfl, hb, rfl⟩ := h
    obtain rfl := Option.some.inj hb
    have hnew (u : Bool) : (s.heap.next, u) ∉ s.heap.live := fun hmem =>
      absurd (hok.live_lt _ u hmem) (Nat.lt_irrefl _)
    refine ⟨⟨⟨by simp, by simpa using hnew true⟩, ?_, ?_⟩, rfl⟩
    · by_contra hsome
      exact absurd (hok.inode_lt hsome) (Nat.lt_irrefl _)
    · by_contra hsome
      exact absurd (hok.dirs _ hsome).1 (Nat.lt_irrefl _)

/-- It stays one when more is asked for. -/
theorem Fs.KernelBlock.malloc {b : Nat} {r : Option Nat} (hb : s.KernelBlock b) (hlt : b < s.heap.next)
    (h : Returns sysMalloc s r s') : s'.KernelBlock b := by
  have hs' := (returns_sysMalloc h).1
  simp only [sysMalloc, mallocFrom, returns_bind, returns_runningThread, returns_query] at h
  obtain ⟨_, _, ⟨-, rfl⟩, _, _, ⟨rfl, rfl⟩, h⟩ := h
  split at h
  · simp only [returns_bind, returns_update, returns_pure] at h
    obtain ⟨_, _, rfl, -, rfl⟩ := h
    exact ⟨hb.pool, hb.empty, hb.no_dir⟩
  · simp only [returns_bind, returns_update, returns_pure] at h
    obtain ⟨_, _, rfl, -, rfl⟩ := h
    have hne : b ≠ s.heap.next := Nat.ne_of_lt hlt
    exact ⟨by simpa [hne] using hb.pool, hb.empty, hb.no_dir⟩

theorem keeps_inodeOpen_pool {n : Nat} : Keeps (PoolStep ps) (inodeOpen n) := by
  intro s r s' h
  simp only [inodeOpen, returns_bind, returns_query] at h
  obtain ⟨_, _, ⟨rfl, rfl⟩, found, _, hfind, h⟩ := h
  obtain rfl := (returns_findOpenInode hfind).1
  cases found with
  | some b =>
    simp only [returns_bind, returns_getInode, returns_pure] at h
    obtain ⟨v, _, ⟨hv, rfl⟩, _, s₁, hput, -, rfl⟩ := h
    exact keeps_putInode_pool hv hput
  | none =>
    simp only [returns_bind, returns_locateInode, returns_fits] at h
    obtain ⟨_, _, ⟨hn, rfl, rfl⟩, inodeFound, t₁, hmalloc, inodeBuf, t₂, hmalloc', -, _, ⟨-, rfl⟩, v, _, hread,
      h⟩ := h
    intro hok hspare
    have hkept₁ := keeps_mallocFrom (R := PoolStep ps) hmalloc hok hspare
    have hkept₂ := keeps_sysMalloc (R := PoolStep ps) hmalloc' hkept₁.ok (hspare.mono hkept₁)
    have hpos : s.inodePos n = t₂.inodePos n := by
      rw [(returns_sysMalloc hmalloc').1, (returns_mallocFrom hmalloc).1]
      rfl
    rw [hpos, returns_readSlot] at hread
    obtain ⟨-, -, rfl⟩ := hread
    cases inodeFound with
    | none => exact absurd h (returns_stop _)
    | some b =>
      simp only [returns_bind, returns_putInode, returns_update, returns_pure] at h
      obtain ⟨-, _, rfl, -, _, rfl, _, _, hfree, rfl, rfl⟩ := h
      obtain ⟨hblock, rfl⟩ := kernelBlock_of_mallocFrom hok hmalloc
      have hnext₁ := (returns_mallocFrom hmalloc).2.1
      have hblock₂ := hblock.malloc (by omega) hmalloc'
      have hput := hkept₂.ok.setInode (v := { v with iOpenCnt := 1 }) hblock₂
      -- the buffer is another block
      have hspare₂ : (t₂.setInode s.heap.next { v with iOpenCnt := 1 }).Spare [inodeBuf] := by
        intro p hp
        obtain rfl := List.mem_singleton.mp hp
        have hp := (returns_sysMalloc hmalloc').2.2 p rfl
        have hnext₂ := (returns_sysMalloc hmalloc').2.1
        refine ⟨show p < t₂.heap.next by omega, ?_⟩
        have hne : p ≠ s.heap.next := by omega
        show Function.update t₂.inodes s.heap.next _ p = none
        rw [Function.update_of_ne hne]
        by_contra hsome
        have := hkept₁.ok.inode_lt (a := p) (by rwa [(returns_sysMalloc hmalloc').1] at hsome)
        omega
      have hlisted : (t₂.setInode s.heap.next { v with iOpenCnt := 1 }).inodes s.heap.next ≠ none := by
        rw [Fs.setInode_self]
        simp
      have hkept₃ := PoolStep.list hlisted hput hspare₂
      have hkept₄ := keeps_sysFree_buffer (List.mem_singleton_self _) hfree hkept₃.ok hspare₂
      have hkept := hkept₁.trans hkept₂
      refine ⟨hkept₄.ok, hkept.next.trans hkept₄.next, fun a ha hnone => ?_, hkept₄.runner.trans hkept.runner⟩
      apply hkept₄.gone a (Nat.lt_of_lt_of_le ha hkept.next)
      show Function.update t₂.inodes s.heap.next _ a = none
      rw [Function.update_of_ne (Nat.ne_of_lt ha)]
      exact hkept.gone a ha hnone

/-! ## Directories -/

theorem keeps_searchDirEntry_pool {name : CStr} : Keeps (PoolStep ps) (searchDirEntry d name) := by
  refine keeps_withBuffer fun allBlocksMem => ?_
  split
  · exact keeps_pure _
  · refine keeps_dirInode.bind fun _ => keeps_getInode.bind fun _ => keeps_readAllBlocks.bind fun _ => ?_
    refine keeps_withBuffer fun buf => (keeps_query _).bind fun _ => (keeps_searchBlocks _ _).bind fun _ => ?_
    exact (keeps_sysFree_buffer List.mem_cons_self).bind fun _ =>
      (keeps_sysFree_buffer (List.mem_cons_of_mem _ List.mem_cons_self)).bind fun _ => keeps_pure _

/-- A handle is put into a buffer of the call. -/
theorem PoolStep.setDir {p : Nat} {dir : Dir} (hp : some p ∈ ps) : PoolStep ps s (s.setDir p (some dir)) := by
  intro hok hspare
  refine ⟨⟨hok.pool, hok.listed, hok.live_lt, fun e he => ?_⟩, le_rfl, fun _ _ h => h, rfl⟩
  by_cases heq : e = p
  · rw [heq]
    exact hspare p hp
  · rw [Fs.setDir_of_ne heq] at he
    exact hok.dirs e he

theorem keeps_dirOpen_pool {n : Nat} : Keeps (PoolStep ps) (dirOpen n) := by
  refine keeps_withBuffer fun dir => keeps_inodeOpen_pool.bind fun a => ?_
  cases dir with
  | none =>
    -- the null pointer is written through
    intro s r s' h
    simp only [returns_bind, returns_deref] at h
    obtain ⟨_, _, ⟨hnone, -⟩, -⟩ := h
    cases hnone
  | some p =>
    have hput (q : Nat) (hq : q = p) : Keeps (PoolStep (some p :: ps)) (update fun s : Fs =>
        { s with dirs := Function.update s.dirs q (some { inode := a, dirPose := 0 }) }) := by
      rw [hq]
      exact keeps_update fun s => PoolStep.setDir (s := s) List.mem_cons_self
    intro s r s' h
    simp only [returns_bind, returns_deref, returns_pure] at h
    obtain ⟨q, _, ⟨hq, rfl⟩, _, t, hupdate, -, rfl⟩ := h
    exact hput q (Option.some.inj hq).symm hupdate

theorem keeps_dirClose_pool : Keeps (PoolStep ps) (dirClose d) := by
  cases d with
  | root => exact keeps_pure _
  | heap d =>
    intro s u s' h hok hspare
    obtain ⟨dir, t, hdir, h⟩ := returns_bind.mp h
    simp only [getDir, returns_bind, returns_query, returns_deref] at hdir
    obtain ⟨_, _, ⟨rfl, rfl⟩, hdir, rfl⟩ := hdir
    -- the block of the handle may be freed in the end
    have hspare' : s.Spare (some d :: ps) := by
      intro p hp
      rcases List.mem_cons.mp hp with heq | hp
      · rw [Option.some.inj heq]
        exact hok.dirs d (by rw [hdir]; simp)
      · exact hspare p hp
    have hrest : Keeps (PoolStep (some d :: ps)) (do
        inodeClose dir.inode
        update fun s => { s with dirs := Function.update s.dirs d none }
        sysFree (some d)) := by
      refine keeps_inodeClose_pool.bind fun _ => (keeps_update fun s => ?_).bind fun _ =>
        keeps_sysFree_buffer List.mem_cons_self
      refine .of_eq rfl rfl (fun _ => Iff.rfl) (fun e he => ?_) rfl
      by_cases heq : e = d
      · rw [heq]
        exact Function.update_self ..
      · show Function.update s.dirs d none e = none
        rw [Function.update_of_ne heq]
        exact he
    exact hrest h hok hspare'

theorem keeps_inodeRelease_pool {n : Nat} : Keeps (PoolStep ps) (inodeRelease n) := by
  have hlast (a : Nat) (f : Nat → Nat) : Keeps (PoolStep ps) (do
      releaseBlocks f 139 0
      inodeMapSet n false
      bitmapSync n .inodeBitmap
      let ioBuf ← sysMalloc
      fits (ioBuf ≠ none)
      inodeDelete n 1024
      sysFree ioBuf
      inodeClose a : FsM Unit) := by
    refine (keeps_releaseBlocks _ _).bind fun _ => keeps_inodeMapSet.bind fun _ =>
      keeps_bitmapSync.bind fun _ => keeps_withBuffer fun ioBuf => ?_
    exact (keeps_fits _).bind fun _ => keeps_inodeDelete.bind fun _ =>
      (keeps_sysFree_buffer List.mem_cons_self).bind fun _ => keeps_inodeClose_pool
  refine keeps_inodeOpen_pool.bind fun a => keeps_getInode.bind fun v => (keeps_assert _).bind fun _ => ?_
  split
  · exact keeps_ideRead.bind fun _ => keeps_releaseBlock.bind fun _ => (keeps_pure _).bind fun _ => hlast a _
  · exact (keeps_pure _).bind fun _ => hlast a _

/-! ## Paths -/

theorem keeps_searchLoop_pool (fuel : Nat) (st : SearchState) : Keeps (PoolStep ps) (searchLoop fuel st) := by
  induction fuel generalizing st with
  | zero => exact keeps_stop _
  | succ fuel ih =>
    simp only [searchLoop]
    split
    · exact keeps_dirClose_pool.bind fun _ => keeps_dirOpen_pool.bind fun _ => (keeps_deref _).bind fun _ =>
        keeps_pure _
    · refine (keeps_assert _).bind fun _ => keeps_searchDirEntry_pool.bind fun found => ?_
      cases found with
      | none => exact keeps_pure _
      | some e =>
        refine (keeps_pathNext.mono fun s t h => h ▸ refl_of (PoolStep ps) s).bind fun next => ?_
        split
        · exact keeps_dirInode.bind fun _ => keeps_getInode.bind fun _ => keeps_dirClose_pool.bind fun _ =>
            keeps_dirOpen_pool.bind fun _ => ih _
        · split
          · exact keeps_pure _
          · exact ih _

theorem keeps_searchFile_pool {path : CStr} : Keeps (PoolStep ps) (searchFile path) := by
  simp only [searchFile]
  split
  · exact keeps_pure _
  · exact (keeps_assert _).bind fun _ =>
      (keeps_pathParse.mono fun s t h => h ▸ refl_of (PoolStep ps) s).bind fun _ => keeps_searchLoop_pool _ _

/-! ## Files -/

/-- Anything but inodes, handles and the heap is written. -/
theorem keeps_update_pool {f : Fs → Fs}
    (hf : ∀ s, (f s).heap = s.heap ∧ (f s).openInodes = s.openInodes ∧ (f s).inodes = s.inodes ∧
      (f s).dirs = s.dirs ∧ (f s).runner = s.runner) : Keeps (PoolStep ps) (update f) := by
  refine keeps_update fun s => ?_
  obtain ⟨hheap, hopen, hinodes, hdirs, hrunner⟩ := hf s
  exact .of_eq hheap hopen (fun a => by rw [hinodes]) (fun d hd => by rw [hdirs, hd]) hrunner

theorem keeps_putFile_pool {g : Nat} {f : File} : Keeps (PoolStep ps) (putFile g f) :=
  keeps_update_pool fun _ => ⟨rfl, rfl, rfl, rfl, rfl⟩

/-- The control block of the running thread is written, but not its page directory. -/
theorem keeps_editThread_pool {f : Task → Task} (hf : ∀ k, (f k).userSpace = k.userSpace) :
    Keeps (PoolStep ps) (do
      let k ← runningThread
      putThread (f k)) := by
  intro s u s' h
  simp only [returns_bind, returns_runningThread, returns_putThread] at h
  obtain ⟨k, _, ⟨hk, rfl⟩, rfl⟩ := h
  refine .of_eq rfl rfl (fun _ => Iff.rfl) (fun _ h => h) ?_
  show (Function.update s.tasks s.cur (some (f k)) s.cur).map Task.userSpace = _
  rw [Function.update_self, Fs.runner, hk, Option.map_some, Option.map_some, hf k]

theorem keeps_pcbFdInstall_pool {g : Nat} : Keeps (PoolStep ps) (pcbFdInstall g) := by
  intro s r s' h
  obtain ⟨k, hk, ⟨-, -, rfl⟩ | ⟨fd, -, -, rfl⟩⟩ := pcbFdInstall_cases h
  · exact refl_of (PoolStep ps) s
  · have hput : Returns (putThread { k with fdtable := Function.update k.fdtable fd g }) s ()
        (s.setTask s.cur { k with fdtable := Function.update k.fdtable fd g }) :=
      returns_putThread.mpr rfl
    exact keeps_editThread_pool (f := fun k => { k with fdtable := Function.update k.fdtable fd g })
      (fun _ => rfl) (returns_bind.mpr ⟨k, s, returns_runningThread.mpr ⟨hk, rfl⟩, hput⟩)

theorem keeps_getFreeSlot_pool : Keeps (PoolStep ps) getFreeSlotInGlobal :=
  (keeps_query _).bind fun _ => keeps_pure _

/-- A field of an inode that is in memory is written. -/
theorem keeps_editInode_pool {f : Inode → Inode} : Keeps (PoolStep ps) (do
    let v ← getInode a
    putInode a (f v)) := by
  intro s u s' h
  simp only [returns_bind, returns_getInode] at h
  obtain ⟨v, _, ⟨hv, rfl⟩, hput⟩ := h
  exact keeps_putInode_pool hv hput

theorem keeps_fileOpen_pool {n flags : Nat} : Keeps (PoolStep ps) (fileOpen n flags) := by
  refine keeps_getFreeSlot_pool.bind fun slot => ?_
  cases slot with
  | none => exact keeps_pure _
  | some g =>
    refine keeps_inodeOpen_pool.bind fun a => keeps_putFile_pool.bind fun _ => ?_
    split
    · intro s r s' h
      simp only [returns_bind, returns_getInode] at h
      obtain ⟨v, _, ⟨hv, rfl⟩, h⟩ := h
      split at h
      · obtain ⟨-, rfl⟩ := returns_pure.mp h
        exact refl_of (PoolStep ps) s
      · obtain ⟨_, t, hput, h⟩ := returns_bind.mp h
        exact trans_of (PoolStep ps) (keeps_putInode_pool hv hput) (keeps_pcbFdInstall_pool h)
    · exact keeps_pcbFdInstall_pool

theorem keeps_fileClose_pool {g : Nat} : Keeps (PoolStep ps) (fileClose g) := by
  refine (keeps_query _).bind fun s => (keeps_deref _).bind fun a => ?_
  have hrest : Keeps (PoolStep ps) (do
      inodeClose a
      let s ← query id
      putFile g { s.fileTable g with fdInode := none }
      return (0 : Int) : FsM Int) :=
    keeps_inodeClose_pool.bind fun _ => (keeps_query _).bind fun _ => keeps_putFile_pool.bind fun _ =>
      keeps_pure _
  intro s r s' h
  simp only [returns_bind (x := getInode a), returns_getInode] at h
  obtain ⟨v, _, ⟨hv, rfl⟩, h⟩ := h
  obtain ⟨_, t, hput, h⟩ := returns_bind.mp h
  exact trans_of (PoolStep ps) (keeps_putInode_pool hv hput) (hrest h)

/-- What a kernel thread gets from `sys_malloc`. -/
theorem kernelBlock_of_sysMalloc {b : Nat} (hok : s.PoolOk) (hkernel : s.runner ≠ some true)
    (h : Returns sysMalloc s (some b) s') : s'.KernelBlock b ∧ b = s.heap.next := by
  simp only [sysMalloc, returns_bind, returns_runningThread] at h
  obtain ⟨k, _, ⟨hk, rfl⟩, h⟩ := h
  have hfalse : k.userSpace = false := by
    rw [Fs.runner, hk, Option.map_some, ne_eq, Option.some.injEq] at hkernel
    exact Bool.not_eq_true _ |>.mp hkernel
  rw [hfalse] at h
  exact kernelBlock_of_mallocFrom hok h

/-- What `PoolKept` says from `s` on also holds where a new inode comes first. -/
theorem PoolKept.fresh {b : Nat} {v : Inode} {s₁ s₂ : Fs} (h : PoolKept s s₁) (hb : s.heap.next ≤ b)
    (h' : PoolKept (s₁.setInode b v) s₂) : PoolKept s s₂ where
  ok := h'.ok
  next := h.next.trans h'.next
  gone := by
    intro a ha hnone
    apply h'.gone a (Nat.lt_of_lt_of_le ha h.next)
    rw [Fs.setInode_of_ne (by omega)]
    exact h.gone a ha hnone
  runner := h'.runner.trans h.runner

/-- A kernel thread creates a file. -/
theorem fileCreate_pool {name : CStr} {flag : Nat} {r : Int} (hkernel : s.runner ≠ some true)
    (h : Returns (fileCreate d name flag) s r s') : PoolStep ps s s' := by
  intro hok hspare
  -- the buffer and the number of the new inode
  simp only [fileCreate, returns_bind] at h
  obtain ⟨ioBuf, t₁, hmalloc, h⟩ := h
  have hkept₁ := keeps_sysMalloc (R := PoolStep ps) hmalloc hok hspare
  split at h
  · obtain ⟨-, rfl⟩ := returns_pure.mp h
    exact hkept₁
  have hbuf : t₁.Spare [ioBuf] := by
    intro p hp
    have hpnext := (returns_sysMalloc hmalloc).2.2 p (List.mem_singleton.mp hp).symm
    refine ⟨by have := (returns_sysMalloc hmalloc).2.1; omega, ?_⟩
    by_contra hsome
    rw [(returns_sysMalloc hmalloc).1] at hsome
    have := hok.inode_lt hsome
    omega
  simp only [returns_bind] at h
  obtain ⟨inodeNo, t₂, halloc, h⟩ := h
  have hkept₂ := keeps_inodeBitmapAlloc (R := PoolStep [ioBuf]) halloc hkept₁.ok hbuf
  obtain ⟨n, rfl, -, -⟩ := returns_inodeBitmapAlloc.mp halloc
  simp only [returns_bind] at h
  obtain ⟨newFileInode, t₃, hmalloc', h⟩ := h
  have hbuf₂ := hbuf.mono hkept₂
  have hkept₃ := keeps_sysMalloc (R := PoolStep [ioBuf]) hmalloc' hkept₂.ok hbuf₂
  have hbuf₃ := hbuf₂.mono hkept₃
  have hkept := (hkept₁.trans hkept₂).trans hkept₃
  cases newFileInode with
  | none =>
    have hrest : Keeps (PoolStep [ioBuf]) (do
        inodeMapSet n false
        sysFree ioBuf
        return (-1 : Int) : FsM Int) :=
      keeps_inodeMapSet.bind fun _ => (keeps_sysFree_buffer List.mem_cons_self).bind fun _ => keeps_pure _
    exact hkept.trans (hrest h hkept₃.ok hbuf₃)
  | some a =>
    have hrunner : t₂.runner ≠ some true := by rwa [hkept₂.runner, hkept₁.runner]
    obtain ⟨hblock, ha⟩ := kernelBlock_of_sysMalloc hkept₂.ok hrunner hmalloc'
    have hle : s.heap.next ≤ a := by rw [ha]; exact hkept₁.next.trans hkept₂.next
    have hput := hkept₃.ok.setInode (v := inodeInit n) hblock
    have hbuf₄ : (t₃.setInode a (inodeInit n)).Spare [ioBuf] := by
      intro p hp
      obtain ⟨hlt, hnone⟩ := hbuf₃ p hp
      have hlt₂ := (hbuf₂ p hp).1
      refine ⟨hlt, ?_⟩
      rw [Fs.setInode_of_ne (by omega)]
      exact hnone
    simp only [returns_bind, returns_putInode, getFreeSlotInGlobal, returns_query, returns_pure] at h
    obtain ⟨_, _, rfl, slot, _, ⟨_, _, ⟨rfl, rfl⟩, hslot, rfl⟩, h⟩ := h
    cases slot with
    | none =>
      -- the new inode is given back
      simp only [returns_bind, returns_update, Function.update_idem] at h
      obtain ⟨_, _, rfl, h⟩ := h
      have hback : Function.update t₃.inodes a none = t₃.inodes := by
        rw [← hblock.empty, Function.update_eq_self]
      rw [hback] at h
      have hrest : Keeps (PoolStep [some a, ioBuf]) (do
          sysFree (some a)
          inodeMapSet n false
          sysFree ioBuf
          return (-1 : Int) : FsM Int) :=
        (keeps_sysFree_buffer List.mem_cons_self).bind fun _ => keeps_inodeMapSet.bind fun _ =>
          (keeps_sysFree_buffer (List.mem_cons_of_mem _ List.mem_cons_self)).bind fun _ => keeps_pure _
      have hspare₃ : t₃.Spare [some a, ioBuf] := by
        intro p hp
        rcases List.mem_cons.mp hp with heq | hp
        · rw [Option.some.inj heq]
          exact ⟨hkept₃.ok.live_lt a false hblock.pool.1, hblock.empty⟩
        · exact hbuf₃ p hp
      simp only [← returns_bind] at h
      exact hkept.trans (hrest h hkept₃.ok hspare₃)
    | some g =>
      simp only [returns_bind (x := putFile _ _), returns_bind (x := createDirEntry _ _ _),
        returns_bind (x := syncDirEntry _ _)] at h
      obtain ⟨_, t₅, hfile, e, t₆, hentry, b, t₇, hinsert, h⟩ := h
      obtain rfl := syncDirEntry_true hinsert
      simp only [Bool.not_true, Bool.false_eq_true, if_false, returns_bind, returns_getInode,
        returns_putInode, returns_update] at h
      obtain ⟨q, t₈, hdir, w, _, ⟨-, rfl⟩, _, t₉, hsync, w', _, ⟨-, rfl⟩, _, t₁₀, hsync', _, t₁₁, hbits, _,
        _, rfl, v, _, ⟨hv, rfl⟩, _, _, rfl, _, t₁₂, hfree, hinstall⟩ := h
      have hv' : t₁₁.inodes a = some v := hv
      have hmid : PoolStep [ioBuf] (t₃.setInode a (inodeInit n)) t₁₁ :=
        trans_of (PoolStep [ioBuf]) (keeps_putFile_pool hfile) <|
          trans_of (PoolStep [ioBuf]) (keeps_createDirEntry hentry) <|
          trans_of (PoolStep [ioBuf]) (keeps_syncDirEntry hinsert) <|
          trans_of (PoolStep [ioBuf]) (keeps_dirInode hdir) <|
          trans_of (PoolStep [ioBuf]) (keeps_inodeSync hsync) <|
          trans_of (PoolStep [ioBuf]) (keeps_inodeSync hsync') (keeps_bitmapSync hbits)
      have hlist : PoolStep [ioBuf] t₁₁ { t₁₁ with openInodes := a :: t₁₁.openInodes } :=
        PoolStep.list (by rw [hv']; simp)
      have hcount : PoolStep [ioBuf] { t₁₁ with openInodes := a :: t₁₁.openInodes }
          (Fs.setInode { t₁₁ with openInodes := a :: t₁₁.openInodes } a { v with iOpenCnt := 1 }) :=
        .of_eq rfl rfl (update_none_iff hv') (fun _ h => h) rfl
      have hend : PoolStep [ioBuf] (t₃.setInode a (inodeInit n)) s' :=
        trans_of (PoolStep [ioBuf]) hmid <| trans_of (PoolStep [ioBuf]) hlist <|
          trans_of (PoolStep [ioBuf]) hcount <|
          trans_of (PoolStep [ioBuf]) (keeps_sysFree_buffer List.mem_cons_self hfree)
            (keeps_pcbFdInstall_pool hinstall)
      exact hkept.fresh hle (hend hput hbuf₄)

theorem keeps_pathDepthCnt_pool {path : CStr} : Keeps (PoolStep ps) (pathDepthCnt path) :=
  keeps_pathDepthCnt.mono fun s _ h => h ▸ refl_of (PoolStep ps) s

/-- `sys_open`, where a file is created by kernel threads only. -/
theorem sysOpen_pool {path : CStr} {flags : Nat} {r : Int}
    (hkernel : creating flags = true → s.runner ≠ some true) (h : Returns (sysOpen path flags) s r s') :
    PoolStep ps s s' := by
  intro hok hspare
  simp only [sysOpen, returns_bind (x := require _), returns_require] at h
  obtain ⟨_, _, ⟨-, rfl⟩, h⟩ := h
  split at h
  · obtain ⟨-, rfl⟩ := returns_pure.mp h
    exact refl_of (PoolStep ps) s hok hspare
  simp only [returns_bind (x := assert _), returns_bind (x := pathDepthCnt path),
    returns_bind (x := searchFile _), returns_assert] at h
  obtain ⟨_, _, ⟨-, rfl⟩, depth, _, hdepth, ⟨inodeNo, rec⟩, t, hsearch, h⟩ := h
  obtain rfl := keeps_pathDepthCnt hdepth
  have hkept := keeps_searchFile_pool hsearch hok hspare
  have hspare₁ := hspare.mono hkept
  -- giving up closes the directory
  have hclose : Keeps (PoolStep ps) (do
      dirClose rec.parentDir
      return (-1 : Int) : FsM Int) := keeps_dirClose_pool.bind fun _ => keeps_pure _
  split at h
  · exact hkept.trans (hclose h hkept.ok hspare₁)
  obtain ⟨depth', t', hdepth', h⟩ := returns_bind.mp h
  obtain rfl := keeps_pathDepthCnt hdepth'
  split at h
  · exact hkept.trans (hclose h hkept.ok hspare₁)
  cases inodeNo with
  | none =>
    simp only at h
    split at h
    · next hcreate =>
      simp only [returns_bind, returns_pure] at h
      obtain ⟨fd, t₁, hmake, _, t₂, hclosed, rfl, rfl⟩ := h
      have hrunner : t.runner ≠ some true := by
        rw [hkept.runner]
        exact hkernel hcreate
      have hkept₁ := fileCreate_pool hrunner hmake hkept.ok hspare₁
      exact (hkept.trans hkept₁).trans (keeps_dirClose_pool hclosed hkept₁.ok (hspare₁.mono hkept₁))
    · exact hkept.trans (hclose h hkept.ok hspare₁)
  | some n =>
    simp only at h
    split at h
    · exact hkept.trans (hclose h hkept.ok hspare₁)
    · exact hkept.trans (keeps_fileOpen_pool h hkept.ok hspare₁)

/-! ## Descriptors and pipes -/

theorem keeps_fdLocalToGlobal_pool {fd : Int} : Keeps (PoolStep ps) (fdLocalToGlobal fd) := by
  intro s g s' h
  obtain ⟨rfl, -⟩ := returns_fdLocalToGlobal h
  exact refl_of (PoolStep ps) s

theorem keeps_isPipe_pool {fd : Int} : Keeps (PoolStep ps) (isPipe fd) :=
  keeps_fdLocalToGlobal_pool.bind fun _ => (keeps_query _).bind fun _ => keeps_pure _

theorem keeps_setFd_pool {fd value : Int} : Keeps (PoolStep ps) (setFd fd value) := by
  intro s u s' h
  obtain ⟨k, t, hk, h⟩ := returns_bind.mp h
  split at h
  · next hfd =>
    exact keeps_editThread_pool (f := fun k => { k with
      fdtable := Function.update k.fdtable ⟨fd.toNat, by omega⟩ value }) (fun _ => rfl)
      (returns_bind.mpr ⟨k, t, hk, h⟩)
  · exact absurd h (returns_stop _)

theorem keeps_rings_pool {f : Fs → Nat → Option Ring} :
    Keeps (PoolStep ps) (update fun s => { s with rings := f s }) :=
  keeps_update_pool fun _ => ⟨rfl, rfl, rfl, rfl, rfl⟩

theorem keeps_pipeWriteLoop_pool {buf : Bytes} (n k : Nat) :
    Keeps (PoolStep ps) (pipeWriteLoop a buf n k) := by
  induction n generalizing k with
  | zero => exact keeps_pure _
  | succ n ih =>
    refine (keeps_query _).bind fun _ => (keeps_deref _).bind fun r => ?_
    split
    · exact (keeps_stop _).bind fun _ => keeps_rings_pool.bind fun _ => ih _
    · exact keeps_rings_pool.bind fun _ => ih _

theorem keeps_pipeWrite_pool {fd : Int} {buf : Bytes} {cnt : Nat} :
    Keeps (PoolStep ps) (pipeWrite fd buf cnt) :=
  keeps_fdLocalToGlobal_pool.bind fun _ => (keeps_query _).bind fun _ => (keeps_deref _).bind fun _ =>
    (keeps_deref _).bind fun _ => (keeps_pipeWriteLoop_pool _ _).bind fun _ => keeps_pure _

theorem keeps_pipeReadLoop_pool (n k : Nat) (dst : Bytes) :
    Keeps (PoolStep ps) (pipeReadLoop a n k dst) := by
  induction n generalizing k dst with
  | zero => exact keeps_pure _
  | succ n ih =>
    refine (keeps_query _).bind fun _ => (keeps_deref _).bind fun r => ?_
    split
    · exact (keeps_stop _).bind fun _ => keeps_rings_pool.bind fun _ => ih _ _
    · exact keeps_rings_pool.bind fun _ => ih _ _

theorem keeps_pipeRead_pool {fd : Int} {cnt : Nat} : Keeps (PoolStep ps) (pipeRead fd cnt) :=
  keeps_fdLocalToGlobal_pool.bind fun _ => (keeps_query _).bind fun _ => (keeps_deref _).bind fun _ =>
    (keeps_deref _).bind fun _ => (keeps_pipeReadLoop_pool _ _ _).bind fun _ => keeps_pure _

theorem keeps_sysClose_pool {fd : Int} : Keeps (PoolStep ps) (sysClose fd) := by
  simp only [sysClose]
  split
  · refine keeps_fdLocalToGlobal_pool.bind fun g => keeps_isPipe_pool.bind fun pipe => ?_
    have hlast (r : Int) : Keeps (PoolStep ps) (do
        setFd fd (-1)
        return r : FsM Int) := keeps_setFd_pool.bind fun _ => keeps_pure _
    cases pipe with
    | false => exact keeps_fileClose_pool.bind hlast
    | true =>
      refine (keeps_query _).bind fun s => keeps_putFile_pool.bind fun _ => ?_
      split
      · exact (keeps_assert _).bind fun _ => keeps_rings_pool.bind fun _ => keeps_putFile_pool.bind fun _ =>
          (keeps_pure _).bind hlast
      · exact (keeps_pure _).bind hlast
  · exact keeps_pure _

/-! ## Reading and writing -/

/-! ## Reading and writing -/

theorem keeps_fileWrite_pool {g : Nat} {buf : Bytes} {cnt : Nat} :
    Keeps (PoolStep ps) (fileWrite g buf cnt) := by
  simp only [fileWrite]
  refine (keeps_query _).bind fun s => (keeps_deref _).bind fun a => keeps_getInode.bind fun v => ?_
  split
  · exact keeps_pure _
  refine keeps_withBuffer fun ioBuf => ?_
  split
  · exact keeps_pure _
  refine keeps_withBuffer fun allBlocksMem => ?_
  split
  · exact keeps_pure _
  -- what follows the first block
  have hlast (ok : Bool) : Keeps (PoolStep (allBlocksMem :: ioBuf :: ps))
      (fileWriteRest g a v buf cnt ioBuf allBlocksMem ok) := by
    rw [fileWriteRest]
    split
    · exact keeps_pure _
    · refine (keeps_assert _).bind fun _ => keeps_fileCollectBlocks.bind fun blocks => ?_
      cases blocks with
      | none => exact keeps_pure _
      | some allBlocks =>
        refine (keeps_query _).bind fun _ => keeps_putFile_pool.bind fun _ =>
          (keeps_fileWriteLoop (fun _ _ => keeps_putFile_pool) _ _ _ _).bind fun _ =>
            keeps_getInode.bind fun _ => keeps_inodeSync.bind fun _ => ?_
        exact (keeps_sysFree_buffer List.mem_cons_self).bind fun _ =>
          (keeps_sysFree_buffer (List.mem_cons_of_mem _ List.mem_cons_self)).bind fun _ => keeps_pure _
  split
  · refine keeps_blockBitmapAlloc.bind fun r => ?_
    cases r with
    | none => exact (keeps_pure _).bind hlast
    | some blockLba =>
      exact keeps_setInodeSector.bind fun _ => keeps_bitmapSync.bind fun _ => (keeps_pure _).bind hlast
  · exact (keeps_pure _).bind hlast

theorem keeps_sysWrite_pool {fd : Int} {buf : Bytes} {cnt : Nat} :
    Keeps (PoolStep ps) (sysWrite fd buf cnt) := by
  simp only [sysWrite]
  split
  · exact keeps_pure _
  refine keeps_isPipe_pool.bind fun pipe => ?_
  split
  · split
    · exact keeps_pipeWrite_pool
    · exact (keeps_require _).bind fun _ => keeps_pure _
  · split
    · exact keeps_pipeWrite_pool
    · refine keeps_fdLocalToGlobal_pool.bind fun g => (keeps_query _).bind fun s => ?_
      split
      · exact keeps_fileWrite_pool
      · exact keeps_pure _

theorem keeps_fileReadBlocks_pool {v : Inode} {startIdx endIdx : Nat} :
    Keeps (PoolStep ps) (fileReadBlocks v startIdx endIdx) := by
  simp only [fileReadBlocks]
  split
  · split
    · exact keeps_pure _
    · exact keeps_ideRead.bind fun _ => keeps_pure _
  · split
    · exact keeps_pure _
    · split
      · exact (keeps_assert _).bind fun _ => keeps_ideRead.bind fun _ => keeps_pure _
      · exact (keeps_assert _).bind fun _ => keeps_ideRead.bind fun _ => keeps_pure _

theorem keeps_fileReadLoop_pool {g : Nat} {allBlocks : Nat → Nat} (fuel bytesRead sizeLeft : Nat) (dst : Bytes) :
    Keeps (PoolStep ps) (fileReadLoop g allBlocks fuel bytesRead sizeLeft dst) := by
  induction fuel generalizing bytesRead sizeLeft dst with
  | zero => exact keeps_pure _
  | succ fuel ih =>
    simp only [fileReadLoop]
    split
    · exact keeps_pure _
    · exact (keeps_query _).bind fun _ => (keeps_require _).bind fun _ => keeps_ideRead.bind fun _ =>
        keeps_putFile_pool.bind fun _ => ih _ _ _

theorem keeps_fileRead_pool {g cnt : Nat} : Keeps (PoolStep ps) (fileRead g cnt) := by
  simp only [fileRead]
  refine (keeps_query _).bind fun s => (keeps_deref _).bind fun a => keeps_getInode.bind fun v => ?_
  split
  · exact keeps_pure _
  refine keeps_withBuffer fun ioBuf => ?_
  split
  · exact keeps_pure _
  refine keeps_withBuffer fun allBlocksMem => ?_
  split
  · exact keeps_pure _
  refine (keeps_assert _).bind fun _ => keeps_fileReadBlocks_pool.bind fun _ =>
    (keeps_fileReadLoop_pool _ _ _ _).bind fun _ => ?_
  exact (keeps_sysFree_buffer List.mem_cons_self).bind fun _ =>
    (keeps_sysFree_buffer (List.mem_cons_of_mem _ List.mem_cons_self)).bind fun _ => keeps_pure _

theorem keeps_sysRead_pool {fd : Int} {cnt : Nat} {kbd : Bytes} :
    Keeps (PoolStep ps) (sysRead fd cnt kbd) := by
  simp only [sysRead]
  refine (keeps_assert _).bind fun _ => ?_
  split
  · exact keeps_pure _
  refine keeps_isPipe_pool.bind fun pipe => ?_
  split
  · exact keeps_pipeRead_pool
  · split
    · exact keeps_pure _
    · exact keeps_fdLocalToGlobal_pool.bind fun _ => keeps_fileRead_pool

theorem keeps_sysLseek_pool {fd offset : Int} {whence : Nat} :
    Keeps (PoolStep ps) (sysLseek fd offset whence) := by
  simp only [sysLseek]
  refine (keeps_assert _).bind fun _ => (keeps_assert _).bind fun _ => keeps_fdLocalToGlobal_pool.bind fun _ =>
    (keeps_query _).bind fun _ => (keeps_deref _).bind fun _ => ?_
  refine Keeps.bind ?_ fun _ => ?_
  · refine (keeps_query _).bind fun s => ?_
    split
    · exact keeps_pure _
    · exact keeps_getInode.bind fun _ => keeps_pure _
  · split
    · exact keeps_pure _
    · exact keeps_putFile_pool.bind fun _ => keeps_pure _

/-! ## Links and directories -/

theorem keeps_findOpenFile_pool {iNo : Nat} (n fd : Nat) : Keeps (PoolStep ps) (findOpenFile iNo n fd) := by
  induction n generalizing fd with
  | zero => exact keeps_pure _
  | succ n ih =>
    refine (keeps_query _).bind fun s => ?_
    split
    · exact ih _
    · split
      · exact ih _
      · refine keeps_getInode.bind fun v => ?_
        split
        · exact keeps_pure _
        · exact ih _

theorem keeps_sysUnlink_pool {path : CStr} : Keeps (PoolStep ps) (sysUnlink path) := by
  simp only [sysUnlink]
  refine (keeps_assert _).bind fun _ => keeps_searchFile_pool.bind fun r => ?_
  obtain ⟨iNo, rec⟩ := r
  refine (keeps_assert _).bind fun _ => ?_
  cases iNo with
  | none => exact keeps_dirClose_pool.bind fun _ => keeps_pure _
  | some n =>
    dsimp only
    split
    · exact keeps_dirClose_pool.bind fun _ => keeps_pure _
    refine (keeps_findOpenFile_pool _ _).bind fun fd => ?_
    split
    · exact keeps_dirClose_pool.bind fun _ => keeps_pure _
    refine keeps_withBuffer fun ioBuf => ?_
    split
    · exact keeps_dirClose_pool.bind fun _ => keeps_pure _
    · exact keeps_deleteDirEntry.bind fun _ => keeps_inodeRelease_pool.bind fun _ =>
        (keeps_sysFree_buffer List.mem_cons_self).bind fun _ => keeps_dirClose_pool.bind fun _ => keeps_pure _

theorem keeps_mkdirInstall_pool {rec : PathSearchRecord} {ioBuf : Option Nat} {iNo : Nat} (hbuf : ioBuf ∈ ps) :
    Keeps (PoolStep ps) (mkdirInstall rec ioBuf iNo) := by
  simp only [mkdirInstall]
  refine (keeps_query _).bind fun s => keeps_blockBitmapAlloc.bind fun r => ?_
  cases r with
  | none =>
    exact keeps_inodeMapSet.bind fun _ => keeps_dirClose_pool.bind fun _ =>
      (keeps_sysFree_buffer hbuf).bind fun _ => keeps_pure _
  | some blockLba =>
    refine (keeps_assert _).bind fun _ => keeps_bitmapSync.bind fun _ => keeps_dirInode.bind fun _ =>
      keeps_getInode.bind fun _ => keeps_ideWrite.bind fun _ => keeps_createDirEntry.bind fun _ => ?_
    exact keeps_syncDirEntry.bind fun _ => keeps_getInode.bind fun _ => keeps_inodeSync.bind fun _ =>
      keeps_inodeSync.bind fun _ => keeps_bitmapSync.bind fun _ => (keeps_sysFree_buffer hbuf).bind fun _ =>
        keeps_dirClose_pool.bind fun _ => keeps_pure _

theorem keeps_sysMkdir_pool {path : CStr} : Keeps (PoolStep ps) (sysMkdir path) := by
  simp only [sysMkdir]
  refine keeps_withBuffer fun ioBuf => ?_
  have hclose (rec : PathSearchRecord) : Keeps (PoolStep (ioBuf :: ps)) (do
      dirClose rec.parentDir
      sysFree ioBuf
      return (-1 : Int) : FsM Int) :=
    keeps_dirClose_pool.bind fun _ => (keeps_sysFree_buffer List.mem_cons_self).bind fun _ => keeps_pure _
  split
  · exact keeps_pure _
  refine keeps_searchFile_pool.bind fun r => ?_
  obtain ⟨iNo, rec⟩ := r
  dsimp only
  split
  · exact hclose rec
  refine keeps_pathDepthCnt_pool.bind fun _ => keeps_pathDepthCnt_pool.bind fun _ => ?_
  split
  · exact hclose rec
  refine keeps_inodeBitmapAlloc.bind fun n => ?_
  cases n with
  | none => exact hclose rec
  | some n => exact keeps_mkdirInstall_pool List.mem_cons_self

theorem keeps_dirIsEmpty_pool : Keeps (PoolStep ps) (dirIsEmpty d) :=
  keeps_dirInode.bind fun _ => keeps_getInode.bind fun _ => (keeps_query _).bind fun _ => keeps_pure _

theorem keeps_dirRemove_pool {childDir : DirPtr} : Keeps (PoolStep ps) (dirRemove d childDir) := by
  simp only [dirRemove]
  refine keeps_dirInode.bind fun _ => keeps_getInode.bind fun _ => (keeps_assert _).bind fun _ =>
    (keeps_query _).bind fun _ => (keeps_assert _).bind fun _ => keeps_withBuffer fun ioBuf => ?_
  split
  · exact keeps_pure _
  · exact keeps_deleteDirEntry.bind fun _ => keeps_getInode.bind fun _ => keeps_inodeRelease_pool.bind fun _ =>
      (keeps_sysFree_buffer List.mem_cons_self).bind fun _ => keeps_pure _

theorem keeps_sysRmdir_pool {path : CStr} : Keeps (PoolStep ps) (sysRmdir path) := by
  simp only [sysRmdir]
  refine keeps_searchFile_pool.bind fun r => ?_
  obtain ⟨iNo, rec⟩ := r
  refine (keeps_assert _).bind fun _ => ?_
  have hlast (ret : Int) : Keeps (PoolStep ps) (do
      dirClose rec.parentDir
      return ret : FsM Int) := keeps_dirClose_pool.bind fun _ => keeps_pure _
  cases iNo with
  | none => exact (keeps_pure _).bind hlast
  | some n =>
    dsimp only
    split
    · exact (keeps_pure _).bind hlast
    refine keeps_dirOpen_pool.bind fun dir => keeps_dirIsEmpty_pool.bind fun empty => ?_
    have hlast' (ret : Int) : Keeps (PoolStep ps) (do
        dirClose dir
        let ret ← pure ret
        dirClose rec.parentDir
        return ret : FsM Int) := keeps_dirClose_pool.bind fun _ => (keeps_pure _).bind hlast
    split
    · exact (keeps_pure _).bind hlast'
    · exact keeps_dirRemove_pool.bind fun _ => (keeps_pure _).bind hlast'

theorem keeps_sysOpendir_pool {path : CStr} : Keeps (PoolStep ps) (sysOpendir path) := by
  simp only [sysOpendir]
  refine (keeps_assert _).bind fun _ => ?_
  split
  · exact keeps_pure _
  refine keeps_searchFile_pool.bind fun r => ?_
  obtain ⟨iNo, rec⟩ := r
  have hlast (ret : Option DirPtr) : Keeps (PoolStep ps) (do
      dirClose rec.parentDir
      return ret : FsM (Option DirPtr)) := keeps_dirClose_pool.bind fun _ => keeps_pure _
  cases iNo with
  | none => exact (keeps_pure _).bind hlast
  | some n =>
    dsimp only
    split
    · exact (keeps_pure _).bind hlast
    · split
      · exact keeps_dirOpen_pool.bind fun _ => (keeps_pure _).bind hlast
      · exact (keeps_pure _).bind hlast

theorem keeps_sysChdir_pool {path : CStr} : Keeps (PoolStep ps) (sysChdir path) := by
  simp only [sysChdir]
  refine keeps_searchFile_pool.bind fun r => ?_
  obtain ⟨iNo, rec⟩ := r
  have hlast (ret : Int) : Keeps (PoolStep ps) (do
      dirClose rec.parentDir
      return ret : FsM Int) := keeps_dirClose_pool.bind fun _ => keeps_pure _
  cases iNo with
  | none => exact (keeps_pure _).bind hlast
  | some n =>
    dsimp only
    split
    · have hcwd : Keeps (PoolStep ps) (do
          let cur ← runningThread
          putThread { cur with cwdInodeNr := n }) :=
        keeps_editThread_pool (f := fun k => { k with cwdInodeNr := n }) fun _ => rfl
      intro s r s' h
      obtain ⟨k, t, hk, h⟩ := returns_bind.mp h
      obtain ⟨_, t', hput, h⟩ := returns_bind.mp h
      exact trans_of (PoolStep ps) (hcwd (returns_bind.mpr ⟨k, t, hk, hput⟩)) ((keeps_pure 0).bind hlast h)
    · exact (keeps_pure _).bind hlast

theorem keeps_sysStat_pool {path : CStr} : Keeps (PoolStep ps) (sysStat path) := by
  simp only [sysStat]
  split
  · exact keeps_dirInode.bind fun _ => keeps_getInode.bind fun _ => keeps_pure _
  refine keeps_searchFile_pool.bind fun r => ?_
  obtain ⟨iNo, rec⟩ := r
  have hlast (ret : Option Stat) : Keeps (PoolStep ps) (do
      dirClose rec.parentDir
      return ret : FsM (Option Stat)) := keeps_dirClose_pool.bind fun _ => keeps_pure _
  cases iNo with
  | none => exact (keeps_pure _).bind hlast
  | some n =>
    exact keeps_inodeOpen_pool.bind fun _ => keeps_getInode.bind fun _ => keeps_inodeClose_pool.bind fun _ =>
      (keeps_pure _).bind hlast

theorem keeps_sysClosedir_pool {dir : Option DirPtr} : Keeps (PoolStep ps) (sysClosedir dir) := by
  cases dir with
  | none => exact keeps_pure _
  | some d => exact keeps_dirClose_pool.bind fun _ => keeps_pure _

/-- The position of a handle moves. -/
theorem putDir_pool {h dir : Dir} {u : Unit} (hget : Returns (getDir d) s h s)
    (hput : Returns (putDir d dir) s u s') : PoolStep ps s s' := by
  cases d with
  | root =>
    obtain rfl := (returns_update _ _).mp hput
    exact .of_eq rfl rfl (fun _ => Iff.rfl) (fun _ h => h) rfl
  | heap p =>
    obtain rfl := (returns_update _ _).mp hput
    simp only [getDir, returns_bind, returns_query, returns_deref] at hget
    obtain ⟨_, _, ⟨rfl, rfl⟩, hp, -⟩ := hget
    exact .of_eq rfl rfl (fun _ => Iff.rfl) (fun e he => (update_none_iff hp e).mpr he) rfl

theorem getDir_same {h : Dir} (hget : Returns (getDir d) s h s') : s = s' := by
  cases d with
  | root => exact ((returns_query _).mp hget).2
  | heap p =>
    simp only [getDir, returns_bind, returns_query, returns_deref] at hget
    obtain ⟨_, _, ⟨-, rfl⟩, -, rfl⟩ := hget
    rfl

theorem dirReadLoop_pool {h : Dir} {iSize size : Nat} {allBlocks : Nat → Nat} {n blockIdx curPos : Nat}
    {r : Option DirEntry} (hget : Returns (getDir d) s h s)
    (hloop : Returns (dirReadLoop d h iSize allBlocks size n blockIdx curPos) s r s') : PoolStep ps s s' := by
  induction n generalizing blockIdx curPos with
  | zero =>
    obtain ⟨-, rfl⟩ := returns_pure.mp hloop
    exact refl_of (PoolStep ps) s
  | succ n ih =>
    simp only [dirReadLoop] at hloop
    split at hloop
    · obtain ⟨-, rfl⟩ := returns_pure.mp hloop
      exact refl_of (PoolStep ps) s
    split at hloop
    · exact ih hloop
    simp only [returns_bind (x := ideRead _ _ _), returns_ideRead_sector] at hloop
    obtain ⟨block, _, ⟨-, -, -, rfl⟩, hloop⟩ := hloop
    split at hloop
    · simp only [returns_bind, returns_assert, returns_pure] at hloop
      obtain ⟨_, _, ⟨-, rfl⟩, _, _, hput, -, rfl⟩ := hloop
      exact putDir_pool hget hput
    · exact ih hloop

theorem keeps_sysReaddir_pool {dir : Option DirPtr} : Keeps (PoolStep ps) (sysReaddir dir) := by
  refine (keeps_assert _).bind fun _ => (keeps_deref _).bind fun d => ?_
  intro s r s' h
  obtain ⟨hd, t, hget, h⟩ := returns_bind.mp h
  obtain rfl := getDir_same hget
  obtain ⟨v, t, hv, h⟩ := returns_bind.mp h
  obtain ⟨-, rfl⟩ := returns_getInode.mp hv
  obtain ⟨allBlocks, t, hblocks, h⟩ := returns_bind.mp h
  obtain ⟨-, -, rfl⟩ := returns_readAllBlocks.mp hblocks
  obtain ⟨_, _, ⟨rfl, rfl⟩, h⟩ := by simpa only [returns_bind, returns_query] using h
  exact dirReadLoop_pool hget h

theorem keeps_sysRewinddir_pool {dir : Option DirPtr} : Keeps (PoolStep ps) (sysRewinddir dir) := by
  refine (keeps_deref _).bind fun d => ?_
  intro s r s' h
  obtain ⟨hd, t, hget, h⟩ := returns_bind.mp h
  obtain rfl := getDir_same hget
  exact putDir_pool hget h

theorem keeps_getParentDirINo_pool {n : Nat} : Keeps (PoolStep ps) (getParentDirINo n) :=
  keeps_inodeOpen_pool.bind fun _ => keeps_getInode.bind fun _ => (keeps_query _).bind fun _ =>
    (keeps_assert _).bind fun _ => keeps_inodeClose_pool.bind fun _ => keeps_ideRead.bind fun _ =>
      (keeps_assert _).bind fun _ => keeps_pure _

theorem keeps_childNameBlocks_pool {allBlocks : Nat → Nat} {iNo perSec : Nat} (n blockIdx : Nat) :
    Keeps (PoolStep ps) (childNameBlocks allBlocks iNo perSec n blockIdx) := by
  induction n generalizing blockIdx with
  | zero => exact keeps_pure _
  | succ n ih =>
    simp only [childNameBlocks]
    split
    · exact ih _
    · refine keeps_ideRead.bind fun block => ?_
      split
      · exact keeps_pure _
      · exact ih _

theorem keeps_getChildDirName_pool {m n : Nat} {path : CStr} :
    Keeps (PoolStep ps) (getChildDirName m n path) := by
  refine keeps_inodeOpen_pool.bind fun _ => keeps_getInode.bind fun v => keeps_readAllBlocks.bind fun _ =>
    keeps_inodeClose_pool.bind fun _ => (keeps_query _).bind fun _ =>
      (keeps_childNameBlocks_pool _ _).bind fun name => ?_
  cases name with
  | none => exact keeps_pure _
  | some name => exact (keeps_require _).bind fun _ => keeps_pure _

theorem keeps_climbLoop_pool (fuel n : Nat) (path : CStr) : Keeps (PoolStep ps) (climbLoop fuel n path) := by
  induction fuel generalizing n path with
  | zero => exact keeps_stop _
  | succ fuel ih =>
    simp only [climbLoop]
    split
    · exact keeps_pure _
    · refine keeps_getParentDirINo_pool.bind fun _ => keeps_getChildDirName_pool.bind fun path => ?_
      cases path with
      | none => exact keeps_pure _
      | some path => exact ih _ _

theorem keeps_sysGetcwd_pool {size : Nat} : Keeps (PoolStep ps) (sysGetcwd size) := by
  simp only [sysGetcwd]
  refine keeps_withBuffer fun ioBuf => ?_
  split
  · exact keeps_pure _
  refine keeps_runningThread.bind fun k => (keeps_assert _).bind fun _ => ?_
  split
  · exact (keeps_sysFree_buffer List.mem_cons_self).bind fun _ => keeps_pure _
  refine (keeps_climbLoop_pool _ _ _).bind fun path => ?_
  cases path with
  | none => exact (keeps_sysFree_buffer List.mem_cons_self).bind fun _ => keeps_pure _
  | some path =>
    exact (keeps_assert _).bind fun _ => (keeps_sysFree_buffer List.mem_cons_self).bind fun _ => keeps_pure _

/-! ## Pipes and processes -/

theorem keeps_sysPipe_pool : Keeps (PoolStep ps) sysPipe := by
  have hpage : Keeps (PoolStep ps) getKernelPage :=
    (keeps_query _).bind fun _ => (keeps_update fun s => Calm.refused s).bind fun _ => keeps_pure _
  refine keeps_getFreeSlot_pool.bind fun _ => (keeps_deref _).bind fun _ => hpage.bind fun _ =>
    (keeps_deref _).bind fun _ => ?_
  exact keeps_rings_pool.bind fun _ => keeps_putFile_pool.bind fun _ => keeps_pcbFdInstall_pool.bind fun _ =>
    keeps_pcbFdInstall_pool.bind fun _ => keeps_pure _

theorem keeps_sysFdRedirect_pool {m n : Nat} : Keeps (PoolStep ps) (sysFdRedirect m n) := by
  simp only [sysFdRedirect]
  split
  · exact keeps_setFd_pool
  · refine keeps_runningThread.bind fun k => ?_
    split
    · exact keeps_setFd_pool
    · exact keeps_stop _

theorem keeps_updateInodeOpenCnts_pool {child : Nat} (fds : List (Fin 8)) :
    Keeps (PoolStep ps) (updateInodeOpenCnts child fds) := by
  induction fds with
  | nil => exact keeps_pure _
  | cons fd rest ih =>
    simp only [updateInodeOpenCnts]
    refine (keeps_query _).bind fun _ => (keeps_deref _).bind fun k => (keeps_assert _).bind fun _ => ?_
    split
    · refine keeps_isPipe_pool.bind fun pipe => (keeps_query _).bind fun f => ?_
      split
      · exact keeps_putFile_pool.bind fun _ => ih
      · refine (keeps_deref _).bind fun a => ?_
        intro s u s' h
        simp only [returns_bind, returns_getInode] at h
        obtain ⟨v, _, ⟨hv, rfl⟩, _, t, hput, h⟩ := h
        exact trans_of (PoolStep ps) (keeps_putInode_pool hv hput) (ih h)
    · exact ih

theorem keeps_releaseFds_pool (fds : List (Fin 8)) : Keeps (PoolStep ps) (releaseFds fds) := by
  induction fds with
  | nil => exact keeps_pure _
  | cons fd rest ih =>
    refine Keeps.bind ?_ fun _ => ih
    refine keeps_runningThread.bind fun k => ?_
    split
    · refine keeps_isPipe_pool.bind fun pipe => ?_
      split
      · refine keeps_fdLocalToGlobal_pool.bind fun g => (keeps_query _).bind fun s =>
          keeps_putFile_pool.bind fun _ => ?_
        split
        · exact (keeps_assert _).bind fun _ => keeps_rings_pool.bind fun _ => keeps_putFile_pool
        · exact keeps_pure _
      · exact keeps_sysClose_pool.bind fun _ => keeps_pure _
    · exact keeps_pure _

/-! ## Runs -/

/-- Whatever is not about inodes, handles and the heap may change. -/
theorem Fs.PoolOk.of_eq (h : s.PoolOk) (hheap : s'.heap = s.heap) (hopen : s'.openInodes = s.openInodes)
    (hinodes : s'.inodes = s.inodes) (hdirs : s'.dirs = s.dirs) : s'.PoolOk where
  pool := by
    rw [hheap, hinodes]
    exact h.pool
  listed := by
    rw [hopen, hinodes]
    exact h.listed
  live_lt := by
    rw [hheap]
    exact h.live_lt
  dirs := by
    rw [hheap, hinodes, hdirs]
    exact h.dirs

/-- Files are created by kernel threads only. -/
def Fs.KernelCreates (s : Fs) (e : Nat × FsCall) : Prop :=
  match e.2 with
  | .openFile _ flags => creating flags = true → ∀ k, s.tasks e.1 = some k → k.userSpace = false
  | _ => True

theorem poolOk_of_keeps {x : FsM α} {r : α} (hkeeps : Keeps (PoolStep []) x) (hok : s.PoolOk)
    (h : Returns x s r s') : s'.PoolOk :=
  (hkeeps h hok (by simp [Fs.Spare])).ok

/-- One case for each call. -/
theorem step_poolOk {e : Nat × FsCall} (hok : s.PoolOk) (hkernel : s.KernelCreates e) (hstep : s.Step e s') :
    s'.PoolOk := by
  obtain ⟨t, call⟩ := e
  obtain ⟨-, hret⟩ := hstep
  have hok : Fs.PoolOk { s with cur := t } := hok.of_eq rfl rfl rfl rfl
  cases call with
  | openFile path flags =>
    simp only [FsCall.code, returns_bind, returns_pure] at hret
    obtain ⟨r, _, hret, -, rfl⟩ := hret
    have hspare : Fs.Spare { s with cur := t } [] := by simp [Fs.Spare]
    refine (sysOpen_pool (fun hcreate hrunner => ?_) hret hok hspare).ok
    obtain ⟨k, hk, huser⟩ := Option.map_eq_some_iff.mp hrunner
    rw [hkernel hcreate k hk] at huser
    cases huser
  | close fd => exact poolOk_of_keeps (keeps_sysClose_pool.bind fun _ => keeps_pure _) hok hret
  | read fd cnt kbd => exact poolOk_of_keeps (keeps_sysRead_pool.bind fun _ => keeps_pure _) hok hret
  | write fd buf cnt => exact poolOk_of_keeps (keeps_sysWrite_pool.bind fun _ => keeps_pure _) hok hret
  | lseek fd offset whence => exact poolOk_of_keeps (keeps_sysLseek_pool.bind fun _ => keeps_pure _) hok hret
  | unlink path => exact poolOk_of_keeps (keeps_sysUnlink_pool.bind fun _ => keeps_pure _) hok hret
  | mkdir path => exact poolOk_of_keeps (keeps_sysMkdir_pool.bind fun _ => keeps_pure _) hok hret
  | rmdir path => exact poolOk_of_keeps (keeps_sysRmdir_pool.bind fun _ => keeps_pure _) hok hret
  | opendir path => exact poolOk_of_keeps (keeps_sysOpendir_pool.bind fun _ => keeps_pure _) hok hret
  | closedir dir => exact poolOk_of_keeps (keeps_sysClosedir_pool.bind fun _ => keeps_pure _) hok hret
  | readdir dir => exact poolOk_of_keeps (keeps_sysReaddir_pool.bind fun _ => keeps_pure _) hok hret
  | rewinddir dir => exact poolOk_of_keeps keeps_sysRewinddir_pool hok hret
  | chdir path => exact poolOk_of_keeps (keeps_sysChdir_pool.bind fun _ => keeps_pure _) hok hret
  | getcwd size => exact poolOk_of_keeps (keeps_sysGetcwd_pool.bind fun _ => keeps_pure _) hok hret
  | stat path => exact poolOk_of_keeps (keeps_sysStat_pool.bind fun _ => keeps_pure _) hok hret
  | pipe => exact poolOk_of_keeps (keeps_sysPipe_pool.bind fun _ => keeps_pure _) hok hret
  | redirect m n => exact poolOk_of_keeps keeps_sysFdRedirect_pool hok hret
  | fork child =>
    simp only [FsCall.code, sysFork, returns_bind, returns_runningThread, returns_update] at hret
    obtain ⟨k, _, ⟨-, rfl⟩, _, _, rfl, hret⟩ := hret
    refine poolOk_of_keeps (keeps_updateInodeOpenCnts_pool _) ?_ hret
    exact hok.of_eq rfl rfl rfl rfl
  | exit =>
    simp only [FsCall.code, sysExit, returns_bind, returns_update] at hret
    obtain ⟨_, t', hret, rfl⟩ := hret
    exact (poolOk_of_keeps (keeps_releaseFds_pool _) hok hret).of_eq rfl rfl rfl rfl
  | create child userSpace =>
    obtain rfl := (returns_update _ _).mp hret
    exact hok.of_eq rfl rfl rfl rfl

theorem keeps_partitionMount_pool {startLba secCnt : Nat} :
    Keeps (PoolStep ps) (partitionMount startLba secCnt) := by
  refine keeps_sysMalloc.bind fun _ => keeps_sysMalloc.bind fun _ => (keeps_assert _).bind fun _ =>
    (keeps_fits _).bind fun _ => keeps_ideRead.bind fun _ => keeps_sysMalloc.bind fun _ =>
      (keeps_assert _).bind fun _ => keeps_ideRead.bind fun _ => keeps_sysMalloc.bind fun _ =>
        (keeps_assert _).bind fun _ => keeps_ideRead.bind fun _ => keeps_update fun s => ?_
  intro hok _
  exact ⟨⟨hok.pool, by simp, hok.live_lt, hok.dirs⟩, le_rfl, fun _ _ h => h, rfl⟩

theorem mounted_poolOk {disk : Bytes} {full : Nat → Bool} {startLba secCnt : Nat}
    (h : Fs.Mounted disk full startLba secCnt s) : s.PoolOk := by
  have hboot : (Fs.boot disk full).PoolOk :=
    ⟨fun _ h => absurd rfl h, by simp [Fs.boot], by simp [Fs.boot], fun _ h => absurd rfl h⟩
  have hroot : Keeps (PoolStep []) openRootDir :=
    (keeps_query _).bind fun _ => keeps_inodeOpen_pool.bind fun _ =>
      keeps_update_pool fun _ => ⟨rfl, rfl, rfl, rfl, rfl⟩
  exact poolOk_of_keeps (keeps_partitionMount_pool.bind fun _ => hroot) hboot h

end Pool

/-- Every cached inode is a live block of the kernel's heap, where `inode_close` gives it
    back to, as long as only kernel threads create files. -/
theorem cached_inodes_in_kernel_heap (disk : Bytes) (full : Nat → Bool) (startLba secCnt : Nat) (s₀ s : Fs)
    (h₀ : Fs.Mounted disk full startLba secCnt s₀) (hrun : Fs.Run Fs.KernelCreates s₀ s) :
    ∀ a ∈ s.openInodes, (a, false) ∈ s.heap.live ∧ (a, true) ∉ s.heap.live := by
  have hok : s.PoolOk :=
    hrun.invariant (mounted_poolOk h₀) fun _ _ _ h hkernel hstep => step_poolOk h hkernel hstep
  exact fun a ha => hok.pool a (hok.listed a ha)

/-! ## Runs that are computed -/

instance FsCall.decidableGrants (s : Fs) : (c : FsCall) → Decidable (c.Grants s)
  | .fork child => decidable_of_iff ((s.tasks child).isNone) Option.isNone_iff_eq_none
  | .create child _ => decidable_of_iff ((s.tasks child).isNone) Option.isNone_iff_eq_none
  | .openFile .. | .close .. | .read .. | .write .. | .lseek .. | .unlink .. | .mkdir .. | .rmdir ..
  | .opendir .. | .closedir .. | .readdir .. | .rewinddir .. | .chdir .. | .getcwd .. | .stat ..
  | .pipe | .redirect .. | .exit => isTrue trivial

namespace Fs

/-- The call `e.2` of thread `e.1`, computed. -/
def after? (s : Fs) (e : Nat × FsCall) : Option Fs :=
  if e.2.Grants s then e.2.code.final? { s with cur := e.1 } else none

theorem step_of_after? {s s' : Fs} {e : Nat × FsCall} (h : s.after? e = some s') : s.Step e s' := by
  simp only [after?] at h
  split at h
  · next hmay =>
    obtain ⟨_, hret⟩ := final?_eq_some.mp h
    exact ⟨hmay, hret⟩
  · cases h

end Fs

/-- A disk with a new file system on the partition of 8192 sectors from 2048 on. -/
def formattedDisk : Bytes :=
  match (partitionFormat 2048 8192).final? (Fs.boot Bytes.zero fun _ => false) with
  | some s => s.disk
  | none => Bytes.zero

/-- The state after mounting it, computed. -/
def mountedFs? : Option Fs :=
  Exec.final? (do
    partitionMount 2048 8192
    openRootDir) (Fs.boot formattedDisk fun _ => false)

theorem mounted_of_mountedFs? {s : Fs} (h : mountedFs? = some s) :
    Fs.Mounted formattedDisk (fun _ => false) 2048 8192 s := by
  obtain ⟨_, hret⟩ := final?_eq_some.mp h
  exact hret

/-- `"/g"`. -/
def newPath : CStr := [47, 103]

/-- A kernel thread creates a file. -/
theorem cached_inodes_in_kernel_heap_created : ∃ s : Fs, s.openInodes = [9, 4] ∧
    ∀ a ∈ s.openInodes, (a, false) ∈ s.heap.live ∧ (a, true) ∉ s.heap.live := by
  have hend : (mountedFs?.bind fun s => s.after? (0, .openFile newPath 5)).map Fs.openInodes =
      some [9, 4] := by
    decide +kernel
  obtain ⟨s, hs, hopen⟩ := Option.map_eq_some_iff.mp hend
  obtain ⟨s₀, h₀, hs⟩ := Option.bind_eq_some_iff.mp hs
  have hmounted := mounted_of_mountedFs? h₀
  have htasks : ∀ k, s₀.tasks 0 = some k → k.userSpace = false := by
    have hkernel : mountedFs?.map (fun s => (s.tasks 0).map Task.userSpace) = some (some false) := by
      decide +kernel
    rw [h₀, Option.map_some, Option.some.injEq] at hkernel
    intro k hk
    rw [hk] at hkernel
    exact Option.some.inj hkernel
  have hrun : Fs.Run Fs.KernelCreates s₀ s :=
    .next (0, .openFile newPath 5) .start (fun _ => htasks) (Fs.step_of_after? hs)
  exact ⟨s, hopen, cached_inodes_in_kernel_heap _ _ _ _ s₀ s hmounted hrun⟩

/-- A user process creates a file: its inode is cached in the heap of the process. -/
theorem created_inode_in_user_heap : ∃ s₀ s : Fs,
    Fs.Mounted formattedDisk (fun _ => false) 2048 8192 s₀ ∧ Fs.Run (fun _ _ => True) s₀ s ∧
      9 ∈ s.openInodes ∧ (9, true) ∈ s.heap.live := by
  have hend : (mountedFs?.bind fun s => [(0, FsCall.create 1 true), (1, .openFile newPath 5)].foldlM
      Fs.after? s).map (fun s => (s.openInodes.contains 9, s.heap.live.contains (9, true))) =
        some (true, true) := by
    decide +kernel
  obtain ⟨s, hs, hval⟩ := Option.map_eq_some_iff.mp hend
  obtain ⟨s₀, h₀, hs⟩ := Option.bind_eq_some_iff.mp hs
  obtain ⟨hopen, hlive⟩ := Prod.mk.inj hval
  refine ⟨s₀, s, mounted_of_mountedFs? h₀, ?_, List.contains_iff_mem.mp hopen, List.contains_iff_mem.mp hlive⟩
  exact .of_foldlM (fun _ _ _ h => ⟨trivial, Fs.step_of_after? h⟩) hs

end ZxyOs
