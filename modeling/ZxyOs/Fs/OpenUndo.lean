/-
  ZxyOs.Fs.OpenUndo

  What a failing `sys_open` gives back.

  `Restored s s'` says that `s'` is `s` again, but for addresses that the heap has handed
  out and will not hand out any more.  `Held s t p` says that `t` becomes such a state
  once the handle `p` is closed: opening a directory and looking into it leaves nothing
  behind but the handle.  `file_create` puts back what it has taken as long as it has not
  yet got a slot of `file_table`.
-/

import ZxyOs.Fs.OpenBalance

namespace ZxyOs

open Lib Lib.Exec

/-! ## The heap -/

namespace Heap

/-- The heap goes on at address `n`. -/
def goOn (h : Heap) (n : Nat) : Heap := { h with next := n }

/-- The next block is taken. -/
def alloc (h : Heap) (user : Bool) : Heap :=
  { h with next := h.next + 1, live := (h.next, user) :: h.live }

/-- The block at `a` is given back. -/
def freed (h : Heap) (a : Nat) : Heap :=
  { h with live := h.live.filter fun b => some b.1 ≠ some a }

/-- The live blocks have been handed out. -/
def LiveBelow (h : Heap) : Prop := ∀ b ∈ h.live, b.1 < h.next

variable {h : Heap} {a n : Nat} {user : Bool}

theorem LiveBelow.goOn (hlive : h.LiveBelow) (hn : h.next ≤ n) : (h.goOn n).LiveBelow :=
  fun b hb => Nat.lt_of_lt_of_le (hlive b hb) hn

theorem LiveBelow.alloc (hlive : h.LiveBelow) : (h.alloc user).LiveBelow := by
  intro b hb
  rcases List.mem_cons.mp hb with rfl | hb
  · exact Nat.lt_succ_self _
  · exact Nat.lt_succ_of_lt (hlive b hb)

/-- Giving back a block that is not live changes nothing. -/
theorem LiveBelow.freed_eq (hlive : h.LiveBelow) (ha : h.next ≤ a) : h.freed a = h := by
  have hall : (h.live.filter fun b => some b.1 ≠ some a) = h.live := by
    apply List.filter_eq_self.mpr
    intro b hb
    have := hlive b hb
    simp only [ne_eq, Option.some.injEq, decide_not, Bool.not_eq_true', decide_eq_false_iff_not]
    omega
  rw [Heap.freed, hall]

/-- The block just taken is given back. -/
theorem LiveBelow.freed_alloc (hlive : h.LiveBelow) :
    (h.alloc user).freed h.next = h.goOn (h.next + 1) := by
  have hdrop : (h.alloc user).freed h.next = (h.freed h.next).goOn (h.next + 1) := by
    simp [Heap.freed, Heap.alloc, Heap.goOn]
  rw [hdrop, hlive.freed_eq le_rfl]

/-- Both blocks just taken are given back. -/
theorem LiveBelow.freed_alloc_two (hlive : h.LiveBelow) {user' : Bool} :
    (((h.alloc user).alloc user').freed (h.next + 1)).freed h.next = h.goOn (h.next + 2) := by
  have hlast : ((h.alloc user).alloc user').freed (h.next + 1) = (h.alloc user).goOn (h.next + 2) :=
    hlive.alloc.freed_alloc
  rw [hlast]
  show ((h.alloc user).freed h.next).goOn (h.next + 2) = _
  rw [hlive.freed_alloc]
  rfl

end Heap

/-- The heap of `s` goes on at address `n`. -/
def Fs.heapAt (s : Fs) (n : Nat) : Fs := { s with heap := s.heap.goOn n }

/-- `s'` is `s` but for the addresses that are left. -/
def Restored (s s' : Fs) : Prop := ∃ n, s.heap.next ≤ n ∧ s' = s.heapAt n

section Undo

variable {s s' s₁ s₂ t t₁ : Fs} {p : DirPtr} {a n : Nat} {u : Unit} {r : Int}

theorem Restored.refl (s : Fs) : Restored s s := ⟨s.heap.next, le_rfl, rfl⟩

theorem Restored.trans (h : Restored s s₁) (h' : Restored s₁ s₂) : Restored s s₂ := by
  obtain ⟨n, hn, rfl⟩ := h
  obtain ⟨m, hm, rfl⟩ := h'
  exact ⟨m, Nat.le_trans hn hm, rfl⟩

theorem Restored.frame (h : Restored s s') : CacheFrame s s' := by
  obtain ⟨n, hn, rfl⟩ := h
  exact .of_eq ⟨rfl, rfl, rfl, rfl, rfl, rfl⟩ rfl rfl rfl hn

theorem Restored.live (h : Restored s s') (hlive : s.heap.LiveBelow) : s'.heap.LiveBelow := by
  obtain ⟨n, hn, rfl⟩ := h
  exact hlive.goOn hn

theorem mallocFrom_inv {user : Bool} {o : Option Nat} (h : Returns (mallocFrom user) s o s') :
    o = none ∧ s' = s.heapAt (s.heap.next + 1) ∨
      o = some s.heap.next ∧ s' = { s with heap := s.heap.alloc user } := by
  simp only [mallocFrom, returns_bind, returns_query] at h
  obtain ⟨_, _, ⟨rfl, rfl⟩, h⟩ := h
  split at h
  · simp only [returns_bind, returns_update, returns_pure] at h
    obtain ⟨-, _, rfl, rfl, rfl⟩ := h
    exact Or.inl ⟨rfl, rfl⟩
  · simp only [returns_bind, returns_update, returns_pure] at h
    obtain ⟨-, _, rfl, rfl, rfl⟩ := h
    exact Or.inr ⟨rfl, rfl⟩

theorem sysMalloc_inv {o : Option Nat} (h : Returns sysMalloc s o s') :
    o = none ∧ s' = s.heapAt (s.heap.next + 1) ∨
      ∃ user, o = some s.heap.next ∧ s' = { s with heap := s.heap.alloc user } := by
  simp only [sysMalloc, returns_bind, returns_runningThread] at h
  obtain ⟨k, _, ⟨-, rfl⟩, h⟩ := h
  rcases mallocFrom_inv h with hnone | hsome
  · exact Or.inl hnone
  · exact Or.inr ⟨_, hsome⟩

theorem sysFree_inv {o : Option Nat} (h : Returns (sysFree o) s u s') :
    ∃ b, o = some b ∧ s' = { s with heap := s.heap.freed b } := by
  simp only [sysFree, returns_bind, returns_assert, returns_update] at h
  obtain ⟨-, _, ⟨hne, rfl⟩, rfl⟩ := h
  obtain ⟨b, rfl⟩ := Option.ne_none_iff_exists'.mp hne
  exact ⟨b, rfl, rfl⟩

/-! ## Directories -/

/-- Looking an entry up gives both buffers back. -/
theorem searchDirEntry_restored {name : CStr} {o : Option DirEntry} (hlive : s.heap.LiveBelow)
    (h : Returns (searchDirEntry p name) s o s') : Restored s s' := by
  simp only [searchDirEntry, returns_bind (x := sysMalloc)] at h
  obtain ⟨mem, s₁, hmem, h⟩ := h
  rcases sysMalloc_inv hmem with ⟨rfl, rfl⟩ | ⟨w, rfl, rfl⟩
  · rw [if_pos rfl] at h
    obtain ⟨-, rfl⟩ := returns_pure.mp h
    exact ⟨_, Nat.le_succ _, rfl⟩
  · rw [if_neg (by simp)] at h
    simp only [returns_bind, returns_dirInode, returns_getInode, returns_query, returns_pure] at h
    obtain ⟨a, _, ⟨-, rfl⟩, v, _, ⟨-, rfl⟩, blocks, t, hread, buf, t₁, hbuf, _, _, ⟨rfl, rfl⟩, found,
      t₂, hsearch, _, t₃, hfree, _, t₄, hfree', -, rfl⟩ := h
    obtain rfl := keeps_readAllBlocks (R := Eq) hread
    obtain rfl := keeps_searchBlocks (R := Eq) _ _ hsearch
    obtain ⟨b, rfl, rfl⟩ := sysFree_inv hfree
    obtain ⟨b', hb', rfl⟩ := sysFree_inv hfree'
    obtain rfl := Option.some.inj hb'
    rcases sysMalloc_inv hbuf with ⟨hb, -⟩ | ⟨w', hb, rfl⟩
    · cases hb
    · obtain rfl := Option.some.inj hb
      refine ⟨s.heap.next + 2, Nat.le_add_right _ _, ?_⟩
      show { s with heap := (((s.heap.alloc w).alloc w').freed (s.heap.next + 1)).freed s.heap.next } = _
      rw [hlive.freed_alloc_two]
      rfl

/-- The heap once `inode_open` has read an inode from its slot. -/
theorem inodeOpen_heap (hlive : s.heap.LiveBelow) (hcached : s.cached n = none)
    (h : Returns (inodeOpen n) s a s') : s'.heap = (s.heap.alloc false).goOn (s.heap.next + 2) := by
  simp only [inodeOpen, returns_bind, returns_query] at h
  obtain ⟨_, _, ⟨rfl, rfl⟩, o, t, hfind, h⟩ := h
  obtain ⟨rfl, rfl⟩ := returns_findOpenInode hfind
  rw [show (id s).openInodes.find? (s.holdsNo n) = none from hcached] at h
  simp only [returns_bind, returns_locateInode, returns_fits] at h
  obtain ⟨_, _, ⟨-, rfl, rfl⟩, inodeFound, t₁, h₁, inodeBuf, t₂, h₂, -, _, ⟨-, rfl⟩, w, t₃, hread, h⟩ := h
  obtain rfl := keeps_readSlot (R := Eq) hread
  rcases mallocFrom_inv h₁ with ⟨rfl, -⟩ | ⟨rfl, rfl⟩
  · exact absurd h (returns_stop _)
  · simp only [returns_bind, returns_putInode, returns_update, returns_pure] at h
    obtain ⟨-, _, rfl, -, _, rfl, _, t₃, hfree, rfl, rfl⟩ := h
    obtain ⟨b, rfl, rfl⟩ := sysFree_inv hfree
    rcases sysMalloc_inv h₂ with ⟨hb, -⟩ | ⟨w', hb, rfl⟩
    · cases hb
    · obtain rfl := Option.some.inj hb
      exact hlive.alloc.freed_alloc

theorem inodeOpen_live (hlive : s.heap.LiveBelow) (h : Returns (inodeOpen n) s a s') :
    s'.heap.LiveBelow := by
  rcases inodeOpen_inv h with ⟨v, -, -, -, rfl⟩ | ⟨h', hcached, -⟩
  · exact hlive
  · rw [inodeOpen_heap hlive hcached h]
    exact hlive.alloc.goOn (Nat.le_succ _)

/-- An inode that has just been opened is closed again, whatever handles there are. -/
theorem inodeOpen_undo {D : Nat → Option Dir} (hok : s.CacheOk) (hlive : s.heap.LiveBelow)
    (hopen : Returns (inodeOpen n) s a t) (hclose : Returns (inodeClose a) { t with dirs := D } u t₁) :
    Restored { s with dirs := D } t₁ := by
  simp only [inodeClose, returns_bind, returns_getInode, returns_putInode] at hclose
  obtain ⟨v, _, ⟨hv, rfl⟩, _, _, rfl, hclose⟩ := hclose
  have hpos := (inodeOpen_step hok hopen).1.ok.pos a v hv
  have hcnt : (if v.iOpenCnt = 0 then 2 ^ 32 - 1 else v.iOpenCnt - 1) = v.iOpenCnt - 1 :=
    if_neg (by omega)
  rw [hcnt] at hclose
  rcases inodeOpen_inv hopen with ⟨w, hcached, hw, -, rfl⟩ | ⟨h', hcached, -, rfl, -, -, ht⟩
  · -- it was cached, and has its old number of references again
    obtain rfl : { w with iOpenCnt := w.iOpenCnt + 1 } = v :=
      Option.some.inj (Fs.setInode_self.symm.trans hv)
    have hold := hok.pos a w hw
    rw [if_neg (show ¬ w.iOpenCnt + 1 - 1 = 0 by omega)] at hclose
    obtain ⟨-, rfl⟩ := returns_pure.mp hclose
    refine ⟨s.heap.next, le_rfl, ?_⟩
    have hback : Function.update (Function.update s.inodes a
        (some { w with iOpenCnt := w.iOpenCnt + 1 })) a (some w) = s.inodes := by
      rw [Function.update_idem, ← hw, Function.update_eq_self]
    simp only [Fs.setInode, Fs.heapAt, Heap.goOn, Nat.add_sub_cancel, hback]
  · -- it was read from its slot, and leaves the cache again
    have hheap := inodeOpen_heap hlive hcached hopen
    have hnone : s.inodes s.heap.next = none := by
      by_contra hsome
      exact absurd (hok.inode_lt _ hsome) (Nat.lt_irrefl _)
    have hnotin : s.heap.next ∉ s.openInodes := by
      rw [hok.mem]
      exact fun h => h hnone
    subst ht
    have hnew := Function.update_self s.heap.next (some { s.slot n with iOpenCnt := 1 }) s.inodes
    obtain rfl : { s.slot n with iOpenCnt := 1 } = v := Option.some.inj (hnew.symm.trans hv)
    rw [if_pos (show 1 - 1 = 0 by rfl)] at hclose
    simp only [returns_bind, returns_update] at hclose
    obtain ⟨_, _, rfl, hfree⟩ := hclose
    obtain ⟨b, hb, rfl⟩ := sysFree_inv hfree
    obtain rfl := Option.some.inj hb
    have hlist : (s.heap.next :: s.openInodes).filter (· ≠ s.heap.next) = s.openInodes := by
      rw [List.filter_cons_of_neg (by simp), List.filter_eq_self]
      intro b hb
      have hne : b ≠ s.heap.next := fun heq => hnotin (heq ▸ hb)
      simpa using hne
    have hmem : Function.update s.inodes s.heap.next none = s.inodes := by
      rw [← hnone, Function.update_eq_self]
    have hfreed : h'.freed s.heap.next = s.heap.goOn (s.heap.next + 2) := by
      rw [show h' = _ from hheap]
      show ((s.heap.alloc false).freed s.heap.next).goOn (s.heap.next + 2) = _
      rw [hlive.freed_alloc]
      rfl
    refine ⟨s.heap.next + 2, Nat.le_add_right _ _, ?_⟩
    simp only [Function.update_idem, hlist, hmem, hfreed, Fs.heapAt]

/-! ## Handles -/

/-- `t` is `s` with the handle `p` open on top of it: closing it puts everything back. -/
structure Held (s t : Fs) (p : DirPtr) : Prop where
  closes : ∀ u t', Returns (dirClose p) t u t' → Restored s t'
  live : t.heap.LiveBelow

/-- Closing an inode does not look at the next address of the heap. -/
theorem inodeClose_heapAt (h : Returns (inodeClose a) s u s') :
    Returns (inodeClose a) (s.heapAt n) u (s'.heapAt n) := by
  simp only [inodeClose, returns_bind, returns_getInode, returns_putInode] at h ⊢
  obtain ⟨v, _, ⟨hv, rfl⟩, _, _, rfl, h⟩ := h
  refine ⟨v, s.heapAt n, ⟨hv, rfl⟩, (), _, rfl, ?_⟩
  generalize (if v.iOpenCnt = 0 then 2 ^ 32 - 1 else v.iOpenCnt - 1) = cnt at h ⊢
  by_cases hzero : cnt = 0
  · rw [if_pos hzero] at h ⊢
    simp only [returns_bind, returns_update] at h ⊢
    obtain ⟨_, _, rfl, hfree⟩ := h
    obtain ⟨b, hb, rfl⟩ := sysFree_inv hfree
    refine ⟨(), _, rfl, ?_⟩
    simp only [sysFree, returns_bind, returns_assert, returns_update]
    obtain rfl := Option.some.inj hb
    exact ⟨(), _, ⟨by simp, rfl⟩, rfl⟩
  · rw [if_neg hzero] at h ⊢
    obtain ⟨-, rfl⟩ := returns_pure.mp h
    exact returns_pure.mpr ⟨rfl, rfl⟩

theorem dirClose_heapAt (h : Returns (dirClose p) s u s') :
    Returns (dirClose p) (s.heapAt n) u (s'.heapAt n) := by
  cases p with
  | root =>
    obtain ⟨-, rfl⟩ := returns_pure.mp h
    exact returns_pure.mpr ⟨rfl, rfl⟩
  | heap d =>
    simp only [dirClose, getDir, returns_bind, returns_query, returns_deref, returns_update] at h ⊢
    obtain ⟨dir, _, ⟨_, _, ⟨rfl, rfl⟩, hdir, rfl⟩, _, s₁, hclose, _, _, rfl, hfree⟩ := h
    obtain ⟨b, hb, rfl⟩ := sysFree_inv hfree
    obtain rfl := Option.some.inj hb
    refine ⟨dir, s.heapAt n, ⟨_, _, ⟨rfl, rfl⟩, hdir, rfl⟩, (), s₁.heapAt n, inodeClose_heapAt hclose, (), _,
      rfl, ?_⟩
    simp only [sysFree, returns_bind, returns_assert, returns_update]
    exact ⟨(), _, ⟨by simp, rfl⟩, rfl⟩

theorem Held.refl (hlive : s.heap.LiveBelow) : Held s s .root where
  closes := by
    intro u t' h
    obtain ⟨-, rfl⟩ := returns_pure.mp h
    exact Restored.refl s
  live := hlive

/-- A handle on the root directory is none. -/
theorem Held.restored (h : Held s t .root) : Restored s t := h.closes () t (returns_pure.mpr ⟨rfl, rfl⟩)

/-- A handle stays open while something is done and undone. -/
theorem Held.frame (h : Held s t p) (h' : Restored t t₁) : Held s t₁ p where
  closes := by
    intro u t' hclose
    obtain ⟨n, hn, rfl⟩ := h'
    have hback : Returns (dirClose p) t u (t'.heapAt t.heap.next) :=
      dirClose_heapAt (s := t.heapAt n) hclose
    obtain ⟨m, hm, heq⟩ := h.closes u _ hback
    -- the call leaves the next address where it is
    have hsame : t' = t'.heapAt n := (hclose.unique (dirClose_heapAt (s := t.heapAt n) (n := n) hclose)).2
    have hnext : t'.heap.next = n := congrArg (fun s => s.heap.next) hsame
    have hmid : t.heap.next = m := congrArg (fun s => s.heap.next) heq
    exact ⟨t'.heap.next, by omega, congrArg (fun s => s.heapAt t'.heap.next) heq⟩
  live := h'.live h.live

/-- `dir_open` leaves a handle that `dir_close` takes back. -/
theorem dirOpen_held (hok : s.CacheOk) (hlive : s.heap.LiveBelow) (h : Returns (dirOpen n) s p t) :
    Held s t p := by
  simp only [dirOpen, returns_bind, returns_deref, returns_update, returns_pure] at h
  obtain ⟨o, s₁, hmalloc, a, s₂, hopen, d, _, ⟨rfl, rfl⟩, _, _, rfl, rfl, rfl⟩ := h
  rcases sysMalloc_inv hmalloc with ⟨hd, -⟩ | ⟨w, hd, rfl⟩
  · cases hd
  obtain rfl := Option.some.inj hd
  have hok₁ := (keeps_sysMalloc (R := CacheFrame) hmalloc).cacheOk hok
  have hlive₂ : s₂.heap.LiveBelow :=
    inodeOpen_live (s := { s with heap := s.heap.alloc w }) hlive.alloc hopen
  refine ⟨fun u t' hclose => ?_, hlive₂⟩
  simp only [dirClose, getDir, returns_bind, returns_query, returns_deref, returns_update,
    Function.update_self] at hclose
  obtain ⟨dir, _, ⟨_, _, ⟨rfl, rfl⟩, hdir, rfl⟩, _, s₃, hclose, _, _, rfl, hfree⟩ := hclose
  obtain rfl := Option.some.inj hdir
  obtain ⟨m, hm, rfl⟩ := inodeOpen_undo (t := s₂) hok₁ hlive.alloc hopen hclose
  obtain ⟨b, hb, rfl⟩ := sysFree_inv hfree
  obtain rfl := Option.some.inj hb
  have hnone : s.dirs s.heap.next = none := by
    by_contra hsome
    exact absurd (hok.dir_lt _ hsome) (Nat.lt_irrefl _)
  have hdirs : s₂.dirs = s.dirs := (inodeOpen_step hok₁ hopen).2.1
  have hback : Function.update (Function.update s₂.dirs s.heap.next (some { inode := a, dirPose := 0 }))
      s.heap.next none = s.dirs := by
    rw [Function.update_idem, hdirs, ← hnone, Function.update_eq_self]
  have hfreed : ((s.heap.alloc w).goOn m).freed s.heap.next = s.heap.goOn m := by
    show ((s.heap.alloc w).freed s.heap.next).goOn m = _
    rw [hlive.freed_alloc]
    rfl
  refine ⟨m, Nat.le_trans (Nat.le_succ _) hm, ?_⟩
  simp only [Fs.heapAt, hback, hfreed]

/-- The loop of `search_file` holds one handle at a time. -/
theorem searchLoop_held {fuel : Nat} {st : SearchState} {o : Option Nat × PathSearchRecord}
    (hok : s.CacheOk) (hlive : s.heap.LiveBelow) (hst : Held s t st.parentDir)
    (h : Returns (searchLoop fuel st) t o s') :
    Held s s' o.2.parentDir := by
  induction fuel generalizing t st with
  | zero => exact absurd h (returns_stop _)
  | succ fuel ih =>
    -- closing the handle and opening another one
    have hnext {t t₁ t₂ : Fs} {q q' : DirPtr} {m : Nat} {u : Unit} (hq : Held s t q)
        (hclose : Returns (dirClose q) t u t₁) (hopen : Returns (dirOpen m) t₁ q' t₂) : Held s t₂ q' := by
      have hclosed := hq.closes _ _ hclose
      have hheld := dirOpen_held (hclosed.frame.cacheOk hok) (hclosed.live hlive) hopen
      exact ⟨fun u t' h => hclosed.trans (hheld.closes u t' h), hheld.live⟩
    simp only [searchLoop] at h
    split at h
    · -- no component is left
      simp only [returns_bind, returns_deref, returns_pure] at h
      obtain ⟨_, s₂, hclose, parent, s₃, hopen, e, _, ⟨-, rfl⟩, rfl, rfl⟩ := h
      exact hnext hst hclose hopen
    · simp only [returns_bind, returns_assert] at h
      obtain ⟨_, _, ⟨-, rfl⟩, found, s₂, hsearch, h⟩ := h
      have hst₂ := hst.frame (searchDirEntry_restored hst.live hsearch)
      cases found with
      | none =>
        obtain ⟨rfl, rfl⟩ := returns_pure.mp h
        exact hst₂
      | some e =>
        simp only [returns_bind] at h
        obtain ⟨next, s₃, hnext', h⟩ := h
        obtain rfl := keeps_pathNext hnext'
        split at h
        · -- a directory: the walk goes on in it
          simp only [returns_bind, returns_dirInode, returns_getInode] at h
          obtain ⟨a, _, ⟨-, rfl⟩, v, _, ⟨-, rfl⟩, _, s₄, hclose, dir, s₅, hopen, h⟩ := h
          apply ih _ h
          exact hnext hst₂ hclose hopen
        · split at h
          · obtain ⟨rfl, rfl⟩ := returns_pure.mp h
            exact hst₂
          · apply ih _ h
            exact hst₂

/-- `search_file` leaves nothing behind but the handle in its record. -/
theorem searchFile_held {path : CStr} {o : Option Nat × PathSearchRecord} (hok : s.CacheOk)
    (hlive : s.heap.LiveBelow) (h : Returns (searchFile path) s o s') : Held s s' o.2.parentDir := by
  simp only [searchFile] at h
  split at h
  · obtain ⟨rfl, rfl⟩ := returns_pure.mp h
    exact .refl hlive
  · simp only [returns_bind, returns_assert] at h
    obtain ⟨_, _, ⟨-, rfl⟩, first, s₂, hparse, h⟩ := h
    obtain rfl := keeps_pathParse hparse
    exact searchLoop_held hok hlive (.refl hlive) h

/-! ## file_create -/

/-- The bit that was set is cleared again. -/
theorem Bitmap.IsFirstClear.set_clear {b : Bitmap} {i : Nat} (h : b.IsFirstClear i) :
    (b.bitmapSet i true).bitmapSet i false = b := by
  have hback : Function.update (Function.update b.bit i true) i false = b.bit := by
    rw [Function.update_idem, ← h.2.1, Function.update_eq_self]
  rw [Bitmap.bitmapSet, Bitmap.bitmapSet, hback]

/-- Without memory or without a slot `file_create` puts everything back. -/
theorem fileCreate_restored {name : CStr} {flags : Nat} (hok : s.CacheOk) (hlive : s.heap.LiveBelow)
    (hfail : ¬ (s.HasMemory 2 ∧ s.SlotFree)) (h : Returns (fileCreate p name flags) s r s') :
    Restored s s' := by
  simp only [fileCreate, returns_bind] at h
  obtain ⟨ioBuf, t₁, hmalloc, h⟩ := h
  rcases sysMalloc_inv hmalloc with ⟨rfl, rfl⟩ | ⟨w, rfl, rfl⟩
  · rw [if_pos rfl] at h
    obtain ⟨-, rfl⟩ := returns_pure.mp h
    exact ⟨_, Nat.le_succ _, rfl⟩
  rw [if_neg (by simp)] at h
  simp only [returns_bind, returns_inodeBitmapAlloc] at h
  obtain ⟨_, _, ⟨n, rfl, hfirst, rfl⟩, h⟩ := h
  simp only [returns_bind] at h
  obtain ⟨inode, t₃, hmalloc', h⟩ := h
  have hbits := hfirst.set_clear
  rcases sysMalloc_inv hmalloc' with ⟨rfl, rfl⟩ | ⟨w', rfl, rfl⟩
  · -- the number is given back
    simp only [returns_bind, returns_inodeMapSet, returns_pure] at h
    obtain ⟨_, _, ⟨-, rfl⟩, _, t₄, hfree, -, rfl⟩ := h
    obtain ⟨b, hb, rfl⟩ := sysFree_inv hfree
    obtain rfl := Option.some.inj hb
    have hfreed : ((s.heap.alloc w).goOn (s.heap.next + 2)).freed s.heap.next =
        s.heap.goOn (s.heap.next + 2) := by
      show ((s.heap.alloc w).freed s.heap.next).goOn (s.heap.next + 2) = _
      rw [hlive.freed_alloc]
      rfl
    refine ⟨s.heap.next + 2, Nat.le_add_right _ _, ?_⟩
    show { s with inodeMap := _, heap := _ } = _
    exact congrArg₂ (fun b h => { s with inodeMap := b, heap := h }) hbits hfreed
  · simp only [getFreeSlotInGlobal, returns_bind, returns_putInode, returns_query, returns_pure] at h
    obtain ⟨_, _, rfl, slot, _, ⟨_, _, ⟨rfl, rfl⟩, hslot, rfl⟩, h⟩ := h
    cases slot with
    | some g =>
      refine absurd ⟨hasMemory_of_two hmalloc hmalloc' rfl, ?_⟩ hfail
      rw [Fs.SlotFree]
      exact (show freeSlotFrom s.fileTable _ _ = some g from hslot) ▸ Option.some_ne_none g
    | none =>
      -- the number, the new inode and the buffer are given back
      simp only [returns_bind, returns_update, returns_inodeMapSet, returns_pure] at h
      obtain ⟨_, _, rfl, _, t₄, hfree, _, _, ⟨-, rfl⟩, _, t₅, hfree', -, rfl⟩ := h
      obtain ⟨b, hb, rfl⟩ := sysFree_inv hfree
      obtain rfl := Option.some.inj hb
      obtain ⟨b, hb, rfl⟩ := sysFree_inv hfree'
      obtain rfl := Option.some.inj hb
      have hnone : s.inodes (s.heap.next + 1) = none := by
        by_contra hsome
        have := hok.inode_lt _ hsome
        omega
      let mem := Function.update (Function.update s.inodes (s.heap.next + 1) (some (inodeInit n)))
        (s.heap.next + 1) none
      have hmem : mem = s.inodes := by
        show Function.update (Function.update s.inodes _ _) _ _ = _
        rw [Function.update_idem, ← hnone, Function.update_eq_self]
      let heap := (((s.heap.alloc w).alloc w').freed (s.heap.next + 1)).freed s.heap.next
      have hheap : heap = s.heap.goOn (s.heap.next + 2) := hlive.freed_alloc_two
      let bits := (s.inodeMap.bitmapSet n true).bitmapSet n false
      refine ⟨s.heap.next + 2, Nat.le_add_right _ _, ?_⟩
      show { s with inodeMap := bits, inodes := mem, heap := heap } = _
      rw [hmem, hheap, show bits = s.inodeMap from hbits]
      rfl

/-! ## sys_open -/

/-- The open files, the descriptors, references and write permissions of the inodes, the
    disk, the numbers in use, the live blocks and the pipes are as they were. -/
structure NoTrace (s s' : Fs) : Prop where
  fileTable : s'.fileTable = s.fileTable
  tasks : s'.tasks = s.tasks
  openInodes : s'.openInodes = s.openInodes
  ident : ∀ a, (s'.inodes a).map Inode.ident = (s.inodes a).map Inode.ident
  disk : s'.disk = s.disk
  inodeMap : s'.inodeMap = s.inodeMap
  live : s'.heap.live = s.heap.live
  rings : s'.rings = s.rings

theorem Restored.noTrace (h : Restored s s') : NoTrace s s' := by
  obtain ⟨n, -, rfl⟩ := h
  exact ⟨rfl, rfl, rfl, fun _ => rfl, rfl, rfl, rfl, rfl⟩

/-- A slot that has been taken is a trace. -/
theorem not_noTrace_of_slot {g : Nat} {f : File}
    (hslot : freeSlotFrom s.fileTable (maxFilesOpen - 3) 3 = some g) (hf : f.fdInode ≠ none)
    (hfile : s'.fileTable = Function.update s.fileTable g f) : ¬ NoTrace s s' := by
  intro h
  have hnone := (freeSlotFrom_some hslot).2
  rw [← h.fileTable, hfile, Function.update_self] at hnone
  exact hf hnone

/-- And so is a handle that is still open. -/
theorem HoldsDir.root_of_noTrace (h : HoldsDir s s' p) (hno : NoTrace s s') : p = .root := by
  rw [← h.dirRef_eq_zero]
  funext a
  have hcnt := h.cnt a
  have hsame : s'.openCnt a = s.openCnt a := by
    have hident := hno.ident a
    rw [Fs.openCnt, Fs.openCnt]
    cases hv : s.inodes a with
    | none =>
      rw [hv, Option.map_none, Option.map_eq_none_iff] at hident
      rw [hident]
    | some v =>
      rw [hv, Option.map_some, Option.map_eq_some_iff] at hident
      obtain ⟨v', hv', hident⟩ := hident
      rw [hv']
      exact congrArg (fun i => i.2.1) hident
  rw [hsame] at hcnt
  rw [Pi.zero_apply]
  omega

/-- `sys_open` fails and does not give everything back: the file is there, but no slot is
    left for it and its directory is not the root directory; or a slot was left, and the
    file is open for writing or no descriptor is left; or the file has been created and no
    descriptor is left. -/
def Fs.OpenTraces (s : Fs) (path : CStr) (flags : Nat) : Prop :=
  (∃ n rec s₁, s.Finds path (some n) rec s₁ ∧ creating flags = false ∧
    (¬ s.SlotFree ∧ rec.parentDir ≠ .root ∨
      s.SlotFree ∧ (writable flags = true ∧ s₁.deniesWrite n = true ∨ s.FdsFull))) ∨
  ∃ rec s₁, s.Finds path none rec s₁ ∧ creating flags = true ∧ s₁.HasMemory 2 ∧ s.SlotFree ∧ s.FdsFull

/-- Where no descriptor is left, `pcb_fd_install` says so and does nothing. -/
theorem pcbFdInstall_neg {g : Nat} (h : Returns (pcbFdInstall g) s (-1) s') : s.FdsFull ∧ s = s' := by
  obtain ⟨k, hk, ⟨hfull, -, rfl⟩ | ⟨fd, -, hr, -⟩⟩ := pcbFdInstall_cases h
  · refine ⟨fun k' hk' => ?_, rfl⟩
    obtain rfl := Option.some.inj (hk.symm.trans hk')
    exact hfull
  · omega

section Open

variable {path : CStr} {flags : Nat} {rec : PathSearchRecord}

/-- The failing `file_open` takes nothing only where there is no slot. -/
theorem fileOpen_noTrace_iff (hheld : Held s t rec.parentDir)
    (hdir : HoldsDir s t rec.parentDir) (h : Returns (fileOpen n flags) t (-1) s') :
    NoTrace s s' ↔ ¬ (¬ s.SlotFree ∧ rec.parentDir ≠ .root ∨
      s.SlotFree ∧ (writable flags = true ∧ t.deniesWrite n = true ∨ s.FdsFull)) := by
  rcases fileOpen_cases h with ⟨hfull, -, rfl⟩ | ⟨g, a, t₁, v, hslot, hopen, hv, hend⟩
  · rw [hdir.slotFree_iff] at hfull
    constructor
    · rintro hno (⟨-, hne⟩ | ⟨hfree, -⟩)
      · exact hne (hdir.root_of_noTrace hno)
      · exact hfull hfree
    · intro hnot
      have hroot : rec.parentDir = .root := by
        by_contra hne
        exact hnot (Or.inl ⟨hfull, hne⟩)
      rw [hroot] at hheld
      exact hheld.restored.noTrace
  · have hfree : s.SlotFree := by
      rw [← hdir.slotFree_iff, Fs.SlotFree, hslot]
      simp
    have hstep := (inodeOpen_step hdir.ok hopen).1
    let f : File := { fdPos := 0, fdFlag := flags, fdInode := some a }
    have hfile₁ : t₁.fileTable = s.fileTable := hstep.fileTable.trans hdir.fileTable
    rw [hdir.fileTable] at hslot
    rcases hend with ⟨hwrite, hdeny, -, rfl⟩ | ⟨-, hinst⟩
    · have hfile : (t₁.setSlot g f).fileTable = Function.update s.fileTable g f := by
        rw [← hfile₁]
        rfl
      refine iff_of_false (not_noTrace_of_slot hslot (Option.some_ne_none a) hfile) (not_not.mpr ?_)
      exact Or.inr ⟨hfree, Or.inl ⟨hwrite, hdeny⟩⟩
    · obtain ⟨hfull, rfl⟩ := pcbFdInstall_neg hinst
      have hfile : ((t₁.setSlot g f).setInode a { v with writeDeny := v.writeDeny || writable flags }).fileTable =
          Function.update s.fileTable g f := by
        rw [← hfile₁]
        rfl
      refine iff_of_false (not_noTrace_of_slot hslot (Option.some_ne_none a) hfile) (not_not.mpr ?_)
      refine Or.inr ⟨hfree, Or.inr fun k hk => hfull k ?_⟩
      show t₁.tasks t₁.cur = some k
      rw [hstep.tasks, hstep.cur, hdir.tasks, hdir.cur, hk]

/-- The failing `file_create` takes nothing unless it gets as far as a descriptor. -/
theorem fileCreate_noTrace_iff {name : CStr} (hheld : Held s t rec.parentDir)
    (hdir : HoldsDir s t rec.parentDir) (h : Returns (fileCreate rec.parentDir name flags) t (-1) t₁)
    (hclose : Returns (dirClose rec.parentDir) t₁ u s') :
    NoTrace s s' ↔ ¬ (t.HasMemory 2 ∧ s.SlotFree ∧ s.FdsFull) := by
  rcases fileCreate_cases hdir.ok h with ⟨hfail, -, -⟩ |
    ⟨g, a, m, v, t₂, hmem, hslot, -, -, hstep, -, -, -, -, -, hinst⟩
  · have hback := (hheld.frame (fileCreate_restored hdir.ok hheld.live hfail h)).closes _ _ hclose
    refine iff_of_true hback.noTrace fun hall => hfail ⟨hall.1, ?_⟩
    exact hdir.slotFree_iff.mpr hall.2.1
  · have hfree : s.SlotFree := by
      rw [← hdir.slotFree_iff, Fs.SlotFree, hslot]
      simp
    obtain ⟨hfull, rfl⟩ := pcbFdInstall_neg hinst
    let f : File := { fdPos := 0, fdFlag := flags, fdInode := some a }
    have hset : RefsBy t₂ (t₂.setSlot g f) 0 := .setSlot hstep.ok
    have hfile : s'.fileTable = Function.update s.fileTable g f := by
      rw [(dirClose_step hset.ok hclose).1.fileTable, ← hdir.fileTable, ← hstep.fileTable]
      rfl
    rw [hdir.fileTable] at hslot
    refine iff_of_false (not_noTrace_of_slot hslot (Option.some_ne_none a) hfile) (not_not.mpr ?_)
    refine ⟨hmem, hfree, fun k hk => hfull k ?_⟩
    show t₂.tasks t₂.cur = some k
    rw [hstep.tasks, hstep.cur, hdir.tasks, hdir.cur, hk]

/-- A failing `sys_open` leaves no trace exactly where `OpenTraces` fails. -/
theorem sysOpen_noTrace_iff (hok : s.CacheOk) (hlive : s.heap.LiveBelow)
    (h : Returns (sysOpen path flags) s (-1) s') : NoTrace s s' ↔ ¬ s.OpenTraces path flags := by
  rcases sysOpen_split h with ⟨-, hgave, hno⟩ | ⟨rec, t, t', hfinds, hcreate, -, hnew, hclose⟩ |
    ⟨n, rec, t, hfinds, hcreate, -, hfile⟩
  · have hback : Restored s s' := by
      rcases hgave with rfl | ⟨i, rec, t, hsearch, hclose⟩
      · exact Restored.refl s
      · exact (searchFile_held hok hlive hsearch).closes _ _ hclose
    refine iff_of_true hback.noTrace ?_
    rintro (⟨n, rec, t, hfinds, hcreate, -⟩ | ⟨rec, t, hfinds, hcreate, -⟩)
    · have := hno _ _ _ hfinds
      rw [hcreate] at this
      cases this
    · have := hno _ _ _ hfinds
      rw [hcreate] at this
      cases this
  · have hheld := searchFile_held hok hlive hfinds.search
    have hdir := searchFile_holds hok hfinds.search
    rw [fileCreate_noTrace_iff hheld hdir hnew hclose, not_iff_not]
    constructor
    · rintro ⟨hmem, hfree, hfull⟩
      exact Or.inr ⟨rec, t, hfinds, hcreate, hmem, hfree, hfull⟩
    · rintro (⟨n, rec', t', hfinds', -⟩ | ⟨rec', t', hfinds', -, hall⟩)
      · cases (hfinds.unique hfinds').1
      · obtain ⟨-, rfl, rfl⟩ := hfinds.unique hfinds'
        exact hall
  · have hheld := searchFile_held hok hlive hfinds.search
    have hdir := searchFile_holds hok hfinds.search
    rw [fileOpen_noTrace_iff hheld hdir hfile, not_iff_not]
    constructor
    · intro hleak
      exact Or.inl ⟨n, rec, t, hfinds, hcreate, hleak⟩
    · rintro (⟨n', rec', t', hfinds', -, hleak⟩ | ⟨rec', t', hfinds', -⟩)
      · obtain ⟨hn, rfl, rfl⟩ := hfinds.unique hfinds'
        obtain rfl := Option.some.inj hn
        exact hleak
      · cases (hfinds.unique hfinds').1

end Open

end Undo

end ZxyOs
