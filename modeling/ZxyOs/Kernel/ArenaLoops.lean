/-
  ZxyOs.Kernel.ArenaLoops

  The loops of `sys_malloc` and `sys_free` over the blocks of an arena, and what the
  pieces of the two calls leave in memory, written as functions of the memory they
  find.
-/

import ZxyOs.Kernel.ArenaOps

namespace ZxyOs

open Lib Lib.Exec

/-! ## What the pieces leave in memory -/

namespace Mem

/-- `list_append` of several elements. -/
def appendAll (m : Mem) (p : Nat) : List Nat → Mem
  | [] => m
  | b :: l => (m.listAppend p b).appendAll p l

/-- `list_remove` of several elements. -/
def removeAll (m : Mem) : List Nat → Mem
  | [] => m
  | b :: l => (m.listRemove b).removeAll l

/-- A page with the header of a new arena for the descriptor at `desc`. -/
def arenaHeader (m : Mem) (a desc : Nat) : Mem :=
  let m : Mem := Function.update (Function.update (m.clear a pgSize) a desc) (a + 8) 0
  Function.update m (a + 4) (m (desc + 4))

/-- A page range with the header of a large block. -/
def largeHeader (m : Mem) (a pageCnt : Nat) : Mem :=
  Function.update (Function.update (Function.update (m.clear a (pageCnt * pgSize)) a 0)
    (a + 4) pageCnt) (a + 8) 1

/-- The first free block of a descriptor is taken off its list, filled with zeros and
    no longer counted. -/
def takeFirst (m : Mem) (desc : Nat) : Mem :=
  let b := m (desc + 12)
  let m := m.listRemove b
  let m := m.clear b (m desc)
  Function.update m (block2arena b + 4) ((m (block2arena b + 4) + (2 ^ 32 - 1)) % 2 ^ 32)

/-- A block is put on the free list of its descriptor and counted. -/
def putBack (m : Mem) (ptr : Nat) : Mem :=
  let a := block2arena ptr
  let m := m.listAppend (m a + 8) ptr
  Function.update m (a + 4) ((m (a + 4) + 1) % 2 ^ 32)

end Mem

/-- `n` blocks of the arena at `a` from block `k` on. -/
def blocksFrom (a i : Nat) : Nat → Nat → List Nat
  | _, 0 => []
  | k, n + 1 => blockAt a i k :: blocksFrom a i (k + 1) n

/-! ## The loops over the blocks of an arena -/

section Loops

variable {descs a d i k n : Nat} {s : KHeap} {l : List Nat}

theorem mem_blocksFrom {b : Nat} :
    b ∈ blocksFrom a i k n ↔ ∃ j, k ≤ j ∧ j < k + n ∧ b = blockAt a i j := by
  induction n generalizing k with
  | zero =>
    simp only [blocksFrom, List.not_mem_nil, false_iff]
    rintro ⟨j, h1, h2, -⟩
    omega
  | succ n ih =>
    rw [blocksFrom, List.mem_cons, ih]
    constructor
    · rintro (rfl | ⟨j, h1, h2, rfl⟩)
      · exact ⟨k, le_refl _, by omega, rfl⟩
      · exact ⟨j, by omega, by omega, rfl⟩
    · rintro ⟨j, h1, h2, rfl⟩
      by_cases hj : j = k
      · exact Or.inl (by rw [hj])
      · exact Or.inr ⟨j, by omega, by omega, rfl⟩

theorem blocksFrom_zero : blocksFrom a i 0 n = (List.range n).map (blockAt a i) := by
  have h (k : Nat) : blocksFrom a i k n = (List.range' k n).map (blockAt a i) := by
    induction n generalizing k with
    | zero => rfl
    | succ n ih => rw [blocksFrom, ih, List.range'_succ, List.map_cons]
  rw [h, List.range_eq_range']

theorem arena2block_eq (hdesc : s.mem a = d) (hsize : s.mem d = blockSize i) :
    arena2block s.mem a k = blockAt a i k := by
  rw [arena2block, hdesc, hsize, blockAt]

/-- Cutting an arena appends its blocks to the free list. -/
theorem splitArena_returns (hdesc : s.mem a = d) (hsize : s.mem d = blockSize i)
    (hlist : s.mem.IsList (d + 8) l)
    (hs : Spaced ((d + 8) :: (l ++ blocksFrom a i k n) ++ [d + 8 + 8]))
    (hlen : (l ++ blocksFrom a i k n).length ≤ 2 ^ 32)
    (ha : Outside a ((d + 8) :: (l ++ blocksFrom a i k n) ++ [d + 8 + 8]))
    (hd : Outside d ((d + 8) :: (l ++ blocksFrom a i k n) ++ [d + 8 + 8])) :
    Returns (splitArena a n k) s ()
        { s with mem := s.mem.appendAll (d + 8) (blocksFrom a i k n) } ∧
      (s.mem.appendAll (d + 8) (blocksFrom a i k n)).IsList (d + 8) (l ++ blocksFrom a i k n) ∧
      ∀ w, Outside w ((d + 8) :: (l ++ blocksFrom a i k n) ++ [d + 8 + 8]) →
        s.mem.appendAll (d + 8) (blocksFrom a i k n) w = s.mem w := by
  induction n generalizing s l k with
  | zero =>
    refine ⟨returns_pure.mpr ⟨rfl, rfl⟩, ?_, fun w _ => rfl⟩
    rw [blocksFrom, List.append_nil]
    exact hlist
  | succ n ih =>
    set b := blockAt a i k with hb
    have hcons : l ++ blocksFrom a i k (n + 1) = (l ++ [b]) ++ blocksFrom a i (k + 1) n := by
      rw [blocksFrom, List.append_assoc, List.singleton_append]
    rw [hcons] at hs hlen ha hd ⊢
    -- the block is not on the list yet, and can be told apart from what is
    have hsub : ((d + 8) :: (l ++ [b]) ++ [d + 8 + 8]).Sublist
        ((d + 8) :: (l ++ [b] ++ blocksFrom a i (k + 1) n) ++ [d + 8 + 8]) := by
      apply List.Sublist.append_right
      apply List.Sublist.cons_cons
      exact List.sublist_append_left _ _
    have hspaced : Spaced (b :: ((d + 8) :: l ++ [d + 8 + 8])) := by
      refine (hs.sublist hsub).perm ?_
      rw [show (d + 8) :: (l ++ [b]) ++ [d + 8 + 8] = (d + 8) :: l ++ b :: [d + 8 + 8] by simp]
      exact List.perm_middle.symm
    have hnew : b ∉ l := fun hin =>
      (List.nodup_cons.mp hspaced.nodup).1 (List.mem_append_left _ (List.mem_cons_of_mem _ hin))
    have hfind : s.mem.elemFind (d + 8) b = some false := by
      rw [hlist.elemFind_eq (hspaced.sublist (List.sublist_cons_self _ _)), decide_eq_false hnew]
      simp only [List.length_append, List.length_singleton] at hlen
      omega
    have happ := hlist.append hspaced
    -- the header of the arena and of the descriptor are not written
    have hkeep {w : Nat} (hw : Outside w
        ((d + 8) :: (l ++ [b] ++ blocksFrom a i (k + 1) n) ++ [d + 8 + 8])) :
        s.mem.listAppend (d + 8) b w = s.mem w := by
      refine hlist.append_outside fun x hx => hw x ?_
      simp only [List.mem_cons, List.mem_append, List.not_mem_nil, or_false] at hx ⊢
      tauto
    obtain ⟨hret, hlist', hout⟩ := ih (s := { s with mem := s.mem.listAppend (d + 8) b })
      (l := l ++ [b]) (k := k + 1) ((hkeep ha).trans hdesc) ((hkeep hd).trans hsize) happ hs hlen
      ha hd
    refine ⟨?_, hlist', fun w hw => (hout w hw).trans (hkeep hw)⟩
    rw [splitArena]
    simp only [returns_bind, returns_query, returns_deref, returns_assert, returns_update]
    refine ⟨s, s, ⟨rfl, rfl⟩, false, s, ⟨?_, rfl⟩, (), s, ⟨rfl, rfl⟩, (), _, rfl, ?_⟩
    · rw [arena2block_eq hdesc hsize, hdesc]
      exact hfind
    · rw [arena2block_eq hdesc hsize, hdesc]
      exact hret

/-- Dismantling an arena takes its blocks off the free list. -/
theorem dismantle_returns (hdesc : s.mem a = d) (hsize : s.mem d = blockSize i)
    (hlist : s.mem.IsList (d + 8) l) (hs : Spaced ((d + 8) :: l ++ [d + 8 + 8]))
    (hlen : l.length < 2 ^ 32) (hin : ∀ j, k ≤ j → j < k + n → blockAt a i j ∈ l)
    (ha : Outside a ((d + 8) :: l ++ [d + 8 + 8])) (hd : Outside d ((d + 8) :: l ++ [d + 8 + 8])) :
    ∃ l', Returns (dismantle a n k) s ()
        { s with mem := s.mem.removeAll (blocksFrom a i k n) } ∧
      (s.mem.removeAll (blocksFrom a i k n)).IsList (d + 8) l' ∧
      l'.Sublist l ∧ (∀ b, b ∈ l' ↔ b ∈ l ∧ ∀ j, k ≤ j → j < k + n → b ≠ blockAt a i j) ∧
      ∀ w, Outside w ((d + 8) :: l ++ [d + 8 + 8]) →
        s.mem.removeAll (blocksFrom a i k n) w = s.mem w := by
  induction n generalizing s l k with
  | zero =>
    refine ⟨l, returns_pure.mpr ⟨rfl, rfl⟩, hlist, List.Sublist.refl _, fun b => ?_,
      fun w _ => rfl⟩
    exact ⟨fun hb => ⟨hb, fun j h1 h2 => by omega⟩, And.left⟩
  | succ n ih =>
    have hb := hin k (le_refl _) (by omega)
    set b := blockAt a i k with hbk
    have hfind : s.mem.elemFind (d + 8) b = some true := by
      rw [hlist.elemFind_eq hs hlen, decide_eq_true hb]
    obtain ⟨l₁, l₂, rfl⟩ := List.append_of_mem hb
    have hsub : (l₁ ++ l₂).Sublist (l₁ ++ b :: l₂) :=
      List.Sublist.append_left (List.sublist_cons_self _ _) _
    have hsub' : ((d + 8) :: (l₁ ++ l₂) ++ [d + 8 + 8]).Sublist
        ((d + 8) :: (l₁ ++ b :: l₂) ++ [d + 8 + 8]) := by
      apply List.Sublist.append_right
      exact List.Sublist.cons_cons _ hsub
    have hnot : b ∉ l₁ ++ l₂ := by
      have hnodup := hs.nodup.sublist
        ((List.sublist_cons_self _ _).trans (List.sublist_append_left _ _))
      exact (List.nodup_cons.mp ((List.perm_middle.nodup_iff).mp hnodup)).1
    have hkeep {w : Nat} (hw : Outside w ((d + 8) :: (l₁ ++ b :: l₂) ++ [d + 8 + 8])) :
        s.mem.listRemove b w = s.mem w := hlist.remove_outside hs hw
    have hless {w : Nat} (hw : Outside w ((d + 8) :: (l₁ ++ b :: l₂) ++ [d + 8 + 8])) :
        Outside w ((d + 8) :: (l₁ ++ l₂) ++ [d + 8 + 8]) := fun x hx => hw x (hsub'.subset hx)
    -- the other blocks are still there
    have hin' (j : Nat) (h1 : k + 1 ≤ j) (h2 : j < k + 1 + n) : blockAt a i j ∈ l₁ ++ l₂ := by
      have hj := hin j (by omega) (by omega)
      have hne : blockAt a i j ≠ b := fun heq => by
        have := blockAt_injective (a := a) (i := i) heq
        omega
      simp only [List.mem_append, List.mem_cons] at hj ⊢
      tauto
    obtain ⟨l', hret, hlist', hsubl, hmem, hout⟩ :=
      ih (s := { s with mem := s.mem.listRemove b }) (l := l₁ ++ l₂) (k := k + 1)
        ((hkeep ha).trans hdesc) ((hkeep hd).trans hsize) (hlist.remove hs) (hs.sublist hsub')
        (lt_of_le_of_lt hsub.length_le hlen) hin' (hless ha) (hless hd)
    refine ⟨l', ?_, hlist', hsubl.trans hsub, fun c => ?_,
      fun w hw => (hout w (hless hw)).trans (hkeep hw)⟩
    · rw [dismantle]
      simp only [returns_bind, returns_query, returns_deref, returns_assert, returns_update]
      refine ⟨s, s, ⟨rfl, rfl⟩, true, s, ⟨?_, rfl⟩, (), s, ⟨rfl, rfl⟩, (), _, rfl, ?_⟩
      · rw [arena2block_eq hdesc hsize, hdesc]
        exact hfind
      · rw [arena2block_eq hdesc hsize]
        exact hret
    · rw [hmem]
      constructor
      · rintro ⟨hc, hne⟩
        refine ⟨hsub.subset hc, fun j h1 h2 => ?_⟩
        by_cases hj : j = k
        · rintro rfl
          exact hnot (by rw [hbk, ← hj]; exact hc)
        · exact hne j (by omega) (by omega)
      · rintro ⟨hc, hne⟩
        have hcb : c ≠ b := hne k (le_refl _) (by omega)
        refine ⟨?_, fun j h1 h2 => hne j (by omega) (by omega)⟩
        simp only [List.mem_append, List.mem_cons] at hc ⊢
        tauto

/-- The search for a descriptor ends at the first one that is large enough. -/
theorem findDesc_spec {m : Mem} {size idx : Nat}
    (h : ∃ j, idx ≤ j ∧ j < idx + n ∧ size ≤ m (descAt descs j)) :
    idx ≤ findDesc m descs size n idx ∧ findDesc m descs size n idx < idx + n ∧
      size ≤ m (descAt descs (findDesc m descs size n idx)) := by
  induction n generalizing idx with
  | zero =>
    obtain ⟨j, h1, h2, -⟩ := h
    exact absurd h2 (by omega)
  | succ n ih =>
    rw [findDesc]
    by_cases hfit : size ≤ m (descAt descs idx)
    · rw [if_pos hfit]
      exact ⟨le_refl _, by omega, hfit⟩
    · rw [if_neg hfit]
      obtain ⟨j, h1, h2, h3⟩ := h
      have hne : j ≠ idx := fun heq => hfit (heq ▸ h3)
      have hnext : ∃ j, idx + 1 ≤ j ∧ j < idx + 1 + n ∧ size ≤ m (descAt descs j) :=
        ⟨j, by omega, by omega, h3⟩
      obtain ⟨h4, h5, h6⟩ := ih hnext
      exact ⟨by omega, by omega, h6⟩

end Loops

/-! ## Headers -/

section Headers

variable {m : Mem} {a c desc n w : Nat}

theorem clear_inside (hw : a ≤ w ∧ w < a + n) : m.clear a n w = 0 := by
  rw [Mem.clear, if_pos hw]

theorem clear_outside (hw : w < a ∨ a + n ≤ w) : m.clear a n w = m w := by
  rw [Mem.clear, if_neg (by omega)]

theorem arenaHeader_outside (hw : w < a ∨ a + 4096 ≤ w) : m.arenaHeader a desc w = m w := by
  simp only [Mem.arenaHeader]
  rw [Function.update_of_ne (by omega), Function.update_of_ne (by omega),
    Function.update_of_ne (by omega), clear_outside hw]

theorem arenaHeader_desc : m.arenaHeader a desc a = desc := by
  simp only [Mem.arenaHeader]
  rw [Function.update_of_ne (by omega), Function.update_of_ne (by omega), Function.update_self]

theorem arenaHeader_cnt (hdesc : desc + 4 < a ∨ a + 4096 ≤ desc + 4) :
    m.arenaHeader a desc (a + 4) = m (desc + 4) := by
  simp only [Mem.arenaHeader]
  rw [Function.update_self, Function.update_of_ne (by omega), Function.update_of_ne (by omega),
    clear_outside hdesc]

theorem arenaHeader_large : m.arenaHeader a desc (a + 8) = 0 := by
  simp only [Mem.arenaHeader]
  rw [Function.update_of_ne (by omega), Function.update_self]

theorem largeHeader_outside (hc : 0 < c) (hw : w < a ∨ a + 4096 * c ≤ w) :
    m.largeHeader a c w = m w := by
  rw [Mem.largeHeader, Function.update_of_ne (by omega), Function.update_of_ne (by omega),
    Function.update_of_ne (by omega), clear_outside (by simp only [pgSize]; omega)]

theorem largeHeader_inside (hw : a + 12 ≤ w ∧ w < a + 4096 * c) : m.largeHeader a c w = 0 := by
  rw [Mem.largeHeader, Function.update_of_ne (by omega), Function.update_of_ne (by omega),
    Function.update_of_ne (by omega), clear_inside (by simp only [pgSize]; omega)]

theorem largeHeader_desc : m.largeHeader a c a = 0 := by
  rw [Mem.largeHeader, Function.update_of_ne (by omega), Function.update_of_ne (by omega),
    Function.update_self]

theorem largeHeader_cnt : m.largeHeader a c (a + 4) = c := by
  rw [Mem.largeHeader, Function.update_of_ne (by omega), Function.update_self]

theorem largeHeader_large : m.largeHeader a c (a + 8) = 1 := by
  rw [Mem.largeHeader, Function.update_self]

end Headers

end ZxyOs
