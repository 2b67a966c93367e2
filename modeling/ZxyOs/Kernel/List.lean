/-
  ZxyOs.Kernel.List

  The doubly linked lists of `lib/kernel/list.c`, on a memory of 32-bit words.

  A `struct list_elem` at address `x` has its `prev` in the word at `x` and its
  `next` in the word at `x + 4`; a `struct list` at `p` has its head at `p` and its
  tail at `p + 8`.  As long as the elements do not overlap, the code works on the
  words the way `Lib.Links` works on links.
-/

import ZxyOs.Lib.Exec
import ZxyOs.Lib.Links
import Mathlib.Data.List.Pairwise
import Mathlib.Algebra.Group.Nat.Defs

namespace ZxyOs

open Lib Lib.Exec

/-- Memory, one word at every address that is a multiple of 4. -/
abbrev Mem : Type := Nat → Nat

namespace Mem

/-- `memset(dst, 0, size)`. -/
def clear (m : Mem) (dst size : Nat) : Mem := fun w => if dst ≤ w ∧ w < dst + size then 0 else m w

/-- `list_init`. -/
def listInit (m : Mem) (list : Nat) : Mem :=
  let m := Function.update m list 0
  let m := Function.update m (list + 4) (list + 8)
  let m := Function.update m (list + 8) list
  Function.update m (list + 12) 0

/-- `list_insert_before`. -/
def listInsertBefore (m : Mem) (before elem : Nat) : Mem :=
  let m := Function.update m (m before + 4) elem
  let m := Function.update m elem (m before)
  let m := Function.update m (elem + 4) before
  Function.update m before elem

/-- `list_append`. -/
def listAppend (m : Mem) (plist elem : Nat) : Mem := m.listInsertBefore (plist + 8) elem

/-- `list_remove`. -/
def listRemove (m : Mem) (pelem : Nat) : Mem :=
  let m := Function.update m (m pelem + 4) (m (pelem + 4))
  Function.update m (m (pelem + 4)) (m pelem)

/-- `list_empty`. -/
def listEmpty (m : Mem) (plist : Nat) : Bool := m (plist + 4) = plist + 8

/-- The loop of `elem_find` from `elem` on.  There are no more elements than
    addresses, so a walk that needs more than `fuel` steps never ends. -/
def elemFindFrom (m : Mem) (plist objElem : Nat) : Nat → Nat → Option Bool
  | 0, _ => none
  | fuel + 1, elem =>
    if elem = plist + 8 then some false
    else if elem = objElem then some true
    else elemFindFrom m plist objElem fuel (m (elem + 4))

/-- `elem_find`. -/
def elemFind (m : Mem) (plist objElem : Nat) : Option Bool :=
  m.elemFindFrom plist objElem (2 ^ 32) (m (plist + 4))

/-! ## Words as links -/

/-- The links the words of a memory make up. -/
def links (m : Mem) : Links Nat where
  next := fun x => m (x + 4)
  prev := fun x => m x

/-- The list at `p` has the elements `l`. -/
def IsList (m : Mem) (p : Nat) (l : List Nat) : Prop := m.links.Seg p l (p + 8)

end Mem

/-- The elements do not overlap. -/
def Spaced (nodes : List Nat) : Prop := nodes.Pairwise fun x y => x + 8 ≤ y ∨ y + 8 ≤ x

/-- The word at `w` belongs to none of the elements. -/
def Outside (w : Nat) (nodes : List Nat) : Prop := ∀ x ∈ nodes, w < x ∨ x + 8 ≤ w

section Spaced

variable {nodes l : List Nat} {x y w p e : Nat}

theorem Spaced.apart (h : Spaced nodes) (hx : x ∈ nodes) (hy : y ∈ nodes) (hne : x ≠ y) :
    x + 8 ≤ y ∨ y + 8 ≤ x := by
  have : Std.Symm fun x y : Nat => x + 8 ≤ y ∨ y + 8 ≤ x := ⟨fun _ _ h => h.symm⟩
  exact List.Pairwise.forall h hx hy hne

theorem Spaced.nodup (h : Spaced nodes) : nodes.Nodup :=
  h.imp fun h => by omega

theorem Spaced.sublist (h : Spaced nodes) (hl : l.Sublist nodes) : Spaced l :=
  List.Pairwise.sublist hl h

theorem Spaced.perm (h : Spaced nodes) (hl : l.Perm nodes) : Spaced l :=
  hl.symm.pairwise h fun h => h.symm

/-- Elements that do not overlap each other or a `struct list` at `p` do not overlap
    its ends either. -/
theorem Spaced.ends (h : Spaced l) (hp : ∀ x ∈ l, x + 8 ≤ p ∨ p + 16 ≤ x) :
    Spaced (p :: l ++ [p + 8]) := by
  apply List.pairwise_cons.mpr
  constructor
  · intro x hx
    rcases List.mem_append.mp hx with hx | hx
    · have := hp x hx
      omega
    · rw [List.mem_singleton] at hx
      omega
  · refine List.pairwise_append.mpr ⟨h, List.pairwise_singleton _ _, fun x hx y hy => ?_⟩
    rw [List.mem_singleton] at hy
    have := hp x hx
    omega

end Spaced

namespace Mem

section Lists

variable {m m' : Mem} {p e w a b : Nat} {l l₁ l₂ nodes : List Nat}

/-- The links of elements that no write has touched are as before. -/
theorem links_congr (hm : ∀ x ∈ nodes, m' x = m x ∧ m' (x + 4) = m (x + 4)) :
    ∀ x ∈ nodes, m'.links.next x = m.links.next x ∧ m'.links.prev x = m.links.prev x :=
  fun x hx => ⟨(hm x hx).2, (hm x hx).1⟩

theorem IsList.congr (h : m.IsList p l)
    (hm : ∀ x ∈ p :: l ++ [p + 8], m' x = m x ∧ m' (x + 4) = m (x + 4)) : m'.IsList p l := by
  refine Links.Seg.congr h (fun x hx => (hm x ?_).2) fun x hx => (hm x ?_).1
  · exact List.mem_append_left _ hx
  · rcases List.mem_append.mp hx with hx | hx
    · exact List.mem_append_left _ (List.mem_cons_of_mem _ hx)
    · exact List.mem_append_right _ hx

theorem IsList.last_mem (h : m.IsList p l) : m (p + 8) ∈ p :: l := Links.Seg.prev_mem h

theorem isList_nil_iff : m.IsList p [] ↔ m (p + 4) = p + 8 ∧ m (p + 8) = p := Iff.rfl

theorem IsList.head (h : m.IsList p (e :: l)) : m (p + 4) = e := h.1.1

/-- `list_init` makes an empty list. -/
theorem isList_listInit (m : Mem) (p : Nat) : (m.listInit p).IsList p [] := by
  simp [isList_nil_iff, listInit]

theorem listInit_outside (hw : w < p ∨ p + 16 ≤ w) : m.listInit p w = m w := by
  simp only [listInit, Function.update_apply]
  rw [if_neg (by omega), if_neg (by omega), if_neg (by omega), if_neg (by omega)]

/-- On elements that do not overlap the words change as the links do. -/
theorem links_listInsertBefore (hs : Spaced nodes) (hb : b ∈ nodes) (he : e ∈ nodes)
    (hp : m b ∈ nodes) : ∀ x ∈ nodes,
      (m.listInsertBefore b e).links.next x = (m.links.insertBefore b e).next x ∧
      (m.listInsertBefore b e).links.prev x = (m.links.insertBefore b e).prev x := by
  intro x hx
  have hxb := hs.apart hx hb
  have hxe := hs.apart hx he
  have hxp := hs.apart hx hp
  have hbp := hs.apart hb hp
  have hkeep : Function.update m (m b + 4) e b = m b := Function.update_of_ne (by omega) _ _
  constructor
  · simp only [links, listInsertBefore, Links.insertBefore, Function.update_apply]
    split_ifs <;> omega
  · simp only [links, listInsertBefore, Links.insertBefore, hkeep]
    simp only [Function.update_apply]
    split_ifs <;> omega

theorem links_listRemove (hs : Spaced nodes) (he : e ∈ nodes) (hp : m e ∈ nodes)
    (hn : m (e + 4) ∈ nodes) (hne : m e ≠ e) : ∀ x ∈ nodes,
      (m.listRemove e).links.next x = (m.links.remove e).next x ∧
      (m.listRemove e).links.prev x = (m.links.remove e).prev x := by
  intro x hx
  have hxn := hs.apart hx hn
  have hxp := hs.apart hx hp
  have hep := hs.apart he hp
  have hkeep : Function.update m (m e + 4) (m (e + 4)) (e + 4) = m (e + 4) :=
    Function.update_of_ne (by omega) _ _
  have hkeep' : Function.update m (m e + 4) (m (e + 4)) e = m e :=
    Function.update_of_ne (by omega) _ _
  constructor
  · simp only [links, listRemove, Links.remove, hkeep, hkeep']
    simp only [Function.update_apply]
    split_ifs <;> omega
  · simp only [links, listRemove, Links.remove, hkeep, hkeep']
    simp only [Function.update_apply]
    split_ifs <;> omega

/-- `b` is the element behind `l₁`, or the tail. -/
theorem IsList.prev_of (h : m.IsList p (l₁ ++ l₂)) (hb : (l₂ ++ [p + 8]).head? = some b) :
    m b ∈ p :: l₁ := by
  cases l₂ with
  | nil =>
    obtain rfl : p + 8 = b := by simpa using hb
    rw [List.append_nil] at h
    exact h.last_mem
  | cons x l₂ =>
    obtain rfl : x = b := by simpa using hb
    exact (Links.seg_append.mp h).1.prev_mem

/-- `list_insert_before` puts an element in front of another one or of the tail. -/
theorem IsList.insertBefore (h : m.IsList p (l₁ ++ l₂)) (hb : (l₂ ++ [p + 8]).head? = some b)
    (hs : Spaced (e :: (p :: (l₁ ++ l₂) ++ [p + 8]))) :
    (m.listInsertBefore b e).IsList p (l₁ ++ e :: l₂) := by
  obtain ⟨he, hnodup⟩ := List.nodup_cons.mp hs.nodup
  have hprev := h.prev_of hb
  have hbmem : b ∈ l₂ ++ [p + 8] := List.mem_of_mem_head? hb
  have hlinks := links_listInsertBefore (m := m) (b := b) (e := e) hs
    (by simp only [List.mem_cons, List.mem_append] at hbmem ⊢; tauto) (by simp)
    (by simp only [List.mem_cons, List.mem_append] at hprev ⊢; tauto)
  have hseg : (m.links.insertBefore b e).Seg p (l₁ ++ e :: l₂) (p + 8) := by
    cases l₂ with
    | nil =>
      obtain rfl : p + 8 = b := by simpa using hb
      rw [List.append_nil] at h hnodup he
      exact Links.Seg.insertBefore h hnodup he
    | cons x l₂ =>
      obtain rfl : x = b := by simpa using hb
      exact Links.Seg.insertInside h hnodup he
  refine hseg.congr (fun x hx => (hlinks x ?_).1) fun x hx => (hlinks x ?_).2
  · simp only [List.mem_cons, List.mem_append, List.not_mem_nil, or_false] at hx ⊢
    tauto
  · simp only [List.mem_cons, List.mem_append, List.not_mem_nil, or_false] at hx ⊢
    tauto

/-- `list_insert_before` writes to elements of the list and to the new one. -/
theorem IsList.insertBefore_outside (h : m.IsList p (l₁ ++ l₂))
    (hb : (l₂ ++ [p + 8]).head? = some b)
    (hw : Outside w (e :: (p :: (l₁ ++ l₂) ++ [p + 8]))) : m.listInsertBefore b e w = m w := by
  have hprev := h.prev_of hb
  have hbmem : b ∈ l₂ ++ [p + 8] := List.mem_of_mem_head? hb
  have hlast := hw (m b) (by simp only [List.mem_cons, List.mem_append] at hprev ⊢; tauto)
  have hbefore := hw b (by simp only [List.mem_cons, List.mem_append] at hbmem ⊢; tauto)
  have hnew := hw e (by simp)
  simp only [listInsertBefore, Function.update_apply]
  rw [if_neg (by omega), if_neg (by omega), if_neg (by omega), if_neg (by omega)]

/-- `list_append` adds an element at the end. -/
theorem IsList.append (h : m.IsList p l) (hs : Spaced (e :: (p :: l ++ [p + 8]))) :
    (m.listAppend p e).IsList p (l ++ [e]) := by
  rw [← List.append_nil l] at h hs
  exact h.insertBefore rfl hs

/-- `list_append` writes to elements of the list and to the new one. -/
theorem IsList.append_outside (h : m.IsList p l) (hw : Outside w (e :: (p :: l ++ [p + 8]))) :
    m.listAppend p e w = m w := by
  rw [← List.append_nil l] at h hw
  exact h.insertBefore_outside rfl hw

/-- `list_remove` takes an element out. -/
theorem IsList.remove (h : m.IsList p (l₁ ++ e :: l₂))
    (hs : Spaced (p :: (l₁ ++ e :: l₂) ++ [p + 8])) : (m.listRemove e).IsList p (l₁ ++ l₂) := by
  obtain ⟨h1, h2⟩ := Links.seg_append.mp h
  have hprev : m e ∈ p :: l₁ := h1.prev_mem
  have hnext : m (e + 4) ∈ l₂ ++ [p + 8] := h2.next_mem
  have hmem : ∀ x, x ∈ p :: l₁ ∨ x = e ∨ x ∈ l₂ ++ [p + 8] →
      x ∈ p :: (l₁ ++ e :: l₂) ++ [p + 8] := by
    intro x hx
    simp only [List.mem_cons, List.mem_append, List.not_mem_nil, or_false] at hx ⊢
    tauto
  have hne : m e ≠ e := by
    have hnodup := hs.nodup
    rw [show p :: (l₁ ++ e :: l₂) ++ [p + 8] = (p :: l₁) ++ (e :: l₂ ++ [p + 8]) by simp,
      List.nodup_append] at hnodup
    exact hnodup.2.2 _ hprev e (by simp)
  have hlinks := links_listRemove hs (hmem e (Or.inr (Or.inl rfl))) (hmem _ (Or.inl hprev))
    (hmem _ (Or.inr (Or.inr hnext))) hne
  refine (Links.Seg.remove h hs.nodup).congr (fun x hx => (hlinks x (hmem x ?_)).1)
    fun x hx => (hlinks x (hmem x ?_)).2
  · simp only [List.mem_cons, List.mem_append, List.not_mem_nil, or_false] at hx ⊢
    tauto
  · simp only [List.mem_cons, List.mem_append, List.not_mem_nil, or_false] at hx ⊢
    tauto

/-- `list_remove` writes to elements of the list. -/
theorem IsList.remove_outside (h : m.IsList p (l₁ ++ e :: l₂))
    (hs : Spaced (p :: (l₁ ++ e :: l₂) ++ [p + 8]))
    (hw : Outside w (p :: (l₁ ++ e :: l₂) ++ [p + 8])) : m.listRemove e w = m w := by
  obtain ⟨h1, h2⟩ := Links.seg_append.mp h
  have hprev : m e ∈ p :: (l₁ ++ e :: l₂) ++ [p + 8] := by
    have := h1.prev_mem
    simp only [List.mem_cons, List.mem_append] at this ⊢
    tauto
  have hnext : m (e + 4) ∈ p :: (l₁ ++ e :: l₂) ++ [p + 8] := by
    have := h2.next_mem
    simp only [List.mem_cons, List.mem_append] at this ⊢
    tauto
  have he : e ∈ p :: (l₁ ++ e :: l₂) ++ [p + 8] := by simp
  have hne := hs.apart he hprev
  have hw1 := hw _ hprev
  have hw2 := hw _ hnext
  have hkeep : Function.update m (m e + 4) (m (e + 4)) (e + 4) = m (e + 4) := by
    by_cases heq : m e = e
    · rw [heq, Function.update_self]
    · exact Function.update_of_ne (by omega) _ _
  simp only [listRemove, hkeep, Function.update_apply]
  rw [if_neg (by omega), if_neg (by omega)]

/-- `list_empty` tells whether there is an element. -/
theorem IsList.listEmpty_iff (h : m.IsList p l) (hs : Spaced (p :: l ++ [p + 8])) :
    m.listEmpty p = true ↔ l = [] := by
  simp only [listEmpty, decide_eq_true_eq]
  cases l with
  | nil => exact ⟨fun _ => rfl, fun _ => h.1⟩
  | cons x l =>
    have hx : x ≠ p + 8 := by
      have hnodup := hs.nodup
      rw [List.nodup_append] at hnodup
      exact hnodup.2.2 x (by simp) _ (by simp)
    rw [h.head]
    simp [hx]

theorem elemFindFrom_seg {fuel : Nat} {obj : Nat} (h : m.links.Seg a l (p + 8))
    (hend : p + 8 ∉ l) (hfuel : l.length < fuel) :
    m.elemFindFrom p obj fuel (m (a + 4)) = some (decide (obj ∈ l)) := by
  induction l generalizing a fuel with
  | nil =>
    obtain ⟨fuel, rfl⟩ : ∃ n, fuel = n + 1 := ⟨fuel - 1, by simp at hfuel; omega⟩
    have ha : m (a + 4) = p + 8 := h.1
    simp [elemFindFrom, ha]
  | cons x l ih =>
    obtain ⟨fuel, rfl⟩ : ∃ n, fuel = n + 1 := ⟨fuel - 1, by simp at hfuel; omega⟩
    have ha : m (a + 4) = x := h.1.1
    have hx : x ≠ p + 8 := fun heq => hend (by simp [heq])
    simp only [elemFindFrom, ha, if_neg hx]
    by_cases hobj : x = obj
    · simp [hobj]
    · rw [if_neg hobj, ih h.2 (fun hmem => hend (List.mem_cons_of_mem _ hmem))
        (by simp at hfuel; omega)]
      simp [Ne.symm hobj]

/-- `elem_find` tells whether an element is in the list. -/
theorem IsList.elemFind_eq (h : m.IsList p l) (hs : Spaced (p :: l ++ [p + 8])) {obj : Nat}
    (hlen : l.length < 2 ^ 32) : m.elemFind p obj = some (decide (obj ∈ l)) := by
  refine elemFindFrom_seg h (fun hmem => ?_) hlen
  have hnodup := hs.nodup
  rw [List.nodup_append] at hnodup
  exact hnodup.2.2 _ (List.mem_cons_of_mem _ hmem) (p + 8) (by simp) rfl

end Lists

end Mem

end ZxyOs
