/-
  ZxyOs.Lib.Links

  Doubly linked lists between two fixed end nodes, with the links stored in the
  nodes themselves.  The nodes are of an arbitrary type; `Seg L a l b` says that
  following the links `L` from `a` one meets the nodes of `l`, in this order, and
  then `b`, and that the links back agree.

  Walking from one end to the other finds these nodes, forwards and, with the links
  exchanged (`flip`), backwards.

  The two primitives insert a node in front of another one and unlink a node.  They
  touch the links of their neighbours only, so whatever does not contain these
  neighbours is left alone (`Seg.congr`).
-/

import Mathlib.Logic.Function.Basic
import Mathlib.Data.List.Basic
import Mathlib.Data.List.Nodup

namespace ZxyOs.Lib

/-- The links of all nodes. -/
structure Links (α : Type) where
  next : α → α
  prev : α → α

namespace Links

variable {α : Type}

/-- From `a` through the nodes of `l` to `b`. -/
def Seg (L : Links α) : α → List α → α → Prop
  | a, [], b => L.next a = b ∧ L.prev b = a
  | a, x :: l, b => (L.next a = x ∧ L.prev x = a) ∧ Seg L x l b

section Seg

variable {L M : Links α} {a b c e : α} {l l₁ l₂ : List α}

theorem seg_append : L.Seg a (l₁ ++ e :: l₂) b ↔ L.Seg a l₁ e ∧ L.Seg e l₂ b := by
  induction l₁ generalizing a with
  | nil => simp [Seg]
  | cons x l₁ ih => simp [Seg, ih, and_assoc]

/-- A segment depends on the links of its nodes: forward from all but the last,
    backward from all but the first. -/
theorem Seg.congr (h : L.Seg a l b) (hnext : ∀ x ∈ a :: l, M.next x = L.next x)
    (hprev : ∀ x ∈ l ++ [b], M.prev x = L.prev x) : M.Seg a l b := by
  induction l generalizing a with
  | nil =>
    exact ⟨(hnext a (by simp)).trans h.1, (hprev b (by simp)).trans h.2⟩
  | cons x l ih =>
    refine ⟨⟨(hnext a (by simp)).trans h.1.1, (hprev x (by simp)).trans h.1.2⟩, ?_⟩
    exact ih h.2 (fun y hy => hnext y (List.mem_cons_of_mem _ hy))
      fun y hy => hprev y (List.mem_cons_of_mem _ hy)

/-- The node in front of the end of a segment. -/
theorem Seg.prev_mem (h : L.Seg a l b) : L.prev b ∈ a :: l := by
  induction l generalizing a with
  | nil => simp [h.2]
  | cons x l ih => exact List.mem_cons_of_mem _ (ih h.2)

/-- The node behind the start of a segment. -/
theorem Seg.next_mem (h : L.Seg a l b) : L.next a ∈ l ++ [b] := by
  cases l with
  | nil => simp [h.1]
  | cons x l => simp [h.1.1]

/-- Leading the last node of a segment to another end. -/
theorem Seg.retarget (h : L.Seg a l b) (hnodup : (a :: l).Nodup)
    (hnext : ∀ x ∈ a :: l, x ≠ L.prev b → M.next x = L.next x)
    (hprev : ∀ x ∈ l, M.prev x = L.prev x)
    (hlast : M.next (L.prev b) = c) (hback : M.prev c = L.prev b) : M.Seg a l c := by
  induction l generalizing a with
  | nil =>
    rw [h.2] at hlast hback
    exact ⟨hlast, hback⟩
  | cons x l ih =>
    have hmem := h.2.prev_mem
    have hne : a ≠ L.prev b := fun heq => (List.nodup_cons.mp hnodup).1 (heq ▸ hmem)
    refine ⟨⟨(hnext a (by simp) hne).trans h.1.1, (hprev x (by simp)).trans h.1.2⟩, ?_⟩
    exact ih h.2 (List.nodup_cons.mp hnodup).2
      (fun y hy hyne => hnext y (List.mem_cons_of_mem _ hy) hyne)
      fun y hy => hprev y (List.mem_cons_of_mem _ hy)

end Seg

/-! ## Walking along the links -/

/-- The links with front and back exchanged. -/
def flip (L : Links α) : Links α where
  next := L.prev
  prev := L.next

/-- Backwards one meets the nodes in the opposite order. -/
theorem Seg.flip {L : Links α} {a b : α} {l : List α} (h : L.Seg a l b) :
    L.flip.Seg b l.reverse a := by
  induction l generalizing a with
  | nil => exact ⟨h.2, h.1⟩
  | cons x l ih =>
    rw [List.reverse_cons]
    apply seg_append.mpr
    exact ⟨ih h.2, h.1.2, h.1.1⟩

variable [DecidableEq α]

/-- The nodes met from `x` on before `stop`, when it is met within `fuel` steps. -/
def walk (next : α → α) (stop : α) : Nat → α → Option (List α)
  | 0, _ => none
  | fuel + 1, x =>
    if x = stop then some [] else (walk next stop fuel (next x)).map (x :: ·)

theorem Seg.walk {L : Links α} {a b : α} {l : List α} {fuel : Nat} (h : L.Seg a l b)
    (hend : b ∉ l) (hfuel : l.length < fuel) :
    Links.walk L.next b fuel (L.next a) = some l := by
  induction l generalizing a fuel with
  | nil =>
    obtain ⟨fuel, rfl⟩ : ∃ n, fuel = n + 1 := ⟨fuel - 1, by simp at hfuel; omega⟩
    rw [h.1, Links.walk, if_pos rfl]
  | cons x l ih =>
    obtain ⟨fuel, rfl⟩ : ∃ n, fuel = n + 1 := ⟨fuel - 1, by simp at hfuel; omega⟩
    have hx : x ≠ b := fun heq => hend (heq ▸ List.mem_cons_self)
    have hrest := ih h.2 (fun hmem => hend (List.mem_cons_of_mem _ hmem))
      (show l.length < fuel by simp at hfuel; omega)
    rw [h.1.1, Links.walk, if_neg hx, hrest, Option.map_some]

/-! ## Inserting and unlinking -/

/-- Link `elem` in front of `before`. -/
def insertBefore (L : Links α) (before elem : α) : Links α where
  next := Function.update (Function.update L.next (L.prev before) elem) elem before
  prev := Function.update (Function.update L.prev elem (L.prev before)) before elem

/-- Unlink `e`. -/
def remove (L : Links α) (e : α) : Links α where
  next := Function.update L.next (L.prev e) (L.next e)
  prev := Function.update L.prev (L.next e) (L.prev e)

section Operations

variable {L : Links α} {a b c e x : α} {l l₁ l₂ : List α}

theorem insertBefore_next (hne : x ≠ L.prev b) (hx : x ≠ e) :
    (L.insertBefore b e).next x = L.next x := by
  simp [insertBefore, hne, hx]

theorem insertBefore_prev (hb : x ≠ b) (hx : x ≠ e) :
    (L.insertBefore b e).prev x = L.prev x := by
  simp [insertBefore, hb, hx]

/-- Inserting in front of the end appends to the list. -/
theorem Seg.insertBefore (h : L.Seg a l b) (hnodup : (a :: l ++ [b]).Nodup)
    (he : e ∉ a :: l ++ [b]) : (L.insertBefore b e).Seg a (l ++ [e]) b := by
  have hab := List.nodup_append.mp hnodup
  have hb : ∀ x ∈ a :: l, x ≠ b := fun x hx => hab.2.2 x hx b (by simp)
  have hae : ∀ x ∈ a :: l, x ≠ e := fun x hx heq => he (heq ▸ List.mem_append_left _ hx)
  have heb : e ≠ b := fun heq => he (heq ▸ by simp)
  have hpe : L.prev b ≠ e := hae _ h.prev_mem
  refine seg_append.mpr ⟨?_, ?_⟩
  · refine h.retarget hab.1 (fun x hx hne => insertBefore_next hne (hae x hx))
      (fun x hx => insertBefore_prev (hb x (by simp [hx])) (hae x (by simp [hx]))) ?_ ?_
    · simp [Links.insertBefore, hpe]
    · simp [Links.insertBefore, heb]
  · constructor
    · simp [Links.insertBefore]
    · simp [Links.insertBefore]

/-- Inserting in front of an inner node. -/
theorem Seg.insertInside (h : L.Seg a (l₁ ++ b :: l₂) c)
    (hnodup : (a :: (l₁ ++ b :: l₂) ++ [c]).Nodup) (he : e ∉ a :: (l₁ ++ b :: l₂) ++ [c]) :
    (L.insertBefore b e).Seg a (l₁ ++ e :: b :: l₂) c := by
  obtain ⟨h₁, h₂⟩ := seg_append.mp h
  have hsplit : a :: (l₁ ++ b :: l₂) ++ [c] = (a :: l₁ ++ [b]) ++ (l₂ ++ [c]) := by simp
  rw [hsplit] at hnodup he
  obtain ⟨hfront, hback, hdisj⟩ := List.nodup_append.mp hnodup
  have hnew := h₁.insertBefore hfront fun hmem => he (List.mem_append_left _ hmem)
  rw [show l₁ ++ e :: b :: l₂ = (l₁ ++ [e]) ++ b :: l₂ by simp]
  apply seg_append.mpr
  constructor
  · exact hnew
  -- behind `b` no link changes
  · refine h₂.congr (fun x hx => insertBefore_next ?_ ?_) fun x hx => insertBefore_prev ?_ ?_
    · rintro rfl
      have hprev : L.prev b ∈ a :: l₁ := h₁.prev_mem
      rcases List.mem_cons.mp hx with hb | hl
      · exact (List.nodup_append.mp hfront).2.2 _ hprev b (by simp) hb
      · exact hdisj _ (List.mem_append_left _ hprev) _ (List.mem_append_left _ hl) rfl
    · rintro rfl
      rcases List.mem_cons.mp hx with hb | hl
      · exact he (by simp [hb])
      · exact he (by simp [hl])
    · rintro rfl
      exact hdisj x (by simp) x hx rfl
    · rintro rfl
      exact he (List.mem_append_right _ hx)

/-- Unlinking a node takes it out of the list. -/
theorem Seg.remove (h : L.Seg a (l₁ ++ e :: l₂) b) (hnodup : (a :: (l₁ ++ e :: l₂) ++ [b]).Nodup) :
    (L.remove e).Seg a (l₁ ++ l₂) b := by
  obtain ⟨h1, h2⟩ := seg_append.mp h
  rw [show a :: (l₁ ++ e :: l₂) ++ [b] = (a :: l₁) ++ (e :: l₂ ++ [b]) by simp,
    List.nodup_append] at hnodup
  obtain ⟨hn1, hn2, hdisj⟩ := hnodup
  cases l₂ with
  | nil =>
    obtain ⟨hnext, -⟩ := h2
    rw [List.append_nil]
    have hb : ∀ x ∈ l₁, x ≠ b := fun x hx => hdisj x (by simp [hx]) b (by simp)
    refine h1.retarget hn1 (fun x _ hne => ?_) (fun x hx => ?_) ?_ ?_
    · simp [Links.remove, hne]
    · simp [Links.remove, hnext, hb x hx]
    · simp [Links.remove, hnext]
    · simp [Links.remove, hnext]
  | cons n l₂ =>
    obtain ⟨⟨hnext, -⟩, h2⟩ := h2
    refine seg_append.mpr ⟨?_, ?_⟩
    · have hn : ∀ x ∈ l₁, x ≠ n := fun x hx => hdisj x (by simp [hx]) n (by simp)
      refine h1.retarget hn1 (fun x _ hne => ?_) (fun x hx => ?_) ?_ ?_
      · simp [Links.remove, hne]
      · simp [Links.remove, hnext, hn x hx]
      · simp [Links.remove, hnext]
      · simp [Links.remove, hnext]
    · have hp : ∀ x ∈ n :: l₂, x ≠ L.prev e := fun x hx =>
        (hdisj _ h1.prev_mem x (List.mem_append_left _ (List.mem_cons_of_mem _ hx))).symm
      have hn : n ∉ l₂ ++ [b] :=
        (List.nodup_cons.mp (List.nodup_cons.mp hn2).2).1
      refine h2.congr (fun x hx => ?_) fun x hx => ?_
      · simp [Links.remove, hp x hx]
      · have hne : x ≠ n := fun heq => hn (heq ▸ hx)
        simp [Links.remove, hnext, hne]

end Operations

end Links

end ZxyOs.Lib
