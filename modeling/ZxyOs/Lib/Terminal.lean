/-
  ZxyOs.Lib.Terminal

  A text terminal: a page of cells and a place to write.

  A cell is of an arbitrary type; what an erased one holds is the parameter `blank`.
  The place is a pair of bounded numbers, so it never leaves the page: a character
  behind the last column starts the next line, and a line behind the last one scrolls
  the page up.
-/

import Mathlib.Data.Fin.Basic

namespace ZxyOs.Lib

/-- A page of `rows` lines of `cols` cells. -/
structure Terminal (rows cols : Nat) (α : Type) where
  cells : Fin rows → Fin cols → α
  row : Fin rows
  col : Fin cols

namespace Terminal

variable {rows cols : Nat} {α : Type}

/-- The number of the place, counted along the lines. -/
def pos (t : Terminal rows cols α) : Nat := cols * t.row + t.col

/-- A new content of the cell at `r`, `c`. -/
def setCell (t : Terminal rows cols α) (r : Fin rows) (c : Fin cols) (v : α) :
    Terminal rows cols α :=
  { t with cells := fun r' c' => if r' = r ∧ c' = c then v else t.cells r' c' }

/-- Every line moves up, and the last one is blank. -/
def scroll (blank : α) (t : Terminal rows cols α) : Terminal rows cols α :=
  { t with cells := fun r c => if h : r + 1 < rows then t.cells ⟨r + 1, h⟩ c else blank }

/-- To the start of the next line. -/
def newline (blank : α) (t : Terminal rows cols α) : Terminal rows cols α :=
  let t := { t with col := ⟨0, Nat.zero_lt_of_lt t.col.isLt⟩ }
  if h : t.row + 1 < rows then { t with row := ⟨t.row + 1, h⟩ } else t.scroll blank

/-- A character at the place, which advances. -/
def put (blank : α) (t : Terminal rows cols α) (v : α) : Terminal rows cols α :=
  let t := t.setCell t.row t.col v
  if h : t.col + 1 < cols then { t with col := ⟨t.col + 1, h⟩ } else t.newline blank

/-- Back to the previous cell, which is erased.  There is none before the first. -/
def backspace (blank : α) (t : Terminal rows cols α) : Terminal rows cols α :=
  if t.pos = 0 then t
  else
    let r : Fin rows :=
      if (t.col : Nat) = 0 then ⟨t.row - 1, Nat.lt_of_le_of_lt (Nat.sub_le _ _) t.row.isLt⟩
      else t.row
    let c : Fin cols :=
      if (t.col : Nat) = 0 then ⟨cols - 1, Nat.sub_one_lt_of_lt t.col.isLt⟩
      else ⟨t.col - 1, Nat.lt_of_le_of_lt (Nat.sub_le _ _) t.col.isLt⟩
    { t.setCell r c blank with row := r, col := c }

/-- To a given place. -/
def moveTo (t : Terminal rows cols α) (r : Fin rows) (c : Fin cols) : Terminal rows cols α :=
  { t with row := r, col := c }

/-- All blank, at the first cell. -/
def clear (blank : α) (t : Terminal rows cols α) : Terminal rows cols α where
  cells := fun _ _ => blank
  row := ⟨0, Nat.zero_lt_of_lt t.row.isLt⟩
  col := ⟨0, Nat.zero_lt_of_lt t.col.isLt⟩

section Places

variable {t : Terminal rows cols α} {v : α}

theorem pos_lt (t : Terminal rows cols α) : t.pos < rows * cols := by
  have hrow : t.row + 1 ≤ rows := t.row.isLt
  have hcol := t.col.isLt
  calc t.pos < cols * t.row + cols := Nat.add_lt_add_left hcol _
    _ = cols * (t.row + 1) := (Nat.mul_succ _ _).symm
    _ ≤ cols * rows := Nat.mul_le_mul_left _ hrow
    _ = rows * cols := Nat.mul_comm _ _

@[simp] theorem setCell_row {r : Fin rows} {c : Fin cols} : (t.setCell r c v).row = t.row := rfl

@[simp] theorem setCell_col {r : Fin rows} {c : Fin cols} : (t.setCell r c v).col = t.col := rfl

theorem newline_inside (blank : α) (h : t.row + 1 < rows) :
    (t.newline blank).cells = t.cells ∧ (t.newline blank).pos = cols * (t.row + 1) := by
  have heq : t.newline blank =
      { t with row := ⟨t.row + 1, h⟩, col := ⟨0, Nat.zero_lt_of_lt t.col.isLt⟩ } := dif_pos h
  rw [heq]
  exact ⟨rfl, rfl⟩

theorem newline_last (blank : α) (h : ¬t.row + 1 < rows) :
    t.newline blank = scroll blank { t with col := ⟨0, Nat.zero_lt_of_lt t.col.isLt⟩ } :=
  dif_neg h

theorem put_inside (blank v : α) (h : t.col + 1 < cols) :
    (t.put blank v).cells = (t.setCell t.row t.col v).cells ∧
      (t.put blank v).pos = t.pos + 1 := by
  have heq : t.put blank v = { t.setCell t.row t.col v with col := ⟨t.col + 1, h⟩ } := dif_pos h
  rw [heq]
  exact ⟨rfl, rfl⟩

theorem put_end (blank v : α) (h : ¬t.col + 1 < cols) :
    t.put blank v = (t.setCell t.row t.col v).newline blank :=
  dif_neg h

end Places

end Terminal

end ZxyOs.Lib
