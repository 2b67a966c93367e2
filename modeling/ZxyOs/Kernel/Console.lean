/-
  ZxyOs.Kernel.Console

  The text console of `lib/kernel/print.s` against a terminal of 25 lines.

  Video memory is a segment of bytes with a limit: a store behind it is a protection
  fault.  The cursor is in two byte registers of the display controller.  `put_char`
  works in 16-bit registers and compares them as signed numbers.

  `Shows` connects the console with a `Terminal`.  A backspace at position 0 stores at
  offset 0xfffe, behind the limit (`putChar_home`); every other call does what the
  terminal does, and so does a run of calls (`console_follows_terminal`).
-/

import ZxyOs.Lib.Terminal
import Mathlib.Logic.Function.Basic
import Mathlib.Algebra.Group.Nat.Defs
import Mathlib.Algebra.Group.Int.Defs

namespace ZxyOs

open Lib

/-- Video memory and the registers of the display controller.  `touched` collects the
    offsets that are stored to. -/
structure Console where
  vram : Nat → Nat
  crtc : Nat → Nat
  touched : List Nat

namespace Console

/-- The last offset of the video segment: 8 pages of 4 KiB. -/
def videoLimit : Nat := 0x7FFF

/-- A byte goes to video memory. -/
def store (s : Console) (offset value : Nat) : Console :=
  { s with vram := Function.update s.vram offset value, touched := offset :: s.touched }

/-- `mov byte [gs:offset], value`. -/
def movByte (s : Console) (offset value : Nat) : Option Console :=
  if offset ≤ videoLimit then some (s.store offset value) else none

/-- `mov word [gs:offset], 0x0720`, a blank. -/
def movBlank (s : Console) (offset : Nat) : Option Console :=
  if offset + 1 ≤ videoLimit then some ((s.store offset 0x20).store (offset + 1) 0x07) else none

/-- `movsd` on video memory. -/
def movsd (s : Console) (esi edi : Nat) : Console :=
  let byte (i : Nat) := s.vram (esi + i)
  (((s.store edi (byte 0)).store (edi + 1) (byte 1)).store (edi + 2) (byte 2)).store (edi + 3)
    (byte 3)

/-- `rep movsd`, `ecx` times. -/
def repMovsd (s : Console) : Nat → Nat → Nat → Console
  | 0, _, _ => s
  | ecx + 1, esi, edi => (s.movsd esi edi).repMovsd ecx (esi + 4) (edi + 4)

/-- The loops at `.cls`. -/
def cls (s : Console) : Nat → Nat → Option Console
  | 0, _ => some s
  | ecx + 1, ebx => do
    let s ← s.movBlank ebx
    s.cls ecx (ebx + 2)

/-- The cursor, from the registers 0x0e and 0x0f. -/
def cursor (s : Console) : Nat := s.crtc 0x0e * 256 + s.crtc 0x0f

/-- `.set_cursor`. -/
def outCursor (s : Console) (bx : Nat) : Console :=
  { s with crtc := Function.update (Function.update s.crtc 0x0e (bx / 256)) 0x0f (bx % 256) }

/-- A 16-bit register as a signed number. -/
def int16 (x : Nat) : Int := if x < 2 ^ 15 then x else (x : Int) - 2 ^ 16

/-- `.roll_screeen`. -/
def rollScreen (s : Console) : Option Console := do
  let s := s.repMovsd 960 0xa0 0
  let s ← s.cls 80 3840
  pure (s.outCursor 1920)

/-- `.is_line_feed` and `.is_carriage_return`. -/
def lineFeed (s : Console) (bx : Nat) : Option Console :=
  let dx := bx % 80
  let bx := (bx - dx + 80) % 2 ^ 16
  if int16 bx < 2000 then some (s.outCursor bx) else s.rollScreen

/-- `.is_backspace`. -/
def isBackspace (s : Console) (bx : Nat) : Option Console := do
  let bx := (bx + (2 ^ 16 - 1)) % 2 ^ 16
  let bx := bx * 2 % 2 ^ 16
  let s ← s.movByte bx 0x20
  let bx := (bx + 1) % 2 ^ 16
  let s ← s.movByte bx 0x07
  pure (s.outCursor (bx / 2))

/-- `.put_other`. -/
def putOther (s : Console) (bx cl : Nat) : Option Console := do
  let bx := bx * 2 % 2 ^ 16
  let s ← s.movByte bx cl
  let bx := (bx + 1) % 2 ^ 16
  let s ← s.movByte bx 0x07
  let bx := (bx / 2 + 1) % 2 ^ 16
  if int16 bx < 2000 then some (s.outCursor bx) else s.lineFeed bx

/-- `put_char`.  Only the low byte of its argument counts. -/
def putChar (s : Console) (char : Nat) : Option Console :=
  let bx := s.cursor
  let cl := char % 256
  if cl = 0x0d then s.lineFeed bx
  else if cl = 0x0a then s.lineFeed bx
  else if cl = 0x08 then s.isBackspace bx
  else s.putOther bx cl

/-- `set_cursor`. -/
def setCursor (s : Console) (pos : Nat) : Console := s.outCursor (pos % 2 ^ 16)

/-- `cls_screen`. -/
def clsScreen (s : Console) : Option Console := do
  let s ← s.cls (80 * 25) 0
  pure (s.outCursor 0)

end Console

/-- A character and its colours. -/
structure Cell where
  char : Nat
  attr : Nat
deriving DecidableEq

/-- A space, light grey on black. -/
def Cell.blank : Cell := ⟨0x20, 0x07⟩

/-- The screen of 25 lines with 80 characters each. -/
abbrev Screen : Type := Terminal 25 80 Cell

/-- A call of the console. -/
inductive ConsoleCall
  | putChar (char : Nat)
  | setCursor (pos : Fin 2000)
  | clsScreen

/-- What the code does. -/
def ConsoleCall.run (s : Console) : ConsoleCall → Option Console
  | .putChar char => s.putChar char
  | .setCursor pos => some (s.setCursor pos)
  | .clsScreen => s.clsScreen

/-- What a terminal does. -/
def ConsoleCall.screen (t : Screen) : ConsoleCall → Screen
  | .putChar char =>
    if char % 256 = 0x0d ∨ char % 256 = 0x0a then t.newline Cell.blank
    else if char % 256 = 0x08 then t.backspace Cell.blank
    else t.put Cell.blank ⟨char % 256, 0x07⟩
  | .setCursor pos => t.moveTo ⟨pos / 80, by omega⟩ ⟨pos % 80, by omega⟩
  | .clsScreen => t.clear Cell.blank

/-- A backspace before the first cell. -/
def ConsoleCall.AtHome (t : Screen) : ConsoleCall → Prop
  | .putChar char => char % 256 = 0x08 ∧ t.pos = 0
  | _ => False

namespace Console

/-- Video memory holds the page, and all stores have been in its 80 x 25 cells. -/
structure Page (s : Console) (cells : Fin 25 → Fin 80 → Cell) : Prop where
  char : ∀ (r : Fin 25) (c : Fin 80), s.vram (2 * (80 * r + c)) = (cells r c).char
  attr : ∀ (r : Fin 25) (c : Fin 80), s.vram (2 * (80 * r + c) + 1) = (cells r c).attr
  touched : ∀ offset ∈ s.touched, offset < 4000

/-- The console shows the screen, and its cursor is where the terminal writes. -/
structure Shows (s : Console) (t : Screen) : Prop where
  page : s.Page t.cells
  cursor : s.cursor = t.pos

section Stores

variable {s s' : Console} {t : Screen} {bx offset v : Nat}

@[simp] theorem outCursor_vram : (s.outCursor bx).vram = s.vram := rfl

@[simp] theorem outCursor_touched : (s.outCursor bx).touched = s.touched := rfl

@[simp] theorem outCursor_cursor : (s.outCursor bx).cursor = bx := by
  have : bx / 256 * 256 + bx % 256 = bx := Nat.div_add_mod' bx 256
  simpa [cursor, outCursor] using this

@[simp] theorem store_vram : (s.store offset v).vram = Function.update s.vram offset v := rfl

@[simp] theorem store_cursor : (s.store offset v).cursor = s.cursor := rfl

@[simp] theorem store_touched : (s.store offset v).touched = offset :: s.touched := rfl

theorem movByte_eq (h : offset ≤ 0x7FFF) : s.movByte offset v = some (s.store offset v) :=
  if_pos h

theorem movByte_beyond (h : 0x7FFF < offset) : s.movByte offset v = none :=
  if_neg (by unfold videoLimit; omega)

theorem int16_lt (h : bx < 2 ^ 15) : int16 bx < 2000 ↔ bx < 2000 := by
  rw [int16, if_pos h]
  omega

end Stores

/-! ## The loops -/

section Loops

variable {s : Console} {ecx esi edi ebx : Nat}

theorem movsd_vram (a : Nat) : (s.movsd esi edi).vram a =
    if edi ≤ a ∧ a < edi + 4 then s.vram (esi + (a - edi)) else s.vram a := by
  simp only [movsd, store_vram, Function.update_apply]
  split_ifs
  all_goals first
    | omega
    | rfl
    | exact congrArg s.vram (by omega)

@[simp] theorem movsd_cursor : (s.movsd esi edi).cursor = s.cursor := rfl

theorem movsd_touched {n : Nat} (h : ∀ offset ∈ s.touched, offset < n) (hn : edi + 4 ≤ n) :
    ∀ offset ∈ (s.movsd esi edi).touched, offset < n := by
  intro offset hoffset
  simp only [movsd, store_touched, List.mem_cons] at hoffset
  rcases hoffset with rfl | rfl | rfl | rfl | hoffset
  · omega
  · omega
  · omega
  · omega
  · exact h offset hoffset

/-- Copying to lower addresses does not disturb what is still to be read. -/
theorem repMovsd_vram (h : edi + 4 ≤ esi) (a : Nat) :
    (s.repMovsd ecx esi edi).vram a =
      if edi ≤ a ∧ a < edi + 4 * ecx then s.vram (esi + (a - edi)) else s.vram a := by
  induction ecx generalizing s esi edi with
  | zero => rw [repMovsd, if_neg (by omega)]
  | succ ecx ih =>
    rw [repMovsd, ih (by omega), movsd_vram, movsd_vram]
    split_ifs
    all_goals first
      | omega
      | rfl
      | exact congrArg s.vram (by omega)

theorem repMovsd_cursor : (s.repMovsd ecx esi edi).cursor = s.cursor := by
  induction ecx generalizing s esi edi with
  | zero => rfl
  | succ ecx ih => rw [repMovsd, ih, movsd_cursor]

theorem repMovsd_touched {n : Nat} (h : ∀ offset ∈ s.touched, offset < n)
    (hn : edi + 4 * ecx ≤ n) : ∀ offset ∈ (s.repMovsd ecx esi edi).touched, offset < n := by
  induction ecx generalizing s esi edi with
  | zero => exact h
  | succ ecx ih =>
    rw [repMovsd]
    exact ih (movsd_touched h (by omega)) (by omega)

/-- Blanks from `ebx` on. -/
theorem cls_eq (h : ebx + 2 * ecx ≤ 0x8000) : ∃ s', s.cls ecx ebx = some s' ∧
    (∀ i < ecx, s'.vram (ebx + 2 * i) = 0x20 ∧ s'.vram (ebx + 2 * i + 1) = 0x07) ∧
    (∀ a, a < ebx ∨ ebx + 2 * ecx ≤ a → s'.vram a = s.vram a) ∧ s'.cursor = s.cursor ∧
    ∀ n, ebx + 2 * ecx ≤ n → (∀ offset ∈ s.touched, offset < n) →
      ∀ offset ∈ s'.touched, offset < n := by
  induction ecx generalizing s ebx with
  | zero => exact ⟨s, rfl, by simp, fun _ _ => rfl, rfl, fun _ _ h => h⟩
  | succ ecx ih =>
    have hblank : s.movBlank ebx = some ((s.store ebx 0x20).store (ebx + 1) 0x07) :=
      if_pos (by unfold videoLimit; omega)
    obtain ⟨s', hs', hcells, hother, hcursor, htouched⟩ :=
      @ih ((s.store ebx 0x20).store (ebx + 1) 0x07) (ebx + 2) (by omega)
    refine ⟨s', ?_, ?_, ?_, hcursor, ?_⟩
    · rw [cls, hblank]
      exact hs'
    · intro i hi
      cases i with
      | zero =>
        have h₀ := hother ebx (by omega)
        have h₁ := hother (ebx + 1) (by omega)
        rw [store_vram, store_vram, Function.update_of_ne (by omega), Function.update_self] at h₀
        rw [store_vram, Function.update_self] at h₁
        exact ⟨h₀, h₁⟩
      | succ i =>
        have hi := hcells i (by omega)
        rwa [show ebx + 2 * (i + 1) = ebx + 2 + 2 * i by omega]
    · intro a ha
      rw [hother a (by omega)]
      simp only [store_vram, Function.update_apply]
      rw [if_neg (by omega), if_neg (by omega)]
    · intro n hn h
      apply htouched n (by omega)
      intro offset hoffset
      simp only [store_touched, List.mem_cons] at hoffset
      rcases hoffset with rfl | rfl | hoffset
      · omega
      · omega
      · exact h offset hoffset

end Loops

/-! ## The calls -/

section Calls

variable {s : Console} {t : Screen} {char : Nat}

theorem Page.outCursor {cells : Fin 25 → Fin 80 → Cell} {bx : Nat} (h : s.Page cells) :
    (s.outCursor bx).Page cells :=
  ⟨h.char, h.attr, h.touched⟩

/-- `.roll_screeen` scrolls and goes to the start of the last line. -/
theorem rollScreen_shows (h : s.Page t.cells) (hrow : (t.row : Nat) = 24)
    (hcol : (t.col : Nat) = 0) :
    ∃ s', s.rollScreen = some s' ∧ s'.Shows (t.scroll Cell.blank) := by
  obtain ⟨s', hs', hblank, hother, -, hin⟩ :=
    @cls_eq (s.repMovsd 960 0xa0 0) 80 3840 (by decide)
  have hmoved : ∀ a < 3840, s'.vram a = s.vram (160 + a) := by
    intro a ha
    rw [hother a (Or.inl ha), repMovsd_vram (by decide), if_pos (by omega), Nat.sub_zero]
  have hpage : s'.Page (t.scroll Cell.blank).cells := by
    constructor
    · intro r c
      rw [Terminal.scroll]
      dsimp only
      split_ifs with hr
      · rw [hmoved _ (by omega), ← h.char]
        congr 1
        dsimp only
        omega
      · rw [show 2 * (80 * (r : Nat) + c) = 3840 + 2 * c by omega]
        exact (hblank c c.isLt).1
    · intro r c
      rw [Terminal.scroll]
      dsimp only
      split_ifs with hr
      · rw [hmoved _ (by omega), ← h.attr]
        congr 1
        dsimp only
        omega
      · rw [show 2 * (80 * (r : Nat) + c) + 1 = 3840 + 2 * c + 1 by omega]
        exact (hblank c c.isLt).2
    · exact hin 4000 (by decide) (repMovsd_touched h.touched (by decide))
  refine ⟨s'.outCursor 1920, by rw [rollScreen, hs']; rfl, hpage.outCursor, ?_⟩
  rw [outCursor_cursor]
  show 1920 = 80 * (t.row : Nat) + t.col
  omega

/-- A line feed anywhere in the line, or one behind the end of the last line. -/
theorem lineFeed_shows {bx : Nat} (h : s.Page t.cells)
    (hbx : bx / 80 = t.row ∨ bx = 2000 ∧ (t.row : Nat) = 24) :
    ∃ s', s.lineFeed bx = some s' ∧ s'.Shows (t.newline Cell.blank) := by
  have hrow := t.row.isLt
  have hline : (bx - bx % 80 + 80) % 2 ^ 16 = bx - bx % 80 + 80 := Nat.mod_eq_of_lt (by omega)
  rw [lineFeed, hline]
  simp only [int16_lt (show bx - bx % 80 + 80 < 2 ^ 15 by omega)]
  by_cases hlast : (t.row : Nat) + 1 < 25
  · obtain ⟨hcells, hplace⟩ := Terminal.newline_inside Cell.blank hlast
    rw [if_pos (by omega)]
    refine ⟨_, rfl, hcells ▸ h.outCursor, ?_⟩
    rw [outCursor_cursor, hplace]
    omega
  · rw [if_neg (by omega), Terminal.newline_last Cell.blank hlast]
    apply rollScreen_shows
    · exact h
    · show (t.row : Nat) = 24
      omega
    · rfl

/-- A character goes to the cell at `r`, `c`. -/
theorem Page.put {r : Fin 25} {c : Fin 80} {v : Cell} (h : s.Page t.cells) :
    ((s.store (2 * (80 * r + c)) v.char).store (2 * (80 * r + c) + 1) v.attr).Page
      (t.setCell r c v).cells := by
  constructor
  · intro r' c'
    rw [store_vram, store_vram, Function.update_of_ne (by omega), Terminal.setCell]
    dsimp only
    split_ifs with hcell
    · obtain ⟨rfl, rfl⟩ := hcell
      exact Function.update_self _ _ _
    · rw [Function.update_of_ne, h.char]
      intro heq
      exact hcell ⟨Fin.ext (by omega), Fin.ext (by omega)⟩
  · intro r' c'
    rw [store_vram, store_vram, Terminal.setCell]
    dsimp only
    split_ifs with hcell
    · obtain ⟨rfl, rfl⟩ := hcell
      exact Function.update_self _ _ _
    · rw [Function.update_of_ne, Function.update_of_ne (by omega), h.attr]
      intro heq
      exact hcell ⟨Fin.ext (by omega), Fin.ext (by omega)⟩
  · intro offset hoffset
    simp only [store_touched, List.mem_cons] at hoffset
    rcases hoffset with rfl | rfl | hoffset
    · omega
    · omega
    · exact h.touched offset hoffset

theorem putOther_shows {cl : Nat} (h : s.Shows t) :
    ∃ s', s.putOther s.cursor cl = some s' ∧ s'.Shows (t.put Cell.blank ⟨cl, 0x07⟩) := by
  have hrow := t.row.isLt
  have hcol := t.col.isLt
  have hpos : s.cursor = 80 * (t.row : Nat) + t.col := h.cursor
  have hpage := h.page.put (r := t.row) (c := t.col) (v := ⟨cl, 0x07⟩)
  have h₁ : s.cursor * 2 % 2 ^ 16 = 2 * (80 * (t.row : Nat) + t.col) := by omega
  have h₂ : (2 * (80 * (t.row : Nat) + t.col) + 1) % 2 ^ 16 =
      2 * (80 * (t.row : Nat) + t.col) + 1 := by omega
  have h₃ : ((2 * (80 * (t.row : Nat) + t.col) + 1) / 2 + 1) % 2 ^ 16 = s.cursor + 1 := by omega
  rw [putOther]
  dsimp only
  rw [h₁, movByte_eq (by omega), Option.bind_eq_bind, Option.bind_some, h₂, movByte_eq (by omega),
    Option.bind_some, h₃]
  simp only [int16_lt (show s.cursor + 1 < 2 ^ 15 by omega)]
  by_cases hnext : (t.col : Nat) + 1 < 80
  · obtain ⟨hcells, hplace⟩ := Terminal.put_inside Cell.blank ⟨cl, 0x07⟩ hnext
    rw [if_pos (by omega)]
    refine ⟨_, rfl, hcells ▸ hpage.outCursor, ?_⟩
    rw [outCursor_cursor, hplace, h.cursor]
  · rw [Terminal.put_end Cell.blank _ hnext]
    by_cases hinner : (t.row : Nat) + 1 < 25
    -- the end of a line that is not the last one
    · obtain ⟨hcells, hplace⟩ := Terminal.newline_inside (t := t.setCell t.row t.col ⟨cl, 0x07⟩)
        Cell.blank hinner
      rw [if_pos (by omega)]
      refine ⟨_, rfl, hcells ▸ hpage.outCursor, ?_⟩
      rw [outCursor_cursor, hplace, Terminal.setCell_row]
      omega
    · rw [if_neg (by omega)]
      apply lineFeed_shows hpage
      right
      rw [Terminal.setCell_row]
      omega

theorem isBackspace_shows (h : s.Shows t) (hpos : t.pos ≠ 0) :
    ∃ s', s.isBackspace s.cursor = some s' ∧ s'.Shows (t.backspace Cell.blank) := by
  have hrow := t.row.isLt
  have hcol := t.col.isLt
  have hcursor : s.cursor = 80 * (t.row : Nat) + t.col := h.cursor
  rw [Terminal.backspace, if_neg hpos]
  rw [h.cursor.symm] at hpos
  extract_lets r c
  have hback : 80 * (r : Nat) + c = s.cursor - 1 := by
    by_cases hzero : (t.col : Nat) = 0
    · simp only [r, c, if_pos hzero]
      omega
    · simp only [r, c, if_neg hzero]
      omega
  have hpage := h.page.put (r := r) (c := c) (v := Cell.blank)
  have h₁ : (s.cursor + (2 ^ 16 - 1)) % 2 ^ 16 * 2 % 2 ^ 16 = 2 * (80 * (r : Nat) + c) := by omega
  have h₂ : (2 * (80 * (r : Nat) + c) + 1) % 2 ^ 16 = 2 * (80 * (r : Nat) + c) + 1 := by omega
  have h₃ : (2 * (80 * (r : Nat) + c) + 1) / 2 = 80 * (r : Nat) + c := by omega
  rw [isBackspace]
  dsimp only
  rw [h₁, movByte_eq (by omega), Option.bind_eq_bind, Option.bind_some, h₂, movByte_eq (by omega),
    Option.bind_some, h₃]
  exact ⟨_, rfl, hpage.outCursor, outCursor_cursor⟩

/-- With the cursor on the first cell a backspace wraps around to offset 0xfffe. -/
theorem putChar_home (h : s.cursor = 0) (hchar : char % 256 = 0x08) : s.putChar char = none := by
  have hback : s.putChar char = s.isBackspace 0 := by
    simp only [putChar, hchar, h]
    rfl
  rw [hback, isBackspace]
  dsimp only
  rw [movByte_beyond (by decide)]
  rfl

/-- A character that is not a backspace at position 0 does what the terminal does. -/
theorem putChar_shows (h : s.Shows t) (hhome : ¬(char % 256 = 0x08 ∧ t.pos = 0)) :
    ∃ s', s.putChar char = some s' ∧ s'.Shows ((ConsoleCall.putChar char).screen t) := by
  have hcol := t.col.isLt
  have hline : s.cursor / 80 = t.row := by
    have : s.cursor = 80 * (t.row : Nat) + t.col := h.cursor
    omega
  simp only [putChar, ConsoleCall.screen]
  by_cases hcr : char % 256 = 0x0d
  · rw [if_pos hcr, if_pos (Or.inl hcr)]
    exact lineFeed_shows h.page (Or.inl hline)
  by_cases hlf : char % 256 = 0x0a
  · rw [if_neg hcr, if_pos hlf, if_pos (Or.inr hlf)]
    exact lineFeed_shows h.page (Or.inl hline)
  rw [if_neg hcr, if_neg hlf, if_neg (not_or.mpr ⟨hcr, hlf⟩)]
  by_cases hbs : char % 256 = 0x08
  · rw [if_pos hbs, if_pos hbs]
    exact isBackspace_shows h fun hpos => hhome ⟨hbs, hpos⟩
  · rw [if_neg hbs, if_neg hbs]
    exact putOther_shows h

theorem setCursor_shows (h : s.Shows t) (pos : Fin 2000) :
    (s.setCursor pos).Shows ((ConsoleCall.setCursor pos).screen t) := by
  refine ⟨h.page.outCursor, ?_⟩
  rw [setCursor, outCursor_cursor, Nat.mod_eq_of_lt (by omega)]
  show (pos : Nat) = 80 * (pos / 80) + pos % 80
  omega

theorem clsScreen_shows (h : s.Shows t) :
    ∃ s', s.clsScreen = some s' ∧ s'.Shows (ConsoleCall.clsScreen.screen t) := by
  obtain ⟨s', hs', hblank, -, -, hin⟩ := @cls_eq s (80 * 25) 0 (by decide)
  refine ⟨s'.outCursor 0, by rw [clsScreen, hs']; rfl, Page.outCursor ⟨?_, ?_, ?_⟩, ?_⟩
  · intro r c
    have := (hblank (80 * r + c) (by omega)).1
    rwa [Nat.zero_add] at this
  · intro r c
    have := (hblank (80 * r + c) (by omega)).2
    rwa [Nat.zero_add] at this
  · exact hin 4000 (by decide) h.page.touched
  · rw [outCursor_cursor]
    rfl

/-- Each call but a backspace at position 0 does what the terminal does. -/
theorem run_shows (h : s.Shows t) (op : ConsoleCall) (hhome : ¬op.AtHome t) :
    ∃ s', op.run s = some s' ∧ s'.Shows (op.screen t) := by
  cases op with
  | putChar char => exact putChar_shows h hhome
  | setCursor pos => exact ⟨_, rfl, setCursor_shows h pos⟩
  | clsScreen => exact clsScreen_shows h

theorem run_home (h : s.Shows t) (op : ConsoleCall) (hhome : op.AtHome t) : op.run s = none := by
  cases op with
  | putChar char => exact putChar_home (h.cursor.trans hhome.2) hhome.1
  | setCursor pos => exact hhome.elim
  | clsScreen => exact hhome.elim

end Calls

end Console

/-- No call of the run is a backspace at position 0. -/
def NeverAtHome (t : Screen) : List ConsoleCall → Prop
  | [] => True
  | op :: ops => ¬op.AtHome t ∧ NeverAtHome (op.screen t) ops

/-- The console stays on the screen and shows what the terminal shows, as long as no
    backspace comes at position 0, and no longer. -/
theorem console_follows_terminal {s : Console} {t : Screen} (h : s.Shows t)
    (ops : List ConsoleCall) :
    (∃ s', ops.foldlM ConsoleCall.run s = some s' ∧ s'.cursor < 2000 ∧
      s'.Shows (ops.foldl ConsoleCall.screen t)) ↔ NeverAtHome t ops := by
  induction ops generalizing s t with
  | nil =>
    refine iff_of_true ⟨s, rfl, ?_, h⟩ trivial
    rw [h.cursor]
    exact t.pos_lt
  | cons op ops ih =>
    rw [NeverAtHome, List.foldlM_cons, List.foldl_cons]
    by_cases hhome : op.AtHome t
    · rw [Console.run_home h op hhome]
      refine iff_of_false ?_ fun hnever => hnever.1 hhome
      rintro ⟨s', hs', -⟩
      cases hs'
    · obtain ⟨s₁, hs₁, h₁⟩ := Console.run_shows h op hhome
      rw [hs₁, Option.bind_eq_bind, Option.bind_some, ih h₁]
      exact ⟨fun hnever => ⟨hhome, hnever⟩, And.right⟩

/-- A blank page. -/
def Console.blankPage : Console where
  vram := fun offset => if offset % 2 = 0 then 0x20 else 0x07
  crtc := fun _ => 0
  touched := []

def Screen.blank : Screen where
  cells := fun _ _ => Cell.blank
  row := 0
  col := 0

theorem Console.blankPage_shows : Console.blankPage.Shows Screen.blank where
  page := by
    constructor
    · intro r c
      exact if_pos (by omega)
    · intro r c
      exact if_neg (by omega)
    · intro offset hoffset
      cases hoffset
  cursor := rfl

theorem console_follows_terminal_blank :
    ∃ s', [ConsoleCall.putChar 0x41, .putChar 0x08].foldlM ConsoleCall.run Console.blankPage =
        some s' ∧ s'.cursor < 2000 ∧
      s'.Shows ([ConsoleCall.putChar 0x41, .putChar 0x08].foldl ConsoleCall.screen Screen.blank) :=
  (console_follows_terminal Console.blankPage_shows _).mpr (by
    refine ⟨?_, ?_, trivial⟩
    · rintro ⟨h, -⟩
      exact absurd h (by decide)
    · rintro ⟨-, h⟩
      exact absurd h (by decide))

/-- One backspace on a fresh screen is enough to leave it. -/
theorem console_leaves_screen :
    ¬∀ (s : Console) (t : Screen), s.Shows t → ∀ ops : List ConsoleCall,
      ∃ s', ops.foldlM ConsoleCall.run s = some s' ∧ s'.cursor < 2000 ∧
        s'.Shows (ops.foldl ConsoleCall.screen t) := by
  intro h
  obtain ⟨s', hs', -⟩ := h _ _ Console.blankPage_shows [.putChar 0x08]
  rw [List.foldlM_cons, Console.run_home Console.blankPage_shows (.putChar 0x08) ⟨rfl, rfl⟩] at hs'
  cases hs'

end ZxyOs
