/-
  ZxyOs.Device.Keyboard

  The keyboard driver, `intr_keyboard_handler` of `device/keyboard.c`.

  The handler gets one byte of a scan code at a time.  `keyEvents` takes the bytes apart
  into keys that go down and up; what the handler remembers of them are the modifier
  keys, each as its last event left it (`handled_modifiers`).  `typed` is what it
  delivers.  For every text there are keystrokes that type it (`typed_keystrokes`).
-/

import Mathlib.Data.List.Basic
import Mathlib.Tactic.SplitIfs

namespace ZxyOs

/-! ## The handler -/

/-- The static flags of the driver. -/
structure Kbd where
  ctrlStatus : Bool := false
  shiftStatus : Bool := false
  altStatus : Bool := false
  capsLockStatus : Bool := false
  extScancode : Bool := false
deriving DecidableEq

abbrev shiftLMake : Nat := 0x2a
abbrev shiftRMake : Nat := 0x36
abbrev altLMake : Nat := 0x38
abbrev altRMake : Nat := 0xe038
abbrev ctrlLMake : Nat := 0x1d
abbrev ctrlRMake : Nat := 0xe01d
abbrev capsLockMake : Nat := 0x3a

/-- `keymap`, by scan code: the character without shift and with it. -/
def keymap : List (UInt8 × UInt8) :=
  [(0, 0), (27, 27), (49, 33), (50, 64), (51, 35), (52, 36), (53, 37), (54, 94), (55, 38), (56, 42), (57, 40),
    (48, 41), (45, 95), (61, 43), (8, 8), (9, 9), (113, 81), (119, 87), (101, 69), (114, 82), (116, 84), (121, 89),
    (117, 85), (105, 73), (111, 79), (112, 80), (91, 123), (93, 125), (13, 13), (0, 0), (97, 65), (115, 83),
    (100, 68), (102, 70), (103, 71), (104, 72), (106, 74), (107, 75), (108, 76), (59, 58), (39, 34), (96, 126),
    (0, 0), (92, 124), (122, 90), (120, 88), (99, 67), (118, 86), (98, 66), (110, 78), (109, 77), (44, 60),
    (46, 62), (47, 63), (0, 0), (42, 42), (0, 0), (32, 32), (0, 0)]

/-- `keymap[index][shift]`. -/
def keyChar (index : Nat) (shift : Bool) : UInt8 :=
  let entry := keymap.getD index (0, 0)
  if shift then entry.2 else entry.1

namespace Kbd

/-- The flags once the key with the given make code is up. -/
def released (s : Kbd) (makeCode : Nat) : Kbd :=
  if makeCode = ctrlLMake ∨ makeCode = ctrlRMake then { s with ctrlStatus := false }
  else if makeCode = shiftLMake ∨ makeCode = shiftRMake then { s with shiftStatus := false }
  else if makeCode = altLMake ∨ makeCode = altRMake then { s with altStatus := false }
  else s

/-- The flags once a key without a character is down. -/
def pressed (s : Kbd) (scancode : Nat) : Kbd :=
  if scancode = ctrlLMake ∨ scancode = ctrlRMake then { s with ctrlStatus := true }
  else if scancode = shiftLMake ∨ scancode = shiftRMake then { s with shiftStatus := true }
  else if scancode = altLMake ∨ scancode = altRMake then { s with altStatus := true }
  else if scancode = capsLockMake then { s with capsLockStatus := !s.capsLockStatus }
  else s

/-- Which column of the keymap a key is looked up in. -/
def shift (s : Kbd) (scancode : Nat) : Bool :=
  if scancode < 0x0e ∨ scancode = 0x29 ∨ scancode = 0x1a ∨ scancode = 0x1b ∨ scancode = 0x2b ∨ scancode = 0x27 ∨
      scancode = 0x28 ∨ scancode = 0x33 ∨ scancode = 0x34 ∨ scancode = 0x35 then
    s.shiftStatus
  else if s.shiftStatus && s.capsLockStatus then false
  else s.shiftStatus || s.capsLockStatus

/-- `ctrl+l` and `ctrl+u`. -/
def shortcut (s : Kbd) (curCh : UInt8) : UInt8 :=
  if (s.ctrlStatus && curCh = 108) || (s.ctrlStatus && curCh = 117) then curCh - 97 else curCh

/-- The handler behind the assembly of the scan code. -/
def handle (s : Kbd) (scancode : Nat) : Kbd × Option UInt8 :=
  if scancode &&& 0x80 ≠ 0 then
    (s.released (scancode &&& 0xff7f), none)
  else if (0 < scancode ∧ scancode < 0x3b) ∨ scancode = altRMake ∨ scancode = ctrlRMake then
    let curCh := keyChar (scancode &&& 0xff) (s.shift scancode)
    if curCh ≠ 0 then (s, some (s.shortcut curCh))
    else (s.pressed (scancode &&& 0xff), none)
  -- "unknown key"
  else (s, none)

end Kbd

/-- `intr_keyboard_handler` with the byte it reads from the port: the flags, and the character
    that is meant for the buffer. -/
def intrKeyboardHandler (s : Kbd) (byte : UInt8) : Kbd × Option UInt8 :=
  if byte = 0xe0 then ({ s with extScancode := true }, none)
  else
    let scancode := if s.extScancode then 0xe000 ||| byte.toNat else byte.toNat
    Kbd.handle { s with extScancode := false } scancode

/-- The flags after some bytes. -/
def Kbd.after (s : Kbd) : List UInt8 → Kbd
  | [] => s
  | byte :: bytes => (intrKeyboardHandler s byte).1.after bytes

/-- The characters some bytes deliver. -/
def Kbd.typed (s : Kbd) : List UInt8 → List UInt8
  | [] => []
  | byte :: bytes => (intrKeyboardHandler s byte).2.toList ++ (intrKeyboardHandler s byte).1.typed bytes

theorem Kbd.after_append (s : Kbd) (xs ys : List UInt8) : s.after (xs ++ ys) = (s.after xs).after ys := by
  induction xs generalizing s with
  | nil => rfl
  | cons x xs ih => exact ih _

theorem Kbd.typed_append (s : Kbd) (xs ys : List UInt8) :
    s.typed (xs ++ ys) = s.typed xs ++ (s.after xs).typed ys := by
  induction xs generalizing s with
  | nil => rfl
  | cons x xs ih =>
    rw [List.cons_append, Kbd.typed, ih, ← List.append_assoc]
    rfl

theorem Kbd.shortcut_ne_zero {s : Kbd} {c : UInt8} (h : c ≠ 0) : s.shortcut c ≠ 0 := by
  unfold shortcut
  split
  · next hkey =>
    simp only [Bool.or_eq_true, Bool.and_eq_true, decide_eq_true_eq] at hkey
    rcases hkey with ⟨-, rfl⟩ | ⟨-, rfl⟩ <;> decide
  · exact h

/-- The handler delivers no NUL. -/
theorem Kbd.handle_ne_zero {s : Kbd} {scancode : Nat} {c : UInt8} (h : (s.handle scancode).2 = some c) : c ≠ 0 := by
  unfold handle at h
  dsimp only at h
  split_ifs at h with hbreak hknown hchar
  obtain rfl := Option.some.inj h
  exact shortcut_ne_zero hchar

theorem intrKeyboardHandler_ne_zero {s : Kbd} {byte c : UInt8} (h : (intrKeyboardHandler s byte).2 = some c) :
    c ≠ 0 := by
  unfold intrKeyboardHandler at h
  split at h
  · cases h
  · exact Kbd.handle_ne_zero h

/-! ## Keys -/

/-- A key goes down, or up. -/
structure KeyEvent where
  makeCode : Nat
  down : Bool

/-- The event of a scan code. -/
def KeyEvent.ofScancode (scancode : Nat) : KeyEvent := ⟨scancode &&& 0xff7f, decide (scancode &&& 0x80 = 0)⟩

/-- The events in a stream of bytes; `ext` says that the last one was `0xe0`. -/
def keyEvents : Bool → List UInt8 → List KeyEvent
  | _, [] => []
  | ext, byte :: bytes =>
    if byte = 0xe0 then keyEvents true bytes
    else KeyEvent.ofScancode (if ext then 0xe000 ||| byte.toNat else byte.toNat) :: keyEvents false bytes

/-- What the last event of one of the keys has left. -/
def lastLeft (keys : List Nat) (down : Bool) : List KeyEvent → Bool
  | [] => down
  | e :: es => lastLeft keys (if e.makeCode ∈ keys then e.down else down) es

/-- Whether one more press of a key turns a state that was `on`. -/
def toggled (key : Nat) (on : Bool) : List KeyEvent → Bool
  | [] => on
  | e :: es => toggled key (if e.makeCode = key ∧ e.down then !on else on) es

/-- The flags are what the events say. -/
structure Kbd.Remembers (s : Kbd) (es : List KeyEvent) (s' : Kbd) : Prop where
  ctrl : s'.ctrlStatus = lastLeft [ctrlLMake, ctrlRMake] s.ctrlStatus es
  shift : s'.shiftStatus = lastLeft [shiftLMake, shiftRMake] s.shiftStatus es
  alt : s'.altStatus = lastLeft [altLMake, altRMake] s.altStatus es
  capsLock : s'.capsLockStatus = toggled capsLockMake s.capsLockStatus es

section Events

variable {s : Kbd} {scancode m : Nat} {ext : Bool} {es : List KeyEvent}

/-- The keys without a character. -/
theorem keyChar_eq_zero : ∀ k < 0x3b, 0 < k → ∀ shift,
    keyChar k shift = 0 ↔ k = 0x1d ∨ k = 0x2a ∨ k = 0x36 ∨ k = 0x38 ∨ k = 0x3a := by
  decide

/-- A scan code that is no break code is its own make code. -/
theorem makeCode_eq : ∀ b < 256, ∀ ext : Bool, (if ext then 0xe000 ||| b else b) &&& 0x80 = 0 →
    (if ext then 0xe000 ||| b else b) &&& 0xff7f = (if ext then 0xe000 ||| b else b) ∧
      ((if ext then 0xe000 ||| b else b) < 0x3b →
        (if ext then 0xe000 ||| b else b) &&& 0xff = (if ext then 0xe000 ||| b else b)) := by
  decide +kernel

theorem remembers_released (h : m = scancode &&& 0xff7f) :
    s.Remembers [⟨m, false⟩] (s.released (scancode &&& 0xff7f)) := by
  rw [← h]
  unfold Kbd.released
  -- one case for each branch; the keys of the branches are different
  split
  · next hm => rcases hm with rfl | rfl <;> exact ⟨rfl, rfl, rfl, rfl⟩
  split
  · next hm => rcases hm with rfl | rfl <;> exact ⟨rfl, rfl, rfl, rfl⟩
  split
  · next hm => rcases hm with rfl | rfl <;> exact ⟨rfl, rfl, rfl, rfl⟩
  · next hctrl hshift halt => constructor <;> simp [lastLeft, toggled, hctrl, hshift, halt]

/-- The keys the driver remembers. -/
def modifierKeys : List Nat := [ctrlLMake, ctrlRMake, shiftLMake, shiftRMake, altLMake, altRMake, capsLockMake]

theorem mem_modifiers : m ∈ modifierKeys ↔
    m = 0x1d ∨ m = 0xe01d ∨ m = 0x2a ∨ m = 0x36 ∨ m = 0x38 ∨ m = 0xe038 ∨ m = 0x3a := by
  simp [modifierKeys]

theorem remembers_other {down : Bool} (h : m ∉ modifierKeys) : s.Remembers [⟨m, down⟩] s := by
  simp only [modifierKeys, List.mem_cons, List.not_mem_nil, or_false, not_or] at h
  constructor <;> simp [lastLeft, toggled, h]

theorem released_ext (s : Kbd) (m : Nat) : (s.released m).extScancode = s.extScancode := by
  unfold Kbd.released
  split_ifs <;> rfl

theorem pressed_ext (s : Kbd) (m : Nat) : (s.pressed m).extScancode = s.extScancode := by
  unfold Kbd.pressed
  split_ifs <;> rfl

theorem handle_ext (s : Kbd) (scancode : Nat) : (s.handle scancode).1.extScancode = s.extScancode := by
  unfold Kbd.handle
  dsimp only
  split_ifs
  · exact released_ext ..
  · rfl
  · exact pressed_ext ..
  · rfl

/-- One scan code. -/
theorem remembers_handle
    (hmake : scancode &&& 0x80 = 0 → scancode &&& 0xff7f = scancode ∧ (scancode < 0x3b → scancode &&& 0xff = scancode)) :
    s.Remembers [.ofScancode scancode] (s.handle scancode).1 := by
  unfold Kbd.handle
  split
  · next hbreak =>
    rw [KeyEvent.ofScancode, decide_eq_false hbreak]
    exact remembers_released rfl
  next hbreak =>
  obtain ⟨hcode, hlow⟩ := hmake (not_not.mp hbreak)
  rw [KeyEvent.ofScancode, decide_eq_true (not_not.mp hbreak), hcode]
  split
  · next hknown =>
    dsimp only
    rcases hknown with ⟨hpos, hlt⟩ | rfl | rfl
    · rw [hlow hlt]
      split
      · -- a key with a character is none of the others
        next hchar =>
        have hnone := mt (keyChar_eq_zero scancode hlt hpos _).mpr hchar
        refine remembers_other fun hmem => hnone ?_
        rcases mem_modifiers.mp hmem with h | h | h | h | h | h | h <;> omega
      · next hchar =>
        rcases (keyChar_eq_zero scancode hlt hpos _).mp (not_not.mp hchar) with rfl | rfl | rfl | rfl | rfl <;>
          exact ⟨rfl, rfl, rfl, rfl⟩
    -- the keys on the right are told apart by the prefix only
    · cases s.shift altRMake <;> exact ⟨rfl, rfl, rfl, rfl⟩
    · cases s.shift ctrlRMake <;> exact ⟨rfl, rfl, rfl, rfl⟩
  · next hknown =>
    refine remembers_other fun hmem => hknown ?_
    rcases mem_modifiers.mp hmem with h | h | h | h | h | h | h
    · exact Or.inl (by omega)
    · exact Or.inr (Or.inr h)
    · exact Or.inl (by omega)
    · exact Or.inl (by omega)
    · exact Or.inl (by omega)
    · exact Or.inr (Or.inl h)
    · exact Or.inl (by omega)

theorem Kbd.Remembers.cons {e : KeyEvent} {s₁ s₂ : Kbd} (h : s.Remembers [e] s₁) (h' : s₁.Remembers es s₂) :
    s.Remembers (e :: es) s₂ where
  ctrl := by
    rw [h'.ctrl, h.ctrl]
    rfl
  shift := by
    rw [h'.shift, h.shift]
    rfl
  alt := by
    rw [h'.alt, h.alt]
    rfl
  capsLock := by
    rw [h'.capsLock, h.capsLock]
    rfl

end Events

/-- Whatever bytes arrive, the driver holds `ctrl`, `shift` and `alt` for down exactly if the last
    event of such a key was a press, and `caps lock` has been turned by every press of its key. -/
theorem handled_modifiers (s : Kbd) (bytes : List UInt8) :
    s.Remembers (keyEvents s.extScancode bytes) (s.after bytes) := by
  induction bytes generalizing s with
  | nil => exact ⟨rfl, rfl, rfl, rfl⟩
  | cons byte bytes ih =>
    rw [keyEvents, Kbd.after]
    by_cases hpre : byte = 0xe0
    · rw [if_pos hpre, intrKeyboardHandler, if_pos hpre]
      have h := ih { s with extScancode := true }
      exact ⟨h.ctrl, h.shift, h.alt, h.capsLock⟩
    · rw [if_neg hpre, intrKeyboardHandler, if_neg hpre]
      dsimp only
      have hone := remembers_handle (s := { s with extScancode := false })
        (makeCode_eq byte.toNat byte.toNat_lt s.extScancode)
      have hrest := ih (Kbd.handle { s with extScancode := false }
        (if s.extScancode then 0xe000 ||| byte.toNat else byte.toNat)).1
      rw [handle_ext] at hrest
      have h := hone.cons hrest
      exact ⟨h.ctrl, h.shift, h.alt, h.capsLock⟩

/-! ## Typing -/

/-- A key, and whether shift is held: down and up again. -/
def strokes (key : Nat × Bool) : List UInt8 :=
  let code := UInt8.ofNat key.1
  if key.2 then [0x2a, code, code + 0x80, 0xaa] else [code, code + 0x80]

/-- A key for a character. -/
def keyOf (c : UInt8) : Option (Nat × Bool) :=
  ((List.range 0x3b).flatMap fun k => [(k, false), (k, true)]).find? fun key => keyChar key.1 key.2 = c

/-- Keystrokes for a text. -/
def keystrokes (text : List UInt8) : List UInt8 := text.flatMap fun c => ((keyOf c).map strokes).getD []

/-- A character there is a key for. -/
def Typable (c : UInt8) : Prop := c ≠ 0 ∧ (keyOf c).isSome = true

instance : DecidablePred Typable := fun c => inferInstanceAs (Decidable (c ≠ 0 ∧ (keyOf c).isSome = true))

/-- While no modifier is on, a key types its character and leaves no modifier on. -/
theorem typed_strokes : ∀ k < 0x3b, ∀ shift, keyChar k shift ≠ 0 →
    Kbd.typed {} (strokes (k, shift)) = [keyChar k shift] ∧ Kbd.after {} (strokes (k, shift)) = {} := by
  decide +kernel

theorem keyOf_some {c : UInt8} {key : Nat × Bool} (h : keyOf c = some key) :
    key.1 < 0x3b ∧ keyChar key.1 key.2 = c := by
  have hmem := List.mem_of_find?_eq_some h
  have hchar := List.find?_some h
  refine ⟨?_, by simpa using hchar⟩
  obtain ⟨k, hk, hkey⟩ := List.mem_flatMap.mp hmem
  rw [List.mem_range] at hk
  rcases List.mem_pair.mp hkey with rfl | rfl <;> exact hk

theorem keystrokes_typable {text : List UInt8} (htext : ∀ c ∈ text, Typable c) :
    Kbd.typed {} (keystrokes text) = text ∧ Kbd.after {} (keystrokes text) = {} := by
  induction text with
  | nil => exact ⟨rfl, rfl⟩
  | cons c text ih =>
    obtain ⟨hne, hsome⟩ := htext c List.mem_cons_self
    obtain ⟨⟨k, shift⟩, hkey⟩ := Option.isSome_iff_exists.mp hsome
    obtain ⟨hk, hchar⟩ := keyOf_some hkey
    obtain ⟨htyped, hafter⟩ := typed_strokes k hk shift (hchar ▸ hne)
    obtain ⟨hrest, hend⟩ := ih fun d hd => htext d (List.mem_cons_of_mem _ hd)
    have hcut : keystrokes (c :: text) = strokes (k, shift) ++ keystrokes text := by
      rw [keystrokes, List.flatMap_cons, hkey]
      rfl
    rw [hcut, Kbd.typed_append, Kbd.after_append, htyped, hafter, hrest, hend, hchar]
    exact ⟨rfl, rfl⟩

/-- Every printable character of ASCII can be typed, and so can the carriage return. -/
theorem typable_printable {c : UInt8} (h : 32 ≤ c ∧ c < 127 ∨ c = 13) : Typable c := by
  have hall : ∀ n < 127, 32 ≤ n ∨ n = 13 → Typable (UInt8.ofNat n) := by decide +kernel
  rw [← UInt8.ofNat_toNat (x := c)]
  rcases h with ⟨hlo, hhi⟩ | rfl
  · exact hall c.toNat (UInt8.lt_iff_toNat_lt.mp hhi) (Or.inl (UInt8.le_iff_toNat_le.mp hlo))
  · decide

/-- For every text of printable characters there are keystrokes that the driver turns into this text,
    and after which no modifier is on. -/
theorem typed_keystrokes (text : List UInt8) (htext : ∀ c ∈ text, 32 ≤ c ∧ c < 127 ∨ c = 13) :
    Kbd.typed {} (keystrokes text) = text ∧ Kbd.after {} (keystrokes text) = {} :=
  keystrokes_typable fun c hc => typable_printable (htext c hc)

/-- `Ls -l` and the enter key. -/
theorem typed_keystrokes_ls : Kbd.typed {} (keystrokes [76, 115, 32, 45, 108, 13]) = [76, 115, 32, 45, 108, 13] ∧
    Kbd.after {} (keystrokes [76, 115, 32, 45, 108, 13]) = {} :=
  typed_keystrokes [76, 115, 32, 45, 108, 13] (by simp)

end ZxyOs
