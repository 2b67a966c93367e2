/-
  ZxyOs.User.Readline

  The line editor of the shell, `readline` of `user/shell.c`.

  A key is first read into the buffer at the cursor and then interpreted.  `Edits` says
  that the buffer in front of the cursor is the line the keys have produced; every key
  keeps it (`Edits.step`).  The test that the cursor is inside the buffer comes after the
  read, so a key that arrives when the line fills the buffer is stored behind it.
-/

import ZxyOs.Lib.CString
import Mathlib.Tactic.SplitIfs

namespace ZxyOs

open Lib

/-- The buffer, the cursor in it, and the places that were stored to. -/
structure LineBuf where
  buf : Bytes
  pos : Nat
  touched : List Nat

namespace LineBuf

def store (s : LineBuf) (off : Nat) (v : UInt8) : LineBuf :=
  { s with buf := Function.update s.buf off v, touched := off :: s.touched }

/-- `while (buf != pos) *(pos--) = 0`. -/
def clearTo (s : LineBuf) : Nat → LineBuf
  | 0 => { s with pos := 0 }
  | pos + 1 => (s.store (pos + 1) 0).clearTo pos

end LineBuf

/-- How `readline` ends: with a newline, without one when the buffer is full, or not yet. -/
inductive LineEnd
  | enter
  | full
  | waiting
deriving DecidableEq

/-- `readline` on the keys that arrive.  The output to the screen is left out. -/
def readline (cnt : Nat) : LineBuf → List UInt8 → LineEnd × LineBuf
  | s, [] => (.waiting, s)
  | s, key :: keys =>
    -- `read(stdin_no, pos, 1)`
    let s := s.store s.pos key
    if s.pos < cnt then
      let c := s.buf s.pos
      if c = 10 ∨ c = 13 then (.enter, s.store s.pos 0)
      -- `\b`
      else if c = 8 then
        if s.buf 0 ≠ 8 then readline cnt { s with pos := s.pos - 1 } keys else readline cnt s keys
      -- `'l' - 'a'`
      else if c = 11 then readline cnt (s.store s.pos 0) keys
      -- `'u' - 'a'`
      else if c = 20 then readline cnt (s.clearTo s.pos) keys
      else readline cnt { s with pos := s.pos + 1 } keys
    else (.full, s)

/-! ## Lines -/

/-- A newline or a carriage return. -/
def IsEnter (key : UInt8) : Prop := key = 10 ∨ key = 13

instance : DecidablePred IsEnter := fun key => inferInstanceAs (Decidable (key = 10 ∨ key = 13))

/-- What a key does to a line. -/
def editKey (line : List UInt8) (key : UInt8) : List UInt8 :=
  if key = 8 then line.dropLast
  else if key = 11 then line
  else if key = 20 then []
  else line ++ [key]

/-- The line at the first newline. -/
def editLine : List UInt8 → List UInt8 → List UInt8
  | line, [] => line
  | line, key :: keys => if IsEnter key then line else editLine (editKey line key) keys

/-- No key up to the first newline arrives when the line fills the buffer. -/
def HasRoom (cnt : Nat) : List UInt8 → List UInt8 → Prop
  | _, [] => True
  | line, key :: keys => line.length < cnt ∧ (IsEnter key ∨ HasRoom cnt (editKey line key) keys)

/-- What a line editor should do with the keys. -/
structure EditsLine (cnt : Nat) (keys : List UInt8) (r : LineEnd × LineBuf) : Prop where
  inside : ∀ off ∈ r.2.touched, off < cnt
  line : r.1 = .enter → r.2.buf.IsStr 0 (editLine [] keys)

theorem length_editKey_le (line : List UInt8) (key : UInt8) :
    (editKey line key).length ≤ line.length + 1 := by
  rw [editKey]
  split_ifs
  · rw [List.length_dropLast]
    omega
  · omega
  · exact Nat.zero_le _
  · rw [List.length_append]
    exact Nat.le_refl _

/-! ## The editor -/

/-- In front of the cursor is the typed line, in which there is no backspace. -/
structure Edits (s : LineBuf) (typed : List UInt8) : Prop where
  pos : s.pos = typed.length
  text : ∀ k (hk : k < typed.length), s.buf k = typed[k]
  plain : (8 : UInt8) ∉ typed

namespace Edits

variable {s : LineBuf} {line keys : List UInt8} {key : UInt8} {cnt n : Nat}

/-- A store behind the line. -/
theorem store (h : Edits s line) (hn : line.length ≤ n) (v : UInt8) : Edits (s.store n v) line where
  pos := h.pos
  text k hk := (Function.update_of_ne (by omega) _ _).trans (h.text k hk)
  plain := h.plain

theorem clearTo_pos (s : LineBuf) (n : Nat) : (s.clearTo n).pos = 0 := by
  induction n generalizing s with
  | zero => rfl
  | succ n ih => exact ih _

theorem clearTo_touched (s : LineBuf) (n : Nat) :
    ∀ off ∈ (s.clearTo n).touched, off ∈ s.touched ∨ off ≤ n := by
  induction n generalizing s with
  | zero => exact fun off h => Or.inl h
  | succ n ih =>
    intro off hoff
    rcases ih _ off hoff with hoff | hoff
    · rcases List.mem_cons.mp hoff with rfl | hoff
      · exact Or.inr (Nat.le_refl _)
      · exact Or.inl hoff
    · exact Or.inr (by omega)

/-- One key that is not a newline, with room for it. -/
theorem step (keys : List UInt8) (h : Edits s line) (hroom : line.length < cnt) (hkey : ¬IsEnter key) :
    ∃ s', readline cnt s (key :: keys) = readline cnt s' keys ∧ Edits s' (editKey line key) ∧
      ∀ off ∈ s'.touched, off ∈ s.touched ∨ off < cnt := by
  have hpos := h.pos
  have hread : (s.store s.pos key).buf (s.store s.pos key).pos = key := Function.update_self _ _ _
  have hstored := h.store (Nat.le_of_eq hpos.symm) key
  have htouched : ∀ off ∈ (s.store s.pos key).touched, off ∈ s.touched ∨ off < cnt := by
    intro off hoff
    rcases List.mem_cons.mp hoff with rfl | hoff
    · exact Or.inr (by omega)
    · exact Or.inl hoff
  have hinside : (s.store s.pos key).pos < cnt := by
    show s.pos < cnt
    omega
  rw [readline]
  dsimp only
  rw [hread, if_pos hinside, if_neg (show ¬(key = 10 ∨ key = 13) from hkey), editKey]
  by_cases hback : key = 8
  · rw [if_pos hback, if_pos hback]
    cases line with
    -- on an empty line the backspace itself is at the start of the buffer
    | nil =>
      have hstart : ¬(s.store s.pos key).buf 0 ≠ 8 := by
        have hzero : s.pos = 0 := hpos
        rw [not_not, ← hback, hzero]
        exact Function.update_self 0 key s.buf
      rw [if_neg hstart]
      exact ⟨_, rfl, hstored, htouched⟩
    | cons c line =>
      have hstart : (s.store s.pos key).buf 0 ≠ 8 := by
        rw [hstored.text 0 (by simp)]
        exact fun heq => h.plain (by simp at heq; simp [heq])
      rw [if_pos hstart]
      refine ⟨_, rfl, ⟨?_, ?_, ?_⟩, htouched⟩
      · show s.pos - 1 = _
        rw [List.length_dropLast, hpos]
      · intro k hk
        rw [List.getElem_dropLast]
        exact hstored.text k _
      · exact fun hmem => h.plain ((List.dropLast_sublist _).subset hmem)
  rw [if_neg hback, if_neg hback]
  by_cases hclear : key = 11
  · rw [if_pos hclear, if_pos hclear]
    refine ⟨_, rfl, hstored.store (Nat.le_of_eq hpos.symm) 0, ?_⟩
    intro off hoff
    rcases List.mem_cons.mp hoff with rfl | hoff
    · exact Or.inr hinside
    · exact htouched off hoff
  rw [if_neg hclear, if_neg hclear]
  by_cases herase : key = 20
  · rw [if_pos herase, if_pos herase]
    refine ⟨_, rfl, ⟨clearTo_pos _ _, by simp, by simp⟩, ?_⟩
    intro off hoff
    rcases clearTo_touched _ _ off hoff with hoff | hoff
    · exact htouched off hoff
    · exact Or.inr (Nat.lt_of_le_of_lt hoff hinside)
  · rw [if_neg herase, if_neg herase]
    refine ⟨_, rfl, ⟨?_, ?_, ?_⟩, htouched⟩
    · show s.pos + 1 = _
      rw [List.length_append, hpos]
      rfl
    · intro k hk
      rw [List.length_append, List.length_singleton] at hk
      by_cases hlast : k < line.length
      · rw [List.getElem_append_left hlast]
        exact hstored.text k hlast
      · obtain rfl : k = line.length := by omega
        rw [List.getElem_concat_length rfl, ← hpos]
        exact Function.update_self _ _ _
    · simpa [h.plain] using Ne.symm hback

/-- A newline, with room for it. -/
theorem enter (keys : List UInt8) (h : Edits s line) (hroom : line.length < cnt) (hkey : IsEnter key) :
    ∃ s', readline cnt s (key :: keys) = (.enter, s') ∧ Edits s' line ∧ s'.buf line.length = 0 ∧
      ∀ off ∈ s'.touched, off ∈ s.touched ∨ off < cnt := by
  have hpos := h.pos
  have hread : (s.store s.pos key).buf (s.store s.pos key).pos = key := Function.update_self _ _ _
  have hinside : (s.store s.pos key).pos < cnt := by
    show s.pos < cnt
    omega
  rw [readline]
  dsimp only
  rw [hread, if_pos hinside, if_pos (show key = 10 ∨ key = 13 from hkey)]
  refine ⟨_, rfl, (h.store (Nat.le_of_eq hpos.symm) key).store (Nat.le_of_eq hpos.symm) 0, ?_, ?_⟩
  · rw [← hpos]
    exact Function.update_self _ _ _
  · intro off hoff
    simp only [LineBuf.store, List.mem_cons] at hoff
    rcases hoff with rfl | rfl | hoff
    · exact Or.inr hinside
    · exact Or.inr hinside
    · exact Or.inl hoff

/-- A key that arrives when the line fills the buffer is stored behind it. -/
theorem overrun (h : Edits s line) (hfull : line.length = cnt) :
    readline cnt s (key :: keys) = (.full, s.store cnt key) := by
  have hpos : s.pos = cnt := h.pos.trans hfull
  have houtside : ¬(s.store s.pos key).pos < cnt := by
    show ¬s.pos < cnt
    omega
  rw [readline]
  dsimp only
  rw [if_neg houtside, hpos]

/-- A run of keys for which there is room. -/
theorem run (h : Edits s line) (hroom : HasRoom cnt line keys) :
    (∀ off ∈ (readline cnt s keys).2.touched, off ∈ s.touched ∨ off < cnt) ∧
      ((readline cnt s keys).1 = .enter ↔ ∃ key ∈ keys, IsEnter key) ∧
      ((readline cnt s keys).1 = .enter → Edits (readline cnt s keys).2 (editLine line keys) ∧
        (readline cnt s keys).2.buf (editLine line keys).length = 0) := by
  induction keys generalizing s line with
  | nil =>
    refine ⟨fun off hoff => Or.inl hoff, ?_, ?_⟩
    · simp [readline]
    · intro hend
      cases hend
  | cons key keys ih =>
    obtain ⟨hlt, hrest⟩ := hroom
    by_cases hkey : IsEnter key
    · obtain ⟨s', heq, hedits, hnul, htouched⟩ := h.enter keys hlt hkey
      rw [heq, editLine, if_pos hkey]
      exact ⟨htouched, iff_of_true rfl ⟨key, List.mem_cons_self, hkey⟩, fun _ => ⟨hedits, hnul⟩⟩
    · obtain ⟨s', heq, hedits, htouched⟩ := h.step keys hlt hkey
      obtain ⟨hall, hend, hline⟩ := ih hedits (hrest.resolve_left hkey)
      rw [heq, editLine, if_neg hkey]
      refine ⟨?_, ?_, hline⟩
      · intro off hoff
        rcases hall off hoff with hoff | hoff
        · exact htouched off hoff
        · exact Or.inr hoff
      · rw [hend]
        simp [hkey]

/-- A run of keys for which there is no room stores behind the buffer. -/
theorem run_overrun (h : Edits s line) (hle : line.length ≤ cnt) (hroom : ¬HasRoom cnt line keys) :
    cnt ∈ (readline cnt s keys).2.touched := by
  induction keys generalizing s line with
  | nil => exact absurd trivial hroom
  | cons key keys ih =>
    rcases Nat.lt_or_eq_of_le hle with hlt | hfull
    · have hkey : ¬IsEnter key := fun henter => hroom ⟨hlt, Or.inl henter⟩
      obtain ⟨s', heq, hedits, -⟩ := h.step keys hlt hkey
      rw [heq]
      apply ih hedits
      · exact Nat.le_trans (length_editKey_le line key) hlt
      · exact fun hrest => hroom ⟨hlt, Or.inr hrest⟩
    · rw [h.overrun hfull]
      exact List.mem_cons_self

end Edits

/-- `readline` is a line editor as long as no key arrives when the line fills the buffer,
    and the line it returns has no NUL. -/
theorem readline_exact (cnt : Nat) (buf : Bytes) (keys : List UInt8) :
    EditsLine cnt keys (readline cnt ⟨buf, 0, []⟩ keys) ↔
      HasRoom cnt [] keys ∧ ((∃ key ∈ keys, IsEnter key) → (0 : UInt8) ∉ editLine [] keys) := by
  have hstart : Edits ⟨buf, 0, []⟩ [] := ⟨rfl, by simp, by simp⟩
  constructor
  · intro h
    have hroom : HasRoom cnt [] keys := by
      by_contra hroom
      exact Nat.lt_irrefl _ (h.inside cnt (hstart.run_overrun (Nat.zero_le _) hroom))
    refine ⟨hroom, fun henter => ?_⟩
    exact (h.line ((hstart.run hroom).2.1.mpr henter)).nonzero
  · rintro ⟨hroom, hplain⟩
    obtain ⟨htouched, hend, hline⟩ := hstart.run hroom
    refine ⟨fun off hoff => (htouched off hoff).resolve_left (by simp), fun henter => ?_⟩
    obtain ⟨hedits, hnul⟩ := hline henter
    apply Bytes.isStr_of_get
    · intro k hk
      rw [Nat.zero_add]
      exact hedits.text k hk
    · rw [Nat.zero_add]
      exact hnul
    · exact hplain (hend.mp henter)

/-- Two keys for a buffer of one byte. -/
theorem readline_overrun : ¬EditsLine 1 [97, 98] (readline 1 ⟨fun _ => 0, 0, []⟩ [97, 98]) := by
  intro h
  have hstart : Edits ⟨fun _ => 0, 0, []⟩ [] := ⟨rfl, by simp, by simp⟩
  have hroom : ¬HasRoom 1 [] [97, 98] := by
    rintro ⟨-, henter | ⟨hlt, -⟩⟩
    · exact absurd henter (by decide)
    · exact absurd hlt (by decide)
  exact Nat.lt_irrefl _ (h.inside 1 (hstart.run_overrun (Nat.zero_le _) hroom))

end ZxyOs
