/-
  ZxyOs.User.Printf

  Formatted output, `lib/stdio.c`.

  `vsprintf` scans the format, takes the arguments from the stack one word after the
  other and writes behind `buf_ptr`.  A format with its arguments is a list of `Item`s;
  `text` is what they should print.  The loop is at every moment between two items, with
  the text of the items before it in the buffer (`vsprintfLoop_items`).
-/

import ZxyOs.Lib.CString
import ZxyOs.Lib.Numeral

namespace ZxyOs

open Lib

/-! ## The code -/

/-- `itoa`, with the pointer behind the digits.  A 32-bit number has at most 32 of them. -/
def itoa (base : Nat) : Nat → Bytes → Nat → Nat → Option (Bytes × Nat)
  | 0, _, _, _ => none
  | fuel + 1, mem, value, bufPtr => do
    let m := value % base
    let i := value / base
    let (mem, bufPtr) ← if i ≠ 0 then itoa base fuel mem i bufPtr else some (mem, bufPtr)
    let c := if m < 10 then UInt8.ofNat (m + 48) else UInt8.ofNat (m - 10 + 65)
    return (Function.update mem bufPtr c, bufPtr + 1)

/-- The loop of `vsprintf`.  A turn starts with `index_char` at `index_ptr`; `ap` points to
    the last argument taken. -/
def vsprintfLoop : Nat → Bytes → Nat → Nat → Nat → Option Bytes
  | 0, _, _, _, _ => none
  | fuel + 1, mem, bufPtr, indexPtr, ap =>
    let indexChar := mem indexPtr
    if indexChar = 0 then some mem
    -- not a `%`
    else if indexChar ≠ 37 then
      vsprintfLoop fuel (Function.update mem bufPtr indexChar) (bufPtr + 1) (indexPtr + 1) ap
    else
      let indexPtr := indexPtr + 1
      let indexChar := mem indexPtr
      -- `x`
      if indexChar = 120 then do
        let argInt := mem.u32At (ap + 4)
        let (mem, bufPtr) ← itoa 16 32 mem argInt bufPtr
        vsprintfLoop fuel mem bufPtr (indexPtr + 1) (ap + 4)
      -- `s`
      else if indexChar = 115 then do
        let argStr := mem.u32At (ap + 4)
        let mem ← mem.strcpy bufPtr argStr
        let len ← mem.strlen argStr
        vsprintfLoop fuel mem (bufPtr + len) (indexPtr + 1) (ap + 4)
      -- `c`
      else if indexChar = 99 then
        vsprintfLoop fuel (Function.update mem bufPtr (mem (ap + 4))) (bufPtr + 1) (indexPtr + 1)
          (ap + 4)
      -- `d`
      else if indexChar = 100 then do
        let argInt := mem.u32At (ap + 4)
        if 2 ^ 31 ≤ argInt then do
          -- `arg_int = 0 - arg_int` in 32 bits
          let argInt := (2 ^ 32 - argInt) % 2 ^ 32
          let mem := Function.update mem bufPtr 45
          let (mem, bufPtr) ← itoa 10 32 mem argInt (bufPtr + 1)
          vsprintfLoop fuel mem bufPtr (indexPtr + 1) (ap + 4)
        else do
          let (mem, bufPtr) ← itoa 10 32 mem argInt bufPtr
          vsprintfLoop fuel mem bufPtr (indexPtr + 1) (ap + 4)
      else vsprintfLoop fuel mem bufPtr indexPtr ap

/-- `vsprintf`, with the memory it leaves. -/
def vsprintf (mem : Bytes) (str format ap : Nat) : Option (Bytes × Nat) := do
  let mem ← vsprintfLoop (2 ^ 32) mem str format ap
  let len ← mem.strlen str
  return (mem, len)

/-! ## Formats and arguments -/

/-- A character of the format that stands for itself, or a directive with its argument. -/
inductive FormatItem
  | char (c : UInt8)
  | d (arg : BitVec 32)
  | x (arg : BitVec 32)
  | s (arg : Nat) (str : List UInt8)
  | c (arg : UInt8)

namespace FormatItem

/-- The item in the format string. -/
def format : FormatItem → List UInt8
  | .char v => [v]
  | .d _ => [37, 100]
  | .x _ => [37, 120]
  | .s _ _ => [37, 115]
  | .c _ => [37, 99]

theorem format_pos (i : FormatItem) : 0 < i.format.length := by
  cases i <;> exact Nat.succ_pos _

/-- What is printed for it. -/
def text : FormatItem → List UInt8
  | .char v => [v]
  | .d arg => decimal arg.toInt
  | .x arg => numeral 16 arg.toNat
  | .s _ str => str
  | .c arg => [arg]

/-- Ordinary characters and characters to print are not NUL. -/
def Ordinary : FormatItem → Prop
  | .char v => v ≠ 0 ∧ v ≠ 37
  | .c arg => arg ≠ 0
  | _ => True

/-- The argument is in the word at `p`; a string does not overlap the buffer. -/
def ArgAt (mem : Bytes) (str size p : Nat) : FormatItem → Prop
  | .char _ => True
  | .d arg => mem.u32At p = arg.toNat
  | .x arg => mem.u32At p = arg.toNat
  | .s arg v => mem.u32At p = arg ∧ arg ≠ 0 ∧ mem.IsStr arg v ∧ arg + v.length < 2 ^ 32 ∧
      (arg + v.length < str ∨ str + size ≤ arg)
  | .c arg => mem p = arg

/-- Does the item take an argument? -/
def takes : FormatItem → Bool
  | .char _ => false
  | _ => true

end FormatItem

/-- The arguments of the items are on the stack behind `ap`, outside the buffer. -/
def ArgsAt (mem : Bytes) (str size : Nat) : Nat → List FormatItem → Prop
  | _, [] => True
  | ap, i :: items =>
    if i.takes then
      i.ArgAt mem str size (ap + 4) ∧ (ap + 8 ≤ str ∨ str + size ≤ ap + 4) ∧
        ArgsAt mem str size (ap + 4) items
    else ArgsAt mem str size ap items

/-- A format with matching arguments, and a buffer of `size` zeros that is large enough
    for the text and its NUL. -/
structure PrintsInto (mem : Bytes) (str size format ap : Nat) (items : List FormatItem) : Prop where
  ordinary : ∀ i ∈ items, i.Ordinary
  format_at : mem.IsStr format (items.flatMap FormatItem.format)
  format_fits : format + (items.flatMap FormatItem.format).length < 2 ^ 32
  format_apart : format + (items.flatMap FormatItem.format).length < str ∨ str + size ≤ format
  args : ArgsAt mem str size ap items
  buffer : str ≠ 0
  buffer_fits : str + size ≤ 2 ^ 32
  zero : ∀ a, str ≤ a → a < str + size → mem a = 0
  room : (items.flatMap FormatItem.text).length < size

/-! ## Digits -/

section Digits

variable {mem : Bytes} {base fuel value bufPtr : Nat}

/-- `itoa` writes the digits of its number. -/
theorem itoa_eq (hbase : 1 < base) (hvalue : value < base ^ fuel) (hfuel : 0 < fuel) :
    itoa base fuel mem value bufPtr =
      some (mem.write bufPtr (numeral base value), bufPtr + (numeral base value).length) := by
  induction fuel generalizing value with
  | zero => cases hfuel
  | succ fuel ih =>
    rw [itoa, numeral_step hbase]
    have hdigit : (if value % base < 10 then UInt8.ofNat (value % base + 48)
        else UInt8.ofNat (value % base - 10 + 65)) = digitChar (value % base) := by
      rw [digitChar]
      split_ifs <;> rfl
    dsimp only
    rw [hdigit]
    by_cases hq : value / base = 0
    · rw [if_neg (not_not.mpr hq), if_pos hq]
      rfl
    -- the digits in front come first
    · have hlt : value / base < base ^ fuel := by
        rw [Nat.div_lt_iff_lt_mul (by omega), ← Nat.pow_succ]
        exact hvalue
      have hpos : 0 < fuel := by
        rcases Nat.eq_zero_or_pos fuel with rfl | h
        · rw [Nat.pow_zero] at hlt
          exact absurd (Nat.lt_one_iff.mp hlt) hq
        · exact h
      rw [if_pos hq, if_neg hq, ih hlt hpos, Bytes.write_append, List.length_append, ← Nat.add_assoc]
      rfl

end Digits

/-! ## The loop -/

section Loop

variable {mem : Bytes} {str size fuel indexPtr ap a : Nat} {out : List UInt8} {i : FormatItem}
  {items : List FormatItem}

/-- Outside the buffer nothing changes. -/
theorem written_same (hout : out.length ≤ size) (ha : a < str ∨ str + size ≤ a) :
    mem.write str out a = mem a :=
  Bytes.write_outside (by omega)

theorem written_word (hout : out.length ≤ size) (ha : a + 4 ≤ str ∨ str + size ≤ a) :
    (mem.write str out).u32At a = mem.u32At a :=
  Bytes.u32At_congr fun _ _ => written_same hout (by omega)

/-- A 32-bit number has at most 32 digits. -/
theorem itoa_writes {base value : Nat} {bufPtr : Nat} (hbase : 1 < base) (hvalue : value < 2 ^ 32) :
    itoa base 32 mem value bufPtr =
      some (mem.write bufPtr (numeral base value), bufPtr + (numeral base value).length) :=
  itoa_eq hbase (Nat.lt_of_lt_of_le hvalue (Nat.pow_le_pow_left hbase 32)) (by decide)

/-- A string in the buffer, behind what is there; its NUL goes where there is one. -/
theorem strcpy_writes {arg : Nat} {s : List UInt8} (hstr : str ≠ 0)
    (hzero : ∀ a, str ≤ a → a < str + size → mem a = 0) (hroom : out.length + s.length < size)
    (harg : arg ≠ 0) (hs : mem.IsStr arg s) (hfits : arg + s.length < 2 ^ 32)
    (hapart : arg + s.length < str ∨ str + size ≤ arg) :
    (mem.write str out).strcpy (str + out.length) arg = some (mem.write str (out ++ s)) ∧
      (mem.write str (out ++ s)).strlen arg = some s.length := by
  have hsame {t : List UInt8} (ht : t.length ≤ size) : (mem.write str t).IsStr arg s :=
    hs.congr fun a ha ha' => written_same ht (by omega)
  constructor
  · have hnul : (mem.write str out).write (str + out.length) (s ++ [0]) =
        (mem.write str (out ++ s)).write (str + (out ++ s).length) [0] := by
      rw [← Bytes.write_append, ← List.append_assoc, Bytes.write_append]
    rw [(hsame (by omega)).strcpy harg (by omega) (by omega) (by omega), hnul,
      Bytes.write_singleton, Bytes.write_nul]
    rw [Bytes.write_outside (by omega), List.length_append]
    exact hzero _ (by omega) (by omega)
  · exact (hsame (by rw [List.length_append]; omega)).strlen harg (by omega)

/-- The digits of a signed number, from its 32 bits.  The most negative number is its own
    negative; as an unsigned number it is right. -/
theorem decimal_toInt (arg : BitVec 32) : decimal arg.toInt =
    if 2 ^ 31 ≤ arg.toNat then 45 :: numeral 10 ((2 ^ 32 - arg.toNat) % 2 ^ 32)
    else numeral 10 arg.toNat := by
  have hlt := arg.isLt
  rw [decimal, BitVec.toInt_eq_toNat_cond]
  by_cases hneg : 2 ^ 31 ≤ arg.toNat
  · have hnat : ((arg.toNat : Int) - (2 ^ 32 : Nat)).natAbs = (2 ^ 32 - arg.toNat) % 2 ^ 32 := by
      omega
    rw [if_pos hneg, if_neg (show ¬2 * arg.toNat < 2 ^ 32 by omega), if_pos (by omega), hnat]
  · rw [if_neg hneg, if_pos (show 2 * arg.toNat < 2 ^ 32 by omega), if_neg (by omega),
      Int.natAbs_natCast]

/-- One turn prints one item. -/
theorem vsprintfLoop_item (hstr : str ≠ 0) (hzero : ∀ a, str ≤ a → a < str + size → mem a = 0)
    (hord : i.Ordinary) (hroom : out.length + i.text.length < size)
    (hformat : mem.IsStr indexPtr (i.format ++ items.flatMap FormatItem.format))
    (hapart : indexPtr + i.format.length ≤ str ∨ str + size ≤ indexPtr)
    (harg : i.takes → i.ArgAt mem str size (ap + 4) ∧ (ap + 8 ≤ str ∨ str + size ≤ ap + 4)) :
    vsprintfLoop (fuel + 1) (mem.write str out) (str + out.length) indexPtr ap =
      vsprintfLoop fuel (mem.write str (out ++ i.text)) (str + (out ++ i.text).length)
        (indexPtr + i.format.length) (if i.takes then ap + 4 else ap) := by
  have hout : out.length ≤ size := by omega
  -- a directive is a `%` and its letter
  have hdirective {c : UInt8} (hi : i.format = [37, c]) :
      mem.write str out indexPtr = 37 ∧ mem.write str out (indexPtr + 1) = c := by
    rw [hi] at hformat hapart
    rw [written_same hout (by simp at hapart; omega), written_same hout (by simp at hapart; omega)]
    exact ⟨hformat.1.1, hformat.2.1.1⟩
  cases i with
  | char v =>
    have hread : mem.write str out indexPtr = v := by
      rw [written_same hout (by simp [FormatItem.format] at hapart; omega)]
      exact hformat.1.1
    rw [vsprintfLoop, hread, if_neg hord.1, if_pos hord.2, FormatItem.text, Bytes.write_append,
      List.length_append, ← Nat.add_assoc]
    rfl
  | d arg =>
    obtain ⟨hpercent, hletter⟩ := hdirective rfl
    obtain ⟨hword, hplace⟩ := harg rfl
    have hint : (mem.write str out).u32At (ap + 4) = arg.toNat :=
      (written_word hout (by omega)).trans hword
    rw [vsprintfLoop, hpercent]
    dsimp only
    rw [hletter, hint, if_neg (by decide), if_neg (by decide), if_neg (by decide),
      if_neg (by decide), if_neg (by decide), if_pos rfl, FormatItem.text, decimal_toInt]
    by_cases hneg : 2 ^ 31 ≤ arg.toNat
    · rw [if_pos hneg, if_pos hneg, itoa_writes (by decide) (Nat.mod_lt _ (by decide)),
        Option.bind_eq_bind, Option.bind_some, Bytes.write_append, List.length_append,
        List.length_cons]
      dsimp only
      rw [Nat.add_assoc (str + out.length), Nat.add_comm 1, ← Nat.add_assoc str]
      rfl
    · rw [if_neg hneg, if_neg hneg, itoa_writes (by decide) arg.isLt, Option.bind_eq_bind,
        Option.bind_some, Bytes.write_append, List.length_append, ← Nat.add_assoc]
      rfl
  | x arg =>
    obtain ⟨hpercent, hletter⟩ := hdirective rfl
    obtain ⟨hword, hplace⟩ := harg rfl
    have hint : (mem.write str out).u32At (ap + 4) = arg.toNat :=
      (written_word hout (by omega)).trans hword
    rw [vsprintfLoop, hpercent]
    dsimp only
    rw [hletter, hint, if_neg (by decide), if_neg (by decide), if_pos rfl,
      itoa_writes (by decide) arg.isLt, Option.bind_eq_bind, Option.bind_some, FormatItem.text,
      Bytes.write_append, List.length_append, ← Nat.add_assoc]
    rfl
  | s arg v =>
    obtain ⟨hpercent, hletter⟩ := hdirective rfl
    obtain ⟨⟨hword, hnull, hs, hfits, hfar⟩, hplace⟩ := harg rfl
    have hint : (mem.write str out).u32At (ap + 4) = arg :=
      (written_word hout (by omega)).trans hword
    obtain ⟨hcpy, hlen⟩ := strcpy_writes hstr hzero hroom hnull hs hfits hfar
    rw [vsprintfLoop, hpercent]
    dsimp only
    rw [hletter, hint, if_neg (by decide), if_neg (by decide), if_neg (by decide), if_pos rfl, hcpy,
      Option.bind_eq_bind, Option.bind_some, hlen, Option.bind_eq_bind, Option.bind_some,
      FormatItem.text, List.length_append, ← Nat.add_assoc]
    rfl
  | c arg =>
    obtain ⟨hpercent, hletter⟩ := hdirective rfl
    obtain ⟨hbyte, hplace⟩ := harg rfl
    have hchar : mem.write str out (ap + 4) = arg := (written_same hout (by omega)).trans hbyte
    rw [vsprintfLoop, hpercent]
    dsimp only
    rw [hletter, hchar, if_neg (by decide), if_neg (by decide), if_neg (by decide),
      if_neg (by decide), if_pos rfl, FormatItem.text, Bytes.write_append, List.length_append,
      ← Nat.add_assoc]
    rfl

/-- From between two items to the end of the format. -/
theorem vsprintfLoop_items (hstr : str ≠ 0) (hzero : ∀ a, str ≤ a → a < str + size → mem a = 0)
    (hord : ∀ i ∈ items, i.Ordinary)
    (hroom : out.length + (items.flatMap FormatItem.text).length < size)
    (hformat : mem.IsStr indexPtr (items.flatMap FormatItem.format))
    (hapart : indexPtr + (items.flatMap FormatItem.format).length < str ∨ str + size ≤ indexPtr)
    (hargs : ArgsAt mem str size ap items) (hfuel : items.length < fuel) :
    vsprintfLoop fuel (mem.write str out) (str + out.length) indexPtr ap =
      some (mem.write str (out ++ items.flatMap FormatItem.text)) := by
  induction items generalizing out indexPtr ap fuel with
  | nil =>
    obtain ⟨fuel, rfl⟩ : ∃ n, fuel = n + 1 := ⟨fuel - 1, by simp at hfuel; omega⟩
    have hend : mem.write str out indexPtr = 0 := by
      have hsame : mem.write str out indexPtr = mem indexPtr :=
        Bytes.write_outside (by simp at hapart; omega)
      exact hsame.trans hformat
    rw [vsprintfLoop, hend]
    simp
  | cons i items ih =>
    obtain ⟨fuel, rfl⟩ : ∃ n, fuel = n + 1 := ⟨fuel - 1, by omega⟩
    rw [List.flatMap_cons, List.length_append] at hroom hapart
    rw [List.flatMap_cons] at hformat
    rw [List.length_cons] at hfuel
    have hpos := i.format_pos
    have harg : i.takes → i.ArgAt mem str size (ap + 4) ∧
        (ap + 8 ≤ str ∨ str + size ≤ ap + 4) := by
      intro htakes
      rw [ArgsAt, if_pos htakes] at hargs
      exact ⟨hargs.1, hargs.2.1⟩
    have hrest : ArgsAt mem str size (if i.takes then ap + 4 else ap) items := by
      rw [ArgsAt] at hargs
      split_ifs at hargs ⊢ with htakes
      · exact hargs.2.2
      · exact hargs
    rw [vsprintfLoop_item hstr hzero (hord i List.mem_cons_self) (by omega) hformat (by omega) harg,
      ih (fun j hj => hord j (List.mem_cons_of_mem _ hj)) (by rw [List.length_append]; omega)
        hformat.rest (by omega) hrest (by omega), List.flatMap_cons, List.append_assoc]

end Loop

theorem text_nonzero {i : FormatItem} {mem : Bytes} {str size p : Nat} (hord : i.Ordinary)
    (harg : i.takes → i.ArgAt mem str size p) : (0 : UInt8) ∉ i.text := by
  have hdigits {base n : Nat} (hbase : 1 < base) (h36 : base ≤ 36) : (0 : UInt8) ∉ numeral base n := by
    intro hmem
    obtain ⟨d, hd, hzero⟩ := mem_numeral hbase hmem
    exact digitChar_ne_zero (by omega) hzero.symm
  cases i with
  | char v => simpa [FormatItem.text] using hord.1.symm
  | d arg =>
    have hnumeral := @hdigits 10 arg.toInt.natAbs (by decide) (by decide)
    rw [FormatItem.text, decimal]
    split_ifs
    · simpa using hnumeral
    · exact hnumeral
  | x arg => exact hdigits (by decide) (by decide)
  | s arg v => exact (harg rfl).2.2.1.nonzero
  | c arg => simpa [FormatItem.text, FormatItem.Ordinary, eq_comm] using hord

/-- The text of a format has no NUL in it. -/
theorem texts_nonzero {mem : Bytes} {str size ap : Nat} {items : List FormatItem}
    (hord : ∀ i ∈ items, i.Ordinary) (hargs : ArgsAt mem str size ap items) :
    (0 : UInt8) ∉ items.flatMap FormatItem.text := by
  induction items generalizing ap with
  | nil => simp
  | cons i items ih =>
    rw [List.flatMap_cons, List.mem_append, not_or]
    rw [ArgsAt] at hargs
    split_ifs at hargs with htakes
    · exact ⟨text_nonzero (hord i List.mem_cons_self) fun _ => hargs.1,
        ih (fun j hj => hord j (List.mem_cons_of_mem _ hj)) hargs.2.2⟩
    · have hno : i.takes → i.ArgAt mem str size ap := fun h => absurd h htakes
      exact ⟨text_nonzero (hord i List.mem_cons_self) hno,
        ih (fun j hj => hord j (List.mem_cons_of_mem _ hj)) hargs⟩

theorem length_le_format (items : List FormatItem) :
    items.length ≤ (items.flatMap FormatItem.format).length := by
  induction items with
  | nil => simp
  | cons i items ih =>
    have hpos := i.format_pos
    rw [List.flatMap_cons, List.length_append, List.length_cons]
    omega

/-- What is printed for a number can be read back, and starts with a zero only if the
    number is zero. -/
structure FormatItem.Readable (arg : BitVec 32) : Prop where
  signed : valueOfSigned (FormatItem.d arg).text = arg.toInt
  unsigned : valueOf 16 (FormatItem.x arg).text = arg.toNat
  signed_head : NoLeadingZero ((FormatItem.d arg).text.dropWhile (· = 45))
  unsigned_head : NoLeadingZero (FormatItem.x arg).text

theorem FormatItem.readable (arg : BitVec 32) : FormatItem.Readable arg where
  signed := valueOfSigned_decimal arg.toInt
  unsigned := valueOf_numeral (by decide) (by decide)
  signed_head := by
    have hplain : ∀ n, (numeral 10 n).dropWhile (· = 45) = numeral 10 n := by
      intro n
      obtain ⟨c, s, hs⟩ := List.exists_cons_of_ne_nil (numeral_ne_nil (n := n) (by decide : 1 < 10))
      have hc : ¬decide (c = 45) = true := by
        rw [decide_eq_true_eq]
        rintro rfl
        exact minus_not_mem (by decide : 1 < 10) (by decide) (hs ▸ List.mem_cons_self)
      rw [hs]
      exact List.dropWhile_cons_of_neg hc
    rw [FormatItem.text, decimal]
    split_ifs
    · rw [List.dropWhile_cons_of_pos (by decide), hplain]
      exact numeral_head (by decide) (by decide)
    · rw [hplain]
      exact numeral_head (by decide) (by decide)
  unsigned_head := numeral_head (by decide) (by decide)

/-- `vsprintf` prints a format exactly, and what it prints for numbers can be read back. -/
theorem vsprintf_exact {mem : Bytes} {str size format ap : Nat} {items : List FormatItem}
    (h : PrintsInto mem str size format ap items) :
    vsprintf mem str format ap = some (mem.write str (items.flatMap FormatItem.text),
        (items.flatMap FormatItem.text).length) ∧
      (mem.write str (items.flatMap FormatItem.text)).IsStr str (items.flatMap FormatItem.text) ∧
      ∀ arg : BitVec 32, FormatItem.Readable arg := by
  have hroom := h.room
  have hfits := h.buffer_fits
  have hfuel : items.length < 2 ^ 32 := by
    have := length_le_format items
    have := h.format_fits
    omega
  have hempty : ([] : List UInt8).length + (items.flatMap FormatItem.text).length < size := by
    rw [List.length_nil, Nat.zero_add]
    exact hroom
  have hloop := vsprintfLoop_items h.buffer h.zero h.ordinary hempty h.format_at h.format_apart
    h.args hfuel
  have hstring : (mem.write str (items.flatMap FormatItem.text)).IsStr str
      (items.flatMap FormatItem.text) :=
    Bytes.isStr_write (texts_nonzero h.ordinary h.args) (h.zero _ (by omega) (by omega))
  refine ⟨?_, hstring, FormatItem.readable⟩
  rw [vsprintf]
  rw [List.nil_append, List.length_nil, Nat.add_zero] at hloop
  rw [show vsprintfLoop (2 ^ 32) mem str format ap = _ from hloop, Option.bind_eq_bind,
    Option.bind_some, hstring.strlen h.buffer (by omega)]
  rfl

/-- `n=%d` with the most negative number. -/
def FormatItem.sample : List FormatItem := [.char 110, .char 61, .d 0x80000000#32]

/-- The format at 100, its argument at 204, and zeros. -/
def sampleMemory : Bytes := (Bytes.zero.write 100 [110, 61, 37, 100]).write 204 [0, 0, 0, 0x80]

theorem vsprintf_exact_sample :
    vsprintf sampleMemory 1000 100 200 =
        some (sampleMemory.write 1000 (FormatItem.sample.flatMap FormatItem.text),
          (FormatItem.sample.flatMap FormatItem.text).length) ∧
      (sampleMemory.write 1000 (FormatItem.sample.flatMap FormatItem.text)).IsStr 1000
        (FormatItem.sample.flatMap FormatItem.text) ∧
      ∀ arg : BitVec 32, FormatItem.Readable arg := by
  have hint : (FormatItem.d 0x80000000#32).text =
      [45, 50, 49, 52, 55, 52, 56, 51, 54, 52, 56] := by
    have hdigits : Nat.digits 10 2147483648 = [8, 4, 6, 3, 8, 4, 7, 4, 1, 2] := by norm_num
    rw [FormatItem.text, decimal, if_pos (by decide), numeral, if_neg (by decide),
      show (0x80000000#32).toInt.natAbs = 2147483648 by decide, hdigits]
    rfl
  have hprints : PrintsInto sampleMemory 1000 16 100 200 FormatItem.sample := by
    refine ⟨?_, ?_, ?_, ?_, ?_, ?_, ?_, ?_, ?_⟩
    · intro i hi
      simp only [FormatItem.sample, List.mem_cons, List.not_mem_nil, or_false] at hi
      rcases hi with rfl | rfl | rfl
      · exact ⟨by decide, by decide⟩
      · exact ⟨by decide, by decide⟩
      · trivial
    · exact ⟨⟨rfl, by decide⟩, ⟨rfl, by decide⟩, ⟨rfl, by decide⟩, ⟨rfl, by decide⟩, rfl⟩
    · decide
    · decide
    · exact ⟨rfl, by decide, trivial⟩
    · decide
    · decide
    · intro a ha ha'
      rw [sampleMemory, Bytes.write_outside (by simp; omega), Bytes.write_outside (by simp; omega)]
      rfl
    · rw [FormatItem.sample, List.flatMap_cons, List.flatMap_cons, List.flatMap_cons, hint]
      decide
  exact vsprintf_exact hprints

end ZxyOs
