/-
  ZxyOs.Lib.Numeral

  Numbers written with the digits `0`, …, `9`, `A`, …, `Z`, as lists of bytes.

  `numeral` is the representation without leading zeros (`numeral_head`); the last digit
  splits off (`numeral_step`), which is how programs produce it, and reading the digits
  from the left gives the number back (`valueOf_numeral`).
-/

import Mathlib.Data.Nat.Digits.Lemmas

namespace ZxyOs.Lib

/-- The character of a digit. -/
def digitChar (d : Nat) : UInt8 := UInt8.ofNat (if d < 10 then d + 48 else d - 10 + 65)

/-- The digit of a character. -/
def digitVal (c : UInt8) : Nat := if c.toNat < 58 then c.toNat - 48 else c.toNat - 65 + 10

/-- The digits of `n`, the first one in front. -/
def numeral (base n : Nat) : List UInt8 :=
  if n = 0 then [digitChar 0] else ((Nat.digits base n).map digitChar).reverse

/-- The number that a list of digits stands for. -/
def valueOf (base : Nat) (s : List UInt8) : Nat := s.foldl (fun v c => v * base + digitVal c) 0

/-- The digits of an integer, with a sign in front of a negative one. -/
def decimal (v : Int) : List UInt8 :=
  if v < 0 then 45 :: numeral 10 v.natAbs else numeral 10 v.natAbs

/-- The integer that a signed list of digits stands for. -/
def valueOfSigned : List UInt8 → Int
  | [] => 0
  | c :: s => if c = 45 then -(valueOf 10 s : Int) else valueOf 10 (c :: s)

/-- A zero is in front only when it is the only digit. -/
def NoLeadingZero (s : List UInt8) : Prop := s.head? = some (digitChar 0) → s.length = 1

section Numeral

variable {base n d : Nat} {c : UInt8} {s : List UInt8}

theorem digitChar_toNat (hd : d < 36) :
    (digitChar d).toNat = if d < 10 then d + 48 else d - 10 + 65 := by
  rw [digitChar, UInt8.toNat_ofNat']
  split_ifs
  · exact Nat.mod_eq_of_lt (by omega)
  · exact Nat.mod_eq_of_lt (by omega)

theorem digitVal_digitChar (hd : d < 36) : digitVal (digitChar d) = d := by
  rw [digitVal, digitChar_toNat hd]
  split_ifs <;> omega

theorem digitChar_ne_zero (hd : d < 36) : digitChar d ≠ 0 := by
  intro h
  have htoNat := digitChar_toNat hd
  rw [h, UInt8.toNat_zero] at htoNat
  split_ifs at htoNat

/-- The last digit and what is in front of it. -/
theorem numeral_step (hbase : 1 < base) :
    numeral base n =
      (if n / base = 0 then [] else numeral base (n / base)) ++ [digitChar (n % base)] := by
  rcases Nat.eq_zero_or_pos n with rfl | hn
  · simp [numeral]
  · rw [numeral, if_neg (by omega), Nat.digits_def' hbase hn, List.map_cons, List.reverse_cons]
    split_ifs with hq
    · rw [hq, Nat.digits_zero]
      rfl
    · rw [numeral, if_neg hq]

theorem numeral_ne_nil (hbase : 1 < base) : numeral base n ≠ [] := by
  rw [numeral_step hbase]
  simp

/-- Characters of a numeral are digits. -/
theorem mem_numeral (hbase : 1 < base) (hc : c ∈ numeral base n) : ∃ d < base, c = digitChar d := by
  rw [numeral] at hc
  split_ifs at hc with hn
  · exact ⟨0, by omega, List.mem_singleton.mp hc⟩
  · obtain ⟨d, hd, rfl⟩ := List.mem_map.mp (List.mem_reverse.mp hc)
    exact ⟨d, Nat.digits_lt_base hbase hd, rfl⟩

/-- A digit is not a minus sign. -/
theorem minus_not_mem (hbase : 1 < base) (h36 : base ≤ 36) : (45 : UInt8) ∉ numeral base n := by
  intro hmem
  obtain ⟨d, hd, hc⟩ := mem_numeral hbase hmem
  have htoNat := digitChar_toNat (d := d) (by omega)
  have hminus : (45 : UInt8).toNat = 45 := rfl
  rw [← hc, hminus] at htoNat
  split_ifs at htoNat <;> omega

/-- The digits of a number give the number back. -/
theorem valueOf_numeral (hbase : 1 < base) (h36 : base ≤ 36) : valueOf base (numeral base n) = n := by
  induction n using Nat.strong_induction_on with
  | _ n ih =>
    have hmod : n % base < 36 := Nat.lt_of_lt_of_le (Nat.mod_lt _ (by omega)) h36
    rw [numeral_step hbase, valueOf, List.foldl_append, List.foldl_cons, List.foldl_nil,
      digitVal_digitChar hmod]
    split_ifs with hq
    · rw [List.foldl_nil, Nat.zero_mul, Nat.zero_add]
      exact Nat.mod_eq_of_lt ((Nat.div_eq_zero_iff_lt (by omega)).mp hq)
    · have hlt : n / base < n := Nat.div_lt_self (by
        rcases Nat.eq_zero_or_pos n with rfl | hn
        · simp at hq
        · exact hn) hbase
      have hprev := ih _ hlt
      rw [valueOf] at hprev
      rw [hprev, Nat.mul_comm]
      exact Nat.div_add_mod n base

theorem numeral_head (hbase : 1 < base) (h36 : base ≤ 36) : NoLeadingZero (numeral base n) := by
  induction n using Nat.strong_induction_on with
  | _ n ih =>
    intro hzero
    rw [numeral_step hbase] at hzero ⊢
    by_cases hq : n / base = 0
    · rw [if_pos hq]
      rfl
    -- a zero in front would be in front of `n / base` too, which is not zero
    · rw [if_neg hq] at hzero ⊢
      have hlt : n / base < n := Nat.div_lt_self (by
        rcases Nat.eq_zero_or_pos n with rfl | hn
        · simp at hq
        · exact hn) hbase
      rw [List.head?_append_of_ne_nil _ (numeral_ne_nil hbase)] at hzero
      have hone := ih _ hlt hzero
      obtain ⟨c, hc⟩ := List.length_eq_one_iff.mp hone
      have hval := valueOf_numeral (n := n / base) hbase h36
      rw [hc, List.head?_cons, Option.some.injEq] at hzero
      rw [hc, hzero, valueOf, List.foldl_cons, List.foldl_nil, digitVal_digitChar (by decide)] at hval
      exact absurd hval.symm (by simpa using hq)

/-- A signed numeral gives the integer back. -/
theorem valueOfSigned_decimal (v : Int) : valueOfSigned (decimal v) = v := by
  have hval := valueOf_numeral (n := v.natAbs) (by decide : 1 < 10) (by decide)
  rw [decimal]
  split_ifs with hneg
  · rw [valueOfSigned, if_pos rfl, hval]
    omega
  · obtain ⟨c, s, hs⟩ := List.exists_cons_of_ne_nil (numeral_ne_nil (n := v.natAbs) (by decide : 1 < 10))
    have hc : c ≠ 45 := by
      rintro rfl
      exact minus_not_mem (by decide : 1 < 10) (by decide) (hs ▸ List.mem_cons_self)
    rw [hs] at hval ⊢
    rw [valueOfSigned, if_neg hc, hval]
    omega

end Numeral

end ZxyOs.Lib
