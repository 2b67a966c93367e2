/-
  ZxyOs.Lib.CString

  Strings that end with a NUL byte, in a byte-addressed memory.

  `write` puts a list of bytes behind each other, `IsStr` says that the string at an
  address is a given list.  `strlen` and `strcpy` are the loops of the C functions; they
  end at the NUL, of which the memory of 32-bit addresses bounds the distance.
-/

import ZxyOs.Lib.Bytes

namespace ZxyOs.Lib.Bytes

/-- The bytes `s` from `p` on. -/
def write (b : Bytes) (p : Nat) : List UInt8 → Bytes
  | [] => b
  | c :: s => write (Function.update b p c) (p + 1) s

/-- At `p` is the string `s`. -/
def IsStr (b : Bytes) : Nat → List UInt8 → Prop
  | p, [] => b p = 0
  | p, c :: s => (b p = c ∧ c ≠ 0) ∧ IsStr b (p + 1) s

/-- The loop of `strlen` from `p` on, with the address of the NUL. -/
def strEnd (b : Bytes) : Nat → Nat → Option Nat
  | 0, _ => none
  | fuel + 1, p => if b p = 0 then some p else b.strEnd fuel (p + 1)

/-- `strlen`, which asserts that there is a string. -/
def strlen (b : Bytes) (str : Nat) : Option Nat :=
  if str = 0 then none else (b.strEnd (2 ^ 32) str).map (· - str)

/-- The first address from `p` on whose byte `P` does not hold of. -/
def scan (b : Bytes) (P : UInt8 → Bool) : Nat → Nat → Option Nat
  | 0, _ => none
  | fuel + 1, p => if P (b p) then b.scan P fuel (p + 1) else some p

/-- The loop of `strcpy`. -/
def strcpyLoop : Nat → Bytes → Nat → Nat → Option Bytes
  | 0, _, _, _ => none
  | fuel + 1, b, dst, src =>
    let c := b src
    let b := Function.update b dst c
    if c = 0 then some b else strcpyLoop fuel b (dst + 1) (src + 1)

/-- `strcpy`. -/
def strcpy (b : Bytes) (dst src : Nat) : Option Bytes :=
  if dst = 0 ∨ src = 0 then none else strcpyLoop (2 ^ 32) b dst src

/-! ## Writing -/

section Write

variable {b b' : Bytes} {p a k : Nat} {s t : List UInt8} {c : UInt8}

theorem write_append : b.write p (s ++ t) = (b.write p s).write (p + s.length) t := by
  induction s generalizing b p with
  | nil => rfl
  | cons c s ih =>
    rw [List.cons_append, write, ih, write, List.length_cons]
    congr 1
    omega

theorem write_singleton : b.write p [c] = Function.update b p c := rfl

theorem write_outside (h : a < p ∨ p + s.length ≤ a) : b.write p s a = b a := by
  induction s generalizing b p with
  | nil => rfl
  | cons c s ih =>
    rw [List.length_cons] at h
    rw [write, ih (by omega), Function.update_of_ne (by omega)]

/-- The first of the bytes written is none but one of them. -/
theorem write_first_mem (h : s ≠ []) : b.write p s p ∈ s := by
  cases s with
  | nil => exact absurd rfl h
  | cons c s =>
    rw [write, write_outside (by omega), Function.update_self]
    exact List.mem_cons_self

theorem write_inside (h : k < s.length) : b.write p s (p + k) = s[k] := by
  induction s generalizing b p k with
  | nil => cases h
  | cons c s ih =>
    rw [write]
    cases k with
    | zero =>
      rw [write_outside (by omega), Nat.add_zero, Function.update_self]
      rfl
    | succ k =>
      have hrest := @ih (Function.update b p c) (p + 1) k (by simpa using h)
      rw [show p + (k + 1) = p + 1 + k by omega, hrest]
      rfl

/-- The scan passes the bytes it is to pass. -/
theorem scan_eq {P : UInt8 → Bool} {fuel : Nat} (h : ∀ k (hk : k < s.length), b (p + k) = s[k])
    (hs : ∀ c ∈ s, P c = true) (hstop : P (b (p + s.length)) = false) (hfuel : s.length < fuel) :
    b.scan P fuel p = some (p + s.length) := by
  induction s generalizing p fuel with
  | nil =>
    obtain ⟨fuel, rfl⟩ : ∃ n, fuel = n + 1 := ⟨fuel - 1, by simp at hfuel; omega⟩
    rw [List.length_nil, Nat.add_zero] at hstop
    rw [scan, if_neg (by simp [hstop])]
    rfl
  | cons c s ih =>
    rw [List.length_cons] at hfuel hstop ⊢
    obtain ⟨fuel, rfl⟩ : ∃ n, fuel = n + 1 := ⟨fuel - 1, by omega⟩
    have hnext : p + (s.length + 1) = p + 1 + s.length := by omega
    have hfirst : P (b p) = true := by
      rw [show b p = c from h 0 (by simp)]
      exact hs c (by simp)
    rw [hnext] at hstop ⊢
    rw [scan, if_pos hfirst]
    apply ih _ (fun c hc => hs c (List.mem_cons_of_mem _ hc)) hstop (by omega)
    intro k hk
    rw [show p + 1 + k = p + (k + 1) by omega]
    exact h (k + 1) (by simpa using hk)

/-- A NUL where there is one already. -/
theorem write_nul (h : b a = 0) : Function.update b a 0 = b := by
  rw [← h, Function.update_eq_self]

end Write

/-! ## Strings -/

section Strings

variable {b b' : Bytes} {p dst src fuel : Nat} {s : List UInt8}

theorem IsStr.congr (h : b.IsStr p s) (hb : ∀ a, p ≤ a → a ≤ p + s.length → b' a = b a) :
    b'.IsStr p s := by
  induction s generalizing p with
  | nil => exact (hb p (Nat.le_refl _) (Nat.le_add_right _ _)).trans h
  | cons c s ih =>
    rw [List.length_cons] at hb
    refine ⟨⟨(hb p (by omega) (by omega)).trans h.1.1, h.1.2⟩, ?_⟩
    exact ih h.2 fun a ha ha' => hb a (by omega) (by omega)

theorem IsStr.nonzero (h : b.IsStr p s) : (0 : UInt8) ∉ s := by
  induction s generalizing p with
  | nil => simp
  | cons c s ih => exact fun hmem => (List.mem_cons.mp hmem).elim (h.1.2 ·.symm) (ih h.2)

/-- The rest of a string. -/
theorem IsStr.rest {t : List UInt8} (h : b.IsStr p (s ++ t)) : b.IsStr (p + s.length) t := by
  induction s generalizing p with
  | nil => exact h
  | cons c s ih =>
    have hrest := ih h.2
    rwa [List.length_cons, show p + (s.length + 1) = p + 1 + s.length by omega]

theorem IsStr.get (h : b.IsStr p s) (k : Nat) (hk : k < s.length) : b (p + k) = s[k] := by
  induction s generalizing p k with
  | nil => cases hk
  | cons c s ih =>
    cases k with
    | zero => exact h.1.1
    | succ k =>
      rw [show p + (k + 1) = p + 1 + k by omega]
      exact ih h.2 k (by simpa using hk)

theorem IsStr.nul (h : b.IsStr p s) : b (p + s.length) = 0 := by
  have hend : b.IsStr (p + s.length) [] := IsStr.rest (by rwa [List.append_nil])
  exact hend

theorem isStr_of_get (h : ∀ k (hk : k < s.length), b (p + k) = s[k]) (hnul : b (p + s.length) = 0)
    (hs : (0 : UInt8) ∉ s) : b.IsStr p s := by
  induction s generalizing p with
  | nil => exact hnul
  | cons c s ih =>
    rw [List.mem_cons, not_or] at hs
    refine ⟨⟨h 0 (by simp), Ne.symm hs.1⟩, ih (fun k hk => ?_) ?_ hs.2⟩
    · have := h (k + 1) (by simpa using hk)
      rwa [show p + (k + 1) = p + 1 + k by omega] at this
    · rwa [List.length_cons, show p + (s.length + 1) = p + 1 + s.length by omega] at hnul

/-- What is written in front of a NUL is a string. -/
theorem isStr_write (hs : (0 : UInt8) ∉ s) (hb : b (p + s.length) = 0) : (b.write p s).IsStr p s := by
  induction s generalizing b p with
  | nil => exact hb
  | cons c s ih =>
    rw [List.mem_cons, not_or] at hs
    rw [List.length_cons] at hb
    refine ⟨⟨?_, Ne.symm hs.1⟩, ih hs.2 ?_⟩
    · rw [write, write_outside (by omega), Function.update_self]
    · rw [Function.update_of_ne (by omega)]
      rw [show p + 1 + s.length = p + (s.length + 1) by omega]
      exact hb

theorem IsStr.strEnd (h : b.IsStr p s) (hfuel : s.length < fuel) :
    b.strEnd fuel p = some (p + s.length) := by
  induction s generalizing p fuel with
  | nil =>
    obtain ⟨fuel, rfl⟩ : ∃ n, fuel = n + 1 := ⟨fuel - 1, by simp at hfuel; omega⟩
    exact if_pos h
  | cons c s ih =>
    rw [List.length_cons] at hfuel ⊢
    obtain ⟨fuel, rfl⟩ : ∃ n, fuel = n + 1 := ⟨fuel - 1, by omega⟩
    have hc : b p ≠ 0 := h.1.1 ▸ h.1.2
    rw [Bytes.strEnd, if_neg hc, ih h.2 (by omega)]
    congr 1
    omega

/-- `strlen` counts the bytes in front of the NUL. -/
theorem IsStr.strlen (h : b.IsStr p s) (hp : p ≠ 0) (hs : s.length < 2 ^ 32) :
    b.strlen p = some s.length := by
  rw [Bytes.strlen, if_neg hp, h.strEnd hs, Option.map_some, Nat.add_sub_cancel_left]

/-- Copying a string that does not overlap its copy. -/
theorem IsStr.strcpyLoop (h : b.IsStr src s) (hfuel : s.length < fuel)
    (hapart : src + s.length < dst ∨ dst + s.length < src) :
    strcpyLoop fuel b dst src = some (b.write dst (s ++ [0])) := by
  induction s generalizing b dst src fuel with
  | nil =>
    obtain ⟨fuel, rfl⟩ : ∃ n, fuel = n + 1 := ⟨fuel - 1, by simp at hfuel; omega⟩
    have hnul : b src = 0 := h
    rw [Bytes.strcpyLoop, if_pos hnul, hnul]
    rfl
  | cons c s ih =>
    rw [List.length_cons] at hfuel hapart
    obtain ⟨fuel, rfl⟩ : ∃ n, fuel = n + 1 := ⟨fuel - 1, by omega⟩
    have hc : b src = c := h.1.1
    have hrest : Bytes.IsStr (Function.update b dst c) (src + 1) s :=
      h.2.congr fun a ha ha' => Function.update_of_ne (by omega) _ _
    rw [Bytes.strcpyLoop, hc, if_neg h.1.2, ih hrest (by omega) (by omega)]
    rfl

theorem IsStr.strcpy (h : b.IsStr src s) (hsrc : src ≠ 0) (hdst : dst ≠ 0) (hs : s.length < 2 ^ 32)
    (hapart : src + s.length < dst ∨ dst + s.length < src) :
    b.strcpy dst src = some (b.write dst (s ++ [0])) := by
  rw [Bytes.strcpy, if_neg (by omega), h.strcpyLoop hs hapart]

end Strings

end ZxyOs.Lib.Bytes
