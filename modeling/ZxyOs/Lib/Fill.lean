/-
  ZxyOs.Lib.Fill

  Filling a stretch of a 32-bit address space, which wraps around at its end.

  `fill mem addr n f` is `mem` with the `n` bytes from `addr` on replaced by `f 0`, `f 1`, …;
  a copy word by word is a fill (`fill_word`), and so are two fills one behind the other
  (`fill_append`).
-/

import Mathlib.Algebra.Group.Nat.Defs

namespace ZxyOs.Lib

/-- Bytes under 32-bit addresses. -/
abbrev Memory : Type := UInt32 → UInt8

namespace Memory

def store (mem : Memory) (addr : UInt32) (v : UInt8) : Memory := fun a => if a = addr then v else mem a

def fill (mem : Memory) (addr : UInt32) (n : Nat) (f : Nat → UInt8) : Memory :=
  fun a => if (a - addr).toNat < n then f (a - addr).toNat else mem a

variable {mem : Memory} {addr a : UInt32} {n m k : Nat} {f g : Nat → UInt8}

@[simp] theorem fill_zero : mem.fill addr 0 f = mem := by
  funext a
  simp [fill]

theorem fill_congr (h : ∀ k < n, f k = g k) : mem.fill addr n f = mem.fill addr n g := by
  funext a
  unfold fill
  split
  · exact h _ ‹_›
  · rfl

theorem toNat_add_ofNat_sub (hk : k < 2 ^ 32) : (addr + UInt32.ofNat k - addr).toNat = k := by
  rw [UInt32.toNat_sub, UInt32.toNat_add, UInt32.toNat_ofNat']
  have := addr.toNat_lt
  omega

/-- Byte `k` of what is filled in. -/
theorem fill_inside (hk : k < n) (hn : n ≤ 2 ^ 32) : mem.fill addr n f (addr + UInt32.ofNat k) = f k := by
  have hoff : (addr + UInt32.ofNat k - addr).toNat = k := toNat_add_ofNat_sub (by omega)
  rw [fill, hoff, if_pos hk]

theorem fill_outside (h : n ≤ (a - addr).toNat) : mem.fill addr n f a = mem a :=
  if_neg (by omega)

/-- How far `a` is behind the address `k` bytes on. -/
theorem toNat_sub_add (hk : k < 2 ^ 32) :
    (a - (addr + UInt32.ofNat k)).toNat = ((a - addr).toNat + 2 ^ 32 - k) % 2 ^ 32 := by
  simp only [UInt32.toNat_sub, UInt32.toNat_add, UInt32.toNat_ofNat']
  have ha := a.toNat_lt
  have haddr := addr.toNat_lt
  omega

theorem fill_append (h : n + m ≤ 2 ^ 32) :
    (mem.fill addr n f).fill (addr + UInt32.ofNat n) m (fun k => f (n + k)) = mem.fill addr (n + m) f := by
  rcases Nat.eq_zero_or_pos m with rfl | hm
  · simp
  · funext a
    have hoff := @toNat_sub_add addr a _ (by omega : n < 2 ^ 32)
    have hlt := (a - addr).toNat_lt
    unfold fill
    rw [hoff]
    generalize (a - addr).toNat = d at hlt hoff ⊢
    by_cases hd : d < n
    · rw [if_neg (by omega), if_pos hd, if_pos (by omega)]
    · by_cases hin : d < n + m
      · rw [if_pos (by omega), if_pos hin]
        exact congrArg f (by omega)
      · rw [if_neg (by omega), if_neg hd, if_neg hin]

theorem store_eq_fill {v : UInt8} : mem.store addr v = mem.fill addr 1 (fun _ => v) := by
  funext a
  unfold store fill
  by_cases h : a = addr
  · subst h
    simp
  · have hne : (a - addr).toNat ≠ 0 := by
      intro hzero
      have := a.toNat_lt
      have := addr.toNat_lt
      rw [UInt32.toNat_sub] at hzero
      exact h (UInt32.toNat_inj.mp (by omega))
    rw [if_neg h, if_neg (by omega)]

/-- A word stored in front of a fill. -/
theorem fill_word (h : n + 2 ≤ 2 ^ 32) :
    ((mem.store addr (f 0)).store (addr + 1) (f 1)).fill (addr + 2) n (fun k => f (k + 2)) =
      mem.fill addr (n + 2) f := by
  have hword : (mem.store addr (f 0)).store (addr + 1) (f 1) = mem.fill addr 2 f := by
    have hlow : mem.store addr (f 0) = mem.fill addr 1 f := by
      rw [store_eq_fill]
      apply fill_congr
      intro k hk
      rw [Nat.lt_one_iff.mp hk]
    rw [hlow, store_eq_fill, ← fill_append (by omega : 1 + 1 ≤ 2 ^ 32)]
    apply fill_congr
    intro k hk
    rw [Nat.lt_one_iff.mp hk]
  rw [hword]
  have := @fill_append mem addr 2 n f (by omega)
  simp only [Nat.add_comm] at this ⊢
  exact this

end Memory

end ZxyOs.Lib
