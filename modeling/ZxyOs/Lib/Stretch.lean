/-
  ZxyOs.Lib.Stretch

  Stretches of a sequence and the counter that finds the first of them.

  A search for `cnt` consecutive places with the property `p` keeps a counter: it is
  reset at a place without the property and goes up at one with it.  `Counted p cnt next
  count` says what the counter means before place `next` is looked at: the last `count`
  places have the property, the place before those has not, and no stretch of `cnt` ends
  before `next`.  The three steps are `Counted.miss`, `Counted.hit` and `Counted.found`;
  the last finds the first stretch there is.
-/

namespace ZxyOs.Lib

/-- `cnt` consecutive places, from `s` on, have the property. -/
def Stretch (p : Nat → Prop) (cnt s : Nat) : Prop := ∀ j < cnt, p (s + j)

/-- `s` is where the first stretch starts. -/
def FirstStretch (p : Nat → Prop) (cnt s : Nat) : Prop :=
  Stretch p cnt s ∧ ∀ s' < s, ¬ Stretch p cnt s'

structure Counted (p : Nat → Prop) (cnt next count : Nat) : Prop where
  le : count ≤ next
  lt : count < cnt
  tail : ∀ i, next - count ≤ i → i < next → p i
  stop : count < next → ¬ p (next - count - 1)
  unseen : ∀ s, s + cnt ≤ next → ¬ Stretch p cnt s

variable {p : Nat → Prop} {cnt next count s s' : Nat}

theorem Stretch.at (h : Stretch p cnt s) {i : Nat} (hle : s ≤ i) (hlt : i < s + cnt) : p i := by
  have := h (i - s) (by omega)
  rwa [Nat.add_sub_cancel' hle] at this

theorem FirstStretch.unique (h : FirstStretch p cnt s) (h' : FirstStretch p cnt s') : s = s' := by
  rcases Nat.lt_trichotomy s s' with hlt | heq | hlt
  · exact absurd h.1 (h'.2 s hlt)
  · exact heq
  · exact absurd h'.1 (h.2 s' hlt)

theorem Stretch.exists_first (h : Stretch p cnt s) : ∃ s', s' ≤ s ∧ FirstStretch p cnt s' := by
  induction s using Nat.strongRecOn with
  | _ s ih =>
    by_cases hex : ∃ s' < s, Stretch p cnt s'
    · obtain ⟨s', hlt, hs'⟩ := hex
      obtain ⟨s'', hle, hfirst⟩ := ih s' hlt hs'
      exact ⟨s'', by omega, hfirst⟩
    · refine ⟨s, Nat.le_refl s, h, ?_⟩
      intro s' hlt hs'
      exact hex ⟨s', hlt, hs'⟩

/-- The counter starts at a place with the property and nothing but others before it. -/
theorem Counted.start (hcnt : 1 < cnt) (hp : p s) (hbefore : ∀ i < s, ¬ p i) : Counted p cnt (s + 1) 1 where
  le := by omega
  lt := hcnt
  tail := by
    intro i hle hlt
    obtain rfl : i = s := by omega
    exact hp
  stop := by
    intro hlt
    exact hbefore _ (by omega)
  unseen := by
    intro s' hle hs'
    exact hbefore s' (by omega) (hs' 0 (by omega))

/-- Behind a place without the property the counter starts anew. -/
theorem Counted.after (hcnt : 0 < cnt) (hp : ¬ p next)
    (hunseen : ∀ s, s + cnt ≤ next → ¬ Stretch p cnt s) : Counted p cnt (next + 1) 0 where
  le := by omega
  lt := hcnt
  tail := by omega
  stop := fun _ => hp
  unseen := by
    intro s hle hs
    by_cases hend : s + cnt ≤ next
    · exact hunseen s hend hs
    · exact hp (hs.at (by omega) (by omega))

theorem Counted.miss (h : Counted p cnt next count) (hp : ¬ p next) : Counted p cnt (next + 1) 0 :=
  .after (Nat.zero_lt_of_lt h.lt) hp h.unseen

theorem Counted.hit (h : Counted p cnt next count) (hp : p next) (hlt : count + 1 < cnt) :
    Counted p cnt (next + 1) (count + 1) where
  le := by
    have := h.le
    omega
  lt := hlt
  tail := by
    intro i hle hi
    by_cases hin : i = next
    · rw [hin]
      exact hp
    · exact h.tail i (by omega) (by omega)
  stop := by
    intro hlt
    rw [show next + 1 - (count + 1) - 1 = next - count - 1 by omega]
    exact h.stop (by omega)
  unseen := by
    intro s hle hs
    by_cases hend : s + cnt ≤ next
    · exact h.unseen s hend hs
    · -- the stretch would take in the place in front of the counted ones
      have := h.le
      exact h.stop (by omega) (hs.at (by omega) (by omega))

theorem Counted.found (h : Counted p cnt next count) (hp : p next) (heq : count + 1 = cnt) :
    FirstStretch p cnt (next + 1 - cnt) := by
  have hle := h.le
  constructor
  · intro j hj
    by_cases hlast : next + 1 - cnt + j = next
    · rw [hlast]
      exact hp
    · exact h.tail _ (by omega) (by omega)
  · intro s' hlt
    exact h.unseen s' (by omega)

end ZxyOs.Lib
