/-
  ZxyOs.Lib.Threads

  Programs of threads, cut into acts.  Between two acts of one thread other threads
  may perform theirs, so an act is what nobody can get in between.

  A discipline says which acts a thread may perform where it stands and where it
  stands after an act and its answer.  `Follows D p γ Q`: started at `γ`, the program
  `p` performs allowed acts only, whatever they answer, and ends where `Q` holds.
  `follows_bind` composes along the text of the program.

  `alone run p` is the program where nobody gets in between.
-/

import ZxyOs.Lib.Exec

namespace ZxyOs.Lib

/-- A program over the acts `A`.  Every act is answered with a number. -/
inductive Prog (A α : Type) where
  | ret (a : α)
  | act (a : A) (k : Nat → Prog A α)

namespace Prog

variable {A Γ α β : Type}

/-- Run `p`, then `f` with its result. -/
def bind : Prog A α → (α → Prog A β) → Prog A β
  | ret a, f => f a
  | act a k, f => act a fun n => (k n).bind f

instance : Monad (Prog A) where
  pure := ret
  bind := bind

/-- Perform one act. -/
def perform (a : A) : Prog A Nat := act a ret

/-- Which acts are allowed at `γ`, and where an act with its answer leads. -/
structure Discipline (A Γ : Type) where
  allows : Γ → A → Prop
  next : Γ → A → Nat → Γ → Prop

/-- The program keeps to the discipline from `γ` on and ends where `Q` holds. -/
def Follows (D : Discipline A Γ) : Prog A α → Γ → (Γ → α → Prop) → Prop
  | ret a, γ, Q => Q γ a
  | act a k, γ, Q => D.allows γ a ∧ ∀ n γ', D.next γ a n γ' → Follows D (k n) γ' Q

section Rules

variable {D : Discipline A Γ} {p : Prog A α} {f : α → Prog A β} {γ : Γ} {Q Q' : Γ → α → Prop}
  {R : Γ → β → Prop}

theorem follows_pure {a : α} : Follows D (pure a : Prog A α) γ Q ↔ Q γ a := Iff.rfl

theorem follows_perform {a : A} {Q : Γ → Nat → Prop} :
    Follows D (perform a) γ Q ↔ D.allows γ a ∧ ∀ n γ', D.next γ a n γ' → Q γ' n := Iff.rfl

theorem Follows.mono (h : Follows D p γ Q) (hQ : ∀ γ a, Q γ a → Q' γ a) : Follows D p γ Q' := by
  induction p generalizing γ with
  | ret a => exact hQ γ a h
  | act a k ih =>
    obtain ⟨hallows, hnext⟩ := h
    exact ⟨hallows, fun n γ' hstep => ih n (hnext n γ' hstep)⟩

theorem follows_bind :
    Follows D (p >>= f) γ R ↔ Follows D p γ fun γ' a => Follows D (f a) γ' R := by
  induction p generalizing γ with
  | ret a => exact Iff.rfl
  | act a k ih =>
    have hcont (n : Nat) (γ' : Γ) : Follows D (k n >>= f) γ' R ↔
        Follows D (k n) γ' fun γ'' b => Follows D (f b) γ'' R := ih n
    constructor
    · intro h
      exact ⟨h.1, fun n γ' hstep => (hcont n γ').mp (h.2 n γ' hstep)⟩
    · intro h
      exact ⟨h.1, fun n γ' hstep => (hcont n γ').mpr (h.2 n γ' hstep)⟩

/-- One act, then the rest. -/
theorem follows_act {a : A} {k : Nat → Prog A α} :
    Follows D (perform a >>= k) γ Q ↔
      D.allows γ a ∧ ∀ n γ', D.next γ a n γ' → Follows D (k n) γ' Q := by
  rw [follows_bind, follows_perform]

theorem Follows.bind (h : Follows D p γ Q) (hf : ∀ γ' a, Q γ' a → Follows D (f a) γ' R) :
    Follows D (p >>= f) γ R :=
  follows_bind.mpr (h.mono hf)

end Rules

/-! ## Programs that run alone -/

variable {σ : Type}

/-- The program as one that runs without interruption. -/
def alone (run : A → Exec σ Nat) : Prog A α → Exec σ α
  | ret a => pure a
  | act a k => do
    let n ← run a
    alone run (k n)

section Alone

open Exec

variable {run : A → Exec σ Nat} {p : Prog A α} {f : α → Prog A β} {s s' : σ} {a' : α} {b : β}

@[simp] theorem returns_alone_pure {a : α} :
    Returns (alone run (pure a : Prog A α)) s a' s' ↔ a = a' ∧ s = s' := returns_pure

@[simp] theorem returns_alone_perform {a : A} {n : Nat} :
    Returns (alone run (perform a)) s n s' ↔ Returns (run a) s n s' := by
  simp only [perform, alone, returns_bind, returns_pure]
  constructor
  · rintro ⟨m, t, h, rfl, rfl⟩
    exact h
  · exact fun h => ⟨n, s', h, rfl, rfl⟩

@[simp] theorem returns_alone_bind :
    Returns (alone run (p >>= f)) s b s' ↔
      ∃ a t, Returns (alone run p) s a t ∧ Returns (alone run (f a)) t b s' := by
  induction p generalizing s with
  | ret a =>
    constructor
    · exact fun h => ⟨a, s, returns_pure.mpr ⟨rfl, rfl⟩, h⟩
    · rintro ⟨a', t, ha, h⟩
      obtain ⟨rfl, rfl⟩ := returns_pure.mp ha
      exact h
  | act a k ih =>
    have hcont (n : Nat) (t : σ) : Returns (alone run (k n >>= f)) t b s' ↔
        ∃ a u, Returns (alone run (k n)) t a u ∧ Returns (alone run (f a)) u b s' := ih n
    show Returns (run a >>= fun n => alone run (k n >>= f)) s b s' ↔
      ∃ a' t, Returns (run a >>= fun n => alone run (k n)) s a' t ∧ Returns (alone run (f a')) t b s'
    simp only [returns_bind, hcont]
    constructor
    · rintro ⟨n, t, hn, a', u, ha, h⟩
      exact ⟨a', u, ⟨n, t, hn, ha⟩, h⟩
    · rintro ⟨a', u, ⟨n, t, hn, ha⟩, h⟩
      exact ⟨n, t, hn, a', u, ha, h⟩

theorem safe_alone_pure {a : α} : Safe (alone run (pure a : Prog A α)) s := safe_pure a

@[simp] theorem safe_alone_perform {a : A} : Safe (alone run (perform a)) s ↔ Safe (run a) s := by
  simp only [perform, alone, safe_bind, safe_pure, implies_true, and_true]

theorem stops_alone_bind {e : Stop} : Stops (alone run (p >>= f)) s e ↔
    Stops (alone run p) s e ∨ ∃ a t, Returns (alone run p) s a t ∧ Stops (alone run (f a)) t e := by
  induction p generalizing s with
  | ret a =>
    constructor
    · exact fun h => Or.inr ⟨a, s, returns_pure.mpr ⟨rfl, rfl⟩, h⟩
    · rintro (h | ⟨a', t, ha, h⟩)
      · cases h
      · obtain ⟨rfl, rfl⟩ := returns_pure.mp ha
        exact h
  | act a k ih =>
    have hcont (n : Nat) (t : σ) : Stops (alone run (k n >>= f)) t e ↔ Stops (alone run (k n)) t e ∨
        ∃ a u, Returns (alone run (k n)) t a u ∧ Stops (alone run (f a)) u e := ih n
    show Stops (run a >>= fun n => alone run (k n >>= f)) s e ↔ Stops (run a >>= fun n => alone run (k n)) s e ∨
      ∃ a' t, Returns (run a >>= fun n => alone run (k n)) s a' t ∧ Stops (alone run (f a')) t e
    simp only [stops_bind, returns_bind, hcont]
    constructor
    · rintro (ha | ⟨n, t, hn, hk | ⟨a', u, hu, h⟩⟩)
      · exact Or.inl (Or.inl ha)
      · exact Or.inl (Or.inr ⟨n, t, hn, hk⟩)
      · exact Or.inr ⟨a', u, ⟨n, t, hn, hu⟩, h⟩
    · rintro ((ha | ⟨n, t, hn, hk⟩) | ⟨a', u, ⟨n, t, hn, hu⟩, h⟩)
      · exact Or.inl ha
      · exact Or.inr ⟨n, t, hn, Or.inl hk⟩
      · exact Or.inr ⟨n, t, hn, Or.inr ⟨a', u, hu, h⟩⟩

theorem safe_alone_bind : Safe (alone run (p >>= f)) s ↔
    Safe (alone run p) s ∧ ∀ a t, Returns (alone run p) s a t → Safe (alone run (f a)) t := by
  constructor
  · intro h
    exact ⟨fun e he => h e (stops_alone_bind.mpr (Or.inl he)),
      fun a t ha e he => h e (stops_alone_bind.mpr (Or.inr ⟨a, t, ha, he⟩))⟩
  · rintro ⟨hp, hf⟩ e he
    rcases stops_alone_bind.mp he with he | ⟨a, t, ha, he⟩
    · exact hp e he
    · exact hf a t ha e he

/-- What the first part returns is known. -/
theorem safe_alone_of_returns {t : σ} (h : Returns (alone run p) s a' t) :
    Safe (alone run (p >>= f)) s ↔ Safe (alone run (f a')) t := by
  rw [safe_alone_bind]
  constructor
  · exact fun hsafe => hsafe.2 a' t h
  · intro hsafe
    refine ⟨safe_of_returns h, fun b u hb => ?_⟩
    obtain ⟨rfl, rfl⟩ := h.unique hb
    exact hsafe

theorem returns_alone_iff {t : σ} (h : Returns (alone run p) s a' t) :
    Returns (alone run (p >>= f)) s b s' ↔ Returns (alone run (f a')) t b s' := by
  rw [returns_alone_bind]
  constructor
  · rintro ⟨a, u, ha, hrest⟩
    obtain ⟨rfl, rfl⟩ := h.unique ha
    exact hrest
  · exact fun hrest => ⟨a', t, h, hrest⟩

variable {R : σ → σ → Prop}

theorem keeps_alone_pure [Std.Refl R] (a : α) : Keeps R (alone run (pure a : Prog A α)) :=
  keeps_pure a

theorem keeps_alone_bind [IsTrans σ R] (h : Keeps R (alone run p))
    (hf : ∀ a, Keeps R (alone run (f a))) : Keeps R (alone run (p >>= f)) := by
  intro s b s' hret
  obtain ⟨a, t, ha, hrest⟩ := returns_alone_bind.mp hret
  exact trans_of R (h ha) (hf a hrest)

/-- What every act keeps is kept by every program. -/
theorem keeps_alone [Std.Refl R] [IsTrans σ R] (h : ∀ a, Keeps R (run a)) (p : Prog A α) : Keeps R (alone run p) := by
  induction p with
  | ret a => exact keeps_pure a
  | act a k ih => exact (h a).bind ih

theorem keeps_alone_perform {a : A} (h : Keeps R (run a)) : Keeps R (alone run (perform a)) :=
  fun _ _ _ hret => h (returns_alone_perform.mp hret)

end Alone

end Prog

end ZxyOs.Lib
