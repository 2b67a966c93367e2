/-
  ZxyOs.Lib.Exec

  Sequential programs over an explicit state.  A program maps the state it is
  started in to a result and a final state, or it stops: on an assertion, on
  undefined behaviour, or because it waits for another party.

  The two judgements used by every client are

    * `Exec.Returns x s a s'`: from `s` the program returns `a` and leaves `s'`;
    * `Exec.Keeps R x`: whenever the program returns, the states before and
      after are related by `R` (a frame condition when `R` says what is left
      alone, an invariant when it says what is kept).

  `Returns` is computed by inversion along the program text (`returns_bind` and
  its companions form a simp set); `Keeps` composes over `bind` for every
  reflexive and transitive `R`.  `Exec.Contained P x` says in the same way that the
  program stays within its buffers and keeps `P`.  `Exec.Safe x s` says that the program
  does not go wrong from `s`; it is computed along the program text as `Returns` is.
-/

import Mathlib.Logic.Function.Basic
import Mathlib.Order.Defs.Unbundled

namespace ZxyOs.Lib

/-- Why a program stops without returning. -/
inductive Stop where
  /-- an assertion failed or the program gave up deliberately -/
  | panic
  /-- the program's behaviour is undefined from here on -/
  | fault
  /-- more is stored at a pointer than there is room for -/
  | overrun
  /-- the program waits for an event it cannot produce itself -/
  | blocked
  deriving DecidableEq, Repr

/-- A program over states `σ` with results in `α`. -/
def Exec (σ α : Type) : Type := σ → Except Stop (α × σ)

namespace Exec

variable {σ α β : Type}

instance : Monad (Exec σ) where
  pure a := fun s => .ok (a, s)
  bind x f := fun s =>
    match x s with
    | .ok (a, s') => f a s'
    | .error e => .error e

/-- Stop with reason `e`. -/
def stop (e : Stop) : Exec σ α := fun _ => .error e

/-- Read a function of the state. -/
def query (f : σ → α) : Exec σ α := fun s => .ok (f s, s)

/-- Replace the state. -/
def update (f : σ → σ) : Exec σ Unit := fun s => .ok ((), f s)

/-- Continue only where `p` holds; a failing assertion panics. -/
def assert (p : Prop) [Decidable p] : Exec σ Unit :=
  if p then pure () else stop .panic

/-- Continue only where `p` holds; the behaviour is undefined elsewhere. -/
def require (p : Prop) [Decidable p] : Exec σ Unit :=
  if p then pure () else stop .fault

/-- Continue only where `p` holds; elsewhere what is stored does not fit. -/
def fits (p : Prop) [Decidable p] : Exec σ Unit :=
  if p then pure () else stop .overrun

/-- Follow a pointer: following the null pointer is undefined. -/
def deref : Option α → Exec σ α
  | some a => pure a
  | none => stop .fault

/-- Started in `s`, the program returns `a` and leaves the state `s'`. -/
def Returns (x : Exec σ α) (s : σ) (a : α) (s' : σ) : Prop := x s = .ok (a, s')

/-- Started in `s`, the program stops for the reason `e`. -/
def Stops (x : Exec σ α) (s : σ) (e : Stop) : Prop := x s = .error e

/-! ## Inversion -/

section Returns

variable {x : Exec σ α} {f : α → Exec σ β} {s s' t : σ} {a a' : α} {b : β}

@[simp] theorem returns_pure : Returns (pure a : Exec σ α) s a' s' ↔ a = a' ∧ s = s' := by
  simp [Returns, pure]

@[simp] theorem returns_bind :
    Returns (x >>= f) s b s' ↔ ∃ a t, Returns x s a t ∧ Returns (f a) t b s' := by
  constructor
  · intro h
    simp only [Returns, bind] at h
    split at h
    · next a t hx => exact ⟨a, t, hx, h⟩
    · cases h
  · rintro ⟨a, t, hx, hf⟩
    simp only [Returns, bind] at hx hf ⊢
    rw [hx]
    exact hf

@[simp] theorem returns_stop (e : Stop) : ¬ Returns (stop e : Exec σ α) s a s' := by
  simp [Returns, stop]

@[simp] theorem returns_query (g : σ → α) :
    Returns (query g) s a s' ↔ g s = a ∧ s = s' := by
  simp [Returns, query]

@[simp] theorem returns_update (g : σ → σ) (u : Unit) :
    Returns (update g) s u s' ↔ g s = s' := by
  simp [Returns, update]

@[simp] theorem returns_assert (p : Prop) [Decidable p] (u : Unit) :
    Returns (assert p) s u s' ↔ p ∧ s = s' := by
  unfold assert
  split <;> simp_all

@[simp] theorem returns_require (p : Prop) [Decidable p] (u : Unit) :
    Returns (require p) s u s' ↔ p ∧ s = s' := by
  unfold require
  split <;> simp_all

@[simp] theorem returns_fits (p : Prop) [Decidable p] (u : Unit) :
    Returns (fits p) s u s' ↔ p ∧ s = s' := by
  unfold fits
  split <;> simp_all

@[simp] theorem returns_deref (o : Option α) :
    Returns (deref o) s a s' ↔ o = some a ∧ s = s' := by
  cases o <;> simp [deref]

/-- A sequence stops where its first part does, or where the second does after it. -/
theorem stops_bind {e : Stop} :
    Stops (x >>= f) s e ↔ Stops x s e ∨ ∃ a t, Returns x s a t ∧ Stops (f a) t e := by
  simp only [Stops, Returns, Bind.bind]
  cases hx : x s with
  | ok r =>
    obtain ⟨a, t⟩ := r
    simp [and_assoc]
  | error e' => simp

/-- A program has at most one outcome. -/
theorem Returns.unique (h : Returns x s a s') (h' : Returns x s a' t) : a = a' ∧ s' = t := by
  simp only [Returns] at h h'
  rw [h] at h'
  simpa using h'

/-- Where the first part is known to return, a sequence is what comes after it. -/
theorem returns_bind_iff (hx : Returns x s a t) : Returns (x >>= f) s b s' ↔ Returns (f a) t b s' := by
  rw [returns_bind]
  constructor
  · rintro ⟨a', t', hx', hf⟩
    obtain ⟨rfl, rfl⟩ := hx.unique hx'
    exact hf
  · exact fun hf => ⟨a, t, hx, hf⟩

end Returns

/-- The result of a program, computed. -/
def result? (x : Exec σ α) (s : σ) : Option α :=
  match x s with
  | .ok (a, _) => some a
  | .error _ => none

theorem result?_eq_some {x : Exec σ α} {s : σ} {a : α} :
    x.result? s = some a ↔ ∃ s', Returns x s a s' := by
  simp only [result?, Returns]
  split
  · next b t h => simp [h]
  · next e h => simp [h]

/-- The state a program leaves, computed. -/
def final? (x : Exec σ α) (s : σ) : Option σ :=
  match x s with
  | .ok (_, s') => some s'
  | .error _ => none

theorem final?_eq_some {x : Exec σ α} {s s' : σ} : x.final? s = some s' ↔ ∃ a, Returns x s a s' := by
  simp only [final?, Returns]
  split
  · next b t h => simp [h]
  · next e h => simp [h]

/-- The program returns, and `p` holds of its result and of the state it leaves. -/
def checks (x : Exec σ α) (s : σ) (p : α → σ → Bool) : Bool :=
  match x s with
  | .ok (a, s') => p a s'
  | .error _ => false

theorem checks_eq_true {x : Exec σ α} {s : σ} {p : α → σ → Bool} :
    x.checks s p = true ↔ ∃ a s', Returns x s a s' ∧ p a s' = true := by
  simp only [checks, Returns]
  split
  · next b t h =>
    constructor
    · exact fun hp => ⟨b, t, h, hp⟩
    · rintro ⟨a, s', heq, hp⟩
      obtain ⟨rfl, rfl⟩ := Prod.mk.inj (Except.ok.inj (h.symm.trans heq))
      exact hp
  · next e h => simp [h]

/-- What is checked of the outcome holds of every outcome. -/
theorem Returns.of_checks {x : Exec σ α} {s s' : σ} {a : α} {p : α → σ → Bool} (h : Returns x s a s')
    (hp : x.checks s p = true) : p a s' = true := by
  obtain ⟨b, t, hb, hp⟩ := checks_eq_true.mp hp
  obtain ⟨rfl, rfl⟩ := h.unique hb
  exact hp

/-- The program stops for the reason `e`, computed. -/
def stopsFor (x : Exec σ α) (s : σ) (e : Stop) : Bool :=
  match x s with
  | .ok _ => false
  | .error e' => e' = e

theorem stopsFor_eq_true {x : Exec σ α} {s : σ} {e : Stop} : x.stopsFor s e = true ↔ Stops x s e := by
  simp only [stopsFor, Stops]
  split
  · next r h => simp [h]
  · next e' h => simp [h]

/-! ## What a program keeps -/

/-- Whenever `x` returns, the states before and after are related by `R`. -/
def Keeps (R : σ → σ → Prop) (x : Exec σ α) : Prop :=
  ∀ ⦃s a s'⦄, Returns x s a s' → R s s'

section Keeps

variable {R S : σ → σ → Prop} {x y : Exec σ α} {f : α → Exec σ β}

theorem Keeps.mono (h : Keeps R x) (hRS : ∀ s t, R s t → S s t) : Keeps S x :=
  fun _ _ _ hx => hRS _ _ (h hx)

theorem keeps_pure [Std.Refl R] (a : α) : Keeps R (pure a : Exec σ α) := by
  intro s b s' h
  obtain ⟨-, rfl⟩ := returns_pure.mp h
  exact refl_of R s

theorem Keeps.bind [IsTrans σ R] (hx : Keeps R x) (hf : ∀ a, Keeps R (f a)) :
    Keeps R (x >>= f) := by
  intro s b s' h
  obtain ⟨a, t, h1, h2⟩ := returns_bind.mp h
  exact trans_of R (hx h1) (hf a h2)

theorem keeps_stop (e : Stop) : Keeps R (stop e : Exec σ α) :=
  fun _ _ _ h => absurd h (returns_stop e)

theorem keeps_query [Std.Refl R] (g : σ → α) : Keeps R (query g) := by
  intro s b s' h
  obtain ⟨-, rfl⟩ := (returns_query g).mp h
  exact refl_of R s

theorem keeps_update {g : σ → σ} (h : ∀ s, R s (g s)) : Keeps R (update g) := by
  intro s b s' hx
  obtain rfl := (returns_update g b).mp hx
  exact h s

theorem keeps_assert [Std.Refl R] (p : Prop) [Decidable p] : Keeps R (assert p) := by
  intro s b s' h
  obtain ⟨-, rfl⟩ := (returns_assert p b).mp h
  exact refl_of R s

theorem keeps_require [Std.Refl R] (p : Prop) [Decidable p] : Keeps R (require p) := by
  intro s b s' h
  obtain ⟨-, rfl⟩ := (returns_require p b).mp h
  exact refl_of R s

theorem keeps_fits [Std.Refl R] (p : Prop) [Decidable p] : Keeps R (fits p) := by
  intro s b s' h
  obtain ⟨-, rfl⟩ := (returns_fits p b).mp h
  exact refl_of R s

theorem keeps_deref [Std.Refl R] (o : Option α) : Keeps R (deref o : Exec σ α) := by
  intro s b s' h
  obtain ⟨-, rfl⟩ := (returns_deref o).mp h
  exact refl_of R s

theorem Keeps.ite {p : Prop} [Decidable p] (hx : Keeps R x) (hy : Keeps R y) :
    Keeps R (if p then x else y) := by
  split
  · exact hx
  · exact hy

end Keeps

/-! ## Staying within the buffers -/

/-- Started in `s`, the program never stores more than there is room for, and where it
    returns `Q` holds. -/
def ContainedAt (Q : σ → Prop) (x : Exec σ α) (s : σ) : Prop :=
  ¬ Stops x s .overrun ∧ ∀ ⦃a s'⦄, Returns x s a s' → Q s'

/-- The same from every state with `P`, which holds again in the end. -/
def Contained (P : σ → Prop) (x : Exec σ α) : Prop := ∀ ⦃s⦄, P s → ContainedAt P x s

/-- What holds before holds after. -/
def Kept (P : σ → Prop) (s s' : σ) : Prop := P s → P s'

section Contained

variable {P : σ → Prop} {x y : Exec σ α} {f : α → Exec σ β}

instance : Std.Refl (Kept P) := ⟨fun _ h => h⟩

instance : IsTrans σ (Kept P) := ⟨fun _ _ _ h h' hs => h' (h hs)⟩

theorem contained_pure (a : α) : Contained P (pure a : Exec σ α) := by
  intro s hs
  refine ⟨nofun, fun b s' h => ?_⟩
  obtain ⟨-, rfl⟩ := returns_pure.mp h
  exact hs

/-- What is known of a result may be used in what follows. -/
theorem Contained.bindOf {q : α → Prop} (hx : Contained P x) (hq : ∀ s a s', P s → Returns x s a s' → q a)
    (hf : ∀ a, q a → Contained P (f a)) : Contained P (x >>= f) := by
  intro s hs
  obtain ⟨hstop, hkeep⟩ := hx hs
  constructor
  · intro h
    rcases stops_bind.mp h with h | ⟨a, t, hxa, hfa⟩
    · exact hstop h
    · exact (hf a (hq s a t hs hxa) (hkeep hxa)).1 hfa
  · intro b s' h
    obtain ⟨a, t, hxa, hfa⟩ := returns_bind.mp h
    exact (hf a (hq s a t hs hxa) (hkeep hxa)).2 hfa

/-- What is read from a state that stays as it is may be used in what follows. -/
theorem Contained.look {Q : σ → Prop} {s : σ} (hx : Contained (fun t => t = s) x)
    (hf : ∀ a, Returns x s a s → ContainedAt Q (f a) s) : ContainedAt Q (x >>= f) s := by
  obtain ⟨hstop, hkeep⟩ := hx rfl
  constructor
  · intro h
    rcases stops_bind.mp h with h | ⟨a, t, hxa, hfa⟩
    · exact hstop h
    · obtain rfl := hkeep hxa
      exact (hf a hxa).1 hfa
  · intro b s' h
    obtain ⟨a, t, hxa, hfa⟩ := returns_bind.mp h
    obtain rfl := hkeep hxa
    exact (hf a hxa).2 hfa

theorem containedAt_bind {Q : σ → Prop} {s : σ} :
    ContainedAt Q (x >>= f) s ↔ ¬ Stops x s .overrun ∧ ∀ a t, Returns x s a t → ContainedAt Q (f a) t := by
  constructor
  · rintro ⟨hstop, hkeep⟩
    refine ⟨fun h => hstop (stops_bind.mpr (Or.inl h)), fun a t hx => ⟨fun h => ?_, fun b s' h => ?_⟩⟩
    · exact hstop (stops_bind.mpr (Or.inr ⟨a, t, hx, h⟩))
    · exact hkeep (returns_bind.mpr ⟨a, t, hx, h⟩)
  · rintro ⟨hx, hf⟩
    refine ⟨fun h => ?_, fun b s' h => ?_⟩
    · rcases stops_bind.mp h with h | ⟨a, t, hxa, hfa⟩
      · exact hx h
      · exact (hf a t hxa).1 hfa
    · obtain ⟨a, t, hxa, hfa⟩ := returns_bind.mp h
      exact (hf a t hxa).2 hfa

theorem ContainedAt.bind {Q : σ → Prop} {s : σ} (hx : ContainedAt Q x s) (hf : ∀ a, Contained Q (f a)) :
    ContainedAt Q (x >>= f) s := by
  constructor
  · intro h
    rcases stops_bind.mp h with h | ⟨a, t, hxa, hfa⟩
    · exact hx.1 h
    · exact (hf a (hx.2 hxa)).1 hfa
  · intro b s' h
    obtain ⟨a, t, hxa, hfa⟩ := returns_bind.mp h
    exact (hf a (hx.2 hxa)).2 hfa

theorem Contained.bind (hx : Contained P x) (hf : ∀ a, Contained P (f a)) : Contained P (x >>= f) :=
  fun _ hs => (hx hs).bind hf

theorem ContainedAt.mono {Q Q' : σ → Prop} {s : σ} (h : ContainedAt Q x s) (hQ : ∀ s', Q s' → Q' s') :
    ContainedAt Q' x s :=
  ⟨h.1, fun _ _ hx => hQ _ (h.2 hx)⟩

/-- A program that stays within its buffers wherever it is started, and keeps `P`. -/
theorem Contained.of_keeps (hx : Contained (fun _ => True) x) (hkeep : Keeps (Kept P) x) : Contained P x :=
  fun _ hs => ⟨(hx trivial).1, fun _ _ h => hkeep h hs⟩

theorem contained_stop {e : Stop} (he : e ≠ .overrun) : Contained P (stop e : Exec σ α) := by
  intro s hs
  refine ⟨fun h => he (Except.error.inj h), fun a s' h => ?_⟩
  exact absurd h (returns_stop e)

theorem contained_query (g : σ → α) : Contained P (query g) := by
  intro s hs
  refine ⟨nofun, fun a s' h => ?_⟩
  obtain ⟨-, rfl⟩ := (returns_query g).mp h
  exact hs

theorem contained_update {g : σ → σ} (hg : ∀ s, Kept P s (g s)) : Contained P (update g) := by
  intro s hs
  refine ⟨nofun, fun u s' h => ?_⟩
  obtain rfl := (returns_update g u).mp h
  exact hg s hs

theorem Contained.ite {p : Prop} [Decidable p] (hx : Contained P x) (hy : Contained P y) :
    Contained P (if p then x else y) := by
  split
  · exact hx
  · exact hy

theorem contained_assert (p : Prop) [Decidable p] : Contained P (assert p) :=
  (contained_pure ()).ite (contained_stop (by decide))

theorem contained_require (p : Prop) [Decidable p] : Contained P (require p) :=
  (contained_pure ()).ite (contained_stop (by decide))

theorem contained_fits {p : Prop} [Decidable p] (hp : p) : Contained P (fits p) := by
  rw [fits, if_pos hp]
  exact contained_pure ()

theorem contained_deref (o : Option α) : Contained P (deref o : Exec σ α) := by
  cases o with
  | none => exact contained_stop (by decide)
  | some a => exact contained_pure a

end Contained

/-! ## Not going wrong -/

/-- Started in `s`, the program returns or waits: no assertion fails, and its behaviour is
    defined all the way. -/
def Safe (x : Exec σ α) (s : σ) : Prop := ∀ e, Stops x s e → e = .blocked

section Safe

variable {x : Exec σ α} {f : α → Exec σ β} {s : σ}

theorem safe_of_returns {a : α} {s' : σ} (h : Returns x s a s') : Safe x s := by
  intro e hstop
  simp only [Stops, Returns] at h hstop
  rw [h] at hstop
  cases hstop

@[simp] theorem safe_pure (a : α) : Safe (pure a : Exec σ α) s := nofun

@[simp] theorem safe_query (g : σ → α) : Safe (query g) s := nofun

@[simp] theorem safe_update (g : σ → σ) : Safe (update g) s := nofun

@[simp] theorem safe_stop (e : Stop) : Safe (stop e : Exec σ α) s ↔ e = .blocked := by
  constructor
  · intro h
    exact h e rfl
  · intro he e' h
    exact (Except.error.inj h).symm.trans he

/-- A sequence does not go wrong where its first part does not, nor the second after it. -/
theorem safe_bind : Safe (x >>= f) s ↔ Safe x s ∧ ∀ a t, Returns x s a t → Safe (f a) t := by
  constructor
  · intro h
    exact ⟨fun e he => h e (stops_bind.mpr (Or.inl he)),
      fun a t hx e he => h e (stops_bind.mpr (Or.inr ⟨a, t, hx, he⟩))⟩
  · rintro ⟨hx, hf⟩ e he
    rcases stops_bind.mp he with he | ⟨a, t, hxa, he⟩
    · exact hx e he
    · exact hf a t hxa e he

/-- What the first part returns is known. -/
theorem safe_bind_of_returns {a : α} {t : σ} (hx : Returns x s a t) : Safe (x >>= f) s ↔ Safe (f a) t := by
  rw [safe_bind]
  constructor
  · exact fun h => h.2 a t hx
  · intro h
    refine ⟨safe_of_returns hx, fun b u hb => ?_⟩
    obtain ⟨rfl, rfl⟩ := hx.unique hb
    exact h

@[simp] theorem safe_assert (p : Prop) [Decidable p] : Safe (assert p) s ↔ p := by
  unfold assert
  split <;> simp_all

@[simp] theorem safe_require (p : Prop) [Decidable p] : Safe (require p) s ↔ p := by
  unfold require
  split <;> simp_all

@[simp] theorem safe_fits (p : Prop) [Decidable p] : Safe (fits p) s ↔ p := by
  unfold fits
  split <;> simp_all

@[simp] theorem safe_deref (o : Option α) : Safe (deref o : Exec σ α) s ↔ o ≠ none := by
  cases o <;> simp [deref]

theorem safe_assert_bind {p : Prop} [Decidable p] {f : Unit → Exec σ β} :
    Safe (assert p >>= f) s ↔ p ∧ Safe (f ()) s := by
  rw [safe_bind, safe_assert]
  constructor
  · rintro ⟨hp, h⟩
    exact ⟨hp, h () s ((returns_assert p ()).mpr ⟨hp, rfl⟩)⟩
  · rintro ⟨hp, h⟩
    refine ⟨hp, fun u t ht => ?_⟩
    obtain ⟨-, rfl⟩ := (returns_assert p u).mp ht
    exact h

theorem safe_require_bind {p : Prop} [Decidable p] {f : Unit → Exec σ β} :
    Safe (require p >>= f) s ↔ p ∧ Safe (f ()) s := by
  rw [safe_bind, safe_require]
  constructor
  · rintro ⟨hp, h⟩
    exact ⟨hp, h () s ((returns_require p ()).mpr ⟨hp, rfl⟩)⟩
  · rintro ⟨hp, h⟩
    refine ⟨hp, fun u t ht => ?_⟩
    obtain ⟨-, rfl⟩ := (returns_require p u).mp ht
    exact h

theorem safe_query_bind {g : σ → α} : Safe (query g >>= f) s ↔ Safe (f (g s)) s :=
  safe_bind_of_returns ((returns_query g).mpr ⟨rfl, rfl⟩)

theorem safe_update_bind {g : σ → σ} {f : Unit → Exec σ β} : Safe (update g >>= f) s ↔ Safe (f ()) (g s) :=
  safe_bind_of_returns ((returns_update g ()).mpr rfl)

theorem safe_deref_bind {o : Option α} : Safe (deref o >>= f) s ↔ ∃ a, o = some a ∧ Safe (f a) s := by
  rw [safe_bind, safe_deref, Option.ne_none_iff_exists']
  constructor
  · rintro ⟨⟨a, rfl⟩, h⟩
    exact ⟨a, rfl, h a s ((returns_deref _).mpr ⟨rfl, rfl⟩)⟩
  · rintro ⟨a, rfl, h⟩
    refine ⟨⟨a, rfl⟩, fun b t hb => ?_⟩
    obtain ⟨hab, rfl⟩ := (returns_deref _).mp hb
    obtain rfl := Option.some.inj hab
    exact h

end Safe

end Exec

end ZxyOs.Lib
