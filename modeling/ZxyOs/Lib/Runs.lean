/-
  ZxyOs.Lib.Runs

  Runs of a system that takes one labelled step after the other.

  `Run step P s₀ s`: from `s₀` the system comes to `s` by steps that all meet the
  condition `P`, which looks at the state before the step and at the label.  What
  holds at the start and is kept by every such step holds at the end (`Run.invariant`).
-/

namespace ZxyOs.Lib

variable {σ ι : Type}

inductive Run (step : σ → ι → σ → Prop) (P : σ → ι → Prop) (s₀ : σ) : σ → Prop
  | start : Run step P s₀ s₀
  | next {s s' : σ} (i : ι) (hrun : Run step P s₀ s) (hP : P s i) (hstep : step s i s') :
      Run step P s₀ s'

namespace Run

variable {step : σ → ι → σ → Prop} {P Q : σ → ι → Prop} {s₀ s s' : σ}

theorem invariant {I : σ → Prop} (hrun : Run step P s₀ s) (h₀ : I s₀)
    (hkeeps : ∀ s i s', I s → P s i → step s i s' → I s') : I s := by
  induction hrun with
  | start => exact h₀
  | next i hrun hP hstep ih => exact hkeeps _ i _ ih hP hstep

theorem mono (hrun : Run step P s₀ s) (hPQ : ∀ s i, P s i → Q s i) : Run step Q s₀ s := by
  induction hrun with
  | start => exact .start
  | next i hrun hP hstep ih => exact .next i ih (hPQ _ i hP) hstep

theorem trans (hrun : Run step P s₀ s) (hrun' : Run step P s s') : Run step P s₀ s' := by
  induction hrun' with
  | start => exact hrun
  | next i hrun hP hstep ih => exact .next i ih hP hstep

/-- A run that is computed, one label after the other. -/
theorem of_foldlM {exec : σ → ι → Option σ} {labels : List ι}
    (hexec : ∀ s i s', exec s i = some s' → P s i ∧ step s i s')
    (h : labels.foldlM exec s₀ = some s) : Run step P s₀ s := by
  induction labels generalizing s₀ with
  | nil =>
    obtain rfl : s₀ = s := by simpa using h
    exact .start
  | cons i labels ih =>
    rw [List.foldlM_cons] at h
    obtain ⟨s₁, h₁, hrest⟩ := Option.bind_eq_some_iff.mp h
    obtain ⟨hP, hstep⟩ := hexec s₀ i s₁ h₁
    exact trans (.next i .start hP hstep) (ih hrest)

end Run

end ZxyOs.Lib
