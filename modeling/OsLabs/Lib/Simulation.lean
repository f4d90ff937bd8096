-- SUMMARY: Forward simulations between labelled transition systems: matched steps and matched runs.
import OsLabs.Lib.Transition

/-!
# Simulations

`Simulates C A R lab` says that every step of `C` is matched by steps of `A` that lead to
related states. One step may be matched by several steps or by none. The labels of the matching
steps are given by `lab`, so that a simulation also relates what the two systems do.
-/

namespace TransitionSystem

variable {σ τ ε δ : Type} {C : TransitionSystem σ ε} {A : TransitionSystem τ δ}
  {R : σ → τ → Prop} {lab : σ → ε → List δ}

/-- `A` can do what `C` does, one step of `C` at a time. -/
structure Simulates (C : TransitionSystem σ ε) (A : TransitionSystem τ δ) (R : σ → τ → Prop)
    (lab : σ → ε → List δ) : Prop where
  init : ∀ c, C.init c → ∃ a, A.init a ∧ R c a
  step : ∀ c e c' a, C.Reachable c → A.Reachable a → R c a → C.step c e c' →
    ∃ tr a', A.Run a tr a' ∧ R c' a' ∧ tr.map Prod.snd = lab c e

/-- A step that is matched by one step. -/
theorem Run.single {a a' : τ} {d : δ} (h : A.step a d a') : A.Run a [(a, d)] a' :=
  (Run.nil a).snoc h

/-- Every run of `C` is matched by a run of `A`. -/
theorem Simulates.run (h : Simulates C A R lab) {c₀ c : σ} {tr : List (σ × ε)} (h₀ : C.init c₀)
    (hrun : C.Run c₀ tr c) :
    ∃ a₀ tr' a, A.init a₀ ∧ A.Run a₀ tr' a ∧ R c a ∧
      tr'.map Prod.snd = tr.flatMap fun q => lab q.1 q.2 := by
  induction hrun with
  | nil =>
      obtain ⟨a, ha, hR⟩ := h.init _ h₀
      exact ⟨a, [], a, ha, .nil a, hR, rfl⟩
  | @snoc c c' tr e hr hs ih =>
      obtain ⟨a₀, tr₁, a, ha₀, hrun₁, hR, hlab₁⟩ := ih
      obtain ⟨tr₂, a', hrun₂, hR', hlab₂⟩ :=
        h.step c e c' a ⟨c₀, tr, h₀, hr⟩ ⟨a₀, tr₁, ha₀, hrun₁⟩ hR hs
      refine ⟨a₀, tr₁ ++ tr₂, a', ha₀, hrun₁.trans hrun₂, hR', ?_⟩
      rw [List.map_append, hlab₁, hlab₂, List.flatMap_append]
      simp

end TransitionSystem
