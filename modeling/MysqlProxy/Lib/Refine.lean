/-
  Refinement of one step relation by another.

  * `StepRefines R Step Spec`: a step between states that are related is matched by some steps of the
    specification, possibly none, and the states are related again.
  * `StepRefines.run`: then whole runs are matched.
-/
import Mathlib.Logic.Relation

namespace MysqlProxy

variable {σ τ : Type*} {R : σ → τ → Prop} {Step : σ → σ → Prop} {Spec : τ → τ → Prop}

/-- Every step is matched by steps of the specification. -/
def StepRefines (R : σ → τ → Prop) (Step : σ → σ → Prop) (Spec : τ → τ → Prop) : Prop :=
  ∀ ⦃s s' t⦄, R s t → Step s s' → ∃ t', Relation.ReflTransGen Spec t t' ∧ R s' t'

/-- **The refinement rule.** -/
theorem StepRefines.run (h : StepRefines R Step Spec) {s s' : σ} {t : τ} (hR : R s t)
    (hrun : Relation.ReflTransGen Step s s') : ∃ t', Relation.ReflTransGen Spec t t' ∧ R s' t' := by
  induction hrun with
  | refl => exact ⟨t, .refl, hR⟩
  | tail _ hs ih =>
    obtain ⟨t₁, hrun₁, hR₁⟩ := ih
    obtain ⟨t₂, hrun₂, hR₂⟩ := h hR₁ hs
    exact ⟨t₂, hrun₁.trans hrun₂, hR₂⟩

end MysqlProxy
