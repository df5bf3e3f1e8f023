/-
  Runs of a step relation.

  A run is `Relation.ReflTransGen Step`.  The one rule that every proof about whole runs needs is
  the invariant rule: what a single step keeps, every run keeps.

  Where the steps are events of an executable `exec`, a concrete run is evaluated by `execs`.
-/
import Mathlib.Logic.Relation

namespace MysqlProxy

variable {σ : Type*} {Step : σ → σ → Prop} {I : σ → Prop}

/-- **The invariant rule.** -/
theorem run_invariant {s s' : σ} (hrun : Relation.ReflTransGen Step s s') (h : I s)
    (hstep : ∀ {s s'}, I s → Step s s' → I s') : I s' := by
  induction hrun with
  | refl => exact h
  | tail _ hs ih => exact hstep ih hs

/-- Execute one event after the other, as long as they are allowed. -/
def execs {ε : Type*} (exec : σ → ε → Option σ) (allowed : σ → ε → Prop)
    [∀ s e, Decidable (allowed s e)] : List ε → σ → Option σ
  | [], s => some s
  | e :: es, s => if allowed s e then (exec s e).bind (execs exec allowed es) else none

theorem execs_run {ε : Type*} {exec : σ → ε → Option σ} {allowed : σ → ε → Prop}
    [∀ s e, Decidable (allowed s e)] {es : List ε} {s s' : σ}
    (h : execs exec allowed es s = some s') :
    Relation.ReflTransGen (fun s s' => ∃ e, allowed s e ∧ exec s e = some s') s s' := by
  induction es generalizing s with
  | nil =>
    cases h
    exact .refl
  | cons e es ih =>
    rw [execs] at h
    split at h
    case isFalse => cases h
    case isTrue hal =>
      obtain ⟨s₁, hs₁, hrest⟩ := Option.bind_eq_some_iff.mp h
      exact .head ⟨e, hal, hs₁⟩ (ih hrest)

end MysqlProxy
