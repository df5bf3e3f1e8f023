/-
  Machines that answer.

  A machine takes a call in a state, and gives the next state and an answer: `exec s c`.  Two machines
  with the same calls are compared by what can be seen of them, which is the list of the answers.

  * `Simulates R exec spec`: calls keep `R` between the states, and are answered alike.
  * `Simulates.answers`: two states that are related answer every list of calls alike.
-/
import Mathlib.Logic.Relation

namespace MysqlProxy

variable {σ τ γ α : Type*}

/-- The answers to some calls, one after the other. -/
def answers (exec : σ → γ → σ × α) : σ → List γ → List α
  | _, [] => []
  | s, c :: cs => (exec s c).2 :: answers exec (exec s c).1 cs

/-- The state after some calls. -/
def afterCalls (exec : σ → γ → σ × α) (s : σ) (cs : List γ) : σ :=
  cs.foldl (fun s c => (exec s c).1) s

/-- Every call keeps the relation, and is answered alike. -/
def Simulates (R : σ → τ → Prop) (exec : σ → γ → σ × α) (spec : τ → γ → τ × α) : Prop :=
  ∀ s t c, R s t → R (exec s c).1 (spec t c).1 ∧ (exec s c).2 = (spec t c).2

section Simulates

variable {R : σ → τ → Prop} {exec : σ → γ → σ × α} {spec : τ → γ → τ × α} {s : σ} {t : τ}

theorem Simulates.after (h : Simulates R exec spec) (cs : List γ) (hR : R s t) :
    R (afterCalls exec s cs) (afterCalls spec t cs) := by
  induction cs generalizing s t with
  | nil => exact hR
  | cons c cs ih => exact ih (h s t c hR).1

/-- **The simulation rule.** -/
theorem Simulates.answers (h : Simulates R exec spec) (cs : List γ) (hR : R s t) :
    MysqlProxy.answers exec s cs = MysqlProxy.answers spec t cs := by
  induction cs generalizing s t with
  | nil => rfl
  | cons c cs ih =>
    obtain ⟨hnext, hans⟩ := h s t c hR
    rw [MysqlProxy.answers, MysqlProxy.answers, hans, ih hnext]

end Simulates

end MysqlProxy
