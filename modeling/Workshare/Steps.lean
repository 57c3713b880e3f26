import Mathlib

/-!
# Runs of a step function, and lock-step simulation

A machine is a step function from a state and a call to the next state and,
for some calls, an answer. A run threads the state through a list of calls and
collects the answers. Two machines over the same calls simulate each other in
lock step when a relation between their states is kept by every call and
related states answer alike; whole runs then answer alike and end related.
-/
namespace Steps

variable {σ τ O α : Type}

/-- The state after the calls, and the answers given on the way. -/
def run (step : σ → O → σ × Option α) : σ → List O → σ × List α
  | s, [] => (s, [])
  | s, o :: os =>
    let r := run step (step s o).1 os
    (r.1, (step s o).2.toList ++ r.2)

@[simp] theorem run_nil (step : σ → O → σ × Option α) (s : σ) : run step s [] = (s, []) := rfl

@[simp] theorem run_cons (step : σ → O → σ × Option α) (s : σ) (o : O) (os : List O) :
    run step s (o :: os) =
      ((run step (step s o).1 os).1, (step s o).2.toList ++ (run step (step s o).1 os).2) := rfl

/-- A relation kept by every call, between states that answer alike, is kept by
every run, and the runs answer alike. -/
theorem run_sim (step₁ : σ → O → σ × Option α) (step₂ : τ → O → τ × Option α) (R : σ → τ → Prop)
    (hstep : ∀ s t o, R s t → R (step₁ s o).1 (step₂ t o).1 ∧ (step₁ s o).2 = (step₂ t o).2) :
    ∀ (os : List O) {s : σ} {t : τ}, R s t →
      R (run step₁ s os).1 (run step₂ t os).1 ∧ (run step₁ s os).2 = (run step₂ t os).2
  | [], _, _, h => ⟨h, rfl⟩
  | o :: os, s, t, h => by
    obtain ⟨h', hout⟩ := hstep s t o h
    obtain ⟨hR, hrun⟩ := run_sim step₁ step₂ R hstep os h'
    exact ⟨hR, by rw [run_cons, run_cons, hout, hrun]⟩

end Steps
