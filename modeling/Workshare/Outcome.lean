import Mathlib

/-!
# Outcomes of fallible steps

Inversion rules for `Except`: a step that succeeded after a `bind` or a `map`
had its first part succeed. Proofs about a fallible model peel its steps apart
with these, instead of unfolding the monad.
-/
namespace Except

variable {ε α β : Type*}

@[simp] theorem bind_eq_ok_iff {x : Except ε α} {f : α → Except ε β} {b : β} :
    x.bind f = .ok b ↔ ∃ a, x = .ok a ∧ f a = .ok b := by
  cases x <;> simp [Except.bind]

@[simp] theorem map_eq_ok_iff {x : Except ε α} {f : α → β} {b : β} :
    x.map f = .ok b ↔ ∃ a, x = .ok a ∧ f a = b := by
  cases x <;> simp [Except.map]

@[simp] theorem mapError_eq_ok_iff {ε' : Type*} {x : Except ε α} {f : ε → ε'} {a : α} :
    x.mapError f = .ok a ↔ x = .ok a := by
  cases x <;> simp [Except.mapError]

end Except

/-! The same rules for `EStateM`, whose failures keep the state they reached. -/
namespace EStateM

variable {ε σ α β : Type}

theorem bind_apply (x : EStateM ε σ α) (f : α → EStateM ε σ β) (s : σ) :
    (x >>= f) s = match x s with
      | .ok a s => f a s
      | .error e s => .error e s := rfl

@[simp] theorem bind_eq_ok_iff {x : EStateM ε σ α} {f : α → EStateM ε σ β} {s s' : σ} {b : β} :
    (x >>= f) s = .ok b s' ↔ ∃ a s₁, x s = .ok a s₁ ∧ f a s₁ = .ok b s' := by
  rw [bind_apply]
  cases x s <;> simp [and_assoc]

@[simp] theorem bind_eq_error_iff {x : EStateM ε σ α} {f : α → EStateM ε σ β} {s s' : σ} {e : ε} :
    (x >>= f) s = .error e s' ↔ x s = .error e s' ∨ ∃ a s₁, x s = .ok a s₁ ∧ f a s₁ = .error e s' := by
  rw [bind_apply]
  cases x s <;> simp [and_assoc]

@[simp] theorem pure_apply (a : α) (s : σ) : (pure a : EStateM ε σ α) s = .ok a s := rfl

@[simp] theorem throw_apply (e : ε) (s : σ) : (throw e : EStateM ε σ α) s = .error e s := rfl

@[simp] theorem adaptExcept_eq_ok_iff {ε' : Type} {f : ε → ε'} {x : EStateM ε σ α} {s s' : σ} {a : α} :
    x.adaptExcept f s = .ok a s' ↔ x s = .ok a s' := by
  simp only [EStateM.adaptExcept]
  cases x s <;> simp

@[simp] theorem adaptExcept_eq_error_iff {ε' : Type} {f : ε → ε'} {x : EStateM ε σ α} {s s' : σ}
    {e' : ε'} : x.adaptExcept f s = .error e' s' ↔ ∃ e, x s = .error e s' ∧ f e = e' := by
  simp only [EStateM.adaptExcept]
  cases x s <;> simp [and_assoc, and_comm]

end EStateM
