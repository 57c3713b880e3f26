import Mathlib.Logic.Basic
import Mathlib.Order.Basic

/-!
# Loops with fuel

A loop whose body, from a state, panics (`none`), answers, or goes on from a
new state, run for at most `fuel` turns; it gives `none` also when the turns
run out. A property kept by every turn holds at every state the loop reaches
from one that has it. A measure that every turn lowers bounds the turns: with
more fuel than the measure the loop answers, and what holds of every answer a
turn gives holds of the loop's.
-/
namespace Loop

variable {α β : Type} (body : α → Option (β ⊕ α))

/-- The loop, for at most `fuel` turns of `body`. -/
def iterate : ℕ → α → Option β
  | 0, _ => none
  | fuel + 1, a => (body a).bind (Sum.elim some (iterate fuel))

@[simp] theorem iterate_zero (a : α) : iterate body 0 a = none := rfl

theorem iterate_succ (fuel : ℕ) (a : α) :
    iterate body (fuel + 1) a = (body a).bind (Sum.elim some (iterate body fuel)) := rfl

theorem iterate_succ_of_inl {fuel : ℕ} {a : α} {b : β} (h : body a = some (.inl b)) :
    iterate body (fuel + 1) a = some b := by
  rw [iterate_succ, h]
  rfl

theorem iterate_succ_of_inr {fuel : ℕ} {a a' : α} (h : body a = some (.inr a')) :
    iterate body (fuel + 1) a = iterate body fuel a' := by
  rw [iterate_succ, h]
  rfl

/-- The states the loop goes on from, starting at `a`. -/
inductive Reachable (a : α) : α → Prop
  | refl : Reachable a a
  | tail {b c : α} : Reachable a b → body b = some (.inr c) → Reachable a c

variable {body}

/-- A property kept by every turn that goes on holds at every state reached. -/
theorem Reachable.inv {I : α → Prop} (hk : ∀ b c, I b → body b = some (.inr c) → I c) {a c : α}
    (ha : I a) (h : Reachable body a c) : I c := by
  induction h with
  | refl => exact ha
  | tail _ hstep ih => exact hk _ _ ih hstep

theorem Reachable.head {a b c : α} (hstep : body a = some (.inr b)) (h : Reachable body b c) :
    Reachable body a c := by
  induction h with
  | refl => exact .tail .refl hstep
  | tail _ hstep' ih => exact .tail ih hstep'

/-- Every answer of the loop is one a turn gives, from a state reached. -/
theorem reachable_of_iterate : ∀ {fuel : ℕ} {a : α} {b : β}, iterate body fuel a = some b →
    ∃ c, Reachable body a c ∧ body c = some (.inl b)
  | 0, _, _, h => by cases h
  | fuel + 1, a, b, h => by
    rw [iterate_succ] at h
    cases hb : body a with
    | none => rw [hb] at h; cases h
    | some r =>
      rw [hb] at h
      cases r with
      | inl b' =>
        cases h
        exact ⟨a, .refl, hb⟩
      | inr a' =>
        obtain ⟨c, hc, hend⟩ := reachable_of_iterate h
        exact ⟨c, hc.head hb, hend⟩

/-- Total correctness. From a state with `I`, every turn gives an answer with
`Q` or goes on to a state with `I` and a lower measure; then, with more fuel
than the measure, the loop answers, and with `Q`. -/
theorem iterate_spec (I : α → Prop) (Q : β → Prop) (μ : α → ℕ)
    (hstep : ∀ a, I a → ∃ r, body a = some r ∧ Sum.elim Q (fun a' => I a' ∧ μ a' < μ a) r) :
    ∀ (fuel : ℕ) (a : α), I a → μ a < fuel → ∃ b, iterate body fuel a = some b ∧ Q b := by
  intro fuel
  induction fuel with
  | zero => intro a _ h; exact absurd h (Nat.not_lt_zero _)
  | succ fuel ih =>
    intro a ha hfuel
    obtain ⟨r, hr, hq⟩ := hstep a ha
    cases r with
    | inl b => exact ⟨b, iterate_succ_of_inl body hr, hq⟩
    | inr a' =>
      -- the turn goes on with a lower measure, which the remaining fuel still exceeds
      obtain ⟨ha', hμ⟩ := hq
      rw [iterate_succ_of_inr body hr]
      exact ih a' ha' (by omega)

end Loop
