import Mathlib

/-!
# Binary search

`sort.Search n f` of the Go library: the least index below `n` at which a
predicate, false and then true, holds, or `n` when it holds nowhere. The loop
halves `[i, j)`, every index it has found false lying below `i` and every
index it has found true from `j` on. The predicate may fail, and a failure
ends the search, as a panic that the caller recovers does.
-/
namespace Search

variable {ε : Type}

/-- The loop of `sort.Search` on `[i, j)`. -/
def searchFrom (f : ℕ → Except ε Bool) (i j : ℕ) : Except ε ℕ :=
  if hij : i < j then
    (f ((i + j) / 2)).bind fun b =>
      if !b then searchFrom f ((i + j) / 2 + 1) j else searchFrom f i ((i + j) / 2)
  else .ok i
termination_by j - i
decreasing_by all_goals omega

/-- `sort.Search`. -/
def search (n : ℕ) (f : ℕ → Except ε Bool) : Except ε ℕ := searchFrom f 0 n

/-- On a predicate that does not fail and is monotone on `[i, j)`, the loop
returns the point where it turns true: false below it, true from it on. -/
theorem searchFrom_spec {f : ℕ → Except ε Bool} (p : ℕ → Bool) :
    ∀ {i j : ℕ}, i ≤ j → (∀ k, i ≤ k → k < j → f k = .ok (p k)) →
      (∀ a b, i ≤ a → a ≤ b → b < j → p a = true → p b = true) →
      ∃ r, searchFrom f i j = .ok r ∧ i ≤ r ∧ r ≤ j ∧
        (∀ k, i ≤ k → k < r → p k = false) ∧ (∀ k, r ≤ k → k < j → p k = true) := by
  intro i j
  induction i, j using searchFrom.induct with
  | case1 i j hij ih₁ ih₂ =>
    intro _ hval hmono
    rw [searchFrom, dif_pos hij, hval _ (by omega) (by omega), Except.bind]
    cases hp : p ((i + j) / 2) with
    | false =>
      -- the midpoint is false, and so is everything below it
      obtain ⟨r, hr, hir, hrj, hlow, hhigh⟩ := ih₁ (by omega)
        (fun k hk hkj => hval k (by omega) hkj) (fun a b ha hab hb => hmono a b (by omega) hab hb)
      refine ⟨r, by simpa using hr, by omega, hrj, fun k hik hkr => ?_, hhigh⟩
      by_cases hk : (i + j) / 2 < k
      · exact hlow k hk hkr
      · cases hpk : p k
        · rfl
        · have := hmono k ((i + j) / 2) hik (by omega) (by omega) hpk
          rw [hp] at this
          cases this
    | true =>
      -- the midpoint is true, and so is everything above it
      obtain ⟨r, hr, hir, hrj, hlow, hhigh⟩ := ih₂ (by omega)
        (fun k hk hkj => hval k hk (by omega)) (fun a b ha hab hb => hmono a b ha hab (by omega))
      refine ⟨r, by simpa using hr, hir, by omega, hlow, fun k hrk hkj => ?_⟩
      by_cases hk : k < (i + j) / 2
      · exact hhigh k hrk hk
      · exact hmono ((i + j) / 2) k (by omega) (by omega) hkj hp
  | case2 i j hij =>
    intro hle _ _
    refine ⟨i, by rw [searchFrom, dif_neg hij], Nat.le_refl i, hle, fun k hik hki => by omega, fun k hik hkj => by omega⟩

/-- `sort.Search` on a monotone predicate that does not fail returns the
least index where it holds, or `n`. -/
theorem search_spec {f : ℕ → Except ε Bool} (p : ℕ → Bool) {n : ℕ}
    (hval : ∀ k, k < n → f k = .ok (p k)) (hmono : ∀ a b, a ≤ b → b < n → p a = true → p b = true) :
    ∃ r, search n f = .ok r ∧ r ≤ n ∧ (∀ k, k < r → p k = false) ∧ (∀ k, r ≤ k → k < n → p k = true) := by
  obtain ⟨r, hr, -, hrn, hlow, hhigh⟩ :=
    searchFrom_spec p (Nat.zero_le n) (fun k _ hk => hval k hk) (fun a b _ hab hb => hmono a b hab hb)
  exact ⟨r, hr, hrn, fun k hk => hlow k (Nat.zero_le k) hk, hhigh⟩

end Search
