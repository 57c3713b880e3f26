import Workshare.Basic
import Mathlib

/-!
# Accounts

`state.Account` and `state.AccountMetadata`. An account's energy is kept lazily:
`CalcEnergy` adds to the stored `Energy` the growth of the stored `Balance`
since `BlockTime`, so the stored pair is a settlement and the growth after it
is computed from whatever balance the account holds when it is read.

The growth is floored once per settlement, so settling again in between can
only lose the unit that two floors lose against one. An account whose
`BlockTime` is zero was never settled and does not grow at all.
-/
namespace Workshare

/-- `state.AccountMetadata`: where the account's storage trie lives. -/
structure AccountMetadata where
  storageID : Bytes
  storageCommitNum : ℕ
  storageDistinctNum : ℕ
  deriving DecidableEq, Repr

/-- `state.Account`. -/
structure Account where
  balance : ℤ
  energy : ℤ
  blockTime : ℕ
  master : Bytes
  codeHash : Bytes
  storageRoot : Bytes
  deriving DecidableEq, Repr

namespace Account

/-- `IsEmpty`: no balance, no energy, no master and no code. -/
def isEmpty (a : Account) : Bool :=
  a.balance == 0 && a.energy == 0 && a.master.isEmpty && a.codeHash.isEmpty

/-- `CalcEnergy`: the stored energy plus the growth of the balance since `BlockTime`. -/
def calcEnergy (a : Account) (blockTime : ℕ) : ℤ :=
  if a.blockTime = 0 then a.energy
  else if a.balance = 0 then a.energy
  else if blockTime ≤ a.blockTime then a.energy
  else a.energy + ((blockTime - a.blockTime : ℕ) * a.balance * EnergyGrowthRate) / 1000000000000000000

/-- The branches of `CalcEnergy` that return the stored energy: never settled,
no balance, or a time not after the settlement. -/
theorem calcEnergy_of_not_grows {a : Account} {t : ℕ}
    (h : a.blockTime = 0 ∨ a.balance = 0 ∨ t ≤ a.blockTime) : a.calcEnergy t = a.energy := by
  unfold calcEnergy
  rcases h with h | h | h <;> simp [h]

theorem calcEnergy_of_grows {a : Account} {t : ℕ} (h0 : a.blockTime ≠ 0) (hb : a.balance ≠ 0)
    (ht : a.blockTime < t) :
    a.calcEnergy t =
      a.energy + ((t - a.blockTime : ℕ) * a.balance * EnergyGrowthRate) / 1000000000000000000 := by
  simp [calcEnergy, h0, hb, Nat.not_le.mpr ht]

/-- With a balance that is not negative, energy only grows with time. -/
theorem calcEnergy_mono {a : Account} (hb : 0 ≤ a.balance) {t₁ t₂ : ℕ} (ht : t₁ ≤ t₂) :
    a.calcEnergy t₁ ≤ a.calcEnergy t₂ := by
  by_cases hg : a.blockTime = 0 ∨ a.balance = 0 ∨ t₂ ≤ a.blockTime
  · -- no growth at `t₂`, so none at `t₁` either
    have hg₁ : a.blockTime = 0 ∨ a.balance = 0 ∨ t₁ ≤ a.blockTime := by omega
    rw [calcEnergy_of_not_grows hg, calcEnergy_of_not_grows hg₁]
  simp only [not_or, Nat.not_le] at hg
  obtain ⟨h0, hb0, h₂⟩ := hg
  have hrate : 0 ≤ a.balance * EnergyGrowthRate := Int.mul_nonneg hb (by decide)
  rw [calcEnergy_of_grows h0 hb0 h₂]
  by_cases h₁ : t₁ ≤ a.blockTime
  · rw [calcEnergy_of_not_grows (.inr (.inr h₁))]
    have hx : 0 ≤ ((t₂ - a.blockTime : ℕ) : ℤ) * a.balance * EnergyGrowthRate := by
      rw [mul_assoc]
      exact Int.mul_nonneg (by omega) hrate
    have := Int.ediv_nonneg hx (by decide : (0 : ℤ) ≤ 1000000000000000000)
    omega
  · rw [calcEnergy_of_grows h0 hb0 (by omega)]
    have hx : ((t₁ - a.blockTime : ℕ) : ℤ) * a.balance * EnergyGrowthRate ≤
        ((t₂ - a.blockTime : ℕ) : ℤ) * a.balance * EnergyGrowthRate := by
      rw [mul_assoc, mul_assoc]
      exact Int.mul_le_mul_of_nonneg_right (by omega) hrate
    have := Int.ediv_le_ediv (by decide : (0 : ℤ) < 1000000000000000000) hx
    omega

/-- Settling at `t₁` floors the growth up to `t₁` and then that after it: the
energy at `t₂` loses at most the one unit the two floors can lose together. -/
theorem calcEnergy_settle {a : Account} (h0 : a.blockTime ≠ 0) {t₁ t₂ : ℕ} (h₁ : a.blockTime ≤ t₁)
    (h₂ : t₁ ≤ t₂) :
    ({ a with energy := a.calcEnergy t₁, blockTime := t₁ } : Account).calcEnergy t₂ ≤ a.calcEnergy t₂ ∧
      a.calcEnergy t₂ - 1 ≤ ({ a with energy := a.calcEnergy t₁, blockTime := t₁ } : Account).calcEnergy t₂ := by
  by_cases hg : a.balance = 0 ∨ t₁ = a.blockTime
  · -- nothing grew before `t₁`: the settled account is the account
    have he : a.calcEnergy t₁ = a.energy := calcEnergy_of_not_grows (by omega)
    have hs : ({ a with energy := a.calcEnergy t₁, blockTime := t₁ } : Account).calcEnergy t₂ =
        a.calcEnergy t₂ := by
      rcases hg with hb | ht
      · rw [he, calcEnergy_of_not_grows (a := a) (.inr (.inl hb))]
        exact calcEnergy_of_not_grows (.inr (.inl hb))
      · subst ht
        rw [he]
    omega
  simp only [not_or] at hg
  obtain ⟨hb, ht₁⟩ := hg
  have hlt : a.blockTime < t₁ := by omega
  set s : Account := { a with energy := a.calcEnergy t₁, blockTime := t₁ }
  by_cases ht₂ : t₂ = t₁
  · subst ht₂
    have : s.calcEnergy t₂ = a.calcEnergy t₂ := calcEnergy_of_not_grows (.inr (.inr le_rfl))
    omega
  -- the growth up to `t₂` is that up to `t₁` and that after it, floored once
  have hs : s.calcEnergy t₂ = a.calcEnergy t₁ +
      ((t₂ - t₁ : ℕ) * a.balance * EnergyGrowthRate) / 1000000000000000000 :=
    calcEnergy_of_grows (a := s) (by simp [s]; omega) hb (by simp [s]; omega)
  rw [hs, calcEnergy_of_grows h0 hb hlt, calcEnergy_of_grows h0 hb (by omega)]
  have hsum : ((t₂ - a.blockTime : ℕ) : ℤ) * a.balance * EnergyGrowthRate =
      ((t₁ - a.blockTime : ℕ) : ℤ) * a.balance * EnergyGrowthRate +
        ((t₂ - t₁ : ℕ) : ℤ) * a.balance * EnergyGrowthRate := by
    rw [← add_mul, ← add_mul]
    push_cast [Nat.cast_sub h₁, Nat.cast_sub h₂, Nat.cast_sub (h₁.trans h₂)]
    ring
  rw [hsum]
  generalize ((t₁ - a.blockTime : ℕ) : ℤ) * a.balance * EnergyGrowthRate = x
  generalize ((t₂ - t₁ : ℕ) : ℤ) * a.balance * EnergyGrowthRate = y
  omega

/-- Energy grows with time, and settling an account that was settled before
loses at most the one unit that flooring twice instead of once can lose. -/
theorem calcEnergy_mono_settle :
    (∀ (a : Account) (t₁ t₂ : ℕ), 0 ≤ a.balance → t₁ ≤ t₂ → a.calcEnergy t₁ ≤ a.calcEnergy t₂) ∧
      (∀ (a : Account) (t₁ t₂ : ℕ), 0 < a.blockTime → a.blockTime ≤ t₁ → t₁ ≤ t₂ →
        ({ a with energy := a.calcEnergy t₁, blockTime := t₁ } : Account).calcEnergy t₂ ≤
            a.calcEnergy t₂ ∧
          a.calcEnergy t₂ - 1 ≤
            ({ a with energy := a.calcEnergy t₁, blockTime := t₁ } : Account).calcEnergy t₂) :=
  ⟨fun _ _ _ hb ht => calcEnergy_mono hb ht,
    fun _ _ _ h0 h₁ h₂ => calcEnergy_settle (Nat.pos_iff_ne_zero.mp h0) h₁ h₂⟩

theorem calcEnergy_mono_settle_one :
    let a : Account := ⟨1000000000000000000, 0, 1, [], [], []⟩
    a.calcEnergy 2 ≤ a.calcEnergy 3 ∧
      ({ a with energy := a.calcEnergy 2, blockTime := 2 } : Account).calcEnergy 3 ≤ a.calcEnergy 3 :=
  ⟨calcEnergy_mono_settle.1 _ 2 3 (by decide) (by decide),
    (calcEnergy_mono_settle.2 _ 2 3 (by decide) (by decide) (by decide)).1⟩

/-- An account never settled does not grow: settling it starts a growth the
unsettled account never has. -/
theorem calcEnergy_settle_unsettled :
    let a : Account := ⟨1000000000000000000, 0, 0, [], [], []⟩
    ({ a with energy := a.calcEnergy 1, blockTime := 1 } : Account).calcEnergy 2 = 5000000000 ∧
      a.calcEnergy 2 = 0 := by
  decide

end Account

/-- `emptyAccount`. -/
def emptyAccount : Account :=
  ⟨0, 0, 0, [], [], []⟩

@[simp] theorem emptyAccount_isEmpty : emptyAccount.isEmpty = true := rfl

end Workshare
