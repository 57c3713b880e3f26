import Workshare.Basic

/-!
# Block gas limits

A block's gas limit must stay within `1/1024` of its parent's and not fall
below `MinGasLimit`: `IsValid` checks it, `Adjust` moves the parent's limit by
a signed delta within that bound, and `Qualify` moves it towards a target.
All of it is `uint64` arithmetic, with an overflow test on the way up and a
floor on the way down, and the delta is an `int64` whose negation wraps at its
least value.

The valid limits are exactly an interval around the parent's, `Adjust` stays
in it for every delta, and `Qualify` is the target clamped to it.
-/
namespace Workshare

/-- `workshare.MinGasLimit`. -/
def MinGasLimit : UInt64 := 1000 * 1000

/-- `workshare.GasLimitBoundDivisor`. -/
def GasLimitBoundDivisor : UInt64 := 1024

/-- `min64`. -/
def min64 (a b : UInt64) : UInt64 := if a > b then b else a

namespace GasLimit

/-- `GasLimit.IsValid`: at least `MinGasLimit`, and no further from the
parent's limit than the bound. -/
def isValid (gl parentGasLimit : UInt64) : Bool :=
  if gl < MinGasLimit then false
  else
    let diff := if gl > parentGasLimit then gl - parentGasLimit else parentGasLimit - gl
    diff ≤ parentGasLimit / GasLimitBoundDivisor

/-- `GasLimit.Adjust`: the receiver is the parent's limit, moved by at most
the bound; a rise stops at `MaxUint64`, a fall at `MinGasLimit`. -/
def adjust (gl : UInt64) (delta : Int64) : UInt64 :=
  let maxDiff := gl / GasLimitBoundDivisor
  if delta > 0 then
    let diff := min64 delta.toUInt64 maxDiff
    if MaxUint64 - diff < gl then MaxUint64 else gl + diff
  else
    let diff := min64 (-delta).toUInt64 maxDiff
    if MinGasLimit + diff > gl then MinGasLimit else gl - diff

/-- `GasLimit.Qualify`: the parent's limit moved towards the receiver. -/
def qualify (gl parentGasLimit : UInt64) : UInt64 :=
  let maxDiff := parentGasLimit / GasLimitBoundDivisor
  if gl > parentGasLimit then
    adjust parentGasLimit (min64 (gl - parentGasLimit) maxDiff).toInt64
  else
    adjust parentGasLimit (-(min64 (parentGasLimit - gl) maxDiff).toInt64)

/-- The least valid limit under a parent's. -/
def low (p : UInt64) : ℕ := max MinGasLimit.toNat (p.toNat - p.toNat / 1024)

/-- The greatest valid limit over a parent's. -/
def high (p : UInt64) : ℕ := min (2 ^ 64 - 1) (p.toNat + p.toNat / 1024)

theorem min64_toNat (a b : UInt64) : (min64 a b).toNat = min a.toNat b.toNat := by
  unfold min64
  split_ifs with h
  · rw [gt_iff_lt, UInt64.lt_iff_toNat_lt] at h
    omega
  · rw [gt_iff_lt, UInt64.lt_iff_toNat_lt] at h
    omega

/-- The valid limits are the interval from `low` to `high`. -/
theorem isValid_iff {gl p : UInt64} : isValid gl p = true ↔ low p ≤ gl.toNat ∧ gl.toNat ≤ high p := by
  have hg := gl.toNat_lt
  unfold isValid low high
  simp only [gt_iff_lt, UInt64.lt_iff_toNat_lt, MinGasLimit, GasLimitBoundDivisor] at *
  split_ifs with h1 h2
  · simp only [false_iff]
    omega
  · rw [decide_eq_true_iff, UInt64.le_iff_toNat_le, UInt64.toNat_sub_of_le _ _ (UInt64.le_iff_toNat_le.mpr (by omega)),
      UInt64.toNat_div]
    simp at h1 ⊢
    omega
  · rw [decide_eq_true_iff, UInt64.le_iff_toNat_le, UInt64.toNat_sub_of_le _ _ (UInt64.le_iff_toNat_le.mpr (by omega)),
      UInt64.toNat_div]
    simp at h1 ⊢
    omega

/-- Whatever is asked for, `Adjust` moves by no more than the bound. -/
theorem min64_maxDiff_le (x p : UInt64) : (min64 x (p / GasLimitBoundDivisor)).toNat ≤ p.toNat / 1024 := by
  rw [min64_toNat, UInt64.toNat_div]
  exact Nat.min_le_right _ _

theorem maxUint64_toNat : MaxUint64.toNat = 2 ^ 64 - 1 := rfl

theorem minGasLimit_toNat : MinGasLimit.toNat = 1000000 := rfl

theorem gasLimitBoundDivisor_toNat : GasLimitBoundDivisor.toNat = 1024 := rfl

/-- The rise of `Adjust` by `diff`, saturated at the largest `uint64`. -/
theorem rise_toNat (p diff : UInt64) :
    (if MaxUint64 - diff < p then MaxUint64 else p + diff).toNat = min (2 ^ 64 - 1) (p.toNat + diff.toNat) := by
  have hlt := diff.toNat_lt
  have hsub : (MaxUint64 - diff).toNat = 2 ^ 64 - 1 - diff.toNat :=
    UInt64.toNat_sub_of_le _ _ (UInt64.le_iff_toNat_le.mpr (by rw [maxUint64_toNat]; omega))
  split_ifs with ho
  · rw [UInt64.lt_iff_toNat_lt, hsub] at ho
    rw [maxUint64_toNat]
    omega
  · rw [UInt64.lt_iff_toNat_lt, hsub] at ho
    rw [UInt64.toNat_add]
    omega

/-- The fall of `Adjust` by a `diff` within the bound, floored at `MinGasLimit`. -/
theorem fall_toNat {p diff : UInt64} (hdiff : diff.toNat ≤ p.toNat / 1024) :
    (if MinGasLimit + diff > p then MinGasLimit else p - diff).toNat = max 1000000 (p.toNat - diff.toNat) := by
  have hlt := p.toNat_lt
  have hadd : (MinGasLimit + diff).toNat = 1000000 + diff.toNat := by
    rw [UInt64.toNat_add, minGasLimit_toNat]
    omega
  split_ifs with hf
  · rw [gt_iff_lt, UInt64.lt_iff_toNat_lt, hadd] at hf
    rw [minGasLimit_toNat]
    omega
  · rw [gt_iff_lt, UInt64.lt_iff_toNat_lt, hadd] at hf
    rw [UInt64.toNat_sub_of_le _ _ (UInt64.le_iff_toNat_le.mpr (by omega))]
    omega

/-- `Adjust` keeps a valid parent's limit valid, for every delta: whatever it
is asked for, it moves by no more than the bound. -/
theorem adjust_isValid {p : UInt64} (hp : MinGasLimit ≤ p) (delta : Int64) :
    isValid (adjust p delta) p = true := by
  have hp' : 1000000 ≤ p.toNat := UInt64.le_iff_toNat_le.mp hp
  have hlt := p.toNat_lt
  rw [isValid_iff]
  unfold adjust low high
  dsimp only
  rw [minGasLimit_toNat]
  by_cases hd : delta > 0
  · rw [if_pos hd, rise_toNat]
    have := min64_maxDiff_le delta.toUInt64 p
    omega
  · have hdiff := min64_maxDiff_le (-delta).toUInt64 p
    rw [if_neg hd, fall_toNat hdiff]
    omega

/-- A `uint64` below `2 ^ 63` keeps its value as an `int64`. -/
theorem toInt64_toInt {d : UInt64} (h : d.toNat < 2 ^ 63) : d.toInt64.toInt = d.toNat := by
  show d.toBitVec.toInt = _
  rw [BitVec.toInt_eq_toNat_of_lt]
  · simp
  · simp
    omega

theorem toInt64_pos {d : UInt64} (h : d.toNat < 2 ^ 63) (h0 : 0 < d.toNat) : d.toInt64 > 0 := by
  rw [gt_iff_lt, Int64.lt_iff_toInt_lt, toInt64_toInt h]
  simp
  omega

theorem neg_toInt64_not_pos {d : UInt64} (h : d.toNat < 2 ^ 63) : ¬ -d.toInt64 > 0 := by
  rw [gt_iff_lt, Int64.lt_iff_toInt_lt, Int64.toInt_neg, toInt64_toInt h]
  simp [Int.bmod]
  omega

/-- `Qualify` clamps the target to the valid interval. -/
theorem qualify_toNat {g p : UInt64} (hp : MinGasLimit ≤ p) :
    (qualify g p).toNat = max (low p) (min g.toNat (high p)) := by
  have hp' : 1000000 ≤ p.toNat := UInt64.le_iff_toNat_le.mp hp
  have hg := g.toNat_lt
  have hpl := p.toNat_lt
  unfold qualify low high
  dsimp only
  rw [minGasLimit_toNat]
  by_cases hgt : g > p
  · -- a rise by the distance to the target, within the bound
    have hgt' := UInt64.lt_iff_toNat_lt.mp hgt
    have hdiff := min64_toNat (g - p) (p / GasLimitBoundDivisor)
    rw [UInt64.toNat_sub_of_le _ _ (UInt64.le_of_lt hgt), UInt64.toNat_div,
      gasLimitBoundDivisor_toNat] at hdiff
    rw [if_pos hgt]
    unfold adjust
    dsimp only
    rw [if_pos (toInt64_pos (by omega) (by omega)), UInt64.toUInt64_toInt64, rise_toNat, min64_toNat,
      UInt64.toNat_div, gasLimitBoundDivisor_toNat]
    omega
  · -- a fall by the distance to the target, within the bound
    have hle := UInt64.le_iff_toNat_le.mp (UInt64.not_lt.mp hgt)
    have hdiff := min64_toNat (p - g) (p / GasLimitBoundDivisor)
    rw [UInt64.toNat_sub_of_le _ _ (UInt64.not_lt.mp hgt), UInt64.toNat_div,
      gasLimitBoundDivisor_toNat] at hdiff
    rw [if_neg hgt]
    unfold adjust
    dsimp only
    rw [if_neg (neg_toInt64_not_pos (by omega)), Int64.neg_neg, UInt64.toUInt64_toInt64]
    have hmin := min64_toNat (min64 (p - g) (p / GasLimitBoundDivisor)) (p / GasLimitBoundDivisor)
    rw [UInt64.toNat_div, gasLimitBoundDivisor_toNat] at hmin
    rw [fall_toNat (by omega)]
    omega

theorem low_le_high {p : UInt64} (hp : MinGasLimit ≤ p) : low p ≤ high p := by
  have hp' : 1000000 ≤ p.toNat := UInt64.le_iff_toNat_le.mp hp
  have hlt := p.toNat_lt
  unfold low high
  rw [minGasLimit_toNat]
  omega

theorem qualify_isValid {g p : UInt64} (hp : MinGasLimit ≤ p) : isValid (qualify g p) p = true := by
  have hlh := low_le_high hp
  rw [isValid_iff, qualify_toNat hp]
  omega

/-- No valid limit is nearer to the target than what `Qualify` returns. -/
theorem qualify_nearest {g p x : UInt64} (hp : MinGasLimit ≤ p) (hx : isValid x p = true) :
    ((qualify g p).toNat - g.toNat : ℤ).natAbs ≤ (x.toNat - g.toNat : ℤ).natAbs := by
  rw [isValid_iff] at hx
  rw [qualify_toNat hp]
  have hlh := low_le_high hp
  omega

/-- From a parent's limit of at least `MinGasLimit`, `Qualify` and `Adjust`
build valid limits, the valid limits are an interval around the parent's, and
`Qualify` is the target clamped to it: the valid limit nearest the target. -/
theorem qualify_adjust_isValid (p : UInt64) (hp : MinGasLimit ≤ p) (g : UInt64) (delta : Int64) :
    isValid (qualify g p) p = true ∧ isValid (adjust p delta) p = true ∧
      (∀ x : UInt64, isValid x p = true ↔ low p ≤ x.toNat ∧ x.toNat ≤ high p) ∧
      (qualify g p).toNat = max (low p) (min g.toNat (high p)) ∧
      ∀ x : UInt64, isValid x p = true →
        ((qualify g p).toNat - g.toNat : ℤ).natAbs ≤ (x.toNat - g.toNat : ℤ).natAbs :=
  ⟨qualify_isValid hp, adjust_isValid hp delta, fun _ => isValid_iff, qualify_toNat hp,
    fun _ hx => qualify_nearest hp hx⟩

theorem qualify_adjust_isValid_ten_million :
    MinGasLimit ≤ 10000000 ∧ isValid (qualify 20000000 10000000) 10000000 = true ∧
      isValid (adjust 10000000 (-9223372036854775808)) 10000000 = true :=
  ⟨by decide, (qualify_adjust_isValid 10000000 (by decide) 20000000 (-9223372036854775808)).1,
    (qualify_adjust_isValid 10000000 (by decide) 20000000 (-9223372036854775808)).2.1⟩

end GasLimit

end Workshare
