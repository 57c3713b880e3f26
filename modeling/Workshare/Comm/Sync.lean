import Mathlib

/-!
# The common ancestor with a peer

`findCommonAncestor` of the synchroniser: the highest block number up to the
local head at which a peer's chain agrees with the local one, asked of the peer
one number at a time through `isOverlapped`. `fastSeek` probes back from the
head by steps `0, 1, 2, 4, …`, and `find` binary-searches between the number it
found and the head, carrying the highest number found overlapped so far.

Both loops count in `uint32`. Up to a head of `2 ^ 31` neither wraps and the
search returns the ancestor. Above it the step `2 ^ 31` doubles to zero, so a
peer that shares less than the last `2 ^ 31` blocks is probed round and round
forever; and at the largest head `start + end` wraps in `find`, so that a peer
sharing all but the head is searched forever too. The source's recursion has no
bound: `none` below is a run out of fuel.
-/
namespace Workshare.Sync

variable {ε : Type}

/-- `find`: the binary search on `[start, end]`, `ancestor` the highest number
found overlapped so far. -/
def find (isOverlapped : UInt32 → Except ε Bool) : ℕ → UInt32 → UInt32 → UInt32 → Option (Except ε UInt32)
  | 0, _, _, _ => none
  | fuel + 1, start, «end», ancestor =>
    if start = «end» then
      match isOverlapped start with
      | .error err => some (.error err)
      | .ok overlapped => some (.ok (if overlapped then start else ancestor))
    else
      let mid := (start + «end») / 2
      match isOverlapped mid with
      | .error err => some (.error err)
      | .ok true => find isOverlapped fuel (mid + 1) «end» mid
      | .ok false => if mid > start then find isOverlapped fuel start (mid - 1) ancestor else some (.ok ancestor)

/-- The next step back of `fastSeek`: one after the first probe, then doubled
in `uint32`. -/
def nextBackward (backward : UInt32) : UInt32 := if backward = 0 then 1 else backward <<< 1

/-- The loop of `fastSeek`: probe `headNum - backward`, then step back further. -/
def fastSeekLoop (isOverlapped : UInt32 → Except ε Bool) (headNum : UInt32) :
    ℕ → UInt32 → Option (Except ε UInt32)
  | 0, _ => none
  | fuel + 1, backward =>
    if backward ≥ headNum then some (.ok 0)
    else
      match isOverlapped (headNum - backward) with
      | .error err => some (.error err)
      | .ok true => some (.ok (headNum - backward))
      | .ok false => fastSeekLoop isOverlapped headNum fuel (nextBackward backward)

/-- `fastSeek`. -/
def fastSeek (isOverlapped : UInt32 → Except ε Bool) (headNum : UInt32) (fuel : ℕ) : Option (Except ε UInt32) :=
  fastSeekLoop isOverlapped headNum fuel 0

/-- `findCommonAncestor`, over the peer's answers `isOverlapped`. -/
def findCommonAncestor (isOverlapped : UInt32 → Except ε Bool) (headNum : UInt32) (fuel : ℕ) :
    Option (Except ε UInt32) :=
  if headNum = 0 then some (.ok headNum)
  else
    match fastSeek isOverlapped headNum fuel with
    | none => none
    | some (.error err) => some (.error err)
    | some (.ok seekNum) =>
      if seekNum = headNum then some (.ok headNum) else find isOverlapped fuel seekNum headNum 0

/-- The answers of a peer whose chain agrees with the local one up to `a` and
no further, up to the head. -/
def Overlaps (isOverlapped : UInt32 → Except ε Bool) (headNum a : UInt32) : Prop :=
  a ≤ headNum ∧ ∀ n, n ≤ headNum → isOverlapped n = .ok (decide (n ≤ a))

theorem toNat_mid {s e : UInt32} (h : s.toNat + e.toNat < 2 ^ 32) : ((s + e) / 2).toNat = (s.toNat + e.toNat) / 2 := by
  rw [UInt32.toNat_div, UInt32.toNat_add, Nat.mod_eq_of_lt h]
  rfl

theorem toNat_shiftLeft_one (b : UInt32) : (b <<< 1).toNat = 2 * b.toNat % 2 ^ 32 := by
  rw [UInt32.toNat_shiftLeft, Nat.shiftLeft_eq]
  simp only [UInt32.toNat_one, Nat.one_mod, Nat.pow_one, Nat.mul_comm]

section Find

variable {isOverlapped : UInt32 → Except ε Bool} {headNum a : UInt32}

/-- `find` on one number returns it if it is overlapped, else the ancestor. -/
theorem find_single (fuel : ℕ) (start ancestor : UInt32) (b : Bool) (hb : isOverlapped start = .ok b) :
    find isOverlapped (fuel + 1) start start ancestor = some (.ok (if b then start else ancestor)) := by
  rw [find, if_pos rfl, hb]

/-- On one number `find` returns `a` when `a` is that number or was carried. -/
theorem find_single_eq (hov : Overlaps isOverlapped headNum a) {fuel : ℕ} {start ancestor : UInt32}
    (hend : start ≤ headNum) (ha : a ≤ start) (hcarry : start ≤ a ∨ ancestor = a) :
    find isOverlapped (fuel + 1) start start ancestor = some (.ok a) := by
  rw [find_single fuel start ancestor _ (hov.2 start hend)]
  by_cases hs : start ≤ a
  · rw [decide_eq_true hs, if_pos rfl, UInt32.le_antisymm hs ha]
  · rw [decide_eq_false hs, if_neg Bool.false_ne_true, hcarry.resolve_left hs]

/-- The step of `find` on a proper interval whose midpoint is overlapped. -/
theorem find_mid_true {fuel : ℕ} {start «end» ancestor : UInt32} (hne : start ≠ «end»)
    (hb : isOverlapped ((start + «end») / 2) = .ok true) :
    find isOverlapped (fuel + 1) start «end» ancestor =
      find isOverlapped fuel ((start + «end») / 2 + 1) «end» ((start + «end») / 2) := by
  rw [find, if_neg hne]
  dsimp only
  rw [hb]

/-- The step of `find` on a proper interval whose midpoint is not overlapped. -/
theorem find_mid_false {fuel : ℕ} {start «end» ancestor : UInt32} (hne : start ≠ «end»)
    (hb : isOverlapped ((start + «end») / 2) = .ok false) :
    find isOverlapped (fuel + 1) start «end» ancestor =
      if (start + «end») / 2 > start then find isOverlapped fuel start ((start + «end») / 2 - 1) ancestor
      else some (.ok ancestor) := by
  rw [find, if_neg hne]
  dsimp only
  rw [hb]

/-- Up to a head of `2 ^ 31`, `find` returns the ancestor `a` from any
interval holding it, or from one above it whose carried ancestor is `a`; it
halves the interval each step, so fuel beyond the interval's bit length is
enough. -/
theorem find_spec (hov : Overlaps isOverlapped headNum a) (hhead : headNum.toNat ≤ 2 ^ 31) :
    ∀ fuel start «end» ancestor, «end» ≤ headNum → start ≤ «end» → ancestor ≤ a → a ≤ «end» →
      (start ≤ a ∨ ancestor = a) → («end» - start).toNat < 2 ^ fuel →
      find isOverlapped (fuel + 1) start «end» ancestor = some (.ok a) := by
  intro fuel
  induction fuel with
  | zero =>
    intro start «end» ancestor hend hse hanc ha hcarry hsize
    -- an interval of one number
    rw [UInt32.le_iff_toNat_le] at hse
    rw [UInt32.toNat_sub_of_le _ _ (UInt32.le_iff_toNat_le.mpr hse)] at hsize
    have heq : start = «end» := UInt32.toNat_inj.mp (by simp at hsize; omega)
    subst heq
    exact find_single_eq hov hend ha hcarry
  | succ fuel ih =>
    intro start «end» ancestor hend hse hanc ha hcarry hsize
    by_cases hne : start = «end»
    · subst hne
      exact find_single_eq hov hend ha hcarry
    -- a proper interval: its sum stays below `2 ^ 32`, so the midpoint is exact
    have hs := UInt32.le_iff_toNat_le.mp hse
    have he := UInt32.le_iff_toNat_le.mp hend
    have hlt : start.toNat < «end».toNat := by
      have : start.toNat ≠ «end».toNat := fun h => hne (UInt32.toNat_inj.mp h)
      omega
    have hmid := toNat_mid (s := start) (e := «end») (by omega)
    have hsize' : «end».toNat - start.toNat < 2 * 2 ^ fuel := by
      rw [UInt32.toNat_sub_of_le _ _ hse, Nat.pow_succ] at hsize
      omega
    have hmidle : (start + «end») / 2 ≤ headNum := UInt32.le_iff_toNat_le.mpr (by omega)
    by_cases hm : (start + «end») / 2 ≤ a
    · -- the midpoint is overlapped: search above it, carrying it
      rw [find_mid_true hne (by rw [hov.2 _ hmidle, decide_eq_true hm])]
      have hm' := UInt32.le_iff_toNat_le.mp hm
      have hsucc : ((start + «end») / 2 + 1).toNat = (start.toNat + «end».toNat) / 2 + 1 := by
        rw [UInt32.toNat_add, hmid, UInt32.toNat_one, Nat.mod_eq_of_lt (by omega)]
      apply ih _ _ _ hend (UInt32.le_iff_toNat_le.mpr (by omega)) hm ha
      · by_cases hma : (start + «end») / 2 = a
        · exact .inr hma
        · have : ((start + «end») / 2).toNat ≠ a.toNat := fun h => hma (UInt32.toNat_inj.mp h)
          exact .inl (UInt32.le_iff_toNat_le.mpr (by omega))
      · rw [UInt32.toNat_sub_of_le _ _ (UInt32.le_iff_toNat_le.mpr (by omega)), hsucc]
        omega
    · -- the midpoint is not: search below it, or stop at the carried ancestor
      rw [find_mid_false hne (by rw [hov.2 _ hmidle, decide_eq_false hm])]
      have hm' : a.toNat < (start.toNat + «end».toNat) / 2 := by
        rw [← hmid]
        exact UInt32.lt_iff_toNat_lt.mp (UInt32.not_le.mp hm)
      by_cases hgt : (start + «end») / 2 > start
      · rw [if_pos hgt]
        have hgt' := UInt32.lt_iff_toNat_lt.mp hgt
        have hpred : ((start + «end») / 2 - 1).toNat = (start.toNat + «end».toNat) / 2 - 1 := by
          rw [UInt32.toNat_sub_of_le _ _ (UInt32.le_iff_toNat_le.mpr (by simp; omega)), hmid, UInt32.toNat_one]
        apply ih _ _ _ (UInt32.le_iff_toNat_le.mpr (by omega)) (UInt32.le_iff_toNat_le.mpr (by omega)) hanc
          (UInt32.le_iff_toNat_le.mpr (by omega)) hcarry
        rw [UInt32.toNat_sub_of_le _ _ (UInt32.le_iff_toNat_le.mpr (by omega)), hpred]
        omega
      · rw [if_neg hgt]
        -- the midpoint is `start`, so `a` lies below `start` and was carried
        have hle : ¬ start ≤ a := by
          intro hsa
          have := UInt32.le_iff_toNat_le.mp hsa
          have := UInt32.lt_iff_toNat_lt.not.mp hgt
          omega
        rw [hcarry.resolve_left hle]

/-- At the largest head, an interval from `start` above zero wraps its sum:
the midpoint falls below `start`, is overlapped, and the search moves to
`(start + 1) / 2` and on down to `1`, where it stays. -/
theorem find_wraps (hlow : ∀ n, n < start → isOverlapped n = .ok true) :
    ∀ fuel ancestor, 0 < start.toNat → start ≠ 4294967295 →
      find isOverlapped fuel start 4294967295 ancestor = none := by
  intro fuel
  induction fuel generalizing start with
  | zero => intro _ _ _; rfl
  | succ fuel ih =>
    intro ancestor hpos hne
    have hs := UInt32.toNat_lt start
    have hs' : start.toNat ≠ 4294967295 := fun h => hne (UInt32.toNat_inj.mp h)
    have hmid : ((start + 4294967295) / 2).toNat = (start.toNat - 1) / 2 := by
      rw [UInt32.toNat_div, UInt32.toNat_add]
      simp only [UInt32.reduceToNat]
      omega
    have hlt : (start + 4294967295) / 2 < start := UInt32.lt_iff_toNat_lt.mpr (by omega)
    rw [find_mid_true hne (hlow _ hlt)]
    have hnext : ((start + 4294967295) / 2 + 1).toNat = (start.toNat - 1) / 2 + 1 := by
      rw [UInt32.toNat_add, hmid, UInt32.toNat_one, Nat.mod_eq_of_lt (by omega)]
    apply ih (fun n hn => hlow n (UInt32.lt_of_lt_of_le hn (UInt32.le_iff_toNat_le.mpr (by omega))))
    · omega
    · intro h
      have := congrArg UInt32.toNat h
      simp only [UInt32.reduceToNat] at this
      omega

end Find

section FastSeek

variable {isOverlapped : UInt32 → Except ε Bool} {headNum a : UInt32}

theorem fastSeekLoop_ge {fuel : ℕ} {backward : UInt32} (h : backward ≥ headNum) :
    fastSeekLoop isOverlapped headNum (fuel + 1) backward = some (.ok 0) := by
  rw [fastSeekLoop, if_pos h]

/-- A probe below the head returns it if the peer shares it, and otherwise
steps back further. -/
theorem fastSeekLoop_probe (hov : Overlaps isOverlapped headNum a) {fuel : ℕ} {backward : UInt32}
    (h : ¬ backward ≥ headNum) :
    fastSeekLoop isOverlapped headNum (fuel + 1) backward =
      if headNum - backward ≤ a then some (.ok (headNum - backward))
      else fastSeekLoop isOverlapped headNum fuel (nextBackward backward) := by
  have hle : headNum - backward ≤ headNum := by
    have := UInt32.lt_iff_toNat_lt.mp (UInt32.not_le.mp h)
    rw [UInt32.le_iff_toNat_le, UInt32.toNat_sub_of_le _ _ (UInt32.le_iff_toNat_le.mpr (by omega))]
    omega
  rw [fastSeekLoop, if_neg h, hov.2 _ hle]
  by_cases hp : headNum - backward ≤ a
  · rw [decide_eq_true hp, if_pos hp]
  · rw [decide_eq_false hp, if_neg hp]

theorem nextBackward_toNat {backward : UInt32} (h : backward ≠ 0) :
    (nextBackward backward).toNat = 2 * backward.toNat % 2 ^ 32 := by
  rw [nextBackward, if_neg h, toNat_shiftLeft_one]

/-- Up to a head of `2 ^ 31` the steps back reach the head before they wrap:
from a positive step, fuel for the doublings up to the head gives a number
below the head that the peer shares. -/
theorem fastSeekLoop_spec (hov : Overlaps isOverlapped headNum a) (hhead : headNum.toNat ≤ 2 ^ 31)
    (hpos : 0 < headNum.toNat) :
    ∀ fuel backward, 0 < backward.toNat → headNum.toNat ≤ backward.toNat * 2 ^ fuel →
      ∃ s, fastSeekLoop isOverlapped headNum (fuel + 1) backward = some (.ok s) ∧ s ≤ a ∧ s < headNum := by
  have hzero : (0 : UInt32) ≤ a ∧ (0 : UInt32) < headNum :=
    ⟨UInt32.le_iff_toNat_le.mpr (Nat.zero_le _), UInt32.lt_iff_toNat_lt.mpr hpos⟩
  intro fuel
  induction fuel with
  | zero =>
    intro backward _ hfuel
    have hge : backward ≥ headNum := UInt32.le_iff_toNat_le.mpr (by simpa using hfuel)
    exact ⟨0, fastSeekLoop_ge hge, hzero⟩
  | succ fuel ih =>
    intro backward hb hfuel
    by_cases hge : backward ≥ headNum
    · exact ⟨0, fastSeekLoop_ge hge, hzero⟩
    have hlt := UInt32.lt_iff_toNat_lt.mp (UInt32.not_le.mp hge)
    rw [fastSeekLoop_probe hov hge]
    by_cases hp : headNum - backward ≤ a
    · refine ⟨_, if_pos hp, hp, UInt32.lt_iff_toNat_lt.mpr ?_⟩
      rw [UInt32.toNat_sub_of_le _ _ (UInt32.le_iff_toNat_le.mpr (by omega))]
      omega
    -- the step back doubles without wrapping, since it is still below the head
    rw [if_neg hp]
    have hb0 : backward ≠ 0 := fun h => by rw [h] at hb; exact Nat.lt_irrefl 0 hb
    have hnext := nextBackward_toNat hb0
    rw [Nat.mod_eq_of_lt (by omega)] at hnext
    apply ih _ (by omega)
    rw [hnext, Nat.mul_comm 2, Nat.mul_assoc, ← Nat.pow_succ']
    exact hfuel

/-- `fastSeek` up to a head of `2 ^ 31`: with 33 probes' fuel it returns a
number the peer shares, the head exactly when the peer shares it. -/
theorem fastSeek_spec (hov : Overlaps isOverlapped headNum a) (hhead : headNum.toNat ≤ 2 ^ 31)
    (hpos : 0 < headNum.toNat) {fuel : ℕ} (hfuel : 33 ≤ fuel) :
    ∃ s, fastSeek isOverlapped headNum fuel = some (.ok s) ∧ s ≤ a ∧ (s = headNum ↔ a = headNum) := by
  obtain ⟨fuel, rfl⟩ : ∃ f, fuel = f + 1 + 1 := ⟨fuel - 2, by omega⟩
  have hge : ¬ (0 : UInt32) ≥ headNum := UInt32.not_le.mpr (UInt32.lt_iff_toNat_lt.mpr hpos)
  unfold fastSeek
  rw [fastSeekLoop_probe hov hge]
  by_cases hp : headNum - 0 ≤ a
  · -- the peer has the head
    rw [if_pos hp]
    have ha : a = headNum := UInt32.le_antisymm hov.1 (by simpa using hp)
    exact ⟨_, rfl, hp, by simp [ha]⟩
  rw [if_neg hp]
  have ha : a < headNum := by simpa using hp
  obtain ⟨s, hs, hsa, hsh⟩ := fastSeekLoop_spec hov hhead hpos fuel 1 (show 0 < (1 : UInt32).toNat by decide) (by
    rw [UInt32.toNat_one, Nat.one_mul]
    exact Nat.le_trans hhead (Nat.pow_le_pow_right Nat.two_pos (by omega : 31 ≤ fuel)))
  exact ⟨s, hs, hsa, ⟨fun h => absurd h (UInt32.ne_of_lt hsh), fun h => absurd h (UInt32.ne_of_lt ha)⟩⟩

/-- Above a head of `2 ^ 31` the steps back `0, 1, 2, …, 2 ^ 31` stay below the
head, and the last doubles to zero: the loop runs out of fuel or returns a
number the peer shares within `2 ^ 31` of the head. -/
theorem fastSeekLoop_wide (hov : Overlaps isOverlapped headNum a) (hhead : 2 ^ 31 < headNum.toNat) :
    ∀ fuel backward, (backward.toNat = 0 ∨ ∃ k < 32, backward.toNat = 2 ^ k) →
      fastSeekLoop isOverlapped headNum fuel backward = none ∨
        ∃ s, fastSeekLoop isOverlapped headNum fuel backward = some (.ok s) ∧ s ≤ a ∧
          headNum.toNat - 2 ^ 31 ≤ s.toNat := by
  intro fuel
  induction fuel with
  | zero => intro _ _; exact .inl rfl
  | succ fuel ih =>
    intro backward hstep
    have hb : backward.toNat ≤ 2 ^ 31 := by
      rcases hstep with h | ⟨k, hk, h⟩
      · omega
      · rw [h]
        exact Nat.pow_le_pow_right Nat.two_pos (by omega)
    have hge : ¬ backward ≥ headNum := UInt32.not_le.mpr (UInt32.lt_iff_toNat_lt.mpr (by omega))
    have hsub : (headNum - backward).toNat = headNum.toNat - backward.toNat :=
      UInt32.toNat_sub_of_le _ _ (UInt32.le_iff_toNat_le.mpr (by omega))
    rw [fastSeekLoop_probe hov hge]
    by_cases hp : headNum - backward ≤ a
    · rw [if_pos hp]
      exact .inr ⟨_, rfl, hp, by omega⟩
    rw [if_neg hp]
    apply ih
    -- the steps back are closed under the next step: the last wraps to zero
    by_cases hb0 : backward = 0
    · exact .inr ⟨0, by decide, by rw [nextBackward, if_pos hb0]; rfl⟩
    rw [nextBackward_toNat hb0]
    rcases hstep with h | ⟨k, hk, h⟩
    · exact absurd (UInt32.toNat_inj.mp (h.trans UInt32.toNat_zero.symm)) hb0
    rw [h, ← Nat.pow_succ']
    by_cases hk' : k + 1 < 32
    · exact .inr ⟨k + 1, hk', Nat.mod_eq_of_lt (Nat.pow_lt_pow_right Nat.one_lt_two hk')⟩
    · have : k = 31 := by omega
      subst this
      exact .inl rfl

end FastSeek

section Ancestor

variable {isOverlapped : UInt32 → Except ε Bool} {headNum a : UInt32}

/-- Up to a head of `2 ^ 31` and with fuel for 33 probes, `findCommonAncestor`
returns the highest number the peer shares. -/
theorem findCommonAncestor_spec (hov : Overlaps isOverlapped headNum a) (hhead : headNum.toNat ≤ 2 ^ 31)
    {fuel : ℕ} (hfuel : 33 ≤ fuel) : findCommonAncestor isOverlapped headNum fuel = some (.ok a) := by
  unfold findCommonAncestor
  by_cases h0 : headNum = 0
  · rw [if_pos h0, h0]
    have := hov.1
    rw [h0] at this
    rw [UInt32.le_antisymm this (UInt32.le_iff_toNat_le.mpr (Nat.zero_le _))]
  rw [if_neg h0]
  have hpos : 0 < headNum.toNat := by
    by_contra h
    exact h0 (UInt32.toNat_inj.mp (by simp at h; simp [h]))
  obtain ⟨s, hs, hsa, hsh⟩ := fastSeek_spec hov hhead hpos hfuel
  rw [hs]
  dsimp only
  by_cases hsH : s = headNum
  · rw [if_pos hsH, hsh.mp hsH]
  rw [if_neg hsH]
  -- the search from the number found up to the head, in fuel for its 32 halvings
  obtain ⟨fuel, rfl⟩ : ∃ f, fuel = f + 1 := ⟨fuel - 1, by omega⟩
  have hsle : s ≤ headNum := UInt32.le_trans hsa hov.1
  apply find_spec hov hhead fuel s headNum 0 (UInt32.le_refl _) hsle (UInt32.le_iff_toNat_le.mpr (Nat.zero_le _))
    hov.1 (.inl hsa)
  rw [UInt32.toNat_sub_of_le _ _ hsle]
  calc headNum.toNat - s.toNat ≤ 2 ^ 31 := by omega
    _ < 2 ^ 32 := by decide
    _ ≤ 2 ^ fuel := Nat.pow_le_pow_right Nat.two_pos (by omega)

/-- `findCommonAncestor` does not return for heads above `2 ^ 31`: from any head
more than `2 ^ 31` above the ancestor, the steps back wrap and probe the same
numbers forever; and at the largest head, any ancestor below it is reached by
the probes, and the search above it wraps its midpoint and never ends. -/
theorem findCommonAncestor_diverges :
    (∀ (isOverlapped : UInt32 → Except ε Bool) (headNum a : UInt32), Overlaps isOverlapped headNum a →
      a.toNat + 2 ^ 31 < headNum.toNat → ∀ fuel, findCommonAncestor isOverlapped headNum fuel = none) ∧
    (∀ (isOverlapped : UInt32 → Except ε Bool) (a : UInt32), Overlaps isOverlapped 4294967295 a →
      a < 4294967295 → ∀ fuel, findCommonAncestor isOverlapped 4294967295 fuel = none) := by
  refine ⟨fun isOverlapped headNum a hov ha fuel => ?_, fun isOverlapped a hov ha fuel => ?_⟩
  · have h0 : headNum ≠ 0 := fun h => by rw [h] at ha; simp at ha
    unfold findCommonAncestor fastSeek
    rw [if_neg h0]
    rcases fastSeekLoop_wide hov (by omega) fuel 0 (.inl rfl) with hnone | ⟨s, _, hsa, hs⟩
    · rw [hnone]
    · -- a number shared within `2 ^ 31` of the head would be above the ancestor
      have := UInt32.le_iff_toNat_le.mp hsa
      omega
  · unfold findCommonAncestor fastSeek
    rw [if_neg (by decide)]
    rcases fastSeekLoop_wide hov (by decide) fuel 0 (.inl rfl) with hnone | ⟨s, hs, hsa, hsl⟩
    · rw [hnone]
    rw [hs]
    dsimp only
    have hsa' := UInt32.le_iff_toNat_le.mp hsa
    have ha' := UInt32.lt_iff_toNat_lt.mp ha
    have hsH : s ≠ 4294967295 := fun h => by rw [h] at hsa'; simp at hsa' ha'; omega
    rw [if_neg hsH]
    -- the search starts at least `2 ^ 31 - 1` up, below the ancestor
    apply find_wraps (fun n hn => by
      rw [hov.2 n (UInt32.le_iff_toNat_le.mpr (by have := UInt32.toNat_lt n; simp; omega)),
        decide_eq_true (UInt32.le_trans (UInt32.le_of_lt hn) hsa)])
    · simp only [UInt32.reduceToNat] at hsl
      omega
    · exact hsH

theorem findCommonAncestor_diverges_max :
    Overlaps (ε := String) (fun n => .ok (decide (n ≤ 0))) 4294967295 0 ∧
      findCommonAncestor (ε := String) (fun n => .ok (decide (n ≤ 0))) 4294967295 1000000 = none :=
  ⟨⟨by decide, fun _ _ => rfl⟩,
    findCommonAncestor_diverges.1 _ 4294967295 0 ⟨by decide, fun _ _ => rfl⟩ (by decide) 1000000⟩

end Ancestor

end Workshare.Sync
