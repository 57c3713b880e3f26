import Workshare.Basic

/-!
# Memory and its expansion gas

`vm.Memory` is a byte store and the gas already paid for its size.
`memoryGasCost` charges an expansion of the memory to `newMemSize` bytes,
rounded up to whole words: the fee of the new size, `3` gas a word and the
square of the words over `512`, less what was paid before. The interpreter
then resizes the memory to those words, so that what was paid stays the fee of
the memory's own size.

All of it is `uint64` arithmetic. `memoryGasCost` refuses sizes above
`0xffffffffe0`, which its comment calls the largest size whose gas cannot
overflow; but that size is `2 ^ 35 - 1` words, and the square of a word count
overflows from `2 ^ 32` words on. Up to `0x1FFFFFFFE0` bytes, `2 ^ 32 - 1`
words, the fee is exact.
-/
namespace Workshare

namespace Vm

/-- `errGasUintOverflow`. -/
inductive VmError
  | gasUintOverflow
  deriving DecidableEq, Repr

/-- `vm.Memory`. -/
structure Memory where
  store : Bytes
  lastGasCost : UInt64
  deriving DecidableEq, Repr

namespace Memory

/-- `NewMemory`. -/
def new : Memory := ⟨[], 0⟩

/-- `Len`. -/
def len (m : Memory) : ℕ := m.store.length

/-- `Resize`: grow the store with zeros, never shrink it. -/
def resize (m : Memory) (size : UInt64) : Memory :=
  if m.len < size.toNat then { m with store := m.store ++ List.replicate (size.toNat - m.len) 0 } else m

end Memory

/-- `params.MemoryGas`. -/
def MemoryGas : UInt64 := 3

/-- `params.QuadCoeffDiv`. -/
def QuadCoeffDiv : UInt64 := 512

/-- `toWordSize`: the words that hold `size` bytes, saturated near `2 ^ 64`. -/
def toWordSize (size : UInt64) : UInt64 :=
  if size > MaxUint64 - 31 then MaxUint64 / 32 + 1 else (size + 31) / 32

/-- `memoryGasCost`: the fee of the new size less what was paid, which then
becomes what was paid; nothing when the memory is large enough already. -/
def memoryGasCost (mem : Memory) (newMemSize : UInt64) : Except VmError (UInt64 × Memory) :=
  if newMemSize = 0 then .ok (0, mem)
  else if newMemSize > 0xffffffffe0 then .error .gasUintOverflow
  else
    let newMemSizeWords := toWordSize newMemSize
    let newMemSize := newMemSizeWords * 32
    if newMemSize > UInt64.ofNat mem.len then
      let square := newMemSizeWords * newMemSizeWords
      let linCoef := newMemSizeWords * MemoryGas
      let quadCoef := square / QuadCoeffDiv
      let newTotalFee := linCoef + quadCoef
      let fee := newTotalFee - mem.lastGasCost
      .ok (fee, { mem with lastGasCost := newTotalFee })
    else .ok (0, mem)

/-- The memory step of the interpreter's loop: charge the expansion to
`memorySize`, then resize the memory to it. -/
def expand (mem : Memory) (memorySize : UInt64) : Except VmError (UInt64 × Memory) :=
  (memoryGasCost mem memorySize).map fun (fee, mem) =>
    (fee, if memorySize > 0 then mem.resize memorySize else mem)

/-- The memory steps of a run of the interpreter, one after the other, and the
fees they charge. -/
def expandAll (mem : Memory) : List UInt64 → Except VmError (List UInt64 × Memory)
  | [] => .ok ([], mem)
  | memorySize :: sizes => (expand mem memorySize).bind fun (fee, mem) =>
    (expandAll mem sizes).map fun (fees, mem) => (fee :: fees, mem)

/-- The fee of a memory of `w` words over the naturals: `MemoryGas` a word and
the square of the words over `QuadCoeffDiv`. -/
def memFee (w : ℕ) : ℕ := w * MemoryGas.toNat + w * w / QuadCoeffDiv.toNat

/-- The words a memory occupies. -/
def Memory.wordCount (m : Memory) : ℕ := (m.len + 31) / 32

/-- What a memory has paid is the fee of its own size. -/
def Memory.Paid (m : Memory) : Prop := m.lastGasCost.toNat = memFee m.wordCount

theorem memFee_mono {v w : ℕ} (h : v ≤ w) : memFee v ≤ memFee w := by
  unfold memFee
  have := Nat.mul_le_mul h h
  have := Nat.div_le_div_right (c := QuadCoeffDiv.toNat) this
  have := Nat.mul_le_mul_right MemoryGas.toNat h
  omega

theorem toWordSize_toNat {s : UInt64} (h : s.toNat ≤ 0xffffffffe0) : (toWordSize s).toNat = (s.toNat + 31) / 32 := by
  unfold toWordSize
  rw [if_neg (by rw [gt_iff_lt, UInt64.lt_iff_toNat_lt, UInt64.toNat_sub_of_le _ _ (by decide)]; simp [MaxUint64]; omega),
    UInt64.toNat_div, UInt64.toNat_add]
  simp
  omega

/-- Below `2 ^ 32` words every step of the fee fits in a `uint64`. -/
theorem newTotalFee_toNat {w : UInt64} (hw : w.toNat < 2 ^ 32) :
    (w * MemoryGas + w * w / QuadCoeffDiv).toNat = memFee w.toNat := by
  have hsq : w.toNat * w.toNat < 2 ^ 64 := by
    have := Nat.mul_lt_mul_of_lt_of_lt hw hw
    omega
  rw [UInt64.toNat_add, UInt64.toNat_mul, UInt64.toNat_div, UInt64.toNat_mul]
  simp only [memFee, MemoryGas, QuadCoeffDiv, UInt64.reduceToNat]
  omega

theorem memFee_lt {w : ℕ} (hw : w < 2 ^ 32) : memFee w < 2 ^ 64 := by
  have := Nat.mul_lt_mul_of_lt_of_lt hw hw
  unfold memFee
  simp only [MemoryGas, QuadCoeffDiv, UInt64.reduceToNat]
  omega

/-- Up to `0x1FFFFFFFE0` bytes, `memoryGasCost` charges the fee of the new
words, less what was paid, when they are more than the memory holds. -/
theorem memoryGasCost_eq {mem : Memory} {newMemSize : UInt64} (hlen : mem.len < 2 ^ 64)
    (hsize : newMemSize.toNat ≤ 0x1FFFFFFFE0) :
    memoryGasCost mem newMemSize =
      if mem.len < (newMemSize.toNat + 31) / 32 * 32 then
        .ok (UInt64.ofNat (memFee ((newMemSize.toNat + 31) / 32)) - mem.lastGasCost,
          { mem with lastGasCost := UInt64.ofNat (memFee ((newMemSize.toNat + 31) / 32)) })
      else .ok (0, mem) := by
  have hw := toWordSize_toNat (s := newMemSize) (by omega)
  unfold memoryGasCost
  by_cases h0 : newMemSize = 0
  · subst h0
    simp
  rw [if_neg h0, if_neg (by rw [gt_iff_lt, UInt64.lt_iff_toNat_lt]; simp; omega)]
  dsimp only
  generalize hwords : (newMemSize.toNat + 31) / 32 = words at hw
  have hw32 : (toWordSize newMemSize * 32).toNat = words * 32 := by
    rw [UInt64.toNat_mul, hw]
    simp
    omega
  have hcmp : toWordSize newMemSize * 32 > UInt64.ofNat mem.len ↔ mem.len < words * 32 := by
    rw [gt_iff_lt, UInt64.lt_iff_toNat_lt, hw32, UInt64.toNat_ofNat_of_lt' hlen]
  by_cases hlt : mem.len < words * 32
  · rw [if_pos (hcmp.mpr hlt), if_pos hlt]
    have hsmall : words < 2 ^ 32 := by omega
    have hfee : toWordSize newMemSize * MemoryGas + toWordSize newMemSize * toWordSize newMemSize / QuadCoeffDiv =
        UInt64.ofNat (memFee words) := by
      apply UInt64.toNat_inj.mp
      rw [newTotalFee_toNat (by rw [hw]; exact hsmall), hw, UInt64.toNat_ofNat_of_lt' (memFee_lt hsmall)]
    rw [hfee]
  · rw [if_neg (mt hcmp.mp hlt), if_neg hlt]

theorem wordCount_le {mem : Memory} {words : ℕ} (h : mem.len < words * 32) : mem.wordCount ≤ words := by
  unfold Memory.wordCount
  omega

/-- A memory that has paid for its size is charged exactly the fee of the new
words less what it paid: the subtraction does not wrap. -/
theorem memoryGasCost_paid {mem : Memory} {newMemSize : UInt64} (hpaid : mem.Paid) (hlen : mem.len < 2 ^ 64)
    (hsize : newMemSize.toNat ≤ 0x1FFFFFFFE0) (hlt : mem.len < (newMemSize.toNat + 31) / 32 * 32) :
    ∃ fee, memoryGasCost mem newMemSize =
        .ok (fee, { mem with lastGasCost := UInt64.ofNat (memFee ((newMemSize.toNat + 31) / 32)) }) ∧
      fee.toNat + mem.lastGasCost.toNat = memFee ((newMemSize.toNat + 31) / 32) := by
  rw [memoryGasCost_eq hlen hsize, if_pos hlt]
  have hsmall : (newMemSize.toNat + 31) / 32 < 2 ^ 32 := by omega
  have hle : mem.lastGasCost.toNat ≤ memFee ((newMemSize.toNat + 31) / 32) := by
    rw [hpaid]
    exact memFee_mono (wordCount_le hlt)
  refine ⟨_, rfl, ?_⟩
  rw [UInt64.toNat_sub_of_le _ _ (UInt64.le_iff_toNat_le.mpr (by rw [UInt64.toNat_ofNat_of_lt' (memFee_lt hsmall)]; exact hle)),
    UInt64.toNat_ofNat_of_lt' (memFee_lt hsmall)]
  omega

theorem len_resize (m : Memory) (size : UInt64) : (m.resize size).len = max m.len size.toNat := by
  unfold Memory.resize
  split_ifs with h
  · simp [Memory.len]
    omega
  · omega

theorem lastGasCost_resize (m : Memory) (size : UInt64) : (m.resize size).lastGasCost = m.lastGasCost := by
  unfold Memory.resize
  split_ifs <;> rfl

/-- A step of the interpreter keeps a memory paid for its size, and the fee it
charges is the difference of the two fees. -/
theorem expand_paid {mem mem' : Memory} {memorySize fee : UInt64} (hpaid : mem.Paid) (hlen : mem.len < 2 ^ 64)
    (hsize : memorySize.toNat ≤ 0x1FFFFFFFE0) (h : expand mem memorySize = .ok (fee, mem')) :
    mem'.Paid ∧ fee.toNat + memFee mem.wordCount = memFee mem'.wordCount := by
  have hs := memorySize.toNat_lt
  unfold expand at h
  rw [memoryGasCost_eq hlen hsize] at h
  by_cases hlt : mem.len < (memorySize.toNat + 31) / 32 * 32
  · -- the memory grows to the new words, which it has now paid for
    obtain ⟨fee', hcost, hfee⟩ := memoryGasCost_paid hpaid hlen hsize hlt
    rw [memoryGasCost_eq hlen hsize] at hcost
    rw [hcost] at h
    have hpos : memorySize > 0 := by
      rw [gt_iff_lt, UInt64.lt_iff_toNat_lt]
      simp
      omega
    simp only [Except.map, hpos, if_true, Except.ok.injEq, Prod.mk.injEq] at h
    obtain ⟨rfl, rfl⟩ := h
    have hwords : ({ mem with lastGasCost := UInt64.ofNat (memFee ((memorySize.toNat + 31) / 32)) }.resize
        memorySize).wordCount = (memorySize.toNat + 31) / 32 := by
      unfold Memory.wordCount
      rw [len_resize]
      simp only [Memory.len] at hlt ⊢
      omega
    have hsmall : (memorySize.toNat + 31) / 32 < 2 ^ 32 := by omega
    refine ⟨?_, ?_⟩
    · unfold Memory.Paid
      rw [lastGasCost_resize, hwords, UInt64.toNat_ofNat_of_lt' (memFee_lt hsmall)]
    · rw [hwords, ← hfee, hpaid]
  · -- large enough already: nothing is charged and nothing grows
    rw [if_neg hlt] at h
    simp only [Except.map, Except.ok.injEq, Prod.mk.injEq] at h
    obtain ⟨rfl, rfl⟩ := h
    have hres : mem.resize memorySize = mem := by
      unfold Memory.resize
      rw [if_neg (by omega)]
    split_ifs
    · rw [hres]
      exact ⟨hpaid, by simp⟩
    · exact ⟨hpaid, by simp⟩

theorem expand_ok {mem : Memory} {memorySize : UInt64} (hlen : mem.len < 2 ^ 64)
    (hsize : memorySize.toNat ≤ 0x1FFFFFFFE0) : ∃ fee mem', expand mem memorySize = .ok (fee, mem') := by
  unfold expand
  rw [memoryGasCost_eq hlen hsize]
  split_ifs <;> exact ⟨_, _, rfl⟩

/-- `memoryGasCost` writes what was paid only, never the store. -/
theorem store_memoryGasCost {mem mem' : Memory} {memorySize fee : UInt64}
    (h : memoryGasCost mem memorySize = .ok (fee, mem')) : mem'.store = mem.store := by
  unfold memoryGasCost at h
  dsimp only at h
  split_ifs at h
  all_goals
    simp only [Except.ok.injEq, Prod.mk.injEq] at h
    try obtain ⟨-, rfl⟩ := h
  all_goals rfl

theorem len_expand {mem mem' : Memory} {memorySize fee : UInt64} (hlen : mem.len < 2 ^ 64)
    (h : expand mem memorySize = .ok (fee, mem')) : mem'.len < 2 ^ 64 := by
  have hs := memorySize.toNat_lt
  unfold expand at h
  cases hc : memoryGasCost mem memorySize with
  | error e => simp [hc, Except.map] at h
  | ok r =>
    obtain ⟨fee', mem''⟩ := r
    have hl : mem''.len = mem.len := by
      simp only [Memory.len, store_memoryGasCost hc]
    simp only [hc, Except.map, Except.ok.injEq, Prod.mk.injEq] at h
    obtain ⟨-, rfl⟩ := h
    split_ifs
    · rw [len_resize]
      omega
    · omega

/-- Over a run of steps within `0x1FFFFFFFE0` bytes, the memory stays paid for
its size, and the fees charged add up to the fee of where it ends less the fee
of where it started. -/
theorem expandAll_paid {sizes : List UInt64} (hsizes : ∀ s ∈ sizes, s.toNat ≤ 0x1FFFFFFFE0) :
    ∀ {mem : Memory}, mem.Paid → mem.len < 2 ^ 64 →
      ∃ fees mem', expandAll mem sizes = .ok (fees, mem') ∧ mem'.Paid ∧
        (fees.map UInt64.toNat).sum + memFee mem.wordCount = memFee mem'.wordCount := by
  induction sizes with
  | nil =>
    intro mem hpaid _
    exact ⟨[], mem, rfl, hpaid, by simp⟩
  | cons s sizes ih =>
    intro mem hpaid hlen
    obtain ⟨fee, mem₁, h₁⟩ := expand_ok hlen (hsizes s List.mem_cons_self)
    obtain ⟨hpaid₁, hfee⟩ := expand_paid hpaid hlen (hsizes s List.mem_cons_self) h₁
    obtain ⟨fees, mem', hrun, hpaid', hsum⟩ :=
      ih (fun s' hs' => hsizes s' (List.mem_cons_of_mem _ hs')) hpaid₁ (len_expand hlen h₁)
    refine ⟨fee :: fees, mem', ?_, hpaid', ?_⟩
    · simp [expandAll, h₁, hrun, Except.bind, Except.map]
    · simp only [List.map_cons, List.sum_cons]
      omega

/-- At `2 ^ 37` bytes, below the bound `memoryGasCost` accepts, the word count
is `2 ^ 32` and its square wraps to zero: a fresh memory, which has paid
nothing for no words, is charged the linear part of the fee only. -/
theorem memoryGasCost_square_wraps :
    Memory.new.Paid ∧ (0x2000000000 : UInt64) ≤ 0xffffffffe0 ∧
      memoryGasCost Memory.new 0x2000000000 = .ok (12884901888, ⟨[], 12884901888⟩) ∧
      memFee ((0x2000000000 + 31) / 32) - Memory.new.lastGasCost.toNat = 12884901888 + 36028797018963968 := by
  refine ⟨rfl, by decide, rfl, by decide⟩

end Vm

end Workshare
