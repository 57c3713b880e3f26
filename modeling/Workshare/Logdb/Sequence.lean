import Workshare.Basic

/-!
# Log sequence numbers

`logdb` keys every event and transfer by a `sequence`: the block number shifted
above 31 bits of index within the block, stored as a signed 64-bit integer that
SQL compares. The largest block number still lands below the sign bit, so every
sequence is non-negative, reads back its block number and index, and orders
lexicographically by them. The range of a filter and the bound of `Truncate`
are sequences, and select exactly the logs of the blocks they name.

The bit operations are argued through the unsigned value of the bits: below
`2 ^ 63` it is also the signed value.
-/
namespace Workshare.Logdb

/-- `math.MaxInt32`, the largest index. -/
def maxInt32 : UInt32 := 0x7fffffff

/-- `newSequence`; `none` is the panic on an index above `MaxInt32`. -/
def newSequence (blockNum index : UInt32) : Option Int64 :=
  if index &&& maxInt32 ≠ index then none
  else some ((blockNum.toUInt64.toInt64 <<< 31) ||| index.toUInt64.toInt64)

/-- `sequence.BlockNumber`. -/
def blockNumber (s : Int64) : UInt32 := (s >>> 31).toUInt64.toUInt32

/-- `sequence.Index`. -/
def index (s : Int64) : UInt32 := (s &&& 0x7fffffff).toUInt64.toUInt32

/-! ### The bits of a sequence -/

theorem toNat_and_maxInt32 (i : UInt32) : (i &&& maxInt32).toNat = i.toNat % 2 ^ 31 := by
  rw [UInt32.toNat_and, show maxInt32.toNat = 2 ^ 31 - 1 from rfl, Nat.and_two_pow_sub_one_eq_mod]

/-- `newSequence` panics exactly on an index of 32 bits. -/
theorem and_maxInt32_eq_iff (i : UInt32) : i &&& maxInt32 = i ↔ i.toNat < 2 ^ 31 := by
  rw [← UInt32.toNat_inj, toNat_and_maxInt32]
  constructor
  · intro h
    rw [← h]
    exact Nat.mod_lt _ (by decide)
  · exact Nat.mod_eq_of_lt

/-- The bits of a sequence: the block number times `2 ^ 31`, plus the index. -/
theorem toNat_newSequence {b i : UInt32} {s : Int64} (h : newSequence b i = some s) :
    i.toNat < 2 ^ 31 ∧ s.toBitVec.toNat = b.toNat * 2 ^ 31 + i.toNat := by
  unfold newSequence at h
  split at h
  · cases h
  · rename_i hi
    have hi : i.toNat < 2 ^ 31 := (and_maxInt32_eq_iff i).mp (not_not.mp hi)
    have hb := b.toNat_lt
    cases h
    refine ⟨hi, ?_⟩
    have h31 : (31 : Int64).toBitVec.smod 64 = 31#64 := by decide
    simp only [Int64.toBitVec_or, Int64.toBitVec_shiftLeft, h31, BitVec.shiftLeft_eq', BitVec.toNat_or,
      BitVec.toNat_shiftLeft, UInt64.toBitVec_toInt64, UInt64.toNat_toBitVec, UInt32.toNat_toUInt64]
    show b.toNat <<< 31 % 2 ^ 64 ||| i.toNat = _
    rw [Nat.mod_eq_of_lt (by rw [Nat.shiftLeft_eq]; omega), ← Nat.shiftLeft_add_eq_or_of_lt hi, Nat.shiftLeft_eq]

theorem newSequence_isSome {b i : UInt32} (hi : i.toNat < 2 ^ 31) : ∃ s, newSequence b i = some s := by
  simp [newSequence, (and_maxInt32_eq_iff i).mpr hi]

/-- Below the sign bit the signed value of the bits is the unsigned one. -/
theorem toInt_eq_toNat {s : Int64} (h : s.toBitVec.toNat < 2 ^ 63) : s.toInt = s.toBitVec.toNat := by
  rw [Int64.toInt, BitVec.toInt_eq_toNat_of_lt (by omega)]

theorem toNat_blockNumber {s : Int64} (h : s.toBitVec.toNat < 2 ^ 63) :
    (blockNumber s).toNat = s.toBitVec.toNat / 2 ^ 31 % 2 ^ 32 := by
  have h31 : (31 : Int64).toBitVec.smod 64 = 31#64 := by decide
  have hmsb : s.toBitVec.msb = false := by
    rw [BitVec.msb_eq_decide]
    simp only [decide_eq_false_iff_not, not_le]
    omega
  rw [blockNumber, UInt64.toNat_toUInt32]
  show (s >>> 31).toBitVec.toNat % 2 ^ 32 = _
  rw [Int64.toBitVec_shiftRight, h31, BitVec.sshiftRight', BitVec.sshiftRight_eq_of_msb_false hmsb,
    BitVec.toNat_ushiftRight, Nat.shiftRight_eq_div_pow]
  rfl

theorem toNat_index (s : Int64) : (index s).toNat = s.toBitVec.toNat % 2 ^ 31 % 2 ^ 32 := by
  rw [index, UInt64.toNat_toUInt32]
  show (s &&& 0x7fffffff).toBitVec.toNat % 2 ^ 32 = _
  rw [Int64.toBitVec_and, BitVec.toNat_and, show (0x7fffffff : Int64).toBitVec.toNat = 2 ^ 31 - 1 by decide,
    Nat.and_two_pow_sub_one_eq_mod]

/-! ### What a sequence says -/

/-- A sequence is non-negative, and its value is the block number times `2 ^ 31`
plus the index. -/
theorem toInt_newSequence {b i : UInt32} {s : Int64} (h : newSequence b i = some s) :
    s.toInt = b.toNat * 2 ^ 31 + i.toNat := by
  obtain ⟨hi, hs⟩ := toNat_newSequence h
  have hb := b.toNat_lt
  rw [toInt_eq_toNat (by omega), hs]
  omega

theorem blockNumber_newSequence {b i : UInt32} {s : Int64} (h : newSequence b i = some s) :
    blockNumber s = b := by
  obtain ⟨hi, hs⟩ := toNat_newSequence h
  have hb := b.toNat_lt
  apply UInt32.toNat_inj.mp
  rw [toNat_blockNumber (by omega), hs]
  omega

theorem index_newSequence {b i : UInt32} {s : Int64} (h : newSequence b i = some s) : index s = i := by
  obtain ⟨hi, hs⟩ := toNat_newSequence h
  apply UInt32.toNat_inj.mp
  rw [toNat_index, hs]
  omega

/-- Sequences order as their block numbers, then their indices. -/
theorem newSequence_lt_iff {b₁ i₁ b₂ i₂ : UInt32} {s₁ s₂ : Int64} (h₁ : newSequence b₁ i₁ = some s₁)
    (h₂ : newSequence b₂ i₂ = some s₂) : s₁ < s₂ ↔ b₁ < b₂ ∨ (b₁ = b₂ ∧ i₁ < i₂) := by
  have hi₁ := (toNat_newSequence h₁).1
  have hi₂ := (toNat_newSequence h₂).1
  rw [Int64.lt_iff_toInt_lt, toInt_newSequence h₁, toInt_newSequence h₂, UInt32.lt_iff_toNat_lt,
    UInt32.lt_iff_toNat_lt, ← UInt32.toNat_inj]
  omega

theorem newSequence_le_iff {b₁ i₁ b₂ i₂ : UInt32} {s₁ s₂ : Int64} (h₁ : newSequence b₁ i₁ = some s₁)
    (h₂ : newSequence b₂ i₂ = some s₂) : s₁ ≤ s₂ ↔ b₁ < b₂ ∨ (b₁ = b₂ ∧ i₁ ≤ i₂) := by
  have hi₁ := (toNat_newSequence h₁).1
  have hi₂ := (toNat_newSequence h₂).1
  rw [Int64.le_iff_toInt_le, toInt_newSequence h₁, toInt_newSequence h₂, UInt32.lt_iff_toNat_lt,
    UInt32.le_iff_toNat_le, ← UInt32.toNat_inj]
  omega

theorem zero_le_newSequence {b i : UInt32} {s : Int64} (h : newSequence b i = some s) : 0 ≤ s := by
  rw [Int64.le_iff_toInt_le, toInt_newSequence h, show (0 : Int64).toInt = 0 from rfl]
  omega

/-! ### Filters and truncation -/

/-- `Range`: the first and the last block of a filter. -/
structure Range where
  From : UInt32
  To : UInt32

/-- The range part of a filter's `WHERE` clause: `seq >= newSequence(From, 0)`,
and `seq <= newSequence(To, MaxInt32)` only when `To` is not below `From`. -/
def rangeBounds (r : Range) : Option (Int64 × Option Int64) :=
  (newSequence r.From 0).bind fun lo =>
    if r.To ≥ r.From then (newSequence r.To maxInt32).map fun hi => (lo, some hi)
    else some (lo, none)

/-- Whether a row's `seq` passes the bounds of a range. -/
def selects (bounds : Int64 × Option Int64) (seq : Int64) : Bool :=
  decide (bounds.1 ≤ seq) && bounds.2.all fun hi => decide (seq ≤ hi)

/-- A row of the `event` or the `transfer` table, keyed by its sequence. -/
structure Row (α : Type) where
  seq : Int64
  log : α

/-- The two tables of logs. -/
structure Tables (E T : Type) where
  event : List (Row E)
  transfer : List (Row T)

/-- Every row is keyed by a sequence, as `Write` keys them. -/
def Tables.Keyed {E T : Type} (db : Tables E T) : Prop :=
  (∀ r ∈ db.event, ∃ b i, newSequence b i = some r.seq) ∧ (∀ r ∈ db.transfer, ∃ b i, newSequence b i = some r.seq)

/-- `Writer.Truncate`: both tables lose every row with `seq >= newSequence(blockNum, 0)`. -/
def truncate {E T : Type} (db : Tables E T) (blockNum : UInt32) : Option (Tables E T) :=
  (newSequence blockNum 0).map fun seq =>
    { event := db.event.filter fun r => !decide (seq ≤ r.seq),
      transfer := db.transfer.filter fun r => !decide (seq ≤ r.seq) }

theorem toNat_lt_of_newSequence {b i : UInt32} {s : Int64} (h : newSequence b i = some s) : i.toNat < 2 ^ 31 :=
  (toNat_newSequence h).1

/-- The range of a filter passes exactly the logs of its blocks, from `From` on
and up to `To` when `To` is not below `From`. -/
theorem selects_iff (r : Range) : ∃ bounds, rangeBounds r = some bounds ∧
    ∀ {b i : UInt32} {s : Int64}, newSequence b i = some s →
      (selects bounds s = true ↔ r.From ≤ b ∧ (r.From ≤ r.To → b ≤ r.To)) := by
  obtain ⟨lo, hlo⟩ := newSequence_isSome (b := r.From) (i := 0) (by decide)
  obtain ⟨hi, hhi⟩ := newSequence_isSome (b := r.To) (i := maxInt32) (by decide)
  have hmax : maxInt32.toNat = 2 ^ 31 - 1 := rfl
  by_cases hle : r.From ≤ r.To
  · refine ⟨(lo, some hi), by simp [rangeBounds, hlo, hhi, hle], fun {b i s} hs => ?_⟩
    have hi' := toNat_lt_of_newSequence hs
    simp only [selects, Option.all_some, Bool.and_eq_true, decide_eq_true_eq, newSequence_le_iff hlo hs,
      newSequence_le_iff hs hhi, hle, forall_const, UInt32.le_iff_toNat_le, UInt32.lt_iff_toNat_lt,
      ← UInt32.toNat_inj, UInt32.toNat_zero, hmax]
    omega
  · refine ⟨(lo, none), by simp [rangeBounds, hlo, hle], fun {b i s} hs => ?_⟩
    simp only [selects, Option.all_none, Bool.and_true, decide_eq_true_eq, newSequence_le_iff hlo hs, hle,
      false_implies, and_true, UInt32.le_iff_toNat_le, UInt32.lt_iff_toNat_lt, ← UInt32.toNat_inj, UInt32.toNat_zero]
    omega

/-- A row keyed by a sequence survives truncation at `blockNum` exactly when its
block is below `blockNum`. -/
theorem truncate_keeps_iff {blockNum b i : UInt32} {lo s : Int64} (hlo : newSequence blockNum 0 = some lo)
    (hs : newSequence b i = some s) : (!decide (lo ≤ s)) = decide (blockNumber s < blockNum) := by
  rw [blockNumber_newSequence hs, Bool.eq_iff_iff]
  simp only [Bool.not_eq_true', decide_eq_false_iff_not, decide_eq_true_eq, newSequence_le_iff hlo hs,
    UInt32.le_iff_toNat_le, UInt32.lt_iff_toNat_lt, ← UInt32.toNat_inj, UInt32.toNat_zero]
  omega

theorem truncate_eq {E T : Type} (db : Tables E T) (blockNum : UInt32) (hdb : db.Keyed) :
    truncate db blockNum = some ⟨db.event.filter fun r => decide (blockNumber r.seq < blockNum),
      db.transfer.filter fun r => decide (blockNumber r.seq < blockNum)⟩ := by
  obtain ⟨lo, hlo⟩ := newSequence_isSome (b := blockNum) (i := 0) (by decide)
  simp only [truncate, hlo, Option.map_some, Option.some.injEq, Tables.mk.injEq]
  constructor
  · apply List.filter_congr
    intro r hr
    obtain ⟨b, i, hs⟩ := hdb.1 r hr
    exact truncate_keeps_iff hlo hs
  · apply List.filter_congr
    intro r hr
    obtain ⟨b, i, hs⟩ := hdb.2 r hr
    exact truncate_keeps_iff hlo hs

/-- Sequences embed (block number, index) into the signed 64-bit order: each is
non-negative and reads back its parts, they order lexicographically, a filter's
range passes exactly the logs of its blocks, and `Truncate` deletes exactly the
logs of the blocks from its own on. -/
theorem newSequence_order_embedding :
    (∀ b i : UInt32, i.toNat < 2 ^ 31 →
      ∃ s, newSequence b i = some s ∧ 0 ≤ s ∧ blockNumber s = b ∧ index s = i) ∧
    (∀ {b₁ i₁ b₂ i₂ : UInt32} {s₁ s₂ : Int64}, newSequence b₁ i₁ = some s₁ → newSequence b₂ i₂ = some s₂ →
      (s₁ < s₂ ↔ b₁ < b₂ ∨ (b₁ = b₂ ∧ i₁ < i₂))) ∧
    (∀ r : Range, ∃ bounds, rangeBounds r = some bounds ∧ ∀ {b i : UInt32} {s : Int64}, newSequence b i = some s →
      (selects bounds s = true ↔ r.From ≤ b ∧ (r.From ≤ r.To → b ≤ r.To))) ∧
    (∀ {E T : Type} (db : Tables E T) (blockNum : UInt32), db.Keyed →
      truncate db blockNum = some ⟨db.event.filter fun r => decide (blockNumber r.seq < blockNum),
        db.transfer.filter fun r => decide (blockNumber r.seq < blockNum)⟩) := by
  refine ⟨fun b i hi => ?_, newSequence_lt_iff, selects_iff, truncate_eq⟩
  obtain ⟨s, hs⟩ := newSequence_isSome (b := b) hi
  exact ⟨s, hs, zero_le_newSequence hs, blockNumber_newSequence hs, index_newSequence hs⟩

theorem newSequence_order_embedding_top :
    (0x7fffffff : UInt32).toNat < 2 ^ 31 ∧
      (∃ s, newSequence 0xffffffff 0x7fffffff = some s ∧ 0 ≤ s ∧ blockNumber s = 0xffffffff ∧
        index s = 0x7fffffff) ∧
      truncate (⟨[⟨(15032385539 : Int64), ()⟩], []⟩ : Tables Unit Unit) 7 =
        some ⟨[⟨(15032385539 : Int64), ()⟩].filter fun r => decide (blockNumber r.seq < 7), []⟩ := by
  have hk : (⟨[⟨(15032385539 : Int64), ()⟩], []⟩ : Tables Unit Unit).Keyed :=
    ⟨by simp only [List.mem_singleton]; rintro r rfl; exact ⟨7, 3, by decide⟩, by simp⟩
  exact ⟨by decide, newSequence_order_embedding.1 0xffffffff 0x7fffffff (by decide),
    newSequence_order_embedding.2.2.2 _ 7 hk⟩

end Workshare.Logdb
