import Workshare.Runtime.StateDB

/-!
# Transactions and receipts

`tx.Transaction` is its `body`: the chain tag, a block reference whose first
four bytes are a block number, an expiration in blocks, the clauses, the gas
price coefficient, the gas, an optional transaction it depends on, a nonce,
the reserved fields (the feature bits and the raw RLP values after them) and
the signature. The origin, the delegator and the id are recovered from the
signature, so the code that reads them takes them as given functions.

Gas amounts are `uint64` here as in the source, with its overflow checks.
-/
namespace Workshare

/-- `tx.Clause`: a call, or a contract creation when `To` is absent. -/
structure Clause where
  «to» : Option Address
  value : ℤ
  data : Bytes
  deriving DecidableEq, Repr

/-- `tx.reserved`: the feature bits and the raw RLP values that follow them. -/
structure Reserved where
  features : UInt32
  unused : List Bytes
  deriving DecidableEq, Repr

/-- `tx.Transaction`, as its `body`. -/
structure Transaction where
  chainTag : UInt8
  blockRef : UInt64
  expiration : UInt32
  clauses : List Clause
  gasPriceCoef : UInt8
  gas : UInt64
  dependsOn : Option Bytes32
  nonce : UInt64
  reserved : Reserved
  signature : Bytes
  deriving DecidableEq, Repr

/-- `workshare.TxGas`. -/
def TxGas : UInt64 := 5000

/-- `workshare.ClauseGas`: go-ethereum's `TxGas` less ours. -/
def ClauseGas : UInt64 := 21000 - TxGas

/-- `workshare.ClauseGasContractCreation`: go-ethereum's `TxGasContractCreation` less `TxGas`. -/
def ClauseGasContractCreation : UInt64 := 53000 - TxGas

/-- go-ethereum's `TxDataZeroGas`. -/
def TxDataZeroGas : UInt64 := 4

/-- go-ethereum's `TxDataNonZeroGas`. -/
def TxDataNonZeroGas : UInt64 := 68

/-- `math.SafeAdd`: the sum, unless it overflows. -/
def safeAdd (x y : UInt64) : Option UInt64 :=
  if x.toNat + y.toNat < 2 ^ 64 then some (x + y) else none

/-- `math.SafeMul`: the product, unless it overflows. -/
def safeMul (x y : UInt64) : Option UInt64 :=
  if x.toNat * y.toNat < 2 ^ 64 then some (x * y) else none

/-- `dataGas`: four gas a zero byte and sixty-eight a non-zero one. -/
def dataGas (data : Bytes) : Except String UInt64 :=
  if data.length = 0 then .ok 0
  else
    let z := (data.filter (· == 0)).length.toUInt64
    let nz := (data.filter (· != 0)).length.toUInt64
    match safeMul TxDataZeroGas z, safeMul TxDataNonZeroGas nz with
    | some zgas, some nzgas =>
      match safeAdd zgas nzgas with
      | some gas => .ok gas
      | none => .error "intrinsic gas overflow"
    | _, _ => .error "intrinsic gas overflow"

/-- `IntrinsicGas`: `TxGas`, then each clause's data gas and clause gas. -/
def intrinsicGas (clauses : List Clause) : Except String UInt64 :=
  if clauses.length = 0 then .ok (TxGas + ClauseGas)
  else
    clauses.foldlM (fun total c =>
      (dataGas c.data).bind fun gas =>
      match safeAdd total gas with
      | none => .error "intrinsic gas overflow"
      | some total =>
        let cgas := if c.«to».isNone then ClauseGasContractCreation else ClauseGas
        match safeAdd total cgas with
        | none => .error "intrinsic gas overflow"
        | some total => .ok total) TxGas

/-- One clause's turn of the loop of `IntrinsicGas`: its data gas, then its
clause gas, each added with the overflow test. -/
def intrinsicGasStep (total : UInt64) (c : Clause) : Except String UInt64 :=
  (dataGas c.data).bind fun gas =>
  match safeAdd total gas with
  | none => .error "intrinsic gas overflow"
  | some total =>
    let cgas := if c.«to».isNone then ClauseGasContractCreation else ClauseGas
    match safeAdd total cgas with
    | none => .error "intrinsic gas overflow"
    | some total => .ok total

theorem intrinsicGas_eq_foldlM (clauses : List Clause) :
    intrinsicGas clauses =
      if clauses.length = 0 then .ok (TxGas + ClauseGas) else clauses.foldlM intrinsicGasStep TxGas :=
  rfl

/-- The gas of one clause over the naturals: four a zero byte of data,
sixty-eight a non-zero one, and the gas of a call or of a creation. -/
def clauseGas (c : Clause) : ℕ :=
  TxDataZeroGas.toNat * (c.data.filter (· == 0)).length +
    TxDataNonZeroGas.toNat * (c.data.filter (· != 0)).length +
    (if c.«to».isNone then ClauseGasContractCreation.toNat else ClauseGas.toNat)

theorem safeAdd_eq (x y : UInt64) :
    safeAdd x y = if x.toNat + y.toNat < 2 ^ 64 then some (UInt64.ofNat (x.toNat + y.toNat)) else none := by
  unfold safeAdd
  split_ifs with h
  · rw [UInt64.ofNat_add, UInt64.ofNat_toNat, UInt64.ofNat_toNat]
  · rfl

theorem safeMul_eq (x y : UInt64) :
    safeMul x y = if x.toNat * y.toNat < 2 ^ 64 then some (UInt64.ofNat (x.toNat * y.toNat)) else none := by
  unfold safeMul
  split_ifs with h
  · rw [UInt64.ofNat_mul, UInt64.ofNat_toNat, UInt64.ofNat_toNat]
  · rfl

/-- `dataGas` is the exact data gas, or the overflow error when that does not
fit in a `uint64`: an overflow of either product means one of the sum. -/
theorem dataGas_eq {data : Bytes} (h : data.length < 2 ^ 64) :
    dataGas data =
      let g := TxDataZeroGas.toNat * (data.filter (· == 0)).length +
        TxDataNonZeroGas.toNat * (data.filter (· != 0)).length
      if g < 2 ^ 64 then .ok (UInt64.ofNat g) else .error "intrinsic gas overflow" := by
  have hz : (data.filter (· == 0)).length ≤ data.length := List.length_filter_le _ _
  have hnz : (data.filter (· != 0)).length ≤ data.length := List.length_filter_le _ _
  unfold dataGas
  split_ifs with h0
  · -- no data: both counts are zero
    have hnil := List.eq_nil_of_length_eq_zero h0
    subst hnil
    simp
  dsimp only
  rw [safeMul_eq, safeMul_eq, UInt64.toNat_ofNat_of_lt' (by rw [UInt64.size]; omega),
    UInt64.toNat_ofNat_of_lt' (by rw [UInt64.size]; omega)]
  generalize (data.filter (· == 0)).length = z at *
  generalize (data.filter (· != 0)).length = nz at *
  rw [show TxDataZeroGas.toNat = 4 from rfl, show TxDataNonZeroGas.toNat = 68 from rfl]
  by_cases hz' : 4 * z < 2 ^ 64
  · by_cases hnz' : 68 * nz < 2 ^ 64
    · rw [if_pos hz', if_pos hnz']
      dsimp only
      rw [safeAdd_eq, UInt64.toNat_ofNat_of_lt' hz', UInt64.toNat_ofNat_of_lt' hnz']
      split_ifs <;> rfl
    · -- the product overflows, and so does the sum
      rw [if_pos hz', if_neg hnz', if_neg (show ¬ 4 * z + 68 * nz < 2 ^ 64 by omega)]
  · rw [if_neg hz', if_neg (show ¬ 4 * z + 68 * nz < 2 ^ 64 by omega)]

theorem clauseGas_cgas_toNat (c : Clause) :
    (if c.«to».isNone then ClauseGasContractCreation else ClauseGas).toNat =
      if c.«to».isNone then ClauseGasContractCreation.toNat else ClauseGas.toNat := by
  split <;> rfl

/-- One turn of the loop adds the clause's gas to the total, or fails when the
sum does not fit in a `uint64`. -/
theorem intrinsicGasStep_eq (total : UInt64) {c : Clause} (h : c.data.length < 2 ^ 64) :
    intrinsicGasStep total c =
      if total.toNat + clauseGas c < 2 ^ 64 then .ok (UInt64.ofNat (total.toNat + clauseGas c))
      else .error "intrinsic gas overflow" := by
  unfold intrinsicGasStep clauseGas
  rw [dataGas_eq h]
  dsimp only
  rw [← clauseGas_cgas_toNat]
  generalize TxDataZeroGas.toNat * (c.data.filter (· == 0)).length +
    TxDataNonZeroGas.toNat * (c.data.filter (· != 0)).length = g
  generalize (if c.«to».isNone then ClauseGasContractCreation else ClauseGas) = cgas
  have ht := total.toNat_lt
  by_cases hg : g < 2 ^ 64
  · rw [if_pos hg, Except.bind, safeAdd_eq, UInt64.toNat_ofNat_of_lt' hg]
    by_cases h₁ : total.toNat + g < 2 ^ 64
    · rw [if_pos h₁]
      dsimp only
      rw [safeAdd_eq, UInt64.toNat_ofNat_of_lt' h₁, Nat.add_assoc]
      split_ifs <;> rfl
    · -- the data gas already overflows the total
      rw [if_neg h₁, if_neg (show ¬ total.toNat + (g + cgas.toNat) < 2 ^ 64 by omega)]
  · rw [if_neg hg, if_neg (show ¬ total.toNat + (g + cgas.toNat) < 2 ^ 64 by omega)]
    rfl

/-- The loop of `IntrinsicGas` is exact as long as the running total fits: its
partial sums only grow, so an overflow on the way is an overflow of the sum. -/
theorem foldlM_intrinsicGasStep (clauses : List Clause) (h : ∀ c ∈ clauses, c.data.length < 2 ^ 64)
    (total : UInt64) :
    clauses.foldlM intrinsicGasStep total =
      if total.toNat + (clauses.map clauseGas).sum < 2 ^ 64 then
        .ok (UInt64.ofNat (total.toNat + (clauses.map clauseGas).sum))
      else .error "intrinsic gas overflow" := by
  induction clauses generalizing total with
  | nil =>
    rw [List.foldlM_nil, List.map_nil, List.sum_nil, Nat.add_zero, if_pos total.toNat_lt,
      UInt64.ofNat_toNat]
    rfl
  | cons c cs ih =>
    have hcs : ∀ c ∈ cs, c.data.length < 2 ^ 64 := fun c hc => h c (List.mem_cons_of_mem _ hc)
    rw [List.foldlM_cons, intrinsicGasStep_eq total (h c List.mem_cons_self), List.map_cons, List.sum_cons]
    by_cases h₁ : total.toNat + clauseGas c < 2 ^ 64
    · rw [if_pos h₁]
      show cs.foldlM intrinsicGasStep (UInt64.ofNat (total.toNat + clauseGas c)) = _
      rw [ih hcs, UInt64.toNat_ofNat_of_lt' h₁, Nat.add_assoc]
    · rw [if_neg h₁, if_neg (by omega)]
      rfl

/-- `IntrinsicGas` is the exact sum of `TxGas` and the gas of every clause when
that fits in a `uint64`, and the overflow error otherwise; no clause at all
costs `TxGas + ClauseGas`. -/
theorem intrinsicGas_exact (clauses : List Clause) (h : ∀ c ∈ clauses, c.data.length < 2 ^ 64) :
    intrinsicGas clauses =
      if clauses = [] then .ok (TxGas + ClauseGas)
      else if TxGas.toNat + (clauses.map clauseGas).sum ≤ 2 ^ 64 - 1 then
        .ok (UInt64.ofNat (TxGas.toNat + (clauses.map clauseGas).sum))
      else .error "intrinsic gas overflow" := by
  rw [intrinsicGas_eq_foldlM]
  by_cases hnil : clauses = []
  · subst hnil
    rfl
  rw [if_neg (by simpa using hnil), if_neg hnil, foldlM_intrinsicGasStep clauses h]
  by_cases hs : TxGas.toNat + (clauses.map clauseGas).sum < 2 ^ 64
  · rw [if_pos hs, if_pos (by omega)]
  · rw [if_neg hs, if_neg (by omega)]

theorem intrinsicGas_exact_creation : intrinsicGas [⟨none, 0, [0, 1]⟩] = .ok 53072 := by
  rw [intrinsicGas_exact _ (by decide)]
  rfl

namespace Transaction

/-- `BlockRef().Number()`: the first four bytes of the block reference. -/
def blockRefNumber (t : Transaction) : UInt32 := (t.blockRef >>> 32).toUInt32

/-- `IsExpired`, compared in `uint64` so that the sum cannot overflow. -/
def isExpired (t : Transaction) (blockNum : UInt32) : Bool :=
  blockNum.toNat > t.blockRefNumber.toNat + t.expiration.toNat

/-- `TestFeatures`. -/
def testFeatures (t : Transaction) (supported : UInt32) : Except String Unit :=
  if t.reserved.features &&& supported ≠ t.reserved.features then .error "unsupported features"
  else if t.reserved.unused.length > 0 then .error "unused reserved slot"
  else .ok ()

/-- `Features().IsDelegated()`. -/
def isDelegated (t : Transaction) : Bool := t.reserved.features &&& 1 == 1

/-- `GasPrice`: the base gas price raised by `gasPriceCoef / 255` of itself. -/
def gasPrice (t : Transaction) (baseGasPrice : ℤ) : ℤ :=
  t.gasPriceCoef.toNat * baseGasPrice / 255 + baseGasPrice

theorem gasPrice_nonneg (t : Transaction) {baseGasPrice : ℤ} (h : 0 ≤ baseGasPrice) :
    0 ≤ t.gasPrice baseGasPrice := by
  have hdiv : 0 ≤ (t.gasPriceCoef.toNat : ℤ) * baseGasPrice / 255 :=
    Int.ediv_nonneg (Int.mul_nonneg (by omega) h) (by decide)
  unfold gasPrice
  omega

end Transaction

/-- `tx.Output`: what one clause logged. -/
structure Output where
  events : List Event
  transfers : List Transfer
  deriving DecidableEq, Repr

/-- `tx.Receipt`. -/
structure Receipt where
  gasUsed : UInt64
  gasPayer : Address
  paid : ℤ
  reward : ℤ
  reverted : Bool
  outputs : List Output
  deriving DecidableEq, Repr

end Workshare
