import Workshare.Runtime.ResolvedTx
import Workshare.State.Checkpoint

/-!
# Executing a transaction clause by clause

`PrepareTransaction` resolves the transaction, buys its gas, builds the
transaction context and takes a checkpoint. The `TransactionExecutor` it
returns runs the clauses one at a time and settles at `Finalize`. Its closures
share four variables (the gas left, the outputs so far, and the reverted and
finalized flags), kept here beside the state as an `Executor`.

A clause is executed by the EVM; here its execution is given as the output it
returns and the state operations it performs. When a clause hands back at most
the gas it was given and reverts only levels it pushed itself, the gas left
never grows, each `uint64` subtraction and sum of the executor is exact, and a
VM error puts the state back where `BuyGas` left it.
-/
namespace Workshare

/-- The part of `vm.Output` the executor reads. -/
structure ClauseOutput where
  events : List Event
  transfers : List Transfer
  leftOverGas : UInt64
  refundGas : UInt64
  vmErr : Option String

/-- `xenv.TransactionContext`. -/
structure TxContext where
  id : Bytes32
  origin : Address
  gasPayer : Address
  gasPrice : ℤ
  provedWork : ℕ
  blockRef : UInt64
  expiration : UInt32

/-- `workshare.MaxTxWorkDelay`: blocks after its reference a transaction's work still counts. -/
def MaxTxWorkDelay : UInt32 := 30

/-- `workPerGas`. -/
def workPerGas : ℕ := 1000

/-- `workToGas`: work bought as gas, the rate falling to `100/104` of itself
each month of blocks, and capped at the largest `uint64`. -/
def workToGas (work : ℕ) (blockNum : UInt32) : UInt64 :=
  let gas := work / workPerGas
  if gas = 0 then 0
  else
    let months := blockNum.toNat * BlockInterval / 3600 / 24 / 30
    let gas := if months ≠ 0 then gas * 100 ^ months / 104 ^ months else gas
    if 2 ^ 64 ≤ gas then 0xFFFFFFFFFFFFFFFF else gas.toUInt64

/-- A block reference as its eight big-endian bytes. -/
def blockRefBytes (ref : UInt64) : Bytes :=
  (List.range 8).reverse.map fun i => (ref.toNat / 256 ^ i % 256).toUInt8

namespace Transaction

/-- `ProvedWork`: the unproved work, when the reference names a block of the
chain at most `MaxTxWorkDelay` blocks below the head. -/
def provedWork (t : Transaction) (headBlockNum : UInt32) (getBlockID : UInt32 → Except String Bytes32)
    (unprovedWork : ℕ) : Except String ℕ :=
  let refNum := t.blockRefNumber
  if refNum ≥ headBlockNum then .ok 0
  else if headBlockNum - refNum > MaxTxWorkDelay then .ok 0
  else
    (getBlockID refNum).map fun id => if (blockRefBytes t.blockRef).isPrefixOf id.toList then unprovedWork else 0

/-- `OverallGasPrice`: the gas price, plus the base gas price on the share of
the gas the proved work pays for. The gas of a resolved transaction is never
zero, where the source would divide by it. -/
def overallGasPrice (t : Transaction) (baseGasPrice : ℤ) (provedWork : ℕ) : ℤ :=
  let gasPrice := t.gasPrice baseGasPrice
  if provedWork = 0 then gasPrice
  else
    let wgas := workToGas provedWork t.blockRefNumber
    if wgas = 0 then gasPrice
    else
      let wgas := if wgas > t.gas then t.gas else wgas
      wgas.toNat * baseGasPrice / t.gas.toNat + gasPrice

end Transaction

/-- What the runtime's execution of a transaction reads besides the state: the
signature recovery, the hashes, the block's number, time and beneficiary, the
chain's block ids, a transaction's id and unproved work, and `PrepareClause`'s
execution of a clause, as the output it returns and the state operations it
performs. -/
structure Runtime where
  signer : Signer
  blake2b : Bytes → Bytes32
  keccak256 : Bytes → Bytes
  number : UInt32
  time : UInt64
  beneficiary : Address
  getBlockID : UInt32 → Except String Bytes32
  txID : Transaction → Bytes32
  unprovedWork : Transaction → ℕ
  execClause : TxContext → Clause → UInt32 → UInt64 → State → Except String ClauseOutput × List StateOp

/-- A fallible pure step of the runtime. -/
def liftExcept {σ α : Type} (x : Except String α) : EStateM RuntimeError σ α :=
  match x with
  | .ok a => pure a
  | .error e => throw (.other e)

/-- `ToContext`. -/
def ResolvedTransaction.toContext (r : ResolvedTransaction) (gasPrice : ℤ) (gasPayer : Address)
    (blockNumber : UInt32) (getBlockID : UInt32 → Except String Bytes32) (txID : Bytes32)
    (unprovedWork : ℕ) : Except String TxContext :=
  (r.tx.provedWork blockNumber getBlockID unprovedWork).map fun provedWork =>
    ⟨txID, r.origin, gasPayer, gasPrice, provedWork, r.tx.blockRef, r.tx.expiration⟩

/-- What the executor's closures capture from `PrepareTransaction`. -/
structure Prepared where
  resolvedTx : ResolvedTransaction
  bought : Bought
  txCtx : TxContext
  checkpoint : ℕ

/-- The variables the executor's closures share. -/
structure Executor where
  leftOverGas : UInt64
  txOutputs : List Output
  reverted : Bool
  finalized : Bool

/-- `HasNextClause`. -/
def Prepared.hasNextClause (p : Prepared) (e : Executor) : Bool :=
  !e.reverted && e.txOutputs.length < p.resolvedTx.clauses.length

/-- A computation of the runtime over the state and the executor's variables. -/
abbrev ExecM (α : Type) := EStateM RuntimeError (State × Executor) α

/-- A computation of the state alone, inside the executor. -/
def onState {α : Type} (m : EStateM RuntimeError State α) : ExecM α := fun σ =>
  match m σ.1 with
  | .ok a s => .ok a (s, σ.2)
  | .error e s => .error e (s, σ.2)

/-- The executor's variables. -/
def getExecutor : ExecM Executor := fun σ => .ok σ.2 σ

/-- Assign the executor's variables. -/
def setExecutor (e : Executor) : ExecM Unit := fun σ => .ok () (σ.1, e)

/-- The configuration a call leaves, whether it failed or not. -/
def afterCall {α : Type} : EStateM.Result RuntimeError (State × Executor) α → State × Executor
  | .ok _ σ => σ
  | .error _ σ => σ

@[simp] theorem onState_eq_ok_iff {α : Type} {m : EStateM RuntimeError State α} {σ σ' : State × Executor}
    {a : α} : onState m σ = .ok a σ' ↔ m σ.1 = .ok a σ'.1 ∧ σ'.2 = σ.2 := by
  unfold onState
  cases m σ.1 <;> simp [Prod.ext_iff, eq_comm, and_assoc]

@[simp] theorem onState_eq_error_iff {α : Type} {m : EStateM RuntimeError State α} {σ σ' : State × Executor}
    {err : RuntimeError} : onState m σ = .error err σ' ↔ m σ.1 = .error err σ'.1 ∧ σ'.2 = σ.2 := by
  unfold onState
  cases m σ.1 <;> simp [Prod.ext_iff, eq_comm, and_assoc]

@[simp] theorem getExecutor_apply (σ : State × Executor) : getExecutor σ = .ok σ.2 σ := rfl

@[simp] theorem setExecutor_apply (e : Executor) (σ : State × Executor) :
    setExecutor e σ = .ok () (σ.1, e) := rfl

@[simp] theorem liftExcept_eq_ok_iff {σ α : Type} {x : Except String α} {s s' : σ} {a : α} :
    liftExcept x s = .ok a s' ↔ x = .ok a ∧ s = s' := by
  unfold liftExcept
  cases x <;> simp [EStateM.throw_apply]

@[simp] theorem afterCall_onState {α : Type} (m : EStateM RuntimeError State α) (σ : State × Executor) :
    (afterCall (onState m σ)).2 = σ.2 := by
  unfold onState
  cases m σ.1 <;> rfl

namespace Runtime

/-- What the executor asks of a clause's execution: it hands back at most the
gas it is given, and reverts no level below the one it starts at, as the EVM
reverts only to the snapshots it takes itself. -/
structure ClauseContract (rt : Runtime) : Prop where
  leftOverGas_le : ∀ txCtx clause index gas s output,
    (rt.execClause txCtx clause index gas s).1 = .ok output → output.leftOverGas ≤ gas
  revertTo_ge : ∀ txCtx clause index gas s x,
    StateOp.revertTo x ∈ (rt.execClause txCtx clause index gas s).2 → s.sm.mapStack.length ≤ x

variable (rt : Runtime)

/-- `PrepareClause` and its execution on the state. -/
def execute (txCtx : TxContext) (clause : Clause) (index : UInt32) (gas : UInt64) :
    EStateM RuntimeError State ClauseOutput := fun s =>
  let (result, ops) := rt.execClause txCtx clause index gas s
  let s := StateOp.run rt.keccak256 s ops
  match result with
  | .ok output => .ok output s
  | .error e => .error (.other e) s

/-- The clause at an index, which the source reads past the end with a panic. -/
def clauseAt (clauses : List Clause) (index : UInt32) : EStateM RuntimeError State Clause :=
  match clauses[index.toNat]? with
  | some clause => pure clause
  | none => throw (.other "clause index out of range")

/-- `PrepareTransaction`. -/
def prepareTransaction (tx : Transaction) : EStateM RuntimeError State (Prepared × Executor) := do
  let resolvedTx ← liftExcept (resolveTransaction rt.signer tx)
  let bought ← resolvedTx.buyGas rt.blake2b rt.time
  let txCtx ← liftExcept (resolvedTx.toContext bought.gasPrice bought.payer rt.number rt.getBlockID
    (rt.txID tx) (rt.unprovedWork tx))
  -- `ResolveTransaction` has checked that the gas covers the intrinsic gas
  let leftOverGas := tx.gas - resolvedTx.intrinsicGas
  let checkpoint ← liftMethod newCheckpoint
  pure (⟨resolvedTx, bought, txCtx, checkpoint⟩, ⟨leftOverGas, [], false, false⟩)

variable (p : Prepared)

/-- `NextClause`: the gas the clause used and its output. -/
def nextClause : ExecM (UInt64 × ClauseOutput) := do
  let e ← getExecutor
  let nextClauseIndex := e.txOutputs.length.toUInt32
  let clause ← onState (clauseAt p.resolvedTx.clauses nextClauseIndex)
  let output ← onState (rt.execute p.txCtx clause nextClauseIndex e.leftOverGas)
  let gasUsed := e.leftOverGas - output.leftOverGas
  -- the refund counter, capped to half of the gas used
  let refund := if gasUsed / 2 > output.refundGas then output.refundGas else gasUsed / 2
  let leftOverGas := output.leftOverGas + refund
  match output.vmErr with
  | some _ =>
    onState (liftMethod (revertTo p.checkpoint))
    setExecutor { e with leftOverGas, reverted := true, txOutputs := [] }
    pure (gasUsed, output)
  | none =>
    setExecutor { e with leftOverGas, txOutputs := e.txOutputs ++ [⟨output.events, output.transfers⟩] }
    pure (gasUsed, output)

/-- `Finalize`: the receipt, after the gas left is returned to the payer and
the beneficiary is rewarded. -/
def finalize : ExecM Receipt := do
  let e ← getExecutor
  if p.hasNextClause e then throw (.other "not all clauses processed")
  else if e.finalized then throw (.other "already finalized")
  else do
    setExecutor { e with finalized := true }
    let tx := p.resolvedTx.tx
    let gasUsed := tx.gas - e.leftOverGas
    let receipt : Receipt := ⟨gasUsed, p.bought.payer, gasUsed.toNat * p.bought.gasPrice, 0, e.reverted, e.txOutputs⟩
    onState do
      liftMethod (p.bought.returnGas e.leftOverGas)
      let rewardRatio ← liftMethod (readOnly (Params.get · KeyRewardRatio))
      let provedWork ← liftExcept (tx.provedWork (rt.number - 1) rt.getBlockID (rt.unprovedWork tx))
      let overallGasPrice := tx.overallGasPrice p.bought.baseGasPrice provedWork
      let reward := gasUsed.toNat * overallGasPrice * rewardRatio / 10 ^ 18
      liftMethod (Energy.add rt.blake2b rt.time.toNat rt.beneficiary reward)
      pure { receipt with reward }

/-- The loop of `ExecuteTransaction`, given a bound on its turns: the next
clause while there is one. -/
def runClauses : ℕ → ExecM Unit
  | 0 => pure ()
  | fuel + 1 => do
    let e ← getExecutor
    if p.hasNextClause e then do
      let _ ← rt.nextClause p
      runClauses fuel
    else pure ()

/-- `ExecuteTransaction`. Each turn of its loop runs one clause or ends it, so
as many turns as clauses suffice. -/
def executeTransaction (tx : Transaction) : EStateM RuntimeError State Receipt := do
  let (p, e) ← rt.prepareTransaction tx
  fun s => match (do rt.runClauses p p.resolvedTx.clauses.length; rt.finalize p) (s, e) with
    | .ok receipt σ => .ok receipt σ.1
    | .error err σ => .error err σ.1

/-- The configurations of an executor prepared on `s₀` with the captures `p`:
a clause runs while there is a next one, as `ExecuteTransaction` runs them,
and `Finalize` may be called at any point. -/
inductive Reachable (rt : Runtime) (tx : Transaction) (s₀ : State) (p : Prepared) :
    State × Executor → Prop
  | prepare {s : State} {e : Executor} : rt.prepareTransaction tx s₀ = .ok (p, e) s →
      Reachable rt tx s₀ p (s, e)
  | nextClause {σ : State × Executor} : Reachable rt tx s₀ p σ → p.hasNextClause σ.2 = true →
      Reachable rt tx s₀ p (afterCall (rt.nextClause p σ))
  | finalize {σ : State × Executor} : Reachable rt tx s₀ p σ →
      Reachable rt tx s₀ p (afterCall (rt.finalize p σ))

variable {rt p}

theorem clauseAt_eq_ok {clauses : List Clause} {index : UInt32} {s s' : State} {clause : Clause} :
    clauseAt clauses index s = .ok clause s' ↔ clauses[index.toNat]? = some clause ∧ s' = s := by
  unfold clauseAt
  cases clauses[index.toNat]? <;> simp [EStateM.throw_apply, eq_comm]

theorem clauseAt_eq_error {clauses : List Clause} {index : UInt32} {s s' : State} {err : RuntimeError}
    (h : clauseAt clauses index s = .error err s') : s' = s := by
  unfold clauseAt at h
  rcases hx : clauses[index.toNat]? with _ | clause <;> rw [hx] at h
  · simp only [EStateM.throw_apply, EStateM.Result.error.injEq] at h
    exact h.2.symm
  · cases h

theorem execute_eq_ok_iff {txCtx : TxContext} {clause : Clause} {index : UInt32} {gas : UInt64}
    {s s' : State} {output : ClauseOutput} :
    rt.execute txCtx clause index gas s = .ok output s' ↔
      (rt.execClause txCtx clause index gas s).1 = .ok output ∧
      StateOp.run rt.keccak256 s (rt.execClause txCtx clause index gas s).2 = s' := by
  unfold execute
  rcases rt.execClause txCtx clause index gas s with ⟨_ | output', ops⟩ <;> simp

theorem execute_eq_error {txCtx : TxContext} {clause : Clause} {index : UInt32} {gas : UInt64}
    {s s' : State} {err : RuntimeError} (h : rt.execute txCtx clause index gas s = .error err s') :
    s' = StateOp.run rt.keccak256 s (rt.execClause txCtx clause index gas s).2 := by
  unfold execute at h
  rcases hx : rt.execClause txCtx clause index gas s with ⟨_ | output', ops⟩ <;> simp_all

/-- A clause that hands back at most the gas it was given used the difference,
and the refund, at most half of that, keeps the gas left within what it was:
neither the subtraction nor the sum wraps. -/
theorem refund_exact {left out refundGas : UInt64} (h : out ≤ left) :
    (left - out).toNat + out.toNat = left.toNat ∧
    (out + (if (left - out) / 2 > refundGas then refundGas else (left - out) / 2)).toNat =
      out.toNat + min ((left - out).toNat / 2) refundGas.toNat ∧
    out.toNat + min ((left - out).toNat / 2) refundGas.toNat ≤ left.toNat := by
  have hle := UInt64.le_iff_toNat_le.mp h
  have hsub : (left - out).toNat = left.toNat - out.toNat := UInt64.toNat_sub_of_le left out h
  have hhalf : ((left - out) / 2).toNat = (left - out).toNat / 2 := UInt64.toNat_div _ _
  have hlt := left.toNat_lt
  refine ⟨by omega, ?_, by omega⟩
  split
  · rename_i hgt
    have hgt' := UInt64.lt_iff_toNat_lt.mp hgt
    rw [UInt64.toNat_add, Nat.mod_eq_of_lt (by omega)]
    omega
  · rename_i hgt
    have hgt' : ¬ refundGas.toNat < ((left - out) / 2).toNat := fun h' => hgt (UInt64.lt_iff_toNat_lt.mpr h')
    rw [UInt64.toNat_add, Nat.mod_eq_of_lt (by omega)]
    omega

/-- What a clause run by `NextClause` did: the clause at the next index was
executed with the gas left, the gas it used and the gas left after its refund
are computed from its output, and a VM error reverts to the checkpoint while
any other output is appended. -/
theorem nextClause_eq_ok {σ σ' : State × Executor} {gasUsed : UInt64} {output : ClauseOutput}
    (h : rt.nextClause p σ = .ok (gasUsed, output) σ') :
    ∃ clause, p.resolvedTx.clauses[σ.2.txOutputs.length.toUInt32.toNat]? = some clause ∧
      (rt.execClause p.txCtx clause σ.2.txOutputs.length.toUInt32 σ.2.leftOverGas σ.1).1 = .ok output ∧
      gasUsed = σ.2.leftOverGas - output.leftOverGas ∧
      σ'.2.leftOverGas = output.leftOverGas +
        (if gasUsed / 2 > output.refundGas then output.refundGas else gasUsed / 2) ∧
      σ'.2.finalized = σ.2.finalized ∧
      (match output.vmErr with
      | some _ => σ'.2.reverted = true ∧ σ'.2.txOutputs = [] ∧
          revertTo p.checkpoint (StateOp.run rt.keccak256 σ.1
            (rt.execClause p.txCtx clause σ.2.txOutputs.length.toUInt32 σ.2.leftOverGas σ.1).2) = .ok () σ'.1
      | none => σ'.2.reverted = σ.2.reverted ∧
          σ'.2.txOutputs = σ.2.txOutputs ++ [⟨output.events, output.transfers⟩] ∧
          σ'.1 = StateOp.run rt.keccak256 σ.1
            (rt.execClause p.txCtx clause σ.2.txOutputs.length.toUInt32 σ.2.leftOverGas σ.1).2) := by
  obtain ⟨s, e⟩ := σ
  simp only [nextClause, EStateM.bind_eq_ok_iff, getExecutor_apply, onState_eq_ok_iff,
    EStateM.Result.ok.injEq] at h
  obtain ⟨_, _, ⟨rfl, rfl⟩, clause, σ₁, ⟨hclause, he₁⟩, output', σ₂, ⟨hexec, he₂⟩, h⟩ := h
  obtain ⟨hc, hs₁⟩ := clauseAt_eq_ok.mp hclause
  rw [execute_eq_ok_iff, hs₁] at hexec
  obtain ⟨hout, hs₂⟩ := hexec
  refine ⟨clause, hc, ?_⟩
  cases hv : output'.vmErr with
  | some msg =>
    simp only [hv, EStateM.bind_eq_ok_iff, onState_eq_ok_iff, ResolvedTransaction.liftMethod_eq_ok_iff,
      setExecutor_apply, EStateM.pure_apply, EStateM.Result.ok.injEq, Prod.mk.injEq] at h
    obtain ⟨_, σ₃, ⟨hrev, -⟩, _, _, ⟨-, rfl⟩, ⟨rfl, rfl⟩, rfl⟩ := h
    refine ⟨hout, rfl, rfl, rfl, ?_⟩
    simp only [hv, true_and]
    rw [hs₂]
    exact hrev
  | none =>
    simp only [hv, EStateM.bind_eq_ok_iff, setExecutor_apply, EStateM.pure_apply, EStateM.Result.ok.injEq,
      Prod.mk.injEq] at h
    obtain ⟨_, _, ⟨-, rfl⟩, ⟨rfl, rfl⟩, rfl⟩ := h
    refine ⟨hout, rfl, rfl, rfl, ?_⟩
    simp only [hv, true_and]
    exact hs₂.symm


/-- A `NextClause` that fails leaves the executor's variables as they were,
and the state with at most the operations of the clause's execution. -/
theorem nextClause_eq_error {σ σ' : State × Executor} {err : RuntimeError}
    (h : rt.nextClause p σ = .error err σ') :
    σ'.2 = σ.2 ∧ ∃ ops : List StateOp, (ops = [] ∨ ∃ clause, ops =
      (rt.execClause p.txCtx clause σ.2.txOutputs.length.toUInt32 σ.2.leftOverGas σ.1).2) ∧
      σ'.1 = StateOp.run rt.keccak256 σ.1 ops := by
  obtain ⟨s, e⟩ := σ
  simp only [nextClause, EStateM.bind_eq_error_iff, getExecutor_apply, onState_eq_ok_iff,
    onState_eq_error_iff, EStateM.Result.ok.injEq] at h
  rcases h with h | ⟨_, _, ⟨rfl, rfl⟩, ⟨hclause, he⟩ | ⟨clause, σ₁, ⟨hclause, he₁⟩, ⟨hexec, he⟩ | ⟨output, σ₂, -, h⟩⟩⟩
  · cases h
  · -- no clause at the index: nothing was written
    exact ⟨he, [], .inl rfl, clauseAt_eq_error hclause⟩
  · -- the execution failed after its operations
    obtain ⟨-, hs₁⟩ := clauseAt_eq_ok.mp hclause
    refine ⟨he.trans he₁, _, .inr ⟨clause, rfl⟩, ?_⟩
    rw [execute_eq_error hexec, hs₁]
  · -- what follows a completed execution cannot fail
    cases hv : output.vmErr <;> simp only [hv] at h <;> cases h

/-- What a `Finalize` that returns did: with no clause left and not finalized
before, it marks the executor finalized, returns the gas left to the payer,
rewards the beneficiary, and builds the receipt from the gas used. -/
theorem finalize_eq_ok {σ σ' : State × Executor} {receipt : Receipt}
    (h : rt.finalize p σ = .ok receipt σ') :
    p.hasNextClause σ.2 = false ∧ σ.2.finalized = false ∧ σ'.2 = { σ.2 with finalized := true } ∧
      receipt.gasUsed = p.resolvedTx.tx.gas - σ.2.leftOverGas ∧ receipt.gasPayer = p.bought.payer ∧
      receipt.paid = receipt.gasUsed.toNat * p.bought.gasPrice ∧ receipt.reverted = σ.2.reverted ∧
      receipt.outputs = σ.2.txOutputs ∧
      ∃ s₁ rewardRatio provedWork, p.bought.returnGas σ.2.leftOverGas σ.1 = .ok () s₁ ∧
        Params.get s₁ KeyRewardRatio = .ok rewardRatio ∧
        p.resolvedTx.tx.provedWork (rt.number - 1) rt.getBlockID (rt.unprovedWork p.resolvedTx.tx) = .ok provedWork ∧
        receipt.reward = receipt.gasUsed.toNat *
          p.resolvedTx.tx.overallGasPrice p.bought.baseGasPrice provedWork * rewardRatio / 10 ^ 18 ∧
        Energy.add rt.blake2b rt.time.toNat rt.beneficiary receipt.reward s₁ = .ok () σ'.1 := by
  obtain ⟨s, e⟩ := σ
  simp only [finalize, EStateM.bind_eq_ok_iff, getExecutor_apply, EStateM.Result.ok.injEq] at h
  obtain ⟨_, _, ⟨rfl, rfl⟩, h⟩ := h
  cases hn : p.hasNextClause e
  · cases hf : e.finalized
    · simp only [hn, hf, Bool.false_eq_true, if_false, EStateM.bind_eq_ok_iff, setExecutor_apply,
        EStateM.Result.ok.injEq, onState_eq_ok_iff, ResolvedTransaction.liftMethod_eq_ok_iff,
        readOnly_eq_ok_iff, liftExcept_eq_ok_iff, EStateM.pure_apply] at h
      obtain ⟨_, _, ⟨-, rfl⟩, ⟨_, s₁, hret, ratio, _, ⟨hratio, rfl⟩, work, _, ⟨hwork, rfl⟩, _, _, hadd,
        rfl, rfl⟩, he'⟩ := h
      exact ⟨rfl, rfl, he', rfl, rfl, rfl, rfl, rfl, s₁, ratio, work, hret, hratio, hwork, rfl, hadd⟩
    · simp [hn, hf, EStateM.throw_apply] at h
  · simp [hn, EStateM.throw_apply] at h

/-- `Finalize` changes no variable of the executor but its finalized flag,
and nothing at all while a clause remains. -/
theorem finalize_afterCall (σ : State × Executor) :
    (∃ finalized, (afterCall (rt.finalize p σ)).2 = { σ.2 with finalized }) ∧
      (p.hasNextClause σ.2 = true → afterCall (rt.finalize p σ) = σ) := by
  obtain ⟨s, e⟩ := σ
  cases hn : p.hasNextClause e
  · refine ⟨?_, fun h => absurd h Bool.false_ne_true⟩
    cases hf : e.finalized
    · refine ⟨true, ?_⟩
      simp only [finalize, EStateM.bind_apply, getExecutor_apply, hn, hf, Bool.false_eq_true, if_false,
        setExecutor_apply, afterCall_onState]
    · have hsame : afterCall (rt.finalize p (s, e)) = (s, e) := by
        simp [finalize, EStateM.bind_apply, hn, hf, afterCall]
      exact ⟨e.finalized, by rw [hsame]⟩
  · have hsame : afterCall (rt.finalize p (s, e)) = (s, e) := by
      simp [finalize, EStateM.bind_apply, hn, afterCall]
    exact ⟨⟨e.finalized, by rw [hsame]⟩, fun _ => hsame⟩

/-- What a `PrepareTransaction` that returns did: it resolved the transaction,
bought its gas, and took a checkpoint on the state `BuyGas` left, with the gas
left at the transaction's gas less the intrinsic gas. -/
theorem prepareTransaction_eq_ok {tx : Transaction} {s₀ s : State} {e : Executor}
    (h : rt.prepareTransaction tx s₀ = .ok (p, e) s) :
    resolveTransaction rt.signer tx = .ok p.resolvedTx ∧
      ∃ sB, p.resolvedTx.buyGas rt.blake2b rt.time s₀ = .ok p.bought sB ∧
        sB.sm.mapStack.length = p.checkpoint ∧ s = resultState (newCheckpoint sB) ∧
        e = ⟨tx.gas - p.resolvedTx.intrinsicGas, [], false, false⟩ := by
  simp only [prepareTransaction, EStateM.bind_eq_ok_iff, liftExcept_eq_ok_iff,
    ResolvedTransaction.liftMethod_eq_ok_iff, EStateM.pure_apply, EStateM.Result.ok.injEq,
    Prod.mk.injEq] at h
  obtain ⟨r, _, ⟨hr, rfl⟩, b, sB, hb, ctx, _, ⟨-, rfl⟩, cp, s₁, hcp, ⟨rfl, rfl⟩, rfl⟩ := h
  -- the checkpoint is the depth of the state `BuyGas` left
  simp only [newCheckpoint, EStateM.Result.ok.injEq] at hcp
  obtain ⟨rfl, rfl⟩ := hcp
  exact ⟨hr, sB, hb, rfl, rfl, rfl⟩

/-- A clause whose execution keeps to the contract keeps every level below the
one it starts at. -/
theorem keeps_execute (hrt : rt.ClauseContract) {d : ℕ} {sB s : State} (hkeep : State.Keeps d sB s)
    (txCtx : TxContext) (clause : Clause) (index : UInt32) (gas : UInt64) :
    State.Keeps d sB (StateOp.run rt.keccak256 s (rt.execClause txCtx clause index gas s).2) :=
  hkeep.run rt.keccak256 _ fun x hx => lt_of_lt_of_le hkeep.2.2.1 (hrt.revertTo_ge _ _ _ _ _ x hx)

/-- The gas arithmetic of `NextClause` is exact: the gas used and the gas left
after it add up to the gas left before, and the refund adds at most half of
the gas used, so the gas left does not grow. -/
theorem nextClause_gas (hrt : rt.ClauseContract) {σ σ' : State × Executor} {gasUsed : UInt64}
    {output : ClauseOutput} (h : rt.nextClause p σ = .ok (gasUsed, output) σ') :
    gasUsed.toNat + output.leftOverGas.toNat = σ.2.leftOverGas.toNat ∧
      σ'.2.leftOverGas.toNat = output.leftOverGas.toNat + min (gasUsed.toNat / 2) output.refundGas.toNat ∧
      σ'.2.leftOverGas ≤ σ.2.leftOverGas := by
  obtain ⟨clause, -, hout, rfl, hleft, -⟩ := nextClause_eq_ok h
  have hle := hrt.leftOverGas_le _ _ _ _ _ _ hout
  obtain ⟨hused, hexact, hbound⟩ := @refund_exact _ _ output.refundGas hle
  refine ⟨hused, by rw [hleft, hexact], ?_⟩
  rw [UInt64.le_iff_toNat_le, hleft, hexact]
  exact hbound

/-- What holds at every configuration of an executor: the transaction was
resolved and its gas bought, the gas left is at most the gas beyond the
intrinsic gas, and while a clause remains the state keeps every level of the
state `BuyGas` left, on which the checkpoint was taken. -/
structure Inv (rt : Runtime) (tx : Transaction) (s₀ : State) (p : Prepared) (σ : State × Executor) :
    Prop where
  resolved : resolveTransaction rt.signer tx = .ok p.resolvedTx
  leftOverGas_le : σ.2.leftOverGas.toNat + p.resolvedTx.intrinsicGas.toNat ≤ tx.gas.toNat
  bought : ∃ sB, p.resolvedTx.buyGas rt.blake2b rt.time s₀ = .ok p.bought sB ∧
    sB.sm.mapStack.length = p.checkpoint ∧ (p.hasNextClause σ.2 = true → State.Keeps p.checkpoint sB σ.1)

/-- The gas left after `PrepareTransaction` is the gas beyond the intrinsic gas, exactly. -/
theorem prepareTransaction_leftOverGas {tx : Transaction} {s₀ s : State} {e : Executor}
    (h : rt.prepareTransaction tx s₀ = .ok (p, e) s) :
    e.leftOverGas.toNat + p.resolvedTx.intrinsicGas.toNat = tx.gas.toNat := by
  obtain ⟨hr, -, -, -, -, rfl⟩ := prepareTransaction_eq_ok h
  obtain ⟨-, -, -, hle⟩ := resolveTransaction_eq_ok hr
  have hsub := UInt64.toNat_sub_of_le _ _ hle
  have hle' := UInt64.le_iff_toNat_le.mp hle
  simp only [hsub]
  omega

theorem inv_prepare {tx : Transaction} {s₀ s : State} {e : Executor}
    (h : rt.prepareTransaction tx s₀ = .ok (p, e) s) : Inv rt tx s₀ p (s, e) := by
  have hleft := prepareTransaction_leftOverGas h
  obtain ⟨hr, sB, hb, hcp, rfl, -⟩ := prepareTransaction_eq_ok h
  refine ⟨hr, hleft.le, sB, hb, hcp, fun _ => ?_⟩
  rw [← hcp]
  exact State.Keeps.newCheckpoint_self sB

theorem inv_nextClause (hrt : rt.ClauseContract) {tx : Transaction} {s₀ : State} {σ : State × Executor}
    (hσ : Inv rt tx s₀ p σ) (hn : p.hasNextClause σ.2 = true) :
    Inv rt tx s₀ p (afterCall (rt.nextClause p σ)) := by
  obtain ⟨sB, hb, hcp, hkeep⟩ := hσ.bought
  replace hkeep := hkeep hn
  rcases hres : rt.nextClause p σ with ⟨⟨gasUsed, output⟩, σ'⟩ | ⟨err, σ'⟩
  · obtain ⟨-, -, hdec⟩ := nextClause_gas hrt hres
    obtain ⟨clause, -, -, -, -, -, hrest⟩ := nextClause_eq_ok hres
    refine ⟨hσ.resolved, ?_, sB, hb, hcp, fun hn' => ?_⟩
    · have := UInt64.le_iff_toNat_le.mp hdec
      have := hσ.leftOverGas_le
      simp only [afterCall]
      omega
    · cases hv : output.vmErr with
      | some _ =>
        -- a reverted executor has no next clause
        simp only [hv] at hrest
        simp [afterCall, Prepared.hasNextClause, hrest.1] at hn'
      | none =>
        simp only [hv] at hrest
        simp only [afterCall, hrest.2.2]
        exact keeps_execute hrt hkeep _ _ _ _
  · obtain ⟨he, ops, hops, hs'⟩ := nextClause_eq_error hres
    refine ⟨hσ.resolved, ?_, sB, hb, hcp, fun _ => ?_⟩
    · simp only [afterCall, he]
      exact hσ.leftOverGas_le
    · simp only [afterCall, hs']
      rcases hops with rfl | ⟨clause, rfl⟩
      · exact hkeep
      · exact keeps_execute hrt hkeep _ _ _ _

theorem inv_finalize {tx : Transaction} {s₀ : State} {σ : State × Executor} (hσ : Inv rt tx s₀ p σ) :
    Inv rt tx s₀ p (afterCall (rt.finalize p σ)) := by
  obtain ⟨⟨finalized, he⟩, hsame⟩ := @finalize_afterCall rt p σ
  by_cases hn : p.hasNextClause σ.2 = true
  · rw [hsame hn]
    exact hσ
  · obtain ⟨sB, hb, hcp, -⟩ := hσ.bought
    refine ⟨hσ.resolved, ?_, sB, hb, hcp, fun hn' => ?_⟩
    · rw [he]
      exact hσ.leftOverGas_le
    · rw [he] at hn'
      exact absurd hn' hn

theorem Reachable.inv (hrt : rt.ClauseContract) {tx : Transaction} {s₀ : State} {σ : State × Executor}
    (h : Reachable rt tx s₀ p σ) : Inv rt tx s₀ p σ := by
  induction h with
  | prepare h => exact inv_prepare h
  | nextClause _ hn ih => exact inv_nextClause hrt ih hn
  | finalize _ ih => exact inv_finalize ih

/-- A clause that reports a VM error, run while clauses remain, marks the
executor reverted and puts the state back to the one `BuyGas` left: the
earlier clauses are undone and the gas bought stays bought. -/
theorem nextClause_vmErr (hrt : rt.ClauseContract) {tx : Transaction} {s₀ : State}
    {σ σ' : State × Executor} {gasUsed : UInt64} {output : ClauseOutput} (hσ : Inv rt tx s₀ p σ)
    (hn : p.hasNextClause σ.2 = true) (h : rt.nextClause p σ = .ok (gasUsed, output) σ')
    (hv : output.vmErr.isSome) :
    σ'.2.reverted = true ∧ σ'.2.txOutputs = [] ∧
      p.resolvedTx.buyGas rt.blake2b rt.time s₀ = .ok p.bought σ'.1 := by
  obtain ⟨sB, hb, hcp, hkeep⟩ := hσ.bought
  replace hkeep := hkeep hn
  obtain ⟨clause, -, -, -, -, -, hrest⟩ := nextClause_eq_ok h
  obtain ⟨msg, hmsg⟩ := Option.isSome_iff_exists.mp hv
  simp only [hmsg] at hrest
  obtain ⟨hrev, hout, hs'⟩ := hrest
  -- the clause kept the levels of the state `BuyGas` left, so the revert gives it back
  rw [(keeps_execute hrt hkeep p.txCtx clause _ _).revertTo_eq hcp] at hs'
  simp only [EStateM.Result.ok.injEq, true_and] at hs'
  exact ⟨hrev, hout, hs' ▸ hb⟩

/-- The receipt of a `Finalize`: the gas used is the transaction's gas less the
gas left, exactly, so it lies between the intrinsic gas and the gas, and the
payer pays it at the gas price. -/
theorem finalize_receipt {tx : Transaction} {s₀ : State} {σ σ' : State × Executor} {receipt : Receipt}
    (hσ : Inv rt tx s₀ p σ) (h : rt.finalize p σ = .ok receipt σ') :
    p.resolvedTx.intrinsicGas ≤ receipt.gasUsed ∧ receipt.gasUsed ≤ tx.gas ∧
      receipt.gasUsed.toNat + σ.2.leftOverGas.toNat = tx.gas.toNat ∧
      receipt.paid = receipt.gasUsed.toNat * p.bought.gasPrice := by
  obtain ⟨-, -, -, hused, -, hpaid, -⟩ := finalize_eq_ok h
  obtain ⟨htx, -, -, -⟩ := resolveTransaction_eq_ok hσ.resolved
  have hbound := hσ.leftOverGas_le
  have hle : σ.2.leftOverGas ≤ tx.gas := UInt64.le_iff_toNat_le.mpr (by omega)
  have hsub : receipt.gasUsed.toNat = tx.gas.toNat - σ.2.leftOverGas.toNat := by
    rw [hused, htx]
    exact UInt64.toNat_sub_of_le _ _ hle
  refine ⟨UInt64.le_iff_toNat_le.mpr (by omega), UInt64.le_iff_toNat_le.mpr (by omega), by omega, hpaid⟩

theorem runClauses_of_hasNextClause {σ : State × Executor} (h : p.hasNextClause σ.2 = false)
    (fuel : ℕ) : rt.runClauses p fuel σ = .ok () σ := by
  cases fuel with
  | zero => rfl
  | succ fuel => simp [runClauses, EStateM.bind_apply, h]

/-- The loop of `ExecuteTransaction` passes only reachable configurations, and
given a turn for each clause left it ends with none left. -/
theorem runClauses_eq_ok {tx : Transaction} {s₀ : State} (fuel : ℕ) {σ σ' : State × Executor}
    (hσ : Reachable rt tx s₀ p σ) (h : rt.runClauses p fuel σ = .ok () σ') :
    Reachable rt tx s₀ p σ' ∧
      (p.resolvedTx.clauses.length - σ.2.txOutputs.length ≤ fuel → p.hasNextClause σ'.2 = false) := by
  induction fuel generalizing σ with
  | zero =>
    simp only [runClauses, EStateM.pure_apply, EStateM.Result.ok.injEq, true_and] at h
    subst h
    refine ⟨hσ, fun hle => ?_⟩
    simp only [Prepared.hasNextClause, Bool.and_eq_false_iff, decide_eq_false_iff_not]
    omega
  | succ fuel ih =>
    simp only [runClauses, EStateM.bind_eq_ok_iff, getExecutor_apply, EStateM.Result.ok.injEq] at h
    obtain ⟨_, _, ⟨rfl, rfl⟩, h⟩ := h
    cases hn : p.hasNextClause σ.2
    · simp only [hn, Bool.false_eq_true, if_false, EStateM.pure_apply, EStateM.Result.ok.injEq,
        true_and] at h
      subst h
      exact ⟨hσ, fun _ => hn⟩
    · simp only [hn, if_true, EStateM.bind_eq_ok_iff] at h
      obtain ⟨⟨gasUsed, output⟩, σ₁, h₁, h⟩ := h
      have hσ₁ : Reachable rt tx s₀ p σ₁ := by
        have hnext := hσ.nextClause hn
        rwa [h₁] at hnext
      obtain ⟨hreach, hend⟩ := ih hσ₁ h
      refine ⟨hreach, fun hle => ?_⟩
      obtain ⟨clause, -, -, -, -, -, hrest⟩ := nextClause_eq_ok h₁
      cases hv : output.vmErr with
      | some _ =>
        -- a reverted executor ends the loop at once
        simp only [hv] at hrest
        have hstop : p.hasNextClause σ₁.2 = false := by simp [Prepared.hasNextClause, hrest.1]
        rw [runClauses_of_hasNextClause hstop, EStateM.Result.ok.injEq] at h
        rw [← h.2]
        exact hstop
      | none =>
        -- one clause fewer is left
        simp only [hv] at hrest
        apply hend
        rw [hrest.2.1, List.length_append, List.length_singleton]
        omega

/-- What an `ExecuteTransaction` that returns did: it prepared an executor, ran
the clauses until none was left, and returned the receipt of `Finalize` on the
configuration reached. -/
theorem executeTransaction_eq_ok {tx : Transaction} {s₀ s : State} {receipt : Receipt}
    (h : rt.executeTransaction tx s₀ = .ok receipt s) :
    ∃ p σ σ', Reachable rt tx s₀ p σ ∧ p.hasNextClause σ.2 = false ∧ rt.finalize p σ = .ok receipt σ' ∧
      σ'.1 = s := by
  unfold executeTransaction at h
  rw [EStateM.bind_apply] at h
  rcases hprep : rt.prepareTransaction tx s₀ with ⟨⟨p, e⟩, s₁⟩ | ⟨err, s₁⟩ <;> rw [hprep] at h
  · dsimp only at h
    rcases hrun : (rt.runClauses p p.resolvedTx.clauses.length >>= fun _ => rt.finalize p) (s₁, e) with
      ⟨receipt', σ'⟩ | ⟨err, σ'⟩ <;> rw [hrun] at h
    · simp only [EStateM.Result.ok.injEq] at h
      obtain ⟨rfl, rfl⟩ := h
      simp only [EStateM.bind_eq_ok_iff] at hrun
      obtain ⟨_, σ, hloop, hfin⟩ := hrun
      -- the executor starts with no output, so the loop has a turn for each clause
      obtain ⟨-, -, -, -, -, rfl⟩ := prepareTransaction_eq_ok hprep
      obtain ⟨hreach, hend⟩ := runClauses_eq_ok _ (.prepare hprep) hloop
      exact ⟨p, σ, σ', hreach, hend (by simp), hfin, rfl⟩
    · cases h
  · cases h

/-- The receipt `ExecuteTransaction` returns names the payer `BuyGas` took the
gas from, and charges it for a gas used between the intrinsic gas and the
transaction's gas, at the gas price `BuyGas` computed. -/
theorem executeTransaction_receipt (hrt : rt.ClauseContract) {tx : Transaction} {s₀ s : State}
    {receipt : Receipt} (h : rt.executeTransaction tx s₀ = .ok receipt s) :
    ∃ r b sB, resolveTransaction rt.signer tx = .ok r ∧ r.buyGas rt.blake2b rt.time s₀ = .ok b sB ∧
      receipt.gasPayer = b.payer ∧ r.intrinsicGas ≤ receipt.gasUsed ∧ receipt.gasUsed ≤ tx.gas ∧
      receipt.paid = receipt.gasUsed.toNat * b.gasPrice := by
  obtain ⟨p, σ, σ', hσ, -, hfin, -⟩ := executeTransaction_eq_ok h
  have hinv := hσ.inv hrt
  obtain ⟨sB, hb, -, -⟩ := hinv.bought
  obtain ⟨hlo, hhi, -, hpaid⟩ := finalize_receipt hinv hfin
  obtain ⟨-, -, -, -, hpayer, -⟩ := finalize_eq_ok hfin
  exact ⟨p.resolvedTx, p.bought, sB, hinv.resolved, hb, hpayer, hlo, hhi, hpaid⟩

end Runtime

/-- The gas accounting of a transaction's execution stays in range. Along every
run of an executor whose clauses hand back at most the gas they are given,
each `uint64` subtraction and sum is exact, and the gas left never exceeds the
transaction's gas less the intrinsic gas. The receipt of `Finalize` has a gas
used between the intrinsic gas and the gas, paid at the gas price. A clause
with a VM error leaves the state `BuyGas` left. -/
theorem executor_gas_in_range {rt : Runtime} (hrt : rt.ClauseContract) {tx : Transaction} {s₀ : State}
    {p : Prepared} {σ : State × Executor} (hσ : Runtime.Reachable rt tx s₀ p σ) :
    p.resolvedTx.intrinsicGas ≤ tx.gas ∧
    (∀ e s, rt.prepareTransaction tx s₀ = .ok (p, e) s →
      e.leftOverGas.toNat + p.resolvedTx.intrinsicGas.toNat = tx.gas.toNat) ∧
    σ.2.leftOverGas.toNat ≤ tx.gas.toNat - p.resolvedTx.intrinsicGas.toNat ∧
    (∀ gasUsed output σ', rt.nextClause p σ = .ok (gasUsed, output) σ' →
      gasUsed.toNat + output.leftOverGas.toNat = σ.2.leftOverGas.toNat ∧
      σ'.2.leftOverGas.toNat = output.leftOverGas.toNat + min (gasUsed.toNat / 2) output.refundGas.toNat ∧
      σ'.2.leftOverGas ≤ σ.2.leftOverGas ∧
      (p.hasNextClause σ.2 = true → output.vmErr.isSome →
        σ'.2.reverted = true ∧ σ'.2.txOutputs = [] ∧
        p.resolvedTx.buyGas rt.blake2b rt.time s₀ = .ok p.bought σ'.1)) ∧
    (∀ receipt σ', rt.finalize p σ = .ok receipt σ' →
      p.resolvedTx.intrinsicGas ≤ receipt.gasUsed ∧ receipt.gasUsed ≤ tx.gas ∧
      receipt.gasUsed.toNat + σ.2.leftOverGas.toNat = tx.gas.toNat ∧
      receipt.paid = receipt.gasUsed.toNat * p.bought.gasPrice) := by
  have hinv := hσ.inv hrt
  obtain ⟨-, -, -, hle⟩ := resolveTransaction_eq_ok hinv.resolved
  have hbound := hinv.leftOverGas_le
  refine ⟨hle, fun e s h => Runtime.prepareTransaction_leftOverGas h, by omega, ?_,
    fun receipt σ' h => Runtime.finalize_receipt hinv h⟩
  intro gasUsed output σ' h
  obtain ⟨hused, hexact, hdec⟩ := Runtime.nextClause_gas hrt h
  exact ⟨hused, hexact, hdec, fun hn hv => Runtime.nextClause_vmErr hrt hinv hn h hv⟩

/-- An executor prepared for a transaction of one clause-free call's worth of
gas, on a runtime whose clauses hand back all their gas. -/
theorem executor_gas_in_range_new :
    let rt : Runtime := ⟨⟨fun _ => .ok (Vector.replicate 20 1), fun _ => .error "not delegated"⟩,
      bytesToBytes32, fun _ => [], 0, 1, Vector.replicate 20 2, fun _ => .error "not found",
      fun _ => Vector.replicate 32 0, fun _ => 0, fun _ _ _ gas _ => (.ok ⟨[], [], gas, 0, none⟩, [])⟩
    let tx : Transaction := ⟨0, 0, 0, [], 0, 21000, none, 0, ⟨0, []⟩, []⟩
    ∃ p σ, rt.ClauseContract ∧ Runtime.Reachable rt tx (State.new .empty) p σ ∧
    p.resolvedTx.intrinsicGas ≤ tx.gas ∧
    (∀ e s, rt.prepareTransaction tx (State.new .empty) = .ok (p, e) s →
      e.leftOverGas.toNat + p.resolvedTx.intrinsicGas.toNat = tx.gas.toNat) ∧
    σ.2.leftOverGas.toNat ≤ tx.gas.toNat - p.resolvedTx.intrinsicGas.toNat ∧
    (∀ gasUsed output σ', rt.nextClause p σ = .ok (gasUsed, output) σ' →
      gasUsed.toNat + output.leftOverGas.toNat = σ.2.leftOverGas.toNat ∧
      σ'.2.leftOverGas.toNat = output.leftOverGas.toNat + min (gasUsed.toNat / 2) output.refundGas.toNat ∧
      σ'.2.leftOverGas ≤ σ.2.leftOverGas ∧
      (p.hasNextClause σ.2 = true → output.vmErr.isSome →
        σ'.2.reverted = true ∧ σ'.2.txOutputs = [] ∧
        p.resolvedTx.buyGas rt.blake2b rt.time (State.new .empty) = .ok p.bought σ'.1)) ∧
    (∀ receipt σ', rt.finalize p σ = .ok receipt σ' →
      p.resolvedTx.intrinsicGas ≤ receipt.gasUsed ∧ receipt.gasUsed ≤ tx.gas ∧
      receipt.gasUsed.toNat + σ.2.leftOverGas.toNat = tx.gas.toNat ∧
      receipt.paid = receipt.gasUsed.toNat * p.bought.gasPrice) := by
  intro rt tx
  have hrt : rt.ClauseContract := by
    refine ⟨fun _ _ _ gas _ output h => ?_, fun _ _ _ _ _ x hx => by simp [rt] at hx⟩
    cases h
    exact UInt64.le_refl gas
  -- the transaction resolves, and its gas of zero price is bought from the origin
  have hok : (match rt.prepareTransaction tx (State.new .empty) with
      | .ok _ _ => true
      | .error _ _ => false) = true := by
    decide +kernel
  obtain ⟨p, e, s, hres⟩ : ∃ p e s, rt.prepareTransaction tx (State.new .empty) = .ok (p, e) s := by
    rcases hres : rt.prepareTransaction tx (State.new .empty) with ⟨⟨p, e⟩, s⟩ | ⟨err, s⟩
    · exact ⟨p, e, s, rfl⟩
    · rw [hres] at hok
      exact absurd hok Bool.false_ne_true
  have hσ : Runtime.Reachable rt tx (State.new .empty) p (s, e) := .prepare hres
  exact ⟨p, (s, e), hrt, hσ, executor_gas_in_range hrt hσ⟩

end Workshare
