import Workshare.Tx.Transaction
import Workshare.State.Checkpoint

/-!
# Adopting transactions into a block

`Flow.Adopt` validates a transaction against the block being packed, then
executes it on the flow's state under a checkpoint, reverted when execution
fails. The execution itself is the runtime's: here it is given as the result
it returns and the state operations it performs, which never revert below the
depth they start at.

The gas test adds `gasUsed` and the transaction's gas in `uint64`. A gas close
to `2 ^ 64` makes the sum wrap below the limit, and the receipt's gas then
takes `gasUsed` past it.
-/
namespace Workshare

/-- The errors of `Adopt`: `badTxError`, `errTxNotAdoptableNow`,
`errTxNotAdoptableForever`, `errGasLimitReached`, `errKnownTx`, and the
chain's own. -/
inductive AdoptError
  | badTx (msg : String)
  | notAdoptableNow
  | notAdoptableForever
  | gasLimitReached
  | knownTx
  | chain (msg : String)
  deriving DecidableEq, Repr

/-- What `Adopt` reads besides the flow: the repository's chain tag, the
`BLOCKLIST` fork number, the blocked origins, the signature recovery of origin
and id, the chain's index of transactions (their reverted flag, `none` when not
found), and the runtime's `ExecuteTransaction` with the state operations it
performs. -/
structure Packer where
  chainTag : UInt8
  blocklist : UInt32
  isOriginBlocked : Address → Bool
  origin : Transaction → Except String Address
  id : Transaction → Bytes32
  getTransactionMeta : Bytes32 → Except String (Option Bool)
  executeTransaction : Transaction → State → Except String Receipt × List StateOp
  keccak256 : Bytes → Bytes

/-- `packer.Flow`, with the fields of the runtime's context it reads. -/
structure Flow where
  number : UInt32
  gasLimit : UInt64
  state : State
  processedTxs : Bytes32 → Option Bool
  gasUsed : UInt64
  txs : List Transaction
  receipts : List Receipt
  features : UInt32

namespace Flow

variable (p : Packer)

/-- `findTx`: whether the transaction is in this block or on the chain, and
whether it reverted. -/
def findTx (f : Flow) (txID : Bytes32) : Except AdoptError (Bool × Bool) :=
  match f.processedTxs txID with
  | some reverted => .ok (true, reverted)
  | none =>
    match p.getTransactionMeta txID with
    | .error e => .error (.chain e)
    | .ok none => .ok (false, false)
    | .ok (some reverted) => .ok (true, reverted)

/-- The tests `Adopt` makes before the checkpoint. -/
def check (f : Flow) (tx : Transaction) : Except AdoptError Unit := do
  let origin := (p.origin tx).toOption.getD (Vector.replicate 20 0)
  if f.number ≥ p.blocklist ∧ p.isOriginBlocked origin then throw (.badTx "tx origin blocked")
  match tx.testFeatures f.features with
  | .error e => throw (.badTx e)
  | .ok () => pure ()
  if tx.chainTag ≠ p.chainTag then throw (.badTx "chain tag mismatch")
  else if f.number < tx.blockRefNumber then throw .notAdoptableNow
  else if tx.isExpired f.number then throw (.badTx "expired")
  else if f.gasUsed + tx.gas > f.gasLimit then
    -- room left for the smallest transaction: another one may fit
    if f.gasUsed + TxGas + ClauseGas ≤ f.gasLimit then throw .notAdoptableNow
    else throw .gasLimitReached
  let (found, _) ← findTx p f (p.id tx)
  if found then throw .knownTx
  match tx.dependsOn with
  | none => pure ()
  | some dependsOn =>
    let (found, reverted) ← findTx p f dependsOn
    if !found then throw .notAdoptableNow
    if reverted then throw .notAdoptableForever

/-- `Adopt`: the result and the flow after the call. -/
def adopt (f : Flow) (tx : Transaction) : Except AdoptError Unit × Flow :=
  match check p f tx with
  | .error e => (.error e, f)
  | .ok () =>
    match newCheckpoint f.state with
    | .error _ s => (.error (.badTx "checkpoint"), { f with state := s })
    | .ok checkpoint s =>
      let (r, ops) := p.executeTransaction tx s
      let s := StateOp.run p.keccak256 s ops
      match r with
      | .error e => (.error (.badTx e), { f with state := resultState (revertTo checkpoint s) })
      | .ok receipt =>
        (.ok (), { f with
          state := s
          processedTxs := Function.update f.processedTxs (p.id tx) (some receipt.reverted)
          gasUsed := f.gasUsed + receipt.gasUsed
          receipts := f.receipts ++ [receipt]
          txs := f.txs ++ [tx] })

variable {p}

/-- The state an execution leaves after a checkpoint, reverted to it, is the
state the checkpoint was taken on, when the execution reverts no deeper. -/
theorem revertTo_execution (s : State) (ops : List StateOp)
    (hnest : ∀ x, StateOp.revertTo x ∈ ops → (resultState (newCheckpoint s)).sm.mapStack.length ≤ x) :
    revertTo s.sm.mapStack.length (StateOp.run p.keccak256 (resultState (newCheckpoint s)) ops) = .ok () s := by
  have hdepth : (resultState (newCheckpoint s)).sm.mapStack.length = s.sm.mapStack.length + 1 := by
    simp [newCheckpoint, resultState]
  have hkeep := (State.Keeps.newCheckpoint_self s).run p.keccak256 ops fun x hx => by
    have := hnest x hx
    omega
  exact hkeep.revertTo_eq rfl

/-- An `Adopt` that fails leaves the flow as it was: the tests before the
checkpoint write nothing, and a failed execution is reverted to it. -/
theorem adopt_error {f f' : Flow} {tx : Transaction} {e : AdoptError}
    (hnest : ∀ s x, StateOp.revertTo x ∈ (p.executeTransaction tx s).2 → s.sm.mapStack.length ≤ x)
    (h : f.adopt p tx = (.error e, f')) : f' = f := by
  unfold adopt at h
  cases hc : check p f tx with
  | error e' =>
    rw [hc] at h
    exact (Prod.mk.inj h).2.symm
  | ok u =>
    rw [hc] at h
    have hcp : newCheckpoint f.state =
        .ok f.state.sm.mapStack.length (resultState (newCheckpoint f.state)) := rfl
    rw [hcp] at h
    rcases hx : p.executeTransaction tx (resultState (newCheckpoint f.state)) with ⟨r, ops⟩
    simp only [hx] at h
    cases r with
    | error msg =>
      -- the execution is reverted to the checkpoint
      have hrev := revertTo_execution (p := p) f.state ops fun y hy => hnest _ y (by rw [hx]; exact hy)
      rw [hrev] at h
      rw [← (Prod.mk.inj h).2]
      rfl
    | ok receipt => simp at h

/-- An `Adopt` that succeeds adds the receipt's gas to `gasUsed` and appends the
transaction and its receipt. -/
theorem adopt_ok {f f' : Flow} {tx : Transaction} (h : f.adopt p tx = (.ok (), f')) :
    ∃ receipt, f'.gasUsed = f.gasUsed + receipt.gasUsed ∧ f'.receipts = f.receipts ++ [receipt] ∧
      f'.txs = f.txs ++ [tx] := by
  unfold adopt at h
  cases hc : check p f tx with
  | error e' =>
    rw [hc] at h
    simp at h
  | ok u =>
    rw [hc] at h
    have hcp : newCheckpoint f.state =
        .ok f.state.sm.mapStack.length (resultState (newCheckpoint f.state)) := rfl
    rw [hcp] at h
    rcases hx : p.executeTransaction tx (resultState (newCheckpoint f.state)) with ⟨r, ops⟩
    simp only [hx] at h
    cases r with
    | error msg => simp at h
    | ok receipt =>
      obtain ⟨-, rfl⟩ := Prod.mk.inj h
      exact ⟨receipt, rfl, rfl, rfl⟩

/-- Two transactions adopted into an empty flow with the gas limit of the
genesis block. The first provides and uses 21000 gas. The second provides
`2 ^ 64 - 1`, so the gas test's sum wraps to 20999 and passes; its receipt uses
ten million gas, less than it provides, and the block's gas used ends above
the limit. -/
theorem adopt_gas_overflow :
    let p : Packer := ⟨0, 0xffffffff, fun _ => false, fun _ => .ok (Vector.replicate 20 1),
      fun tx => if tx.gas = 21000 then Vector.replicate 32 1 else Vector.replicate 32 2, fun _ => .ok none,
      fun tx _ => (.ok ⟨if tx.gas = 21000 then 21000 else 10000000, Vector.replicate 20 1, 0, 0, false, []⟩, []),
      fun _ => []⟩
    let f : Flow := ⟨1, 10000000, State.new .empty, fun _ => none, 0, [], [], 0⟩
    let tx₁ : Transaction := ⟨0, 0, 100, [], 0, 21000, none, 0, ⟨0, []⟩, []⟩
    let tx₂ : Transaction := ⟨0, 0, 100, [], 0, 0xffffffffffffffff, none, 1, ⟨0, []⟩, []⟩
    let f₁ := (f.adopt p tx₁).2
    (f.adopt p tx₁).1 = .ok () ∧ (f₁.adopt p tx₂).1 = .ok () ∧
      ((f₁.adopt p tx₂).2.receipts.map (·.gasUsed)) = [21000, 10000000] ∧
      (f₁.adopt p tx₂).2.gasUsed = 10021000 ∧ f.gasLimit < (f₁.adopt p tx₂).2.gasUsed := by
  decide

end Flow

end Workshare
