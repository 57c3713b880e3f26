import Workshare.StackedMap
import Workshare.Rlp
import Workshare.State.Account

/-!
# The world state over its journal

`state.State` keeps every change in a `StackedMap` whose keys are accounts,
codes, storage slots and storage barriers, over a source that reads the
committed tries (`cacheGetter`). A storage slot is keyed with the barrier of
its address at the time of the access: `Delete` raises the barrier, so storage
written before the deletion is no longer addressed, and a non-zero barrier
reads as empty storage. Checkpoints are the journal's levels.

The `cachedObject` layer only memoises what the committed tries and the code
store return, so `Committed` gives those reads directly. A method of the state
is an `EStateM` computation: like the Go method, it returns an error and keeps
whatever it had written before failing.
-/
namespace Workshare

/-- `state.Error`: a failure of the database or a malformed stored value. -/
inductive StateError
  | db (cause : String)
  | rlp (cause : Rlp.Error)
  deriving DecidableEq, Repr

/-- The keys of the journal: `Address`, `codeKey`, `storageKey`, `storageBarrierKey`. -/
inductive StateKey
  | account (addr : Address)
  | code (addr : Address)
  | storage (addr : Address) (barrier : ℕ) (key : Bytes32)
  | storageBarrier (addr : Address)
  deriving DecidableEq

/-- The values of the journal: `*Account`, code, `rlp.RawValue`, a barrier. -/
inductive StateValue
  | account (acc : Account)
  | code (code : Bytes)
  | raw (raw : Bytes)
  | barrier (b : ℕ)
  deriving DecidableEq

/-- The `.(*Account)` assertion; every account key holds an account. -/
def StateValue.toAccount : StateValue → Account
  | .account a => a
  | _ => emptyAccount

/-- The `.([]byte)` and `.(rlp.RawValue)` assertions. -/
def StateValue.toBytes : StateValue → Bytes
  | .code c => c
  | .raw r => r
  | _ => []

/-- The `.(int)` assertion on a barrier. -/
def StateValue.toBarrier : StateValue → ℕ
  | .barrier b => b
  | _ => 0

/-- What a state reads below its journal: `loadAccount` on the account trie, a
value of a storage trie opened from an account's metadata and storage root,
and the code store. -/
structure Committed where
  loadAccount : Address → Except StateError (Account × AccountMetadata)
  loadStorage : AccountMetadata → Bytes → Bytes32 → Except StateError Bytes
  getCode : Bytes → Except StateError Bytes

namespace Committed

/-- `cachedObject.GetStorage`: an account without a storage root has empty storage. -/
def getStorage (c : Committed) (acc : Account) (am : AccountMetadata) (key : Bytes32) :
    Except StateError Bytes :=
  if acc.storageRoot.isEmpty then .ok [] else c.loadStorage am acc.storageRoot key

/-- `cachedObject.GetCode`: an account without a code hash has no code. -/
def getCodeOf (c : Committed) (acc : Account) : Except StateError Bytes :=
  if acc.codeHash.isEmpty then .ok [] else c.getCode acc.codeHash

/-- `State.cacheGetter`: the source under the journal. -/
def cacheGetter (c : Committed) : MapGetter StateKey StateValue StateError
  | .account addr => (c.loadAccount addr).map fun (a, _) => (.account a, true)
  | .code addr => (c.loadAccount addr).bind fun (a, _) =>
      (c.getCodeOf a).map fun code => (.code code, true)
  | .storage addr barrier key =>
      if barrier ≠ 0 then .ok (.raw [], true)
      else (c.loadAccount addr).bind fun (a, m) =>
        (c.getStorage a m key).map fun v => (.raw v, true)
  | .storageBarrier _ => .ok (.barrier 0, true)

/-- A committed account trie holding `accounts`, with no storage tries and no code. -/
def ofAccounts (accounts : Address → Account) : Committed where
  loadAccount addr := .ok (accounts addr, ⟨[], 0, 0⟩)
  loadStorage _ _ _ := .ok []
  getCode _ := .ok []

/-- The committed state of an empty trie. -/
def empty : Committed := ofAccounts fun _ => emptyAccount

end Committed

/-- `state.State`: the committed reads and the journal over them. -/
structure State where
  committed : Committed
  sm : StackedMap StateKey StateValue StateError
  reads_committed : sm.src = committed.cacheGetter

/-- A method of `State`. -/
abbrev Method (α : Type) := EStateM StateError State α

/-- The state a method leaves behind, whether it failed or not. -/
def resultState {α : Type} : EStateM.Result StateError State α → State
  | .ok _ s => s
  | .error _ s => s

namespace State

/-- `state.New`: an empty journal over the committed state. -/
def new (c : Committed) : State :=
  ⟨c, StackedMap.new c.cacheGetter, rfl⟩

/-- `sm.Put` on the state's journal. -/
def put (s : State) (k : StateKey) (v : StateValue) : State :=
  ⟨s.committed, s.sm.put k v, by rw [StackedMap.src_put, s.reads_committed]⟩

/-- `getAccount`. -/
def getAccount (s : State) (addr : Address) : Except StateError Account :=
  (s.sm.get (.account addr)).map (·.1.toAccount)

/-- `GetBalance`. -/
def getBalance (s : State) (addr : Address) : Except StateError ℤ :=
  (s.getAccount addr).map (·.balance)

/-- `GetEnergy`. -/
def getEnergy (s : State) (addr : Address) (blockTime : ℕ) : Except StateError ℤ :=
  (s.getAccount addr).map (·.calcEnergy blockTime)

/-- `GetMaster`. -/
def getMaster (s : State) (addr : Address) : Except StateError Address :=
  (s.getAccount addr).map fun a => bytesToAddress a.master

/-- `GetCodeHash`. -/
def getCodeHash (s : State) (addr : Address) : Except StateError Bytes32 :=
  (s.getAccount addr).map fun a => bytesToBytes32 a.codeHash

/-- `Exists`. -/
def «exists» (s : State) (addr : Address) : Except StateError Bool :=
  (s.getAccount addr).map fun a => !a.isEmpty

/-- `getStorageBarrier`: the barrier source never fails. -/
def getStorageBarrier (s : State) (addr : Address) : ℕ :=
  match s.sm.get (.storageBarrier addr) with
  | .ok (v, _) => v.toBarrier
  | .error _ => 0

/-- `GetRawStorage`: the slot under the current barrier of the address. -/
def getRawStorage (s : State) (addr : Address) (key : Bytes32) : Except StateError Bytes :=
  (s.sm.get (.storage addr (s.getStorageBarrier addr) key)).map (·.1.toBytes)

/-- `GetStorage`: a stored string is right-aligned; a stored list reads as its hash. -/
def getStorage (blake2b : Bytes → Bytes32) (s : State) (addr : Address) (key : Bytes32) :
    Except StateError Bytes32 :=
  (s.getRawStorage addr key).bind fun raw =>
    if raw.isEmpty then .ok (bytesToBytes32 [])
    else match Rlp.split raw with
      | .error e => .error (.rlp e)
      | .ok (.list, _, _) => .ok (blake2b raw)
      | .ok (_, content, _) => .ok (bytesToBytes32 content)

/-- `GetCode`. -/
def getCode (s : State) (addr : Address) : Except StateError Bytes :=
  (s.sm.get (.code addr)).map (·.1.toBytes)

/-- `updateAccount`. -/
def updateAccount (s : State) (addr : Address) (acc : Account) : State :=
  s.put (.account addr) (.account acc)

end State

/-- Run `update` on a copy of the account, or fail without writing. -/
def withAccountCopy (addr : Address) (update : Account → Account) : Method Unit := fun s =>
  match s.getAccount addr with
  | .ok cpy => .ok () (s.updateAccount addr (update cpy))
  | .error e => .error e s

/-- `SetBalance`. -/
def setBalance (addr : Address) (balance : ℤ) : Method Unit :=
  withAccountCopy addr fun cpy => { cpy with balance }

/-- `SetEnergy`: a settlement of the account's energy at `blockTime`. -/
def setEnergy (addr : Address) (energy : ℤ) (blockTime : ℕ) : Method Unit :=
  withAccountCopy addr fun cpy => { cpy with energy, blockTime }

/-- `SetMaster`: the zero address clears the master. -/
def setMaster (addr : Address) (master : Address) : Method Unit :=
  withAccountCopy addr fun cpy => { cpy with master := if isZero master then [] else master.toList }

/-- `SetRawStorage`. -/
def setRawStorage (addr : Address) (key : Bytes32) (raw : Bytes) : Method Unit := fun s =>
  .ok () (s.put (.storage addr (s.getStorageBarrier addr) key) (.raw raw))

/-- `SetStorage`: zero deletes; otherwise the value without leading zeros, as an RLP string. -/
def setStorage (addr : Address) (key value : Bytes32) : Method Unit :=
  if isZero value then setRawStorage addr key []
  else setRawStorage addr key (Rlp.encodeString (value.toList.dropWhile (· == 0)))

/-- `SetCode`: the code is written before the account is read, so a failed read
keeps it. -/
def setCode (keccak256 : Bytes → Bytes) (addr : Address) (code : Bytes) : Method Unit := fun s =>
  let codeHash := if code.isEmpty then [] else keccak256 code
  withAccountCopy addr (fun cpy => { cpy with codeHash }) (s.put (.code addr) (.code code))

/-- `Delete`: clear code and account, and raise the storage barrier. -/
def delete (addr : Address) : Method Unit := fun s =>
  let s := (s.put (.code addr) (.code [])).updateAccount addr emptyAccount
  .ok () (s.put (.storageBarrier addr) (.barrier (s.getStorageBarrier addr + 1)))

/-- `NewCheckpoint`: push a journal level; the revision is the depth before it. -/
def newCheckpoint : Method ℕ := fun s =>
  .ok s.sm.push.1 ⟨s.committed, s.sm.push.2, by rw [StackedMap.src_push, s.reads_committed]⟩

/-- `RevertTo`: pop the journal back to the depth `revision`. -/
def revertTo (revision : ℕ) : Method Unit := fun s =>
  .ok () ⟨s.committed, s.sm.popTo revision, by rw [StackedMap.src_popTo, s.reads_committed]⟩

end Workshare
