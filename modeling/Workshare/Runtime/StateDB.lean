import Workshare.State.Checkpoint
import Workshare.Outcome

/-!
# The EVM's view of the state

`statedb.StateDB` adapts `State` to the EVM. Refunds, suicide flags, logs,
transfers and preimages live in a journal of its own (`repo`), a second
`StackedMap` over a source that knows only suicide flags and the refund.
A snapshot takes a state checkpoint, stores its revision in the current repo
level under `stateRevKey` and pushes a repo level; reverting pops the repo and
reverts the state to the revision the popped-to repo still holds. The EVM
panics on a state error; the runtime recovers the panic as the clause's error,
so a method here returns `Except Panic`.
-/
namespace Workshare

/-- The panics of `StateDB`. -/
inductive Panic
  | state (e : StateError)
  | unknownKey
  | checkpointMissing
  deriving DecidableEq, Repr

/-- `tx.Event`, the form `GetLogs` gives an EVM log. -/
structure Event where
  address : Address
  topics : List Bytes32
  data : Bytes
  deriving DecidableEq, Repr

/-- `tx.Transfer`. -/
structure Transfer where
  sender : Address
  recipient : Address
  amount : ℤ
  deriving DecidableEq, Repr

/-- The repo keys: `suicideFlagKey`, `refundKey`, `preimageKey`, `eventKey`,
`transferKey`, `stateRevKey`. -/
inductive RepoKey
  | suicideFlag (addr : Address)
  | refund
  | preimage (hash : Bytes32)
  | event
  | transfer
  | stateRev
  deriving DecidableEq

/-- The repo values. -/
inductive RepoValue
  | flag (b : Bool)
  | refund (total : UInt64)
  | preimage (data : Bytes)
  | event (ev : Event)
  | transfer (t : Transfer)
  | stateRev (srev : ℕ)
  deriving DecidableEq

/-- The getter of `statedb.New`: any other key panics. -/
def repoGetter : MapGetter RepoKey RepoValue Panic
  | .suicideFlag _ => .ok (.flag false, true)
  | .refund => .ok (.refund 0, true)
  | _ => .error .unknownKey

/-- The revision under `stateRevKey`. -/
def RepoValue.toStateRev : RepoValue → ℕ
  | .stateRev srev => srev
  | _ => 0

/-- `statedb.StateDB`. -/
structure StateDB where
  state : State
  repo : StackedMap RepoKey RepoValue Panic
  repo_src : repo.src = repoGetter
  repo_ne : repo.mapStack ≠ []

namespace StateDB

/-- `statedb.New`. -/
def new (state : State) : StateDB :=
  ⟨state, StackedMap.new repoGetter, rfl, by simp⟩

@[simp] theorem state_new (state : State) : (new state).state = state := rfl

@[simp] theorem repo_new (state : State) : (new state).repo = StackedMap.new repoGetter := rfl

/-- `repo.Put`. -/
def putRepo (db : StateDB) (k : RepoKey) (v : RepoValue) : StateDB :=
  ⟨db.state, db.repo.put k v, by rw [StackedMap.src_put, db.repo_src],
    db.repo.mapStack_put_ne_nil k v db.repo_ne⟩

@[simp] theorem state_putRepo (db : StateDB) (k : RepoKey) (v : RepoValue) :
    (db.putRepo k v).state = db.state := rfl

@[simp] theorem repo_putRepo (db : StateDB) (k : RepoKey) (v : RepoValue) :
    (db.putRepo k v).repo = db.repo.put k v := rfl

/-- The same repo over another state. -/
def withState (db : StateDB) (s : State) : StateDB :=
  ⟨s, db.repo, db.repo_src, db.repo_ne⟩

@[simp] theorem state_withState (db : StateDB) (s : State) : (db.withState s).state = s := rfl

@[simp] theorem repo_withState (db : StateDB) (s : State) : (db.withState s).repo = db.repo := rfl

/-- `GetRefund`. -/
def getRefund (db : StateDB) : UInt64 :=
  match db.repo.get .refund with
  | .ok (.refund total, _) => total
  | _ => 0

/-- `HasSuicided`. -/
def hasSuicided (db : StateDB) (addr : Address) : Bool :=
  match db.repo.get (.suicideFlag addr) with
  | .ok (.flag b, _) => b
  | _ => false

/-- The event of a journal entry under `eventKey`. -/
def eventOf : RepoKey × RepoValue → Option Event
  | (.event, .event ev) => some ev
  | _ => none

/-- The transfer of a journal entry under `transferKey`. -/
def transferOf : RepoKey × RepoValue → Option Transfer
  | (.transfer, .transfer t) => some t
  | _ => none

/-- `GetLogs`: the events and transfers journaled in surviving levels, in order. -/
def getLogs (db : StateDB) : List Event × List Transfer :=
  (db.repo.journal.filterMap eventOf, db.repo.journal.filterMap transferOf)

/-- A state method, its error turned into a panic. -/
def liftState {α : Type} (m : Method α) : StateDB → Except Panic (α × StateDB) := fun db =>
  match m db.state with
  | .ok a s => .ok (a, db.withState s)
  | .error e _ => .error (.state e)

/-- A read of the state, its error turned into a panic. -/
def readState {α : Type} (r : Except StateError α) : Except Panic α :=
  r.mapError .state

/-- `GetBalance`. -/
def getBalance (db : StateDB) (addr : Address) : Except Panic ℤ :=
  readState (db.state.getBalance addr)

/-- `SubBalance` and `AddBalance`: a zero amount writes nothing; otherwise the
balance is read and the amount taken from it or added to it. -/
def changeBalance (combine : ℤ → ℤ → ℤ) (addr : Address) (amount : ℤ) (db : StateDB) :
    Except Panic (Unit × StateDB) :=
  if amount = 0 then .ok ((), db)
  else (db.getBalance addr).bind fun balance =>
    liftState (setBalance addr (combine balance amount)) db

/-- `SubBalance`. -/
def subBalance (addr : Address) (amount : ℤ) (db : StateDB) : Except Panic (Unit × StateDB) :=
  changeBalance (· - ·) addr amount db

/-- `AddBalance`. -/
def addBalance (addr : Address) (amount : ℤ) (db : StateDB) : Except Panic (Unit × StateDB) :=
  changeBalance (· + ·) addr amount db

/-- `SetCode`. -/
def setCode (keccak256 : Bytes → Bytes) (addr : Address) (code : Bytes) (db : StateDB) :
    Except Panic (Unit × StateDB) :=
  liftState (Workshare.setCode keccak256 addr code) db

/-- `SetState`. -/
def setState (addr : Address) (key value : Bytes32) (db : StateDB) : Except Panic (Unit × StateDB) :=
  liftState (setStorage addr key value) db

/-- `Suicide`: delete an existing account and set its flag. -/
def suicide (addr : Address) (db : StateDB) : Except Panic (Bool × StateDB) :=
  (readState (db.state.exists addr)).bind fun exist =>
    if exist then .ok (true, (db.withState (resultState (delete addr db.state))).putRepo
      (.suicideFlag addr) (.flag true))
    else .ok (false, db)

/-- `AddRefund`: the running total wraps as a `uint64`. -/
def addRefund (gas : UInt64) (db : StateDB) : StateDB :=
  db.putRepo .refund (.refund (db.getRefund + gas))

/-- `AddPreimage`. -/
def addPreimage (hash : Bytes32) (preimage : Bytes) (db : StateDB) : StateDB :=
  db.putRepo (.preimage hash) (.preimage preimage)

/-- `AddLog`. -/
def addLog (ev : Event) (db : StateDB) : StateDB :=
  db.putRepo .event (.event ev)

/-- `AddTransfer`. -/
def addTransfer (t : Transfer) (db : StateDB) : StateDB :=
  db.putRepo .transfer (.transfer t)

/-- The repo after a push, with the push's revision. -/
def pushRepo (db : StateDB) : ℕ × StateDB :=
  (db.repo.push.1, ⟨db.state, db.repo.push.2, by rw [StackedMap.src_push, db.repo_src], by simp⟩)

@[simp] theorem pushRepo_fst (db : StateDB) : db.pushRepo.1 = db.repo.mapStack.length := rfl

@[simp] theorem state_pushRepo (db : StateDB) : db.pushRepo.2.state = db.state := rfl

@[simp] theorem repo_pushRepo (db : StateDB) : db.pushRepo.2.repo = db.repo.push.2 := rfl

/-- `Snapshot`: a state checkpoint whose revision is kept in the current repo level,
then a repo level; the revision returned is the repo depth before that push. -/
def snapshot (db : StateDB) : Except Panic (ℕ × StateDB) :=
  match newCheckpoint db.state with
  | .ok srev s => .ok ((db.withState s).putRepo .stateRev (.stateRev srev)).pushRepo
  | .error e _ => .error (.state e)

/-- A checkpoint never fails, and its revision is the depth of the state. -/
theorem snapshot_eq (db : StateDB) :
    db.snapshot = .ok ((db.withState (resultState (newCheckpoint db.state))).putRepo
      .stateRev (.stateRev db.state.sm.mapStack.length)).pushRepo := rfl

/-- A repo over the getter of `statedb.New` that holds a state revision is not empty:
the getter panics on `stateRevKey`. -/
theorem repo_ne_of_get_stateRev {repo : StackedMap RepoKey RepoValue Panic}
    (hsrc : repo.src = repoGetter) {p : RepoValue × Bool} (h : repo.get .stateRev = .ok p) :
    repo.mapStack ≠ [] := by
  intro hnil
  rw [StackedMap.get_eq_lookup, hnil, hsrc] at h
  cases h

/-- `repo.PopTo`, to a depth that still holds a state revision. -/
def popRepo (db : StateDB) (rev : ℕ) {p : RepoValue × Bool}
    (h : (db.repo.popTo rev).get .stateRev = .ok p) : StateDB :=
  ⟨db.state, db.repo.popTo rev, by rw [StackedMap.src_popTo, db.repo_src],
    repo_ne_of_get_stateRev (by rw [StackedMap.src_popTo, db.repo_src]) h⟩

@[simp] theorem state_popRepo (db : StateDB) (rev : ℕ) {p : RepoValue × Bool}
    (h : (db.repo.popTo rev).get .stateRev = .ok p) : (db.popRepo rev h).state = db.state := rfl

@[simp] theorem repo_popRepo (db : StateDB) (rev : ℕ) {p : RepoValue × Bool}
    (h : (db.repo.popTo rev).get .stateRev = .ok p) : (db.popRepo rev h).repo = db.repo.popTo rev :=
  rfl

/-- `RevertToSnapshot`: pop the repo, then revert the state to the revision the
repo holds at that depth. -/
def revertToSnapshot (rev : ℕ) (db : StateDB) : Except Panic (Unit × StateDB) :=
  match h : (db.repo.popTo rev).get .stateRev with
  | .ok (v, true) =>
    .ok ((), (db.popRepo rev h).withState (resultState (revertTo v.toStateRev db.state)))
  | .ok (_, false) => .error .checkpointMissing
  | .error e => .error e

/-- A revert whose popped repo holds a state revision reverts the state to it. -/
theorem revertToSnapshot_eq_ok {db : StateDB} {rev srev : ℕ}
    (hget : (db.repo.popTo rev).get .stateRev = .ok (.stateRev srev, true)) :
    db.revertToSnapshot rev =
      .ok ((), (db.popRepo rev hget).withState (resultState (revertTo srev db.state))) := by
  unfold revertToSnapshot
  split
  · rename_i v h
    rw [hget] at h
    cases h
    rfl
  · rename_i h
    rw [hget] at h
    cases h
  · rename_i h
    rw [hget] at h
    cases h

end StateDB

end Workshare
