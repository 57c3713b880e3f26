import Workshare.Consensus.Authority
import Mathlib

/-!
# Proposer selection

The validator keeps the candidates in memory (`poa.Candidates`): `Pick` selects
the proposers among them, and after each block the scheduler's updates are
written both to the authority contract (`Auworkshareity.update`) and to this
list (`Candidates.update`). The packer instead reads the proposers from the
contract each time (`Auworkshareity.candidates`).

`SchedulerV2` orders the active proposers, and the block's proposer, by a hash
of the seed, the parent number and the address; its updates make the proposers
whose slots were skipped inactive and an inactive block proposer active.
-/
namespace Workshare

/-- `poa.Proposer`. -/
structure Proposer where
  address : Address
  active : Bool
  deriving DecidableEq, Repr

/-- `poa.Candidates`: the list, the index of each node master and the endorsors,
and the indices `Pick` last selected. -/
structure Candidates where
  list : List Candidate
  masters : Address → Option ℕ
  endorsors : Address → Bool
  satisfied : List ℕ

namespace Candidates

/-- `NewCandidates`: a later candidate of a node master shadows an earlier one. -/
def new (list : List Candidate) : Candidates where
  list := list
  masters := list.zipIdx.foldl (fun m (c, i) => Function.update m c.nodeMaster (some i)) fun _ => none
  endorsors := list.foldl (fun m c => Function.update m c.endorsor true) fun _ => false
  satisfied := []

/-- The loop of `Pick`: the indices of up to `MaxBlockProposers` candidates whose
endorsor holds `endorsement`. -/
def pickSatisfied (balanceOf : Address → Except StateError ℤ) (endorsement : ℤ) :
    List (Candidate × ℕ) → List ℕ → Except StateError (List ℕ)
  | [], satisfied => .ok satisfied
  | (c, i) :: rest, satisfied =>
    if satisfied.length < MaxBlockProposers then
      (balanceOf c.endorsor).bind fun bal =>
        pickSatisfied balanceOf endorsement rest (if bal ≥ endorsement then satisfied ++ [i] else satisfied)
    else .ok satisfied

/-- `Pick`: the proposers at the selected indices, selecting them first when
no selection is cached. -/
def pick (c : Candidates) (balanceOf : Address → Except StateError ℤ) (endorsement : ℤ) :
    Except StateError (List Proposer × Candidates) :=
  let selected := if c.satisfied.isEmpty then pickSatisfied balanceOf endorsement c.list.zipIdx []
    else .ok c.satisfied
  selected.map fun satisfied =>
    (satisfied.filterMap fun i => c.list[i]?.map fun cand => ⟨cand.nodeMaster, cand.active⟩,
      { c with satisfied })

/-- `Update`: set the activity of a node master's candidate; false when it is not a master. -/
def update (c : Candidates) (addr : Address) (active : Bool) : Bool × Candidates :=
  match c.masters addr with
  | some i => (true, { c with list := c.list.modify i fun cand => { cand with active } })
  | none => (false, c)

end Candidates

/-- The four big-endian bytes of a `uint32`. -/
def uint32BE (n : UInt32) : Bytes :=
  [(n >>> 24).toUInt8, (n >>> 16).toUInt8, (n >>> 8).toUInt8, n.toUInt8]

/-- `poa.SchedulerV2`. -/
structure SchedulerV2 where
  proposer : Proposer
  parentBlockTime : ℕ
  shuffled : List Address

namespace SchedulerV2

/-- `NewSchedulerV2`: the active proposers and the block's proposer, sorted by
the hash of seed, parent number and address. -/
def new (blake2b : Bytes → Bytes32) (addr : Address) (proposers : List Proposer)
    (parentBlockNumber : UInt32) (parentBlockTime : ℕ) (seed : Bytes) :
    Except String SchedulerV2 :=
  let num := uint32BE parentBlockNumber
  match proposers.reverse.find? (·.address == addr) with
  | none => .error "unauworkshareized block proposer"
  | some proposer =>
    let list := (proposers.filter fun p => p.active || p.address == addr).map fun p =>
      (p.address, blake2b (seed ++ num ++ p.address.toList))
    let sorted := list.insertionSort fun x y => !decide (y.2.toList < x.2.toList)
    .ok ⟨proposer, parentBlockTime, sorted.map (·.1)⟩

/-- The loop of `Updates`: the proposers of the slots before `newBlockTime`
other than the block's proposer, made inactive. -/
def skipped (s : SchedulerV2) (newBlockTime : ℕ) : List (ℕ × Address) → List Proposer
  | [] => []
  | (i, a) :: rest =>
    if s.parentBlockTime + BlockInterval + i * BlockInterval ≥ newBlockTime then []
    else if a ≠ s.proposer.address then ⟨a, false⟩ :: skipped s newBlockTime rest
    else skipped s newBlockTime rest

/-- `Updates`: the proposers whose status changes and the block's score. -/
def updates (s : SchedulerV2) (newBlockTime : ℕ) : List Proposer × ℕ :=
  let updates := skipped s newBlockTime (s.shuffled.zipIdx.map fun (a, i) => (i, a))
  let score := s.shuffled.length - updates.length
  if !s.proposer.active then (updates ++ [{ s.proposer with active := true }], score)
  else (updates, score)

/-- `IsScheduled`: whether the slot at `blockTime` is the proposer's. -/
def isScheduled (s : SchedulerV2) (blockTime : ℕ) (proposer : Address) : Bool :=
  if s.parentBlockTime ≥ blockTime then false
  else if (blockTime - s.parentBlockTime) % BlockInterval ≠ 0 then false
  else
    let index := (blockTime - s.parentBlockTime - BlockInterval) / BlockInterval % s.shuffled.length
    s.shuffled[index]? == some proposer

/-- `IsTheTime`. -/
def isTheTime (s : SchedulerV2) (newBlockTime : ℕ) : Bool := s.isScheduled newBlockTime s.proposer.address

/-- The first slot time after the parent that is not before `nowTime`. -/
def firstSlot (parentBlockTime nowTime : ℕ) : ℕ :=
  let newBlockTime := parentBlockTime + BlockInterval
  if nowTime > newBlockTime then
    newBlockTime + (nowTime - newBlockTime + BlockInterval - 1) / BlockInterval * BlockInterval
  else newBlockTime

/-- `Schedule`: from the first slot not before `nowTime`, the first of the next
`len shuffled` slots that is the proposer's; `none` where the source panics. -/
def schedule (s : SchedulerV2) (nowTime : ℕ) : Option ℕ :=
  let newBlockTime := firstSlot s.parentBlockTime nowTime
  let offset := (newBlockTime - s.parentBlockTime) / BlockInterval - 1
  let n := s.shuffled.length
  ((List.range n).find? fun i => s.shuffled[(i + offset) % n]? == some s.proposer.address).map
    fun i => newBlockTime + i * BlockInterval

end SchedulerV2

/-- The eight big-endian bytes of a `uint64`. -/
def uint64BE (n : ℕ) : Bytes := (List.range 8).reverse.map fun i => (n / 256 ^ i).toUInt8

/-- `dprp`: the first eight bytes, big-endian, of the hash of the block number
and the time. -/
def dprp (blake2b : Bytes → Bytes32) (blockNumber : UInt32) (time : ℕ) : ℕ :=
  ((blake2b (uint32BE blockNumber ++ uint64BE time)).toList.take 8).foldl (fun acc b => acc * 256 + b.toNat) 0

/-- `poa.SchedulerV1`. -/
structure SchedulerV1 where
  proposer : Proposer
  actives : List Proposer
  parentBlockNumber : UInt32
  parentBlockTime : ℕ

namespace SchedulerV1

/-- `NewSchedulerV1`: the active proposers and the block's proposer, in order. -/
def new (addr : Address) (proposers : List Proposer) (parentBlockNumber : UInt32) (parentBlockTime : ℕ) :
    Except String SchedulerV1 :=
  match proposers.reverse.find? (·.address == addr) with
  | none => .error "unauworkshareized block proposer"
  | some proposer =>
    .ok ⟨proposer, proposers.filter fun p => p.address == addr || p.active, parentBlockNumber, parentBlockTime⟩

/-- `whoseTurn`: the proposer of the slot at `t`. -/
def whoseTurn (s : SchedulerV1) (blake2b : Bytes → Bytes32) (t : ℕ) : Option Proposer :=
  s.actives[dprp blake2b s.parentBlockNumber t % s.actives.length]?

/-- The loop of `Schedule`, one slot a turn; it stops only at a slot of the
proposer, so the fuel bounds the turns. -/
def scheduleFrom (s : SchedulerV1) (blake2b : Bytes → Bytes32) : ℕ → ℕ → Option ℕ
  | 0, _ => none
  | fuel + 1, newBlockTime =>
    if (s.whoseTurn blake2b newBlockTime).map (·.address) == some s.proposer.address then some newBlockTime
    else scheduleFrom s blake2b fuel (newBlockTime + BlockInterval)

/-- `Schedule`, within `fuel` slots. -/
def schedule (s : SchedulerV1) (blake2b : Bytes → Bytes32) (fuel nowTime : ℕ) : Option ℕ :=
  s.scheduleFrom blake2b fuel (SchedulerV2.firstSlot s.parentBlockTime nowTime)

/-- `IsTheTime`. -/
def isTheTime (s : SchedulerV1) (blake2b : Bytes → Bytes32) (newBlockTime : ℕ) : Bool :=
  if s.parentBlockTime ≥ newBlockTime then false
  else if (newBlockTime - s.parentBlockTime) % BlockInterval ≠ 0 then false
  else (s.whoseTurn blake2b newBlockTime).map (·.address) == some s.proposer.address

end SchedulerV1

/-- The only candidate of the list, once inactive, stays inactive in the
contract when the scheduler activates it, while the validator's list marks it
active: `Auworkshareity.update` takes a candidate without neighbours for one
that is not listed. The contract below is reached by `Add`, `Add`, `Update` and
`Revoke` from an empty one. -/
theorem update_sole_candidate :
    let P : Address := Vector.replicate 20 1
    let Q : Address := Vector.replicate 20 2
    let a := ((((Auworkshareity.empty.add P (Vector.replicate 20 11) (Vector.replicate 32 0)).2.add Q
      (Vector.replicate 20 12) (Vector.replicate 32 0)).2.update P false).2.revoke Q).2
    let cands := Candidates.new a.allCandidates
    (cands.pick (fun _ => .ok 1) 0).map (·.1) = .ok [⟨P, false⟩] ∧
    ∃ s, SchedulerV2.new (fun _ => Vector.replicate 32 0) P [⟨P, false⟩] 0 0 [] = .ok s ∧
      s.updates 10 = ([⟨P, true⟩], 1) ∧
      a.update P true = (false, a) ∧
      (cands.update P true).2.list = [⟨P, Vector.replicate 20 11, Vector.replicate 32 0, true⟩] ∧
      (Candidates.new (a.update P true).2.allCandidates).list =
        [⟨P, Vector.replicate 20 11, Vector.replicate 32 0, false⟩] :=
  ⟨rfl, _, rfl, rfl, rfl, rfl, rfl⟩

end Workshare
