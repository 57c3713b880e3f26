import Workshare.State.State

/-!
# The authority contract

The native methods of the `Authority` builtin (`auworkshareity.Auworkshareity`)
keep the block-proposer candidates in contract storage: an entry per node
master, linked into a doubly linked list by `Prev`/`Next`, with the list's head
and tail stored under `headKey` and `tailKey`. An entry reads as the zero
entry until written, and writing an empty entry clears it, so the storage is a
total map from node masters to entries.

An entry is `IsLinked` when it has a neighbour. The only entry of a one-element
list has none: `Get` recognises it by comparing it with the head, while
`Update` and `Revoke` treat it as not listed.

The walks of `Candidates` and `AllCandidates` follow `Next` until a nil
pointer. A list that is linked from its head visits each address at most once,
so `2 ^ 160` steps, one per address, bound every walk that ends.
-/
namespace Workshare

/-- `auworkshareity.entry`. -/
structure Entry where
  endorsor : Address
  identity : Bytes32
  active : Bool
  prev : Option Address
  next : Option Address
  deriving DecidableEq, Repr

namespace Entry

/-- The zero entry, what an unwritten slot decodes to. -/
def zero : Entry := ⟨Vector.replicate 20 0, Vector.replicate 32 0, false, none, none⟩

/-- `IsEmpty`. -/
def isEmpty (e : Entry) : Bool :=
  isZero e.endorsor && isZero e.identity && !e.active && e.prev.isNone && e.next.isNone

/-- `IsLinked`: the entry has a neighbour in the list. -/
def isLinked (e : Entry) : Bool := e.prev.isSome || e.next.isSome

end Entry

/-- `auworkshareity.Candidate`. -/
structure Candidate where
  nodeMaster : Address
  endorsor : Address
  identity : Bytes32
  active : Bool
  deriving DecidableEq, Repr

/-- The storage of the authority contract. -/
structure Auworkshareity where
  entries : Address → Entry
  head : Option Address
  tail : Option Address

/-- The bound on the steps of a walk: one per address. -/
def walkBound : ℕ := 2 ^ 160

namespace Auworkshareity

/-- The storage of a contract nothing was written to. -/
def empty : Auworkshareity := ⟨fun _ => Entry.zero, none, none⟩

/-- `getEntry`. -/
def getEntry (a : Auworkshareity) (nodeMaster : Address) : Entry := a.entries nodeMaster

/-- `setEntry`: an empty entry clears the slot, which then decodes as the zero entry. -/
def setEntry (a : Auworkshareity) (nodeMaster : Address) (entry : Entry) : Auworkshareity :=
  { a with entries := Function.update a.entries nodeMaster entry }

/-- `Get`: the listed flag, endorsor, identity and activity of a node master. -/
def get (a : Auworkshareity) (nodeMaster : Address) : Bool × Address × Bytes32 × Bool :=
  let entry := a.getEntry nodeMaster
  if entry.isLinked then (true, entry.endorsor, entry.identity, entry.active)
  -- the only node has no neighbour: it is listed when it is the head
  else (a.head == some nodeMaster, entry.endorsor, entry.identity, entry.active)

/-- `Add`: append a new active candidate at the tail. -/
def add (a : Auworkshareity) (nodeMaster endorsor : Address) (identity : Bytes32) :
    Bool × Auworkshareity :=
  let entry := a.getEntry nodeMaster
  if !entry.isEmpty then (false, a)
  else
    let tailPtr := a.tail
    let entry := { entry with endorsor, identity, active := true, prev := tailPtr }
    let a := { a with tail := some nodeMaster }
    let a := match tailPtr with
      | none => { a with head := some nodeMaster }
      | some t => a.setEntry t { a.getEntry t with next := some nodeMaster }
    (true, a.setEntry nodeMaster entry)

/-- `Revoke`: unlink a listed candidate and make it inactive; the entry stays. -/
def revoke (a : Auworkshareity) (nodeMaster : Address) : Bool × Auworkshareity :=
  let entry := a.getEntry nodeMaster
  if !entry.isLinked then (false, a)
  else
    let a := match entry.prev with
      | none => { a with head := entry.next }
      | some p => a.setEntry p { a.getEntry p with next := entry.next }
    let a := match entry.next with
      | none => { a with tail := entry.prev }
      | some n => a.setEntry n { a.getEntry n with prev := entry.prev }
    (true, a.setEntry nodeMaster { entry with next := none, prev := none, active := false })

/-- The only candidate of a list cannot be revoked: it has no neighbour, so
`Revoke` takes it for one that is not listed and writes nothing, while `Get`
reports it listed and `AllCandidates` returns it. -/
theorem revoke_sole_candidate :
    let P : Address := Vector.replicate 20 1
    let a := (empty.add P (Vector.replicate 20 11) (Vector.replicate 32 0)).2
    (a.get P).1 = true ∧ a.revoke P = (false, a) :=
  ⟨rfl, rfl⟩

/-- `Update`: set the activity of a linked candidate. -/
def update (a : Auworkshareity) (nodeMaster : Address) (active : Bool) : Bool × Auworkshareity :=
  let entry := a.getEntry nodeMaster
  if !entry.isLinked then (false, a)
  else (true, a.setEntry nodeMaster { entry with active })

/-- The candidate an entry describes. -/
def candidateOf (nodeMaster : Address) (entry : Entry) : Candidate :=
  ⟨nodeMaster, entry.endorsor, entry.identity, entry.active⟩

/-- The loop of `Candidates` from `ptr`, with the candidates picked so far. -/
def candidatesFrom (a : Auworkshareity) (balanceOf : Address → Except StateError ℤ)
    (endorsement : ℤ) (limit : ℕ) : ℕ → Option Address → List Candidate →
      Except StateError (List Candidate)
  | 0, _, picked => .ok picked
  | _, none, picked => .ok picked
  | fuel + 1, some ptr, picked =>
    if picked.length < limit then
      let entry := a.getEntry ptr
      (balanceOf entry.endorsor).bind fun bal =>
        candidatesFrom a balanceOf endorsement limit fuel entry.next
          (if bal ≥ endorsement then picked ++ [candidateOf ptr entry] else picked)
    else .ok picked

/-- `Candidates`: up to `limit` listed candidates whose endorsor holds `endorsement`. -/
def candidates (a : Auworkshareity) (balanceOf : Address → Except StateError ℤ)
    (endorsement : ℤ) (limit : ℕ) : Except StateError (List Candidate) :=
  candidatesFrom a balanceOf endorsement limit walkBound a.head []

/-- The loop of `AllCandidates` from `ptr`. -/
def allCandidatesFrom (a : Auworkshareity) : ℕ → Option Address → List Candidate
  | 0, _ => []
  | _, none => []
  | fuel + 1, some ptr => candidateOf ptr (a.getEntry ptr) :: allCandidatesFrom a fuel (a.getEntry ptr).next

/-- `AllCandidates`: every listed candidate, from the head. -/
def allCandidates (a : Auworkshareity) : List Candidate :=
  allCandidatesFrom a walkBound a.head

end Auworkshareity

end Workshare
