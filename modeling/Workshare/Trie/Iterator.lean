import Workshare.Trie.Hasher

/-!
# The trie iterator

`trie/iterator.go`. A `nodeIterator` walks the nodes of a trie in pre-order
with an explicit stack: each level holds a node and the index of the child to
be processed next, and `path` is the nibble path to the node on top. `peek`
finds the next node: the top node's next child, or, when it has none left, the
next child one level up. `seek` moves forward, skipping the subtrees whose path
is not a prefix of the key sought, and stops just before the first node at or
after the key. A hash node is loaded from the store when the walk reaches it.
`Iterator` runs a node iterator until it stands on a value node, and reads the
entry's key back from the path.

The stack is a list with its top first. The hashes the source keeps on each
level serve `Hash`, `Parent`, `Node` and `LeafProof`, which are not modelled,
nor are the union and difference iterators. Go's loops without a bound are
given fuel; a model that runs out answers `none`, as it does where Go panics.
-/
namespace Workshare

/-- `nodeIteratorState`: the node, the child to be processed next (-1 before
the first), and the length of the path to the node's parent. -/
structure IterState where
  node : Node
  index : ℤ
  pathlen : ℕ

/-- What a node iterator records as its error: `errIteratorEnd`, a
`seekError` with the key sought and the error met, or the error loading a node
gave. -/
inductive IterError
  | iteratorEnd
  | seek (key : Bytes) (err : IterError)
  | trie (err : TrieError)

/-- `nodeIterator`. The trie is `none` in the iterator `newNodeIterator` gives
a trie whose hash is `emptyState`. -/
structure NodeIterator where
  trie : Option Trie
  stack : List IterState
  path : Bytes
  err : Option IterError
  filter : UInt64 → Bool

namespace NodeIterator

/-- Whether `nextChild` passes over a child: a hash node, or a node with a
cached hash, that the filter rejects. -/
def skipped (filter : UInt64 → Bool) (n : Node) : Bool :=
  match n with
  | .hash _ => !filter n.seqNum
  | n => n.cache.1.isSome && !filter n.seqNum

/-- The loop of `nextChild` over a full node's children from `i` on: the
first present child it does not pass over. -/
def firstChild (filter : UInt64 → Bool) (cs : Fin 17 → Node) (i : ℕ) : Option (Fin 17) :=
  if h : i < 17 then
    if !(cs ⟨i, h⟩).isNil && !skipped filter (cs ⟨i, h⟩) then some ⟨i, h⟩
    else firstChild filter cs (i + 1)
  else none
termination_by 17 - i

/-- `nextChild`: the top node with its index moved to just before its next
child, the child's state, and the child's path. -/
def nextChild (filter : UInt64 → Bool) (parent : IterState) (path : Bytes) :
    Option (IterState × IterState × Bytes) :=
  match parent.node with
  | .full cs _ =>
    (firstChild filter cs (parent.index + 1).toNat).map fun i =>
      ({ parent with index := (i.val : ℤ) - 1 }, ⟨cs i, -1, path.length⟩, path ++ [i.val.toUInt8])
  | .short k c _ =>
    if decide (parent.index < 0) && !skipped filter c then some (parent, ⟨c, -1, path.length⟩, path ++ k)
    else none
  | _ => none

/-- The loop of `peek` over the stack: the next child of the node on top,
loaded if it is a hash node, or, when there is none, the same a level up. It
gives the stack and path left after the levels popped, and the child's state,
whether it has a parent, and its path. -/
def peekLoop (t : Trie) (filter : UInt64 → Bool) :
    List IterState → Bytes → List IterState × Bytes × Except IterError (IterState × Bool × Bytes)
  | [], path => ([], path, .error .iteratorEnd)
  | parent :: rest, path =>
    match nextChild filter parent path with
    | some (parent, state, childPath) =>
      match t.resolve state.node childPath with
      | .ok node => (parent :: rest, path, .ok ({ state with node }, true, childPath))
      | .error e => (parent :: rest, path, .error (.trie e))
    | none => peekLoop t filter rest (path.take parent.pathlen)

/-- `peek`: the iterator after the levels it popped, and the next node's
state, whether it has a parent, and its path. On an empty stack the next node
is the root, once `Hash` has cached the root's hashes. -/
def peek (blake2b : Bytes → Bytes32) (it : NodeIterator) (descend : Bool) :
    Option (NodeIterator × Except IterError (IterState × Bool × Bytes)) :=
  match it.trie with
  -- `it.trie.root` of the iterator without a trie panics
  | none => none
  | some t =>
    match it.stack with
    | [] =>
      if !t.root.isNil && !it.filter t.root.seqNum then some (it, .error .iteratorEnd)
      else
        let t := (t.hash blake2b).2
        some ({ it with trie := some t },
          ((t.resolve t.root []).mapError .trie).map fun node => (⟨node, -1, 0⟩, false, []))
    | top :: rest =>
      -- without `descend` the node on top is popped first
      let (stack, path) := if descend then (top :: rest, it.path) else (rest, it.path.take top.pathlen)
      let (stack, path, r) := peekLoop t it.filter stack path
      some ({ it with stack, path }, r)

/-- `push`: the node goes on top, its path becomes the path, and its parent's
index moves on to it. -/
def push (it : NodeIterator) (state : IterState) (hasParent : Bool) (path : Bytes) : NodeIterator :=
  { it with
    path
    stack := state :: if hasParent then it.stack.modifyHead fun s => { s with index := s.index + 1 } else it.stack }

/-- The loop of `seek`: peek, descending only below a path the key extends,
and stop before the first node whose path is at or after the key, as
`bytes.Compare` orders them; the nodes before it are pushed. -/
def seekLoop (blake2b : Bytes → Bytes32) (pfx key : Bytes) :
    ℕ → NodeIterator → Option (NodeIterator × Option IterError)
  | 0, _ => none
  | fuel + 1, it => do
    let (it', r) ← it.peek blake2b (it.path.isPrefixOf key)
    match r with
    | .error .iteratorEnd => pure (it', some .iteratorEnd)
    | .error e => pure (it', some (.seek pfx e))
    | .ok (state, hasParent, path) =>
      if ¬ path < key then pure (it', none)
      else seekLoop blake2b pfx key fuel (it'.push state hasParent path)

/-- `seek`: the path sought is the key in nibbles without the terminator. -/
def seek (blake2b : Bytes → Bytes32) (fuel : ℕ) (it : NodeIterator) (pfx : Bytes) :
    Option (NodeIterator × Option IterError) :=
  seekLoop blake2b pfx (keybytesToHex pfx).dropLast fuel it

/-- The end of `Next`: step forward with the iterator and record any error. -/
def stepForward (blake2b : Bytes → Bytes32) (it : NodeIterator) (descend : Bool) :
    Option (NodeIterator × Bool) := do
  let (it, r) ← it.peek blake2b descend
  match r with
  | .error e => pure ({ it with err := some e }, false)
  | .ok (state, hasParent, path) => pure ({ it.push state hasParent path with err := none }, true)

/-- `Next`: the next node, among the children of the current one only if
`descend`. A finished iterator stays finished, and a failed `seek` is tried
again first. -/
def next (blake2b : Bytes → Bytes32) (fuel : ℕ) (it : NodeIterator) (descend : Bool) :
    Option (NodeIterator × Bool) :=
  match it.err with
  | some .iteratorEnd => some (it, false)
  | some (.seek key _) => do
    let (it, err) ← it.seek blake2b fuel key
    match err with
    | some e => pure ({ it with err := some e }, false)
    | none => stepForward blake2b { it with err := none } descend
  | _ => stepForward blake2b it descend

/-- `Leaf`: the value and metadata of the value node on top. -/
def leaf (it : NodeIterator) : Option (Bytes × Bytes) :=
  match it.stack with
  | ⟨.value v m, _, _⟩ :: _ => some (v, m)
  | _ => none

/-- `LeafKey`: the key of the value node on top, read back from the path; it
panics off a value node, or on a path of odd length. -/
def leafKey (it : NodeIterator) : Option Bytes :=
  match it.stack with
  | ⟨.value _ _, _, _⟩ :: _ => hexToKeybytes it.path
  | _ => none

/-- `Error`: the end of the iteration is no error, and a seek error is the
error the seek met. -/
def error (it : NodeIterator) : Option IterError :=
  match it.err with
  | some .iteratorEnd => none
  | some (.seek _ e) => some e
  | e => e

end NodeIterator

/-- `newNodeIterator`: `Hash` first, which caches the root's hashes, and a
trie whose hash is `emptyState` gets an iterator without a trie; otherwise the
iterator seeks the start. -/
def newNodeIterator (blake2b : Bytes → Bytes32) (fuel : ℕ) (t : Trie) (start : Bytes)
    (filter : UInt64 → Bool) : Option NodeIterator :=
  let (h, t) := t.hash blake2b
  if h = blake2b [] then some ⟨none, [], [], none, filter⟩
  else (NodeIterator.seek blake2b fuel ⟨some t, [], [], none, filter⟩ start).map fun r => { r.1 with err := r.2 }

/-- `Trie.NodeIterator`: every node passes the filter. -/
def Trie.nodeIterator (blake2b : Bytes → Bytes32) (fuel : ℕ) (t : Trie) (start : Bytes) : Option NodeIterator :=
  newNodeIterator blake2b fuel t start fun _ => true

/-- `Iterator`: a node iterator and the entry it stands on. -/
structure Iterator where
  nodeIt : NodeIterator
  key : Bytes
  value : Bytes
  metadata : Bytes
  err : Option IterError

/-- `NewIterator`. -/
def newIterator (it : NodeIterator) : Iterator := ⟨it, [], [], [], none⟩

namespace Iterator

/-- `Next`: step the node iterator until it stands on a value node, and read
the entry there; at the end the entry is cleared and the error kept. -/
def next (blake2b : Bytes → Bytes32) : ℕ → Iterator → Option (Iterator × Bool)
  | 0, _ => none
  | fuel + 1, it => do
    let (nodeIt, ok) ← it.nodeIt.next blake2b fuel true
    if ok then
      match nodeIt.leaf with
      | some (value, metadata) => do
        let key ← nodeIt.leafKey
        pure ({ it with nodeIt, key, value, metadata }, true)
      | none => next blake2b fuel { it with nodeIt }
    else pure ({ it with nodeIt, key := [], value := [], metadata := [], err := nodeIt.error }, false)

/-- The entries a loop `for it.Next() { ... }` reads: each key, value and
metadata, in order. -/
def collect (blake2b : Bytes → Bytes32) : ℕ → Iterator → Option (List (Bytes × Bytes × Bytes))
  | 0, _ => none
  | fuel + 1, it => do
    let (it, ok) ← it.next blake2b fuel
    if ok then (collect blake2b fuel it).map ((it.key, it.value, it.metadata) :: ·) else pure []

end Iterator

end Workshare
