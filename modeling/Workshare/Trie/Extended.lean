import Workshare.Trie.Hasher

/-!
# The extended trie

`trie.ExtendedTrie` keeps a metadata string with every value and commits its
nodes with a sequence number; both travel in the trailing stream of the stored
nodes, outside the encoding that is hashed. A trie opened at a root only holds
the root's hash until it is used, and a commit always stores the root, so it
loads the root first.
-/
namespace Workshare

/-- `trie.Node`: a root node with the cache generation of its trie. -/
structure RootNode where
  node : Node
  cacheGen : UInt16

/-- `Node.Dirty`: an absent node counts as dirty. -/
def RootNode.dirty (n : RootNode) : Bool := n.node.cache.2.1

/-- `Node.SeqNum`. -/
def RootNode.seqNum (n : RootNode) : UInt64 := n.node.seqNum

/-- `trie.ExtendedTrie`. -/
structure ExtendedTrie where
  trie : Trie
  nonCrypto : Bool

namespace ExtendedTrie

/-- `NewExtendedCached`: the trie at a root node already in memory. -/
def newCached (rootNode : RootNode) (db : Database) (nonCrypto : Bool) : ExtendedTrie :=
  ⟨⟨rootNode.node, db, rootNode.cacheGen, 0⟩, nonCrypto⟩

/-- `SetCacheTTL`. -/
def setCacheTTL (e : ExtendedTrie) (ttl : UInt16) : ExtendedTrie :=
  { e with trie := { e.trie with cacheTTL := ttl } }

/-- `RootNode`. -/
def rootNode (e : ExtendedTrie) : RootNode := ⟨e.trie.root, e.trie.cacheGen⟩

/-- `SetRootNode`. -/
def setRootNode (e : ExtendedTrie) (root : RootNode) : ExtendedTrie :=
  { e with trie := { e.trie with root := root.node, cacheGen := root.cacheGen } }

/-- `NewExtended`: the trie at a committed root and sequence, not yet loaded. -/
def new (blake2b : Bytes → Bytes32) (root : Bytes32) (seq : UInt64) (db : Database)
    (nonCrypto : Bool) : ExtendedTrie :=
  let rootNode : Node :=
    if root ≠ Vector.replicate 32 0 ∧ root ≠ emptyRoot blake2b then .hash ⟨root, seq⟩ else .nil
  ⟨⟨rootNode, db, 0, 0⟩, nonCrypto⟩

/-- `Get`: the value and metadata at a key, empty when absent; the trie keeps
what the walk loaded. -/
def get (e : ExtendedTrie) (key : Bytes) : Except TrieError (Bytes × Bytes) × ExtendedTrie :=
  let (r, t) := e.trie.tryGetKey key
  (r.map fun v => v.getD ([], []), { e with trie := t })

/-- `Update`: an empty value deletes the key. -/
def update (e : ExtendedTrie) (key value metadata : Bytes) : Except TrieError ExtendedTrie :=
  (e.trie.tryUpdateNode key value metadata).map fun t => { e with trie := t }

/-- `Hash`. -/
def hash (e : ExtendedTrie) (blake2b : Bytes → Bytes32) : Bytes32 × ExtendedTrie :=
  let (h, t) := e.trie.hash blake2b
  (h, { e with trie := t })

/-- `hashRoot` with an extended hasher at the commit's sequence. -/
def hashRoot (e : ExtendedTrie) (blake2b : Bytes → Bytes32) (db : Option Writer) (seq : UInt64) :
    Node × Node × Option Writer :=
  match e.trie.root with
  | .nil => (.hash ⟨emptyRoot blake2b, 0⟩, .nil, db)
  | root => (Hasher.mk e.trie.cacheGen e.trie.cacheTTL true seq e.nonCrypto).hash blake2b root db [] true

/-- `CommitTo`: load the root if it is only a hash, then write the changed nodes
and the root with the sequence to `db`. -/
def commitTo (e : ExtendedTrie) (blake2b : Bytes → Bytes32) (db : Writer) (seq : UInt64) :
    Except TrieError (Bytes32 × ExtendedTrie × Writer) :=
  let loaded : Except TrieError Node := match e.trie.root with
    | .hash ref => e.trie.resolveHash ref []
    | root => .ok root
  loaded.map fun root =>
    let e := { e with trie := { e.trie with root } }
    let (hashed, cached, db') := e.hashRoot blake2b (some db) seq
    (Trie.rootHash hashed,
      { e with trie := { e.trie with root := cached, cacheGen := e.trie.cacheGen + 1 } }, db'.getD db)

/-- `Commit`: `CommitTo` the trie's own store. -/
def commit (e : ExtendedTrie) (blake2b : Bytes → Bytes32) (seq : UInt64) :
    Except TrieError (Bytes32 × ExtendedTrie) :=
  (e.commitTo blake2b ⟨e.trie.db.keyEncoder, []⟩ seq).map fun (root, e, w) =>
    (root, { e with trie := { e.trie with db := e.trie.db.putAll w.puts } })

end ExtendedTrie

end Workshare
