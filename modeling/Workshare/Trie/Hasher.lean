import Workshare.Trie.Trie

/-!
# Hashing and committing

`trie/hasher.go`: a node collapses to its hash once its children have
collapsed; a node whose encoding is shorter than a hash stays embedded in its
parent instead. With a store, every node that collapses to a hash is written
to it (with its trailing stream in an extended trie), and the nodes kept in
memory get the hash cached and lose their dirty flag. A node that is clean and
cached is not written again: its hash stands for it, and once older than the
cache lifetime the hash replaces it in memory.
-/
namespace Workshare

/-- `hasher`. -/
structure Hasher where
  cacheGen : UInt16
  cacheTTL : UInt16
  extended : Bool
  seq : UInt64
  nonCrypto : Bool

/-- A `DatabaseWriter` as a commit sees it: its key encoder when it is a
`DatabaseKeyEncoder`, and the puts made to it so far, in order. -/
structure Writer where
  keyEncoder : Option (Bytes → UInt64 → Bytes → Bytes)
  puts : List (Bytes × Bytes)

/-- `Put`. -/
def Writer.put (w : Writer) (key blob : Bytes) : Writer :=
  { w with puts := w.puts ++ [(key, blob)] }

/-- `emptyRoot`: the hash of the empty string. -/
def emptyRoot (blake2b : Bytes → Bytes32) : Bytes32 := blake2b (Rlp.encodeString [])

namespace Node

/-- Whether the node is a value node. -/
def isValue : Node → Bool
  | value _ _ => true
  | _ => false

/-- The node with the flags a hashing left on it. -/
def withFlags (n : Node) (hash : Option HashRef) (clean : Bool) : Node :=
  match n with
  | full children flags => full children { flags with hash, dirty := flags.dirty && !clean }
  | short key val flags => short key val { flags with hash, dirty := flags.dirty && !clean }
  | n => n

end Node

namespace Hasher

/-- `store`: a node whose encoding is as wide as a hash, or any forced node,
becomes its hash and is written to the store when there is one. -/
def store (h : Hasher) (blake2b : Bytes → Bytes32) (n : Node) (db : Option Writer) (path : Bytes)
    (force : Bool) : Node × Option Writer :=
  match n with
  | .nil | .hash _ => (n, db)
  | _ =>
    let enc := n.encode h.nonCrypto
    -- a non-crypto trie stores every node but a short node holding a value
    let force := if h.nonCrypto then
        match n with
        | .full _ _ => true
        | .short _ v _ => !v.isValue || force
        | _ => force
      else force
    if enc.length < hashLen ∧ !force then (n, db)
    else
      let ref : HashRef := match n.cache.1 with
        | some ref => ref
        | none => ⟨if h.nonCrypto then nonCryptoNodeHash else blake2b enc, 0⟩
      match db with
      | none => (.hash ref, none)
      | some db =>
        let blob := if h.extended then enc ++ n.encodeTrailing else enc
        let ref := if h.extended then { ref with seq := h.seq } else ref
        (.hash ref, some (db.put (nodeKey db.keyEncoder ref.hash.toList h.seq path) blob))

/-- What `hash` does without walking: the cached hash of a node that need not
be written, when there is one. -/
def cachedResult (h : Hasher) (n : Node) (db : Option Writer) (force : Bool) :
    Option (Node × Node) :=
  match n.cache with
  | (some ref, dirty, gen) =>
    if db.isNone then some (.hash ref, n)
    else if dirty then none
    else if !force then
      -- a node older than the cache lifetime is dropped for its hash
      if h.cacheGen - gen > h.cacheTTL then some (.hash ref, .hash ref) else some (.hash ref, n)
    -- an extended trie always stores its root
    else if !h.extended then some (.hash ref, n)
    else none
  | _ => none

/-- `hash`: the collapsed form of a node (its hash, or the node itself when
embedded), the node to keep in memory, and the store after the writes. -/
def hash (h : Hasher) (blake2b : Bytes → Bytes32) :
    Node → Option Writer → Bytes → Bool → Node × Node × Option Writer
  | n, db, path, force =>
    match h.cachedResult n db force with
    | some (hashed, cached) => (hashed, cached, db)
    | none =>
      -- `hashChildren`, then `store`
      let (collapsed, cached, db) : Node × Node × Option Writer :=
        match n with
        | .short key val flags =>
          if val.isValue then (.short (hexToCompact key) val flags, .short key val flags, db)
          else
            let (cv, cachedVal, db) := hash h blake2b val db (path ++ key) false
            (.short (hexToCompact key) cv flags, .short key cachedVal flags, db)
        | .full children flags =>
          let (cs, cached, db) := (List.finRange 16).foldl
            (fun (acc : (Fin 17 → Node) × (Fin 17 → Node) × Option Writer) i =>
              if (children i.castSucc).isNil then acc
              else
                let (c, cc, db) := hash h blake2b (children i.castSucc) acc.2.2
                  (path ++ [i.val.toUInt8]) false
                (Function.update acc.1 i.castSucc c, Function.update acc.2.1 i.castSucc cc, db))
            (children, children, db)
          (.full cs flags, .full cached flags, db)
        | n => (n, n, db)
      let (hashed, db') := h.store blake2b collapsed db path force
      let ref := match hashed with
        | .hash ref => some ref
        | _ => none
      (hashed, cached.withFlags ref db'.isSome, db')

end Hasher

namespace Trie

/-- `New`: a trie at a committed root, loaded from the store; the zero hash and
the empty root are the empty trie. -/
def new (blake2b : Bytes → Bytes32) (root : Bytes32) (db : Database) : Except TrieError Trie :=
  let t : Trie := ⟨.nil, db, 0, 0⟩
  if root ≠ Vector.replicate 32 0 ∧ root ≠ emptyRoot blake2b then
    (t.resolveHash ⟨root, 0⟩ []).map fun rootnode => { t with root := rootnode }
  else .ok t

/-- `hashRoot`: the root collapsed by a plain hasher. -/
def hashRoot (t : Trie) (blake2b : Bytes → Bytes32) (db : Option Writer) :
    Node × Node × Option Writer :=
  match t.root with
  | .nil => (.hash ⟨emptyRoot blake2b, 0⟩, .nil, db)
  | root => (Hasher.mk t.cacheGen t.cacheTTL false 0 false).hash blake2b root db [] true

/-- The hash a collapsed root stands for. -/
def rootHash : Node → Bytes32
  | .hash ref => ref.hash
  | _ => Vector.replicate 32 0

/-- `Hash`: the root hash; the root keeps the hashes computed. -/
def hash (t : Trie) (blake2b : Bytes → Bytes32) : Bytes32 × Trie :=
  let (hashed, cached, _) := t.hashRoot blake2b none
  (rootHash hashed, { t with root := cached })

/-- `Commit`: write every changed node to the trie's store and start a new
cache generation. -/
def commit (t : Trie) (blake2b : Bytes → Bytes32) : Bytes32 × Trie :=
  let (hashed, cached, w) := t.hashRoot blake2b (some ⟨t.db.keyEncoder, []⟩)
  let puts := (w.map Writer.puts).getD []
  (rootHash hashed, { t with root := cached, db := t.db.putAll puts, cacheGen := t.cacheGen + 1 })

end Trie

end Workshare
