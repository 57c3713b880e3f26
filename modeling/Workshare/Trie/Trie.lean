import Workshare.Trie.Node

/-!
# The Merkle Patricia trie

`trie.Trie` over a key-value store: lookups, insertions and deletions on the
nodes in memory, loading a stored node when they reach its hash. A store that
implements `DatabaseKeyEncoder` keys a node by hash, sequence and path;
otherwise the key is the hash.

A walk loads at most one node for each nibble of its key and one more, on a
trie whose short nodes have keys (the trie never builds another): the walks
below take that many loads as fuel, and a walk that needs more stops with
`loadLimit`. An index that Go would read out of range is `outOfRange`, and a
node path too long for a managed trie's store keys is `pathTooLong`; both panic
in Go.
-/
namespace Workshare

/-- The key a node is stored under: its hash, or what a `DatabaseKeyEncoder`
makes of its hash, sequence and path. -/
def nodeKey (keyEncoder : Option (Bytes → UInt64 → Bytes → Bytes)) (hash : Bytes) (seq : UInt64)
    (path : Bytes) : Bytes :=
  match keyEncoder with
  | some encode => encode hash seq path
  | none => hash

/-- The backing store: what it holds under each key, and its key encoder when
it is a `DatabaseKeyEncoder`. -/
structure Database where
  kv : Bytes → Option Bytes
  keyEncoder : Option (Bytes → UInt64 → Bytes → Bytes)

namespace Database

/-- `Put`. -/
def put (db : Database) (key value : Bytes) : Database :=
  { db with kv := Function.update db.kv key (some value) }

/-- The puts of a commit, in order. -/
def putAll (db : Database) (puts : List (Bytes × Bytes)) : Database :=
  puts.foldl (fun db kv => db.put kv.1 kv.2) db

end Database

/-- The errors of the trie. -/
inductive TrieError
  | missingNode (hash : HashRef) (path : Bytes)
  | decode (e : DecodeError)
  | outOfRange
  | loadLimit
  | pathTooLong
  deriving DecidableEq, Repr

/-- `trie.Trie`. -/
structure Trie where
  root : Node
  db : Database
  cacheGen : UInt16
  cacheTTL : UInt16

/-- The child of a full node a nibble selects, if the nibble is an index. -/
def childIndex (i : UInt8) : Option (Fin 17) :=
  if h : i.toNat < 17 then some ⟨i.toNat, h⟩ else none

theorem childIndex_eq_some {i : UInt8} {j : Fin 17} : childIndex i = some j ↔ i = j.val.toUInt8 := by
  unfold childIndex
  split
  · constructor
    · rintro ⟨⟩
      simp
    · rintro rfl
      simp only [Option.some.injEq, Fin.ext_iff]
      simp; omega
  · rename_i h
    simp only [reduceCtorEq, false_iff]
    rintro rfl
    simp at h; omega

@[simp] theorem childIndex_toUInt8 (j : Fin 17) : childIndex j.val.toUInt8 = some j :=
  childIndex_eq_some.mpr rfl

theorem toUInt8_inj {a b : Fin 17} (h : a.val.toUInt8 = b.val.toUInt8) : a = b := by
  have := congrArg UInt8.toNat h
  simp at this
  omega

namespace Trie

/-- `newFlag`. -/
def newFlag (t : Trie) : NodeFlag := ⟨none, true, t.cacheGen⟩

/-- `resolveHash`: load and decode the node stored for a hash. -/
def resolveHash (t : Trie) (n : HashRef) (pfx : Bytes) : Except TrieError Node :=
  match t.db.kv (nodeKey t.db.keyEncoder n.hash.toList n.seq pfx) with
  | none | some [] => .error (.missingNode n pfx)
  | some blob => (mustDecodeNode n blob t.cacheGen).mapError .decode

/-- `resolve`: a hash node loaded, any other node as it is. -/
def resolve (t : Trie) (n : Node) (pfx : Bytes) : Except TrieError Node :=
  match n with
  | .hash ref => t.resolveHash ref pfx
  | n => .ok n

/-- What `tryGet` returns: the value and metadata found, the node with what it
loaded, and the error that stopped it. -/
abbrev GetResult := Option (Bytes × Bytes) × Node × Option TrieError

/-- `tryGet` above the hash nodes; `onHash` goes on at a hash node. -/
def tryGetIn (onHash : HashRef → Bytes → ℕ → GetResult) : Node → Bytes → ℕ → GetResult
  | .nil, _, _ => (none, .nil, none)
  | .value v m, _, _ => (some (v, m), .value v m, none)
  | .short k v flags, key, pos =>
    if key.length - pos < k.length ∨ k ≠ (key.drop pos).take k.length then (none, .short k v flags, none)
    else
      let (value, nn, err) := tryGetIn onHash v key (pos + k.length)
      (value, .short k nn flags, err)
  | .full children flags, key, pos =>
    match key[pos]?.bind childIndex with
    | none => (none, .full children flags, some .outOfRange)
    | some i =>
      let (value, nn, err) := tryGetIn onHash (children i) key (pos + 1)
      (value, .full (Function.update children i nn) flags, err)
  | .hash ref, key, pos => onHash ref key pos

/-- `tryGet`: the value at `key` from position `pos`; a loaded node replaces its hash. -/
def tryGet (t : Trie) : ℕ → Node → Bytes → ℕ → GetResult
  | 0, n, key, pos => tryGetIn (fun ref _ _ => (none, .hash ref, some .loadLimit)) n key pos
  | fuel + 1, n, key, pos => tryGetIn (fun ref key pos =>
      match t.resolveHash ref (key.take pos) with
      | .error e => (none, .hash ref, some e)
      | .ok child => tryGet t fuel child key pos) n key pos

/-- What `insert` and `delete` return: whether the node changed, and the new node. -/
abbrev Change := Except TrieError (Bool × Node)

/-- `insert` into an absent node: the value itself at the end of the key, else
a short node leading to it. -/
def insertNil (t : Trie) (key : Bytes) (value : Node) : Change :=
  if key.isEmpty then .ok (true, value) else .ok (true, .short key value t.newFlag)

/-- `insert` above the hash nodes. `onHash` goes on at a hash node with the
prefix and key there. -/
def insertIn (t : Trie) (onHash : HashRef → Bytes → Bytes → Node → Change) :
    Node → Bytes → Bytes → Node → Change
  | n, pfx, key, value =>
    if key.isEmpty then
      match n, value with
      -- dirty when value or meta differ
      | .value v m, .value v' m' => .ok (v ≠ v' ∨ m ≠ m', value)
      | _, _ => .ok (true, value)
    else match n with
    | .short k v _ =>
      let matchlen := prefixLen key k
      if matchlen = k.length then
        (insertIn t onHash v (pfx ++ key.take matchlen) (key.drop matchlen) value).map fun (dirty, nn) =>
          if dirty then (true, .short k nn t.newFlag) else (false, n)
      else
        -- branch out at the index where the keys differ
        match k[matchlen]?.bind childIndex, key[matchlen]?.bind childIndex with
        | some ki, some i =>
          (t.insertNil (k.drop (matchlen + 1)) v).bind fun (_, c1) =>
          (t.insertNil (key.drop (matchlen + 1)) value).map fun (_, c2) =>
          let branch : Node := .full (Function.update (Function.update (fun _ => .nil) ki c1) i c2)
            t.newFlag
          if matchlen = 0 then (true, branch) else (true, .short (key.take matchlen) branch t.newFlag)
        | _, _ => .error .outOfRange
    | .full children _ =>
      match key.head?.bind childIndex with
      | none => .error .outOfRange
      | some i =>
        (insertIn t onHash (children i) (pfx ++ key.take 1) (key.drop 1) value).map fun (dirty, nn) =>
          if dirty then (true, .full (Function.update children i nn) t.newFlag) else (false, n)
    | .nil => .ok (true, .short key value t.newFlag)
    | .hash ref => onHash ref pfx key value
    | .value _ _ => .error .outOfRange

/-- `insert`: the value at `key` below the node reached by `pfx`; a hash node on
the way is loaded and, when nothing changes, stays loaded. -/
def insert (t : Trie) : ℕ → Node → Bytes → Bytes → Node → Change
  | 0, n, pfx, key, value => t.insertIn (fun _ _ _ _ => .error .loadLimit) n pfx key value
  | fuel + 1, n, pfx, key, value => t.insertIn (fun ref pfx key value =>
      (t.resolveHash ref pfx).bind fun rn =>
      (insert t fuel rn pfx key value).map fun (dirty, nn) =>
        if dirty then (true, nn) else (false, rn)) n pfx key value

/-- The only child of a full node, if it has exactly one. -/
def singleChild (children : Fin 17 → Node) : Option (Fin 17) :=
  match (List.finRange 17).filter fun i => !(children i).isNil with
  | [p] => some p
  | _ => none

/-- `delete` above the hash nodes; the trie is kept minimal on the way up. -/
def deleteIn (t : Trie) (onHash : HashRef → Bytes → Bytes → Change) : Node → Bytes → Bytes → Change
  | n@(.short k v _), pfx, key =>
    let matchlen := prefixLen key k
    if matchlen < k.length then .ok (false, n)
    else if matchlen = key.length then .ok (true, .nil)
    else
      (deleteIn t onHash v (pfx ++ key.take k.length) (key.drop k.length)).map fun (dirty, child) =>
        if !dirty then (false, n)
        else match child with
          -- merge the short nodes
          | .short ck cv _ => (true, .short (k ++ ck) cv t.newFlag)
          | child => (true, .short k child t.newFlag)
  | n@(.full children _), pfx, key =>
    match key.head?.bind childIndex with
    | none => .error .outOfRange
    | some i =>
      (deleteIn t onHash (children i) (pfx ++ key.take 1) (key.drop 1)).bind fun (dirty, nn) =>
      if !dirty then .ok (false, n)
      else
        let children := Function.update children i nn
        match singleChild children with
        | some p =>
          -- one child left: a short node replaces the full node, merged with
          -- the child when that is a short node, loaded for the check
          if p.val ≠ 16 then
            (t.resolve (children p) (pfx ++ [p.val.toUInt8])).map fun cnode =>
              match cnode with
              | .short ck cv _ => (true, .short (p.val.toUInt8 :: ck) cv t.newFlag)
              | _ => (true, .short [p.val.toUInt8] (children p) t.newFlag)
          else .ok (true, .short [p.val.toUInt8] (children p) t.newFlag)
        | none => .ok (true, .full children t.newFlag)
  | .value _ _, _, _ => .ok (true, .nil)
  | .nil, _, _ => .ok (false, .nil)
  | .hash ref, pfx, key => onHash ref pfx key

/-- `delete`. -/
def delete (t : Trie) : ℕ → Node → Bytes → Bytes → Change
  | 0, n, pfx, key => t.deleteIn (fun _ _ _ => .error .loadLimit) n pfx key
  | fuel + 1, n, pfx, key => t.deleteIn (fun ref pfx key =>
      (t.resolveHash ref pfx).bind fun rn =>
      (delete t fuel rn pfx key).map fun (dirty, nn) =>
        if dirty then (true, nn) else (false, rn)) n pfx key

/-- The loads a walk along a key may need. -/
def walkFuel (key : Bytes) : ℕ := (keybytesToHex key).length + 1

/-- `TryGet`, with the trie whose root keeps what the walk loaded, also on failure. -/
def tryGetKey (t : Trie) (key : Bytes) : Except TrieError (Option (Bytes × Bytes)) × Trie :=
  let (value, newroot, err) := t.tryGet (walkFuel key) t.root (keybytesToHex key) 0
  let t := { t with root := newroot }
  match err with
  | some e => (.error e, t)
  | none => (.ok value, t)

/-- `TryUpdate` with a value node: an empty value deletes the key. -/
def tryUpdateNode (t : Trie) (key : Bytes) (value : Bytes) (metadata : Bytes) : Except TrieError Trie :=
  let k := keybytesToHex key
  if value.length ≠ 0 then
    (t.insert (walkFuel key) t.root [] k (.value value metadata)).map fun (_, n) => { t with root := n }
  else (t.delete (walkFuel key) t.root [] k).map fun (_, n) => { t with root := n }

/-- `TryUpdate`: a value without metadata. -/
def tryUpdate (t : Trie) (key value : Bytes) : Except TrieError Trie := t.tryUpdateNode key value []

/-- `TryDelete`. -/
def tryDelete (t : Trie) (key : Bytes) : Except TrieError Trie :=
  (t.delete (walkFuel key) t.root [] (keybytesToHex key)).map fun (_, n) => { t with root := n }

end Trie

end Workshare
