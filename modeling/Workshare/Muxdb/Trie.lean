import Workshare.Muxdb.Cache

/-!
# Managed tries

`muxdb/internal/trie/trie.go`: an extended trie whose nodes live in a shared
backend. A node is stored under a history key made of the trie name, the
node's path and its commit and distinct numbers. Reads look in the cache
first, then in the store under the history key and then under the deduplicated
key; a blob from the store must hash to the node's hash. `Stage` commits a
copy of the trie into a batch, and its commit writes the batch and installs
the new root.

The key encoder of a managed trie hands the hash, sequence and path of a node
to the read or write that follows through variables of its closure; here they
are carried in the key itself (`nodeRef`). A read also fills the queried-node
cache with what it loaded from the store; that only spares later reads the
store and is left out.
-/
namespace Workshare.Muxdb

/-- The key a managed trie's database gets for a node: its hash, sequence and path. -/
def nodeRef (hash : Bytes) (seq : UInt64) (path : Bytes) : Bytes :=
  hash ++ appendUint32 (appendUint32 [] (seq >>> 32).toUInt32) seq.toUInt32 ++ path

/-- The hash, sequence and path back from a `nodeRef` key (hashes are 32 bytes). -/
def refHash (key : Bytes) : Bytes := key.take 32

def refSeq (key : Bytes) : UInt64 :=
  ((beUint32 (key.drop 32)).toUInt64 <<< 32) ||| (beUint32 (key.drop 36)).toUInt64

def refPath (key : Bytes) : Bytes := key.drop 40

/-- The loop of `encodePath`: four nibbles to two bytes, and a last group of
fewer than four in a tagged form. -/
def encodePathLoop : Bytes → Bytes
  | [] => [0]
  | [a] => [(a <<< 3) ||| 1]
  | [a, b] => appendUint16 [] ((0x8000 : UInt16) ||| (((a.toUInt16 <<< 4) ||| b.toUInt16) <<< 7))
  | [a, b, c] =>
    appendUint16 [] ((0x8000 : UInt16) ||| ((((a.toUInt16 <<< 8) ||| (b.toUInt16 <<< 4)) ||| c.toUInt16) <<< 3) ||| 1)
  | a :: b :: c :: d :: rest => ((a <<< 4) ||| b) :: ((c <<< 4) ||| d) :: encodePathLoop rest

/-- `encodePath`: the number of groups of four, then the groups; it panics
beyond 255 groups. -/
def encodePath (dst path : Bytes) : Option Bytes :=
  if path.length / 4 > 255 then none
  else some (dst ++ (path.length / 4).toUInt8 :: encodePathLoop path)

/-- `string(b)` of a byte: its UTF-8 encoding as a rune. -/
def runeBytes (b : UInt8) : Bytes :=
  if b < 0x80 then [b] else [(0xC0 : UInt8) ||| (b >>> 6), (0x80 : UInt8) ||| (b &&& 0x3F)]

/-- `LeafBank`; only its key space is used here. -/
structure LeafBank where
  space : UInt8

/-- `LogDeletions`: one empty entry per deleted key under the deletion journal
of the trie and commit number. -/
def LeafBank.logDeletions (b : LeafBank) (name : Bytes) (keys : List Bytes) (commitNum : UInt32) :
    List (Bytes × Bytes) :=
  let bucket := appendUint32 (runeBytes b.space ++ [0x64] ++ name) commitNum
  keys.map fun k => (bucket ++ k, [])

/-- `Backend`; the partition factors divide commit numbers and are never zero. -/
structure Backend where
  store : Bytes → Option Bytes
  cache : Option Cache
  leafBank : Option LeafBank
  histSpace : UInt8
  dedupedSpace : UInt8
  histPtnFactor : UInt32
  dedupedPtnFactor : UInt32
  cachedNodeTTL : UInt16
  histPtnFactor_ne : histPtnFactor ≠ 0
  dedupedPtnFactor_ne : dedupedPtnFactor ≠ 0

/-- A batch written to the store, in order. -/
def applyPuts (store : Bytes → Option Bytes) (puts : List (Bytes × Bytes)) : Bytes → Option Bytes :=
  puts.foldl (fun s kv => Function.update s kv.1 (some kv.2)) store

/-- `trie.Trie` of the managed tries. The database of `ext` is rebuilt over the
backend each time the trie is used. -/
structure Trie where
  name : Bytes
  ext : ExtendedTrie
  dirty : Bool
  deletions : List Bytes
  noFillCache : Bool

namespace Trie

/-- `makeHistNodeKey`. -/
def makeHistNodeKey (t : Trie) (back : Backend) (seq : UInt64) (path : Bytes) : Option Bytes :=
  let commitNum := commitNumOf seq
  (encodePath (appendUint32 [back.histSpace] (commitNum / back.histPtnFactor) ++ t.name) path).map
    fun k => appendUint32 (appendUint32 k (commitNum % back.histPtnFactor)) (distinctNumOf seq)

/-- `makeDedupedNodeKey`. -/
def makeDedupedNodeKey (t : Trie) (back : Backend) (seq : UInt64) (path : Bytes) : Option Bytes :=
  encodePath (appendUint32 [back.dedupedSpace] (commitNumOf seq / back.dedupedPtnFactor) ++ t.name) path

/-- The read of `newDatabase`: a cached blob, else the blob stored under the
history key, else under the deduplicated key; a blob from the store must hash
to the node's hash unless the trie is non-crypto. -/
def readNode (t : Trie) (back : Backend) (blake2b : Bytes → Bytes32) (hash : Bytes) (seq : UInt64)
    (path : Bytes) : Option Bytes :=
  let cached := getNodeBlob back.cache t.name seq path
  if cached ≠ [] then some cached
  else
    let stored : Option Bytes := (t.makeHistNodeKey back seq path).bind fun hk =>
      match back.store hk with
      | some v => some v
      | none => (t.makeDedupedNodeKey back seq path).bind back.store
    stored.bind fun blob =>
      if t.ext.nonCrypto then some blob
      else if verifyNodeHash blake2b blob hash = .ok true then some blob else none

/-- `newDatabase`. -/
def newDatabase (t : Trie) (back : Backend) (blake2b : Bytes → Bytes32) : Database :=
  ⟨fun key => t.readNode back blake2b (refHash key) (refSeq key) (refPath key), some nodeRef⟩

/-- The extended trie over the backend as it is now. -/
def withDatabase (t : Trie) (back : Backend) (blake2b : Bytes → Bytes32) : ExtendedTrie :=
  { t.ext with trie := { t.ext.trie with db := t.newDatabase back blake2b } }

end Trie

/-- The database an extended trie is built with before its first use. -/
def unsetDatabase : Database := ⟨fun _ => none, none⟩

/-- `New`: the root node cached for the name and sequence, else the root hash. -/
def new (back : Backend) (name : Bytes) (blake2b : Bytes → Bytes32) (root : Bytes32)
    (commitNum distinctNum : UInt32) (nonCrypto : Bool) : Trie × Backend :=
  let seq := makeSequence commitNum distinctNum
  let (cached, cache) := getRootNode back.cache name seq
  let ext := match cached with
    | some rootNode => ExtendedTrie.newCached rootNode unsetDatabase nonCrypto
    | none => ExtendedTrie.new blake2b root seq unsetDatabase nonCrypto
  (⟨name, ext.setCacheTTL back.cachedNodeTTL, false, [], false⟩, { back with cache })

namespace Trie

/-- `Copy`. -/
def copy (t : Trie) (back : Backend) : Trie :=
  let ext := ExtendedTrie.newCached t.ext.rootNode unsetDatabase t.ext.nonCrypto
  { t with ext := ext.setCacheTTL back.cachedNodeTTL }

/-- `Get`. -/
def get (t : Trie) (back : Backend) (blake2b : Bytes → Bytes32) (key : Bytes) :
    Except TrieError (Bytes × Bytes) × Trie :=
  let (r, e) := (t.withDatabase back blake2b).get key
  (r, { t with ext := e })

/-- `Update`: the trie is marked dirty and a deletion is journaled (with a leaf
bank) before the update, also when the update fails. -/
def update (t : Trie) (back : Backend) (blake2b : Bytes → Bytes32) (key val metadata : Bytes) :
    Except TrieError Unit × Trie :=
  let t := { t with
    dirty := true
    deletions := if val.length = 0 ∧ back.leafBank.isSome then t.deletions ++ [key] else t.deletions }
  match (t.withDatabase back blake2b).update key val metadata with
  | .ok e => (.ok (), { t with ext := e })
  | .error e => (.error e, t)

/-- What a `Stage` leaves to its commit: the batch of node writes and the root
node of the committed copy. -/
structure Staged where
  batch : List (Bytes × Bytes)
  rootNode : RootNode

/-- `Stage`: commit a copy of the trie with the new sequence. Every node it
writes goes to the batch under its history key and, unless cache filling is
off, into the committed-node cache at once. -/
def stage (t : Trie) (back : Backend) (blake2b : Bytes → Bytes32) (newCommitNum newDistinctNum : UInt32) :
    Except TrieError (Bytes32 × Backend × Staged) :=
  let newSeq := makeSequence newCommitNum newDistinctNum
  ((t.withDatabase back blake2b).commitTo blake2b ⟨some nodeRef, []⟩ newSeq).bind fun (root, extCpy, w) =>
  (w.puts.foldlM (fun (acc : Backend × List (Bytes × Bytes)) (put : Bytes × Bytes) =>
      let path := refPath put.1
      match t.makeHistNodeKey back newSeq path with
      | none => Except.error TrieError.pathTooLong
      | some hk =>
        let cache := if t.noFillCache then acc.1.cache
          else addNodeBlob acc.1.cache t.name newSeq path put.2 true
        Except.ok ({ acc.1 with cache }, acc.2 ++ [(hk, put.2)]))
    (back, [])).map fun (back, batch) => (root, back, ⟨batch, extCpy.rootNode⟩)

/-- The commit returned by `Stage`: journal the deletions, write the batch,
and install the committed root in the trie and the root cache. -/
def commitStaged (t : Trie) (back : Backend) (s : Staged) (newCommitNum : UInt32) : Trie × Backend :=
  let journal := match back.leafBank with
    | some lb => lb.logDeletions t.name t.deletions newCommitNum
    | none => []
  let store := applyPuts back.store (s.batch ++ journal)
  let cache := if t.noFillCache then back.cache else (addRootNode back.cache t.name s.rootNode).2
  ({ t with dirty := false, deletions := [], ext := t.ext.setRootNode s.rootNode },
    { back with store, cache })

/-- Two stages at commit number 1 and distinct number 0 over one backend: the
first is committed, the second (another trie from the empty root) is dropped.
Four more commits of the first trie leave only later roots in the root cache
and only later blobs at the paths they rewrite. The trie reopened at the first
root then reads the dropped stage's node at the path of key `0x10` from the
committed-node cache, and returns its value. -/
theorem get_after_discarded_stage :
    (do
      let h := bytesToBytes32
      let back : Backend := ⟨fun _ => none, some Cache.empty, none, 0, 1, 1, 1, 32, by decide, by decide⟩
      let (a, back) := new back [0x61] h (Vector.replicate 32 0) 0 0 false
      let (_, a) := a.update back h [0x10] (List.replicate 40 1) []
      let (_, a) := a.update back h [0x20] (List.replicate 40 1) []
      let (rootA, back, sa) ← a.stage back h 1 0
      let (a, back) := a.commitStaged back sa 1
      let (b, back) := new back [0x61] h (Vector.replicate 32 0) 0 0 false
      let (_, b) := b.update back h [0x10] (List.replicate 40 2) []
      let (_, b) := b.update back h [0x20] (List.replicate 40 1) []
      let (_, back, _) ← b.stage back h 1 0
      let (_, a) := a.update back h [0x20] [2] []
      let (_, back, s) ← a.stage back h 2 0
      let (a, back) := a.commitStaged back s 2
      let (_, a) := a.update back h [0x20] [3] []
      let (_, back, s) ← a.stage back h 3 0
      let (a, back) := a.commitStaged back s 3
      let (_, a) := a.update back h [0x20] [4] []
      let (_, back, s) ← a.stage back h 4 0
      let (a, back) := a.commitStaged back s 4
      let (_, a) := a.update back h [0x20] [5] []
      let (_, back, s) ← a.stage back h 5 0
      let (_, back) := a.commitStaged back s 5
      let (r, back) := new back [0x61] h rootA 1 0 false
      (r.get back h [0x10]).1) = .ok (List.replicate 40 2, []) := by
  decide +kernel

end Trie

end Workshare.Muxdb
