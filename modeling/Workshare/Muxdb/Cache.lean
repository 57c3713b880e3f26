import Workshare.Trie.Extended

/-!
# The cache of managed tries

`muxdb/internal/trie/cache.go`. Node blobs read from the store are kept under
trie name, path, distinct number and commit number. Node blobs being committed
are kept under trie name, path and distinct number only, with the commit
number stored in front of the blob and compared on lookup. Recent root nodes
are kept four per trie name, most recent first.

The two blob caches are bounded in Go and evict; here they are maps, which is
what they are for every run that stays within their size. The outer cache of
root lists is likewise a map from names.
-/
namespace Workshare.Muxdb

/-- `makeSequence`: the commit number in the low half, the distinct number in the high half. -/
def makeSequence (commitNum distinctNum : UInt32) : UInt64 :=
  commitNum.toUInt64 ||| (distinctNum.toUInt64 <<< 32)

/-- `sequence.CommitNum`. -/
def commitNumOf (seq : UInt64) : UInt32 := seq.toUInt32

/-- `sequence.DistinctNum`. -/
def distinctNumOf (seq : UInt64) : UInt32 := (seq >>> 32).toUInt32

/-- `appendUint32`: four big-endian bytes. -/
def appendUint32 (b : Bytes) (v : UInt32) : Bytes :=
  b ++ [(v >>> 24).toUInt8, (v >>> 16).toUInt8, (v >>> 8).toUInt8, v.toUInt8]

/-- `appendUint16`. -/
def appendUint16 (b : Bytes) (v : UInt16) : Bytes :=
  b ++ [(v >>> 8).toUInt8, v.toUInt8]

/-- `binary.BigEndian.Uint32` of the first four bytes. -/
def beUint32 (b : Bytes) : UInt32 :=
  (b.take 4).foldl (fun acc x => (acc <<< 8) ||| x.toUInt32) 0

/-- `trie.Cache`. -/
structure Cache where
  queriedNodes : Bytes → Option Bytes
  committedNodes : Bytes → Option Bytes
  roots : Bytes → List (UInt64 × RootNode)

namespace Cache

/-- `NewCache`. -/
def empty : Cache := ⟨fun _ => none, fun _ => none, fun _ => []⟩

/-- The key both blob caches start from: name, path and distinct number. -/
def nodeKey (name : Bytes) (seq : UInt64) (path : Bytes) : Bytes :=
  appendUint32 (name ++ path) (distinctNumOf seq)

end Cache

/-- `lru.Cache.Add` on a list of four: the entry goes to the front, replacing
one with its key, and the oldest beyond four is dropped. -/
def lruAdd {α : Type} (l : List (UInt64 × α)) (key : UInt64) (v : α) : List (UInt64 × α) :=
  ((key, v) :: l.filter (·.1 != key)).take 4

/-- `lru.Cache.Get`: a hit moves to the front. -/
def lruGet {α : Type} (l : List (UInt64 × α)) (key : UInt64) : Option α × List (UInt64 × α) :=
  match l.find? (·.1 == key) with
  | some e => (some e.2, e :: l.filter (·.1 != key))
  | none => (none, l)

/-- `AddNodeBlob`; a nil cache is left alone. -/
def addNodeBlob (c : Option Cache) (name : Bytes) (seq : UInt64) (path blob : Bytes)
    (isCommitting : Bool) : Option Cache :=
  c.map fun c =>
    let k := Cache.nodeKey name seq path
    if isCommitting then
      { c with committedNodes :=
          Function.update c.committedNodes k (some (appendUint32 [] (commitNumOf seq) ++ blob)) }
    else
      { c with queriedNodes := Function.update c.queriedNodes (appendUint32 k (commitNumOf seq)) (some blob) }

/-- `GetNodeBlob`: the committing blob when its commit number is the one asked
for, else a queried blob; empty when neither is there. -/
def getNodeBlob (c : Option Cache) (name : Bytes) (seq : UInt64) (path : Bytes) : Bytes :=
  match c with
  | none => []
  | some c =>
    let k := Cache.nodeKey name seq path
    let committed := match c.committedNodes k with
      | some b => if beUint32 b = commitNumOf seq then b.drop 4 else []
      | none => []
    if committed ≠ [] then committed
    else (c.queriedNodes (appendUint32 k (commitNumOf seq))).getD []

/-- `AddRootNode`: a dirty root is not cached. -/
def addRootNode (c : Option Cache) (name : Bytes) (n : RootNode) : Bool × Option Cache :=
  match c with
  | none => (false, none)
  | some c =>
    if n.dirty then (false, some c)
    else (true, some { c with roots := Function.update c.roots name (lruAdd (c.roots name) n.seqNum n) })

/-- `GetRootNode` (not peeking): a hit becomes the most recent root of its name. -/
def getRootNode (c : Option Cache) (name : Bytes) (seq : UInt64) : Option RootNode × Option Cache :=
  match c with
  | none => (none, none)
  | some c =>
    let (found, l) := lruGet (c.roots name) seq
    (found, some { c with roots := Function.update c.roots name l })

end Workshare.Muxdb
