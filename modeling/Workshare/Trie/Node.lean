import Workshare.Rlp
import Workshare.Trie.Key

/-!
# Trie nodes and their encoding

The four node kinds of `trie/node.go`: a full node with 17 children (16
nibbles and the value slot), a short node with a key and one child, a hash
node standing for a node stored apart, and a value node with the value's
metadata (`meta`). `nil` is the absent node.

A node is stored as its RLP encoding, the consensus format that its hash is
taken over, followed by a trailing stream: the commit sequence of every hash
node and the metadata of every value, in encoding order. Decoding reads the
node and consumes the stream in the same order.
-/
namespace Workshare

/-- A `hashNode`: the hash of a stored node and the sequence it was committed with. -/
structure HashRef where
  hash : Bytes32
  seq : UInt64
  deriving DecidableEq, Repr

/-- `nodeFlag`: the cached hash, whether the node has changes to store, and the
cache generation it was created or loaded in. -/
structure NodeFlag where
  hash : Option HashRef
  dirty : Bool
  gen : UInt16
  deriving DecidableEq, Repr

/-- A full node's children are indexed by `Fin 17`, the value slot last; the
instance names the proof that lets `16` be written for it. -/
instance (priority := high) neZeroSeventeen : NeZero (17 : ℕ) := ⟨by decide⟩

/-- `trie.node`. -/
inductive Node
  | nil
  | full (children : Fin 17 → Node) (flags : NodeFlag)
  | short (key : Bytes) (val : Node) (flags : NodeFlag)
  | hash (ref : HashRef)
  | value (value metadata : Bytes)

/-- `NonCryptoNodeHash`: the hash every node of a non-crypto trie gets. -/
def nonCryptoNodeHash : Bytes32 := Vector.replicate 32 0xff

/-- The width of a hash. -/
def hashLen : ℕ := 32

namespace Node

/-- Whether the node is absent. -/
def isNil : Node → Bool
  | nil => true
  | _ => false

/-- `cache`: the cached hash, dirty flag and generation. -/
def cache : Node → Option HashRef × Bool × UInt16
  | full _ flags => (flags.hash, flags.dirty, flags.gen)
  | short _ _ flags => (flags.hash, flags.dirty, flags.gen)
  | _ => (none, true, 0)

/-- `seqNum`. -/
def seqNum : Node → UInt64
  | full _ flags => (flags.hash.map (·.seq)).getD 0
  | short _ _ flags => (flags.hash.map (·.seq)).getD 0
  | hash ref => ref.seq
  | _ => 0

/-- `encode`: the consensus encoding; an absent child is the empty string, and
in a non-crypto trie a hash is the one-byte placeholder. -/
def encode (nonCrypto : Bool) : Node → Bytes
  | nil => [0x80]
  | full children _ => Rlp.encodeList ((List.finRange 17).flatMap fun i => encode nonCrypto (children i))
  | short key val _ => Rlp.encodeList (Rlp.encodeString key ++ encode nonCrypto val)
  | hash ref => if nonCrypto then Rlp.encodeString [0] else Rlp.encodeString ref.hash.toList
  | value v _ => Rlp.encodeString v

/-- `encodeTrailing`: the sequences of hash nodes and the metadata of non-empty
values, in encoding order. -/
def encodeTrailing : Node → Bytes
  | nil => []
  | full children _ => (List.finRange 17).flatMap fun i => encodeTrailing (children i)
  | short _ val _ => encodeTrailing val
  | hash ref => Rlp.encodeUint ref.seq.toNat
  | value v metadata => if v.length > 0 then Rlp.encodeString metadata else []

end Node

/-- The errors of decoding a stored node; `mustDecodeNode` panics on each. -/
inductive DecodeError
  | rlp (e : Rlp.Error)
  | unexpectedEOF
  | seqTooLong
  | invalidCount (c : ℕ)
  | oversizedEmbedded (size : ℕ)
  | invalidRefSize (size : ℕ)
  | trailingNotConsumed
  deriving DecidableEq, Repr

/-- `trailing.next`: the next string of the stream; a missing stream reads as
empty strings forever. -/
def trailingNext : Option Bytes → Except DecodeError (Bytes × Option Bytes)
  | none => .ok ([], none)
  | some [] => .error .unexpectedEOF
  | some t => ((Rlp.splitString t).mapError .rlp).map fun (content, rest) => (content, some rest)

/-- `NextSeq`: at most eight big-endian bytes. -/
def nextSeq (t : Option Bytes) : Except DecodeError (UInt64 × Option Bytes) :=
  (trailingNext t).bind fun (content, t) =>
    if content.length > 8 then .error .seqTooLong
    else .ok (content.foldl (fun seq b => seq <<< 8 ||| b.toUInt64) 0, t)

/-- `NextMeta`. -/
def nextMeta (t : Option Bytes) : Except DecodeError (Bytes × Option Bytes) := trailingNext t

mutual

/-- `decodeNode` of the first list of `buf`: a short node has two items, a full
node seventeen. The fuel bounds the nesting of embedded nodes. -/
def decodeNode : ℕ → Option HashRef → Bytes → Option Bytes → UInt16 →
    Except DecodeError (Node × Option Bytes)
  | 0, _, _, _, _ => .error .unexpectedEOF
  | fuel + 1, hash, buf, trailing, cacheGen =>
    if buf.isEmpty then .error .unexpectedEOF
    else
      ((Rlp.splitList buf).mapError .rlp).bind fun (elems, _) =>
      let flag : NodeFlag := ⟨hash, false, cacheGen⟩
      match (Rlp.countValues elems).toOption.getD 0 with
      | 2 =>
        ((Rlp.splitString elems).mapError .rlp).bind fun (kbuf, rest) =>
        let key := compactToHex kbuf
        if hasTerm key then
          ((Rlp.splitString rest).mapError .rlp).bind fun (val, _) =>
          (nextMeta trailing).map fun (metadata, trailing) =>
            (.short key (.value val metadata) flag, trailing)
        else
          (decodeRef fuel rest trailing cacheGen).map fun (r, _, trailing) =>
            (.short key r flag, trailing)
      | 17 =>
        -- the sixteen nibble children, in order, then the value slot
        ((List.range 16).foldlM (fun (acc : List Node × Bytes × Option Bytes) _ =>
            (decodeRef fuel acc.2.1 acc.2.2 cacheGen).map fun (cld, rest, trailing) =>
              (acc.1 ++ [cld], rest, trailing))
          ([], elems, trailing)).bind fun (children, elems, trailing) =>
        ((Rlp.splitString elems).mapError .rlp).bind fun (val, _) =>
        if val.length > 0 then
          (nextMeta trailing).map fun (metadata, trailing) =>
            (.full (fun i => (children ++ [Node.value val metadata]).getD i.val .nil) flag, trailing)
        else .ok (.full (fun i => children.getD i.val .nil) flag, trailing)
      | c => .error (.invalidCount c)

/-- `decodeRef`: an embedded node (a list shorter than a hash), the empty
string for an absent child, or a hash with the next sequence of the stream. -/
def decodeRef : ℕ → Bytes → Option Bytes → UInt16 → Except DecodeError (Node × Bytes × Option Bytes)
  | 0, _, _, _ => .error .unexpectedEOF
  | fuel + 1, buf, trailing, cacheGen =>
    ((Rlp.split buf).mapError .rlp).bind fun (kind, val, rest) =>
    if kind = .list then
      let size := buf.length - rest.length
      if size > hashLen then .error (.oversizedEmbedded size)
      else (decodeNode fuel none buf trailing cacheGen).map fun (n, trailing) => (n, rest, trailing)
    else if val.length = 0 then .ok (.nil, rest, trailing)
    else
      (nextSeq trailing).bind fun (seq, trailing) =>
      if val.length = 32 then .ok (.hash ⟨bytesToBytes32 val, seq⟩, rest, trailing)
      else if val.length = 1 ∧ val.headD 1 = 0 then .ok (.hash ⟨nonCryptoNodeHash, seq⟩, rest, trailing)
      else .error (.invalidRefSize val.length)

end

/-- `mustDecodeNode`: the node of a stored blob, its trailing stream fully consumed. -/
def mustDecodeNode (hash : HashRef) (blob : Bytes) (cacheGen : UInt16) : Except DecodeError Node :=
  ((Rlp.split blob).mapError .rlp).bind fun (_, _, rest) =>
  let trailing := if rest.isEmpty then none else some rest
  (decodeNode (blob.length + 1) (some hash) (blob.take (blob.length - rest.length)) trailing
    cacheGen).bind fun (n, trailing) =>
  match trailing with
  | some (_ :: _) => .error .trailingNotConsumed
  | _ => .ok n

/-- `VerifyNodeHash`: whether the node part of a stored blob, before its
trailing stream, hashes to the expected hash. -/
def verifyNodeHash (blake2b : Bytes → Bytes32) (blob expectedHash : Bytes) : Except Rlp.Error Bool :=
  (Rlp.split blob).map fun (_, _, trailing) =>
    expectedHash == (blake2b (blob.take (blob.length - trailing.length))).toList

end Workshare
