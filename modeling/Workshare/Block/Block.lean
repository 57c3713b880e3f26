import Workshare.Tx.Codec

/-!
# The block wire format

`Header.EncodeRLP` writes the `headerBody` struct and `DecodeRLP` reads it
back; a block is the list of its header and its transactions. Two fields of
the header have encoders of their own, kept for blocks written before they
existed: `txsRootFeatures` is the bare root while the features are zero and
the struct of the root and the features otherwise, and `extension` is left
out of the header's list while its alpha is empty.

Their decoders are not the inverses of their encoders on all inputs.
`extension` reads the end of the header's list as no alpha and refuses an
empty one, which its encoder never writes: on it the two agree. But
`txsRootFeatures` reads any list as the struct, so the struct of a root and
zero features, which the encoder writes as the bare root, is accepted too:
every header with no features has a second encoding, two bytes longer, that
decodes to it. Everything else a block decoder accepts is the encoding of
what it decodes to, up to the nil pointers of its transactions.
-/
namespace Workshare

open Rlp

/-- `txsRootFeatures`: the root of the block's transactions and the features they may use. -/
structure TxsRootFeatures where
  root : Bytes32
  features : UInt32
  deriving DecidableEq, Repr

/-- The content of a list that opens a list of fewer than `2 ^ 64` bytes is
shorter than that too. -/
theorem length_lt_of_encodeList_append {x t : Bytes} (h : (encodeList (encodeList x ++ t)).length < 2 ^ 64) :
    x.length < 2 ^ 64 := by
  have hc := Nat.lt_trans (length_lt_encodeList _) h
  simp only [List.length_append] at hc
  exact Nat.lt_trans (length_lt_encodeList x) (by omega)

namespace TxsRootFeatures

/-- `_txsRootFeatures`: the root and the features written as a struct. -/
def listCodec : Codec Eq (Bytes32 × UInt32) :=
  struct ((field (byteArray 32)).pair (field uint32))

/-- `txsRootFeatures.EncodeRLP`: the bare root while there are no features. -/
def encodeRLP (trf : TxsRootFeatures) : Bytes :=
  if trf.features = 0 then (byteArray (r := Eq) 32).write trf.root
  else listCodec.write (trf.root, trf.features)

/-- `txsRootFeatures.DecodeRLP`: a list is the struct, and any other value the
bare root with no features. -/
def decodeRLP : Reader TxsRootFeatures := fun b =>
  match streamKind b with
  | .ok (.list, _, _) => (listCodec.read b).map fun ((root, features), rest) => (⟨root, features⟩, rest)
  | _ => ((byteArray (r := Eq) 32).read b).map fun (root, rest) => (⟨root, 0⟩, rest)

theorem listCodec_valid (v : Bytes32 × UInt32) : listCodec.valid v := by
  simpa [listCodec, struct, PrefixCodec.pair, field, byteArray, uint32, PrefixCodec.map, uint] using v.2.toNat_lt

theorem encodeRLP_ne_nil (trf : TxsRootFeatures) : trf.encodeRLP ≠ [] := by
  unfold encodeRLP
  split_ifs
  · exact encodeString_ne_nil _
  · exact encodeList_ne_nil _

/-- A list is read as the struct, whatever the features. -/
theorem decodeRLP_listCodec (v : Bytes32 × UInt32) (rest : Bytes) (hlen : (listCodec.write v).length < 2 ^ 64) :
    decodeRLP (listCodec.write v ++ rest) = .ok (⟨v.1, v.2⟩, rest) := by
  obtain ⟨ts, hs⟩ := (item_encodeList (Nat.lt_trans (length_lt_encodeList _) hlen)).streamKind rest
  have hs' : streamKind (listCodec.write v ++ rest) = .ok (.list, ts, _) := hs
  simp only [decodeRLP, hs', listCodec.read_write v rest (listCodec_valid v) hlen, Except.map]

/-- `DecodeRLP` reads back what `EncodeRLP` wrote, whatever follows. -/
theorem decodeRLP_encodeRLP (trf : TxsRootFeatures) (rest : Bytes) (hlen : trf.encodeRLP.length < 2 ^ 64) :
    decodeRLP (trf.encodeRLP ++ rest) = .ok (trf, rest) := by
  unfold encodeRLP at hlen ⊢
  split_ifs at hlen ⊢ with h0
  · -- the bare root: a value that is not a list
    obtain ⟨k, hk, he⟩ := item_encodeString (Nat.lt_of_le_of_lt (length_le_encodeString _) hlen)
    obtain ⟨ts, hs⟩ := he.streamKind rest
    have hread := (byteArray (r := Eq) 32).read_write trf.root rest trivial hlen
    obtain ⟨root, features⟩ := trf
    simp only at h0 hread hs ⊢
    subst h0
    have hs' : streamKind ((byteArray (r := Eq) 32).write root ++ rest) = .ok (k, ts, root.toList.length) := hs
    cases k with
    | list => exact absurd rfl hk
    | byte | string => simp only [decodeRLP, hs', hread, Except.map]
  · exact decodeRLP_listCodec (trf.root, trf.features) rest hlen

/-- What `DecodeRLP` accepts is what `EncodeRLP` writes, or the struct of a
root and zero features, which `EncodeRLP` writes as the bare root. -/
theorem decodeRLP_sound {b rest : Bytes} {trf : TxsRootFeatures} (h : decodeRLP b = .ok (trf, rest)) :
    b = trf.encodeRLP ++ rest ∨ (trf.features = 0 ∧ b = listCodec.write (trf.root, 0) ++ rest) := by
  unfold decodeRLP at h
  split at h
  · -- a list, read as the struct
    obtain ⟨⟨⟨root, features⟩, rest'⟩, hr, he⟩ := Except.map_eq_ok_iff.mp h
    simp only [Prod.mk.injEq] at he
    obtain ⟨rfl, rfl⟩ := he
    have hb := (listCodec.read_sound_eq hr).2
    by_cases h0 : features = 0
    · subst h0
      exact .inr ⟨rfl, hb⟩
    · exact .inl (by simp only [encodeRLP, if_neg h0, hb])
  · -- any other value, read as the bare root
    obtain ⟨⟨root, rest'⟩, hr, he⟩ := Except.map_eq_ok_iff.mp h
    simp only [Prod.mk.injEq] at he
    obtain ⟨rfl, rfl⟩ := he
    exact .inl ((byteArray (r := Eq) 32).read_sound_eq hr).2

theorem length_encodeString_root (root : Bytes32) : (encodeString root.toList).length = 33 := by
  have hl : root.toList.length = 32 := root.length_toList
  unfold encodeString
  split
  · rename_i x hx
    rw [hx] at hl
    cases hl
  · simp [head, hl]

/-- With no features, the struct is two bytes longer than the bare root. -/
theorem length_listCodec_write_of_zero {trf : TxsRootFeatures} (h0 : trf.features = 0) :
    (listCodec.write (trf.root, trf.features)).length = trf.encodeRLP.length + 2 := by
  obtain ⟨root, features⟩ := trf
  simp only at h0
  subst h0
  simp [listCodec, struct, PrefixCodec.pair, field, byteArray, uint32, PrefixCodec.map, uint, encodeList, head,
    encodeUint, encodeRLP, length_encodeString_root]

end TxsRootFeatures

/-- `extension`: the alpha of the block's VRF proof. -/
structure Extension where
  alpha : Bytes
  deriving DecidableEq, Repr

namespace Extension

/-- `_extension`: the alpha written as a struct. -/
def listCodec : Codec Eq Bytes := struct (field bytes)

/-- `extension.EncodeRLP`: nothing while the alpha is empty. -/
def encodeRLP (ex : Extension) : Bytes :=
  if ex.alpha.length = 0 then [] else listCodec.write ex.alpha

/-- `extension.DecodeRLP`: the end of the header's list is no alpha; otherwise
the struct, whose alpha must not be empty. -/
def decodeRLP : Reader Extension := fun b =>
  if b.isEmpty then .ok (⟨[]⟩, b)
  else (listCodec.read b).bind fun (alpha, rest) =>
    if alpha.length = 0 then .error (.other "rlp: extension must be trimmed") else .ok (⟨alpha⟩, rest)

/-- `DecodeRLP` reads back what `EncodeRLP` wrote at the end of the header's list. -/
theorem decodeRLP_encodeRLP (ex : Extension) (hlen : ex.encodeRLP.length < 2 ^ 64) :
    decodeRLP ex.encodeRLP = .ok (ex, []) := by
  unfold encodeRLP at hlen ⊢
  split_ifs at hlen ⊢ with h0
  · -- an empty alpha is left out, and the end of the list reads as one
    obtain ⟨alpha⟩ := ex
    obtain rfl : alpha = [] := List.eq_nil_of_length_eq_zero h0
    rfl
  · have hread := listCodec.read_write ex.alpha [] trivial (by simpa using hlen)
    rw [List.append_nil] at hread
    have hne : (listCodec.write ex.alpha).isEmpty = false :=
      List.isEmpty_eq_false_iff.mpr (listCodec.write_ne_nil _ trivial)
    simp only [decodeRLP, hne, hread, Bool.false_eq_true, if_false, Except.bind, if_neg h0]

/-- What `DecodeRLP` accepts is what `EncodeRLP` writes: nothing, or the struct
of an alpha that is not empty. -/
theorem decodeRLP_sound {b rest : Bytes} {ex : Extension} (h : decodeRLP b = .ok (ex, rest)) :
    b = ex.encodeRLP ++ rest := by
  unfold decodeRLP at h
  split_ifs at h with he
  · simp only [Except.ok.injEq, Prod.mk.injEq] at h
    obtain ⟨rfl, rfl⟩ := h
    simp [encodeRLP, List.isEmpty_iff.mp he]
  · obtain ⟨⟨alpha, rest'⟩, hr, h⟩ := Except.bind_eq_ok_iff.mp h
    dsimp only at h
    split_ifs at h with h0
    simp only [Except.ok.injEq, Prod.mk.injEq] at h
    obtain ⟨rfl, rfl⟩ := h
    simp only [encodeRLP, if_neg h0, (listCodec.read_sound_eq hr).2]

end Extension

/-- `headerBody`. -/
structure HeaderBody where
  parentID : Bytes32
  timestamp : UInt64
  gasLimit : UInt64
  beneficiary : Address
  gasUsed : UInt64
  totalScore : UInt64
  txsRootFeatures : TxsRootFeatures
  stateRoot : Bytes32
  receiptsRoot : Bytes32
  signature : Bytes
  extension : Extension
  deriving DecidableEq, Repr

namespace HeaderBody

/-- The fields before `TxsRootFeatures`, each by the package's own codec. -/
def headCodec : Codec Eq (Bytes32 × UInt64 × UInt64 × Address × UInt64 × UInt64) :=
  (field (byteArray 32)).pair ((field uint64).pair ((field uint64).pair ((field (byteArray 20)).pair
    ((field uint64).pair (field uint64)))))

/-- The fields between `TxsRootFeatures` and `Extension`. -/
def tailCodec : Codec Eq (Bytes32 × Bytes32 × Bytes) :=
  (field (byteArray 32)).pair ((field (byteArray 32)).pair (field bytes))

/-- The values of the fields before `TxsRootFeatures`. -/
def head (h : HeaderBody) : Bytes32 × UInt64 × UInt64 × Address × UInt64 × UInt64 :=
  (h.parentID, h.timestamp, h.gasLimit, h.beneficiary, h.gasUsed, h.totalScore)

/-- The values of the fields between `TxsRootFeatures` and `Extension`. -/
def tail (h : HeaderBody) : Bytes32 × Bytes32 × Bytes := (h.stateRoot, h.receiptsRoot, h.signature)

/-- `Header.EncodeRLP`: the body as a struct, each field by its encoder. -/
def encodeRLP (h : HeaderBody) : Bytes :=
  encodeList (headCodec.write h.head ++ h.txsRootFeatures.encodeRLP ++ tailCodec.write h.tail ++
    h.extension.encodeRLP)

/-- `Header.DecodeRLP`: the struct, field by field to the end of its list. -/
def decodeRLP : Reader HeaderBody := readList fun b =>
  (headCodec.read b).bind fun ((parentID, timestamp, gasLimit, beneficiary, gasUsed, totalScore), b) =>
    (readField TxsRootFeatures.decodeRLP b).bind fun (txsRootFeatures, b) =>
      (tailCodec.read b).bind fun ((stateRoot, receiptsRoot, signature), b) =>
        (Extension.decodeRLP b).map fun (extension, b) =>
          (⟨parentID, timestamp, gasLimit, beneficiary, gasUsed, totalScore, txsRootFeatures, stateRoot,
            receiptsRoot, signature, extension⟩, b)

theorem headCodec_valid (v : Bytes32 × UInt64 × UInt64 × Address × UInt64 × UInt64) : headCodec.valid v := by
  obtain ⟨p, t, g, b, u, s⟩ := v
  simpa [headCodec, PrefixCodec.pair, field, byteArray, uint64, PrefixCodec.map, uint] using
    ⟨t.toNat_lt, g.toNat_lt, u.toNat_lt, s.toNat_lt⟩

theorem tailCodec_valid (v : Bytes32 × Bytes32 × Bytes) : tailCodec.valid v :=
  ⟨trivial, trivial, trivial⟩

/-- The header's list, with bytes for the root and features that read back as
the header's, decodes to the header. -/
theorem decodeRLP_of_txsRootFeatures (h : HeaderBody) {e : Bytes} (he : e ≠ [])
    (hread : ∀ r, TxsRootFeatures.decodeRLP (e ++ r) = .ok (h.txsRootFeatures, r))
    (hlen : (encodeList (headCodec.write h.head ++ e ++ tailCodec.write h.tail ++ h.extension.encodeRLP)).length <
      2 ^ 64) (rest : Bytes) :
    decodeRLP (encodeList (headCodec.write h.head ++ e ++ tailCodec.write h.tail ++ h.extension.encodeRLP) ++ rest) =
      .ok (h, rest) := by
  have hc := Nat.lt_trans (length_lt_encodeList _) hlen
  unfold decodeRLP
  apply readList_encodeList hc
  simp only [List.length_append] at hc
  have hne : e ++ (tailCodec.write h.tail ++ h.extension.encodeRLP) ≠ [] := by simp [he]
  -- each field reads its own bytes and leaves the next ones
  have h₁ := headCodec.read_write h.head (e ++ (tailCodec.write h.tail ++ h.extension.encodeRLP))
    (headCodec_valid _) (by omega)
  have h₃ := tailCodec.read_write h.tail h.extension.encodeRLP (tailCodec_valid _) (by omega)
  have h₄ := Extension.decodeRLP_encodeRLP h.extension (by omega)
  simp only [List.append_assoc, h₁, Except.bind, readField_of_ne_nil _ hne, hread, h₃, h₄, Except.map]
  rfl

/-- `DecodeRLP` reads back what `EncodeRLP` wrote, whatever follows. -/
theorem decodeRLP_encodeRLP (h : HeaderBody) (hlen : h.encodeRLP.length < 2 ^ 64) (rest : Bytes) :
    decodeRLP (h.encodeRLP ++ rest) = .ok (h, rest) := by
  have hc := Nat.lt_trans (length_lt_encodeList _) hlen
  simp only [List.length_append] at hc
  exact decodeRLP_of_txsRootFeatures h (TxsRootFeatures.encodeRLP_ne_nil _)
    (fun r => TxsRootFeatures.decodeRLP_encodeRLP _ r (by omega)) hlen rest

/-- Not a function of the source: the header with its root and features
written as the struct whatever the features, the spelling `DecodeRLP` also
accepts. -/
def encodeListed (h : HeaderBody) : Bytes :=
  encodeList (headCodec.write h.head ++
    TxsRootFeatures.listCodec.write (h.txsRootFeatures.root, h.txsRootFeatures.features) ++
    tailCodec.write h.tail ++ h.extension.encodeRLP)

/-- The spelling with the struct decodes to the header too, whatever its features. -/
theorem decodeRLP_encodeListed (h : HeaderBody) (hlen : h.encodeListed.length < 2 ^ 64) (rest : Bytes) :
    decodeRLP (h.encodeListed ++ rest) = .ok (h, rest) := by
  have hc := Nat.lt_trans (length_lt_encodeList _) hlen
  simp only [List.length_append] at hc
  exact decodeRLP_of_txsRootFeatures h
    (TxsRootFeatures.listCodec.write_ne_nil _ (TxsRootFeatures.listCodec_valid _))
    (fun r => TxsRootFeatures.decodeRLP_listCodec _ r (by omega)) hlen rest

/-- What `DecodeRLP` accepts is what `EncodeRLP` writes of what it read, or,
for a header with no features, the spelling with the root and the features
as a struct. -/
theorem decodeRLP_sound {b rest : Bytes} {h : HeaderBody} (hd : decodeRLP b = .ok (h, rest)) :
    b = h.encodeRLP ++ rest ∨ (h.txsRootFeatures.features = 0 ∧ b = h.encodeListed ++ rest) := by
  obtain ⟨content, hf, rfl⟩ := readList_sound hd
  -- the fields one by one, each the written form of what it read
  obtain ⟨⟨v₁, c₁⟩, hr₁, hf⟩ := Except.bind_eq_ok_iff.mp hf
  obtain ⟨⟨trf, c₂⟩, hr₂, hf⟩ := Except.bind_eq_ok_iff.mp hf
  obtain ⟨⟨v₃, c₃⟩, hr₃, hf⟩ := Except.bind_eq_ok_iff.mp hf
  obtain ⟨⟨ex, c₄⟩, hr₄, hf⟩ := Except.map_eq_ok_iff.mp hf
  simp only [Prod.mk.injEq] at hf
  obtain ⟨rfl, rfl⟩ := hf
  have hc₁ := (headCodec.read_sound_eq hr₁).2
  have hc₃ := (tailCodec.read_sound_eq hr₃).2
  have hc₄ := Extension.decodeRLP_sound hr₄
  rw [List.append_nil] at hc₄
  subst hc₁ hc₃ hc₄
  rcases TxsRootFeatures.decodeRLP_sound (readField_eq_ok hr₂) with hc₂ | ⟨h0, hc₂⟩
  · exact .inl (by rw [hc₂]; simp [encodeRLP, head, tail])
  · exact .inr ⟨h0, by rw [hc₂]; simp [encodeListed, head, tail, h0]⟩

end HeaderBody

/-- `block.Block`: the header's body and the transactions. The size a decoded
block caches is returned by `decodeRLP` beside it. -/
structure Block where
  header : HeaderBody
  txs : List Transaction

namespace Block

/-- `tx.Transactions`: the list of the transactions' bodies. -/
def txsCodec : Codec NilByte (List Transaction) := slice Transaction.bodyCodec

/-- `Block.EncodeRLP`: the list of the header and the transactions, which
fails where a transaction's encoder does. -/
def encodeRLP (blk : Block) : Except Error Bytes :=
  (blk.txs.mapM Transaction.encodeRLP).map fun txs => encodeList (blk.header.encodeRLP ++ encodeList txs.flatten)

/-- The fields of the `payload` struct of `DecodeRLP`: the header, then the transactions. -/
def readPayload : Reader Block := fun c =>
  (readField HeaderBody.decodeRLP c).bind fun (header, c) =>
    ((field txsCodec).read c).map fun (txs, c) => (⟨header, txs⟩, c)

/-- `Block.DecodeRLP`: the `payload` struct, and the size of its list, which
it caches for `Size`. -/
def decodeRLP : Reader (Block × ℕ) := fun b =>
  let size := match streamKind b with
    | .ok (_, _, cs) => cs
    | .error _ => 0
  (readList readPayload b).map fun (blk, rest) => ((blk, listSize size), rest)

/-- `Block.Size` of a block not decoded: what `Encode` writes of it, which is
nothing when it fails. -/
def size (blk : Block) : ℕ :=
  match blk.encodeRLP with
  | .ok b => b.length
  | .error _ => 0

theorem txsCodec_valid (txs : List Transaction) :
    txsCodec.valid txs ↔ ∀ t ∈ txs, (∀ c ∈ t.clauses, 0 ≤ c.value) ∧ t.reserved.Trimmed := by
  simp only [txsCodec, slice, Transaction.bodyCodec_valid]

/-- The transactions encode when no clause value is negative, each as its body. -/
theorem mapM_encodeRLP_eq_ok : ∀ (txs : List Transaction) (bs : List Bytes),
    txs.mapM Transaction.encodeRLP = .ok bs ↔
      (∀ t ∈ txs, ∀ c ∈ t.clauses, 0 ≤ c.value) ∧ bs = txs.map Transaction.bodyCodec.write
  | [], bs => by
    rw [List.mapM_nil]
    simp only [List.not_mem_nil, IsEmpty.forall_iff, implies_true, true_and, List.map_nil]
    exact ⟨fun h => (Except.ok.inj h).symm, fun h => h ▸ rfl⟩
  | t :: txs, bs => by
    rw [List.mapM_cons]
    cases ht : t.encodeRLP with
    | error e =>
      -- the first transaction that fails fails the list
      have hneg : ¬ ∀ c ∈ t.clauses, 0 ≤ c.value := fun hv => by
        rw [Transaction.encodeRLP_eq_ok.mpr ⟨hv, rfl⟩] at ht
        cases ht
      simp [bind, Except.bind, hneg]
    | ok b =>
      obtain ⟨hv, rfl⟩ := Transaction.encodeRLP_eq_ok.mp ht
      have ih := mapM_encodeRLP_eq_ok txs
      cases hs : txs.mapM Transaction.encodeRLP with
      | error e =>
        have := fun bs' => (ih bs').not.mp (by rw [hs]; intro h; cases h)
        simp_all [bind, Except.bind]
      | ok bs' =>
        obtain ⟨hv', rfl⟩ := (ih bs').mp hs
        have hall : ∀ t' ∈ t :: txs, ∀ c ∈ t'.clauses, 0 ≤ c.value := by
          intro t' ht'
          rcases List.mem_cons.mp ht' with rfl | ht'
          · exact hv
          · exact hv' t' ht'
        simp only [bind, Except.bind, pure, Except.pure, Except.ok.injEq, List.map_cons]
        exact ⟨fun h => ⟨hall, h.symm⟩, fun h => h.2.symm⟩

/-- `EncodeRLP` succeeds when no clause value is negative, with the list of
the header and the list of the transactions. -/
theorem encodeRLP_eq_ok {blk : Block} {b : Bytes} :
    blk.encodeRLP = .ok b ↔ (∀ t ∈ blk.txs, ∀ c ∈ t.clauses, 0 ≤ c.value) ∧
      b = encodeList (blk.header.encodeRLP ++ txsCodec.write blk.txs) := by
  unfold encodeRLP
  rw [Except.map_eq_ok_iff]
  constructor
  · rintro ⟨bs, hbs, rfl⟩
    obtain ⟨hv, rfl⟩ := (mapM_encodeRLP_eq_ok _ _).mp hbs
    exact ⟨hv, rfl⟩
  · rintro ⟨hv, rfl⟩
    exact ⟨_, (mapM_encodeRLP_eq_ok _ _).mpr ⟨hv, rfl⟩, rfl⟩

/-- A block's list, with header bytes that read back as its header, decodes to
the block, with the list's length as its size. -/
theorem decodeRLP_of_header {blk : Block} {e : Bytes} (he : e ≠ [])
    (hread : ∀ r, HeaderBody.decodeRLP (e ++ r) = .ok (blk.header, r)) (hv : txsCodec.valid blk.txs)
    (hlen : (encodeList (e ++ txsCodec.write blk.txs)).length < 2 ^ 64) (rest : Bytes) :
    decodeRLP (encodeList (e ++ txsCodec.write blk.txs) ++ rest) =
      .ok ((blk, (encodeList (e ++ txsCodec.write blk.txs)).length), rest) := by
  have hc := Nat.lt_trans (length_lt_encodeList _) hlen
  obtain ⟨ts, hs⟩ := (item_encodeList hc).streamKind rest
  have hne : e ++ txsCodec.write blk.txs ≠ [] := by simp [he]
  have hlenT : (txsCodec.write blk.txs).length < 2 ^ 64 := by
    simp only [List.length_append] at hc
    omega
  have htxs : (field txsCodec).read (txsCodec.write blk.txs ++ []) = .ok (blk.txs, []) :=
    (field txsCodec).read_write blk.txs [] hv hlenT
  rw [List.append_nil] at htxs
  have hfields : readPayload (e ++ txsCodec.write blk.txs) = .ok (blk, []) := by
    simp only [readPayload, readField_of_ne_nil _ hne, hread, Except.bind, htxs, Except.map]
  simp only [decodeRLP, hs, readList_encodeList hc hfields, Except.map, listSize_eq_length]

/-- What `DecodeRLP` accepts is a list of a header the header's decoder
accepts and transactions the slice's decoder accepts, and the size it caches
is the list's length. -/
theorem decodeRLP_sound {b rest : Bytes} {blk : Block} {n : ℕ} (h : decodeRLP b = .ok ((blk, n), rest)) :
    txsCodec.valid blk.txs ∧ ∃ e pre, (e = blk.header.encodeRLP ∨
        (blk.header.txsRootFeatures.features = 0 ∧ e = blk.header.encodeListed)) ∧
      List.Forall₂ NilByte pre (txsCodec.write blk.txs) ∧ b = encodeList (e ++ pre) ++ rest ∧
      n = (encodeList (e ++ pre)).length := by
  obtain ⟨⟨blk', rest'⟩, hr, he⟩ := Except.map_eq_ok_iff.mp h
  simp only [Prod.mk.injEq] at he
  obtain ⟨⟨rfl, rfl⟩, rfl⟩ := he
  obtain ⟨content, hsplit, hp⟩ := splitList_of_readList hr
  obtain ⟨ts, hk⟩ := streamKind_of_splitList hsplit
  -- the header, then the transactions, to the end of the list
  obtain ⟨⟨header, c⟩, hh, hp⟩ := Except.bind_eq_ok_iff.mp hp
  obtain ⟨⟨txs, c'⟩, ht, hp⟩ := Except.map_eq_ok_iff.mp hp
  simp only [Prod.mk.injEq] at hp
  obtain ⟨rfl, rfl⟩ := hp
  obtain ⟨hv, pre, hpre, rfl⟩ := (field txsCodec).read_sound ht
  have hb := splitList_eq_ok hsplit
  subst hb
  rw [List.append_nil] at hh
  have hcontent : ∃ e, (e = header.encodeRLP ∨ (header.txsRootFeatures.features = 0 ∧ e = header.encodeListed)) ∧
      content = e ++ pre := by
    rcases HeaderBody.decodeRLP_sound (readField_eq_ok hh) with hc | ⟨h0, hc⟩
    · exact ⟨_, .inl rfl, hc⟩
    · exact ⟨_, .inr ⟨h0, rfl⟩, hc⟩
  obtain ⟨e, he, rfl⟩ := hcontent
  refine ⟨hv, e, pre, he, hpre, rfl, ?_⟩
  simp only [hk, listSize_eq_length]

end Block

namespace Raw

/-- `Raw.DecodeHeader`: the header, the first value in the block's list. -/
def decodeHeader (r : Bytes) : Except Error HeaderBody :=
  (splitList r).bind fun (content, _) => (HeaderBody.decodeRLP content).map (·.1)

/-- `Raw.DecodeBody`: the transactions, the value after the header. -/
def decodeBody (r : Bytes) : Except Error (List Transaction) :=
  (splitList r).bind fun (content, _) => (split content).bind fun (_, _, rest) =>
    (Block.txsCodec.read rest).map (·.1)

/-- `DecodeHeader` reads the header from the front of a block's list. -/
theorem decodeHeader_of {e t : Bytes} {h : HeaderBody} (hread : HeaderBody.decodeRLP (e ++ t) = .ok (h, t))
    (hlen : (e ++ t).length < 2 ^ 64) : decodeHeader (encodeList (e ++ t)) = .ok h := by
  have hs := splitList_encodeList hlen []
  rw [List.append_nil] at hs
  simp only [decodeHeader, hs, Except.bind, hread, Except.map]

/-- `DecodeBody` skips the header's list and reads the transactions after it. -/
theorem decodeBody_of {x t : Bytes} {txs : List Transaction} (hread : Block.txsCodec.read t = .ok (txs, []))
    (hx : x.length < 2 ^ 64) (hlen : (encodeList x ++ t).length < 2 ^ 64) :
    decodeBody (encodeList (encodeList x ++ t)) = .ok txs := by
  have hs := splitList_encodeList hlen []
  rw [List.append_nil] at hs
  simp only [decodeBody, hs, Except.bind, (item_encodeList hx).split t, hread, Except.map]

end Raw

/-- The block wire format. A block whose transactions have trimmed reserved
lists decodes from what `EncodeRLP` writes, by `DecodeRLP` with the length
written as its size and by `Raw` alike. What `DecodeRLP` accepts is that
encoding up to the nil pointers of the transactions, or, for a header with no
features, the spelling with the root and the features as a struct. And every
block whose header has no features has that second encoding, which is not
the one `EncodeRLP` writes. -/
theorem decodeRLP_accepts_listed_root :
    (∀ (blk : Block) (b : Bytes), (∀ t ∈ blk.txs, t.reserved.Trimmed) → blk.encodeRLP = .ok b →
      b.length < 2 ^ 64 →
      decodeBytes Block.decodeRLP b = .ok (blk, b.length) ∧ Raw.decodeHeader b = .ok blk.header ∧
        Raw.decodeBody b = .ok blk.txs ∧ blk.size = b.length) ∧
    (∀ (b : Bytes) (blk : Block) (n : ℕ), decodeBytes Block.decodeRLP b = .ok (blk, n) →
      n = b.length ∧ ∃ b', blk.encodeRLP = .ok b' ∧
        (List.Forall₂ NilByte b b' ∨ (blk.header.txsRootFeatures.features = 0 ∧
          List.Forall₂ NilByte b (encodeList (blk.header.encodeListed ++ Block.txsCodec.write blk.txs))))) ∧
    (∀ (blk : Block) (b : Bytes), blk.header.txsRootFeatures.features = 0 →
      (∀ t ∈ blk.txs, t.reserved.Trimmed) → blk.encodeRLP = .ok b → b.length < 2 ^ 64 →
      (encodeList (blk.header.encodeListed ++ Block.txsCodec.write blk.txs)).length < 2 ^ 64 →
      encodeList (blk.header.encodeListed ++ Block.txsCodec.write blk.txs) ≠ b ∧
        decodeBytes Block.decodeRLP (encodeList (blk.header.encodeListed ++ Block.txsCodec.write blk.txs)) =
          .ok (blk, (encodeList (blk.header.encodeListed ++ Block.txsCodec.write blk.txs)).length)) := by
  refine ⟨fun blk b htrim he hlen => ?_, fun b blk n hd => ?_, fun blk b h0 htrim he hlen hlen' => ?_⟩
  · -- the encoding reads back, whole and by parts
    obtain ⟨hval, rfl⟩ := Block.encodeRLP_eq_ok.mp he
    have hv : Block.txsCodec.valid blk.txs := (Block.txsCodec_valid _).mpr fun t ht => ⟨hval t ht, htrim t ht⟩
    have hc := Nat.lt_trans (length_lt_encodeList _) hlen
    simp only [List.length_append] at hc
    have hh := HeaderBody.decodeRLP_encodeRLP blk.header (by omega)
    have ht : Block.txsCodec.read (Block.txsCodec.write blk.txs ++ []) = .ok (blk.txs, []) :=
      Block.txsCodec.read_write _ _ hv (by omega)
    rw [List.append_nil] at ht
    refine ⟨decodeBytes_of_read (Block.decodeRLP_of_header (encodeList_ne_nil _) hh hv hlen []),
      Raw.decodeHeader_of (hh _) (by simp only [List.length_append]; omega), ?_, ?_⟩
    · exact Raw.decodeBody_of ht (Nat.lt_trans (length_lt_encodeList _) (by unfold HeaderBody.encodeRLP at hc; omega))
        (by simp only [List.length_append]; unfold HeaderBody.encodeRLP at hc; omega)
    · simp only [Block.size, he]
  · -- what is accepted is the encoding, with either spelling of the root
    obtain ⟨hv, e, pre, he, hpre, hb, rfl⟩ := Block.decodeRLP_sound (decodeBytes_eq_ok hd)
    rw [List.append_nil] at hb
    subst hb
    have hval : ∀ t ∈ blk.txs, ∀ c ∈ t.clauses, 0 ≤ c.value := fun t ht => (((Block.txsCodec_valid _).mp hv) t ht).1
    refine ⟨rfl, _, Block.encodeRLP_eq_ok.mpr ⟨hval, rfl⟩, ?_⟩
    rcases he with rfl | ⟨h0, rfl⟩
    · exact .inl (forall₂_encodeList (List.rel_append (List.forall₂_refl _) hpre))
    · exact .inr ⟨h0, forall₂_encodeList (List.rel_append (List.forall₂_refl _) hpre)⟩
  · -- the second spelling decodes to the block, and differs from the first
    obtain ⟨hval, rfl⟩ := Block.encodeRLP_eq_ok.mp he
    have hv : Block.txsCodec.valid blk.txs := (Block.txsCodec_valid _).mpr fun t ht => ⟨hval t ht, htrim t ht⟩
    have hc' := Nat.lt_trans (length_lt_encodeList _) hlen'
    have hc := Nat.lt_trans (length_lt_encodeList _) hlen
    refine ⟨fun heq => ?_, decodeBytes_of_read (Block.decodeRLP_of_header (encodeList_ne_nil _)
      (HeaderBody.decodeRLP_encodeListed blk.header (by simp only [List.length_append] at hc'; omega)) hv hlen' [])⟩
    -- equal lists have equal contents, down to the two spellings of the root
    have h₁ := List.append_cancel_right (encodeList_inj hc' hc heq)
    have h₂ := congrArg List.length (encodeList_inj (length_lt_of_encodeList_append hlen')
      (length_lt_of_encodeList_append hlen) h₁)
    simp only [List.length_append, TxsRootFeatures.length_listCodec_write_of_zero h0] at h₂
    omega

/-- A block of zero fields and no transactions: its 163 bytes decode to it,
and so do the 165 bytes that write its root as the struct of the root and
zero features. -/
theorem decodeRLP_accepts_listed_root_zero :
    let blk : Block := ⟨⟨Vector.replicate 32 0, 0, 0, Vector.replicate 20 0, 0, 0, ⟨Vector.replicate 32 0, 0⟩,
      Vector.replicate 32 0, Vector.replicate 32 0, [], ⟨[]⟩⟩, []⟩
    let b : Bytes := [0xF8, 0xA1, 0xF8, 0x9E, 0xA0] ++ List.replicate 32 0 ++ [0x80, 0x80, 0x94] ++
      List.replicate 20 0 ++ [0x80, 0x80, 0xA0] ++ List.replicate 32 0 ++ [0xA0] ++ List.replicate 32 0 ++
      [0xA0] ++ List.replicate 32 0 ++ [0x80, 0xC0]
    let b' : Bytes := [0xF8, 0xA3, 0xF8, 0xA0, 0xA0] ++ List.replicate 32 0 ++ [0x80, 0x80, 0x94] ++
      List.replicate 20 0 ++ [0x80, 0x80, 0xE2, 0xA0] ++ List.replicate 32 0 ++ [0x80, 0xA0] ++
      List.replicate 32 0 ++ [0xA0] ++ List.replicate 32 0 ++ [0x80, 0xC0]
    decodeBytes Block.decodeRLP b = .ok (blk, 163) ∧ b' ≠ b ∧ decodeBytes Block.decodeRLP b' = .ok (blk, 165) := by
  intro blk b b'
  have he : blk.encodeRLP = .ok b :=
    Block.encodeRLP_eq_ok.mpr ⟨fun _ ht => absurd ht List.not_mem_nil, by decide +kernel⟩
  have hb' : encodeList (blk.header.encodeListed ++ Block.txsCodec.write blk.txs) = b' := by decide +kernel
  have htrim : ∀ t ∈ blk.txs, t.reserved.Trimmed := fun _ ht => absurd ht List.not_mem_nil
  have hlen : b.length < 2 ^ 64 := by decide +kernel
  have hlen' : b'.length < 2 ^ 64 := by decide +kernel
  rw [← hb'] at hlen'
  obtain ⟨hne, hdec⟩ := decodeRLP_accepts_listed_root.2.2 blk b rfl htrim he hlen hlen'
  rw [hb'] at hne hdec
  exact ⟨(decodeRLP_accepts_listed_root.1 blk b htrim he hlen).1, hne, hdec⟩

end Workshare
