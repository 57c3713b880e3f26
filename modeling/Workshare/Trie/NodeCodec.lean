import Workshare.RlpValue
import Workshare.Trie.Load

/-!
# The stored node read back

`hashChildren` collapses a node before `store` writes it: short keys go to the
compact form, and every child below a full node or under a short key without
terminator becomes a hash node, unless its encoding is shorter than a hash and
it stays in place. `store` writes the consensus encoding `encode` and, in an
extended trie, the trailing stream `encodeTrailing` after it.

`mustDecodeNode` reads such a blob back as `reload`: the same node with its keys
in hex form and the flags of a node just loaded, every hash node with its hash
and sequence (the placeholder hash of a non-crypto trie), every value with its
metadata; the trailing stream is consumed exactly. The decoding reads the two
parts in one walk, so each step is stated over `Consumes`: the part of the
stream the subtree's trailing items take.
-/
namespace Workshare

namespace Node

/-- Whether the node is a short or a full node, the kinds `store` writes. -/
def hasChildren : Node → Bool
  | full _ _ | short _ _ _ => true
  | _ => false

/-- A child as `hashChildren` leaves it below a full node, or under a short key
without terminator: absent, a hash, or a node kept in place because its encoding
is shorter than a hash. -/
def RefChild (nonCrypto : Bool) : Node → Prop
  | nil => True
  | hash _ => True
  | value _ _ => False
  | n => (encode nonCrypto n).length < hashLen

/-- A value of a canonical trie: never empty. -/
def ValueChild : Node → Prop
  | value v _ => v ≠ []
  | _ => False

/-- A node as `hashChildren` collapses it: each short key in compact form, with the
terminator exactly when the child is a value; every other child a `RefChild`,
collapsed in turn; the value slot of a full node absent or a value. -/
def Collapsed (nonCrypto : Bool) : Node → Prop
  | nil => True
  | hash _ => True
  | value _ _ => True
  | short k c _ => ∃ ns : Bytes, (∀ x ∈ ns, x < 16) ∧
      ((k = hexToCompact (ns ++ [terminator]) ∧ ValueChild c) ∨
        (k = hexToCompact ns ∧ RefChild nonCrypto c ∧ Collapsed nonCrypto c))
  | full cs _ => (∀ i : Fin 16, RefChild nonCrypto (cs i.castSucc) ∧ Collapsed nonCrypto (cs i.castSucc)) ∧
      (cs 16 = nil ∨ ValueChild (cs 16))

/-- The node `decodeNode` rebuilds from a stored node with hash `h`: keys in hex
form, the flags of a freshly loaded node, and the placeholder hash of a
non-crypto trie in every hash node. -/
def reload (nonCrypto : Bool) (gen : UInt16) (h : Option HashRef) : Node → Node
  | nil => nil
  | full cs _ => full (fun i => reload nonCrypto gen none (cs i)) ⟨h, false, gen⟩
  | short k c _ => short (compactToHex k) (reload nonCrypto gen none c) ⟨h, false, gen⟩
  | hash ref => hash ⟨if nonCrypto then nonCryptoNodeHash else ref.hash, ref.seq⟩
  | value v m => value v m

end Node

/-! ### The trailing stream -/

/-- The stream `t` starts with `items` and `t'` is what follows them; a missing
stream holds no items. -/
def Consumes (items : Bytes) : Option Bytes → Option Bytes → Prop
  | none, t' => items = [] ∧ t' = none
  | some s, t' => ∃ r, s = items ++ r ∧ t' = some r

namespace Consumes

theorem nil : ∀ t : Option Bytes, Consumes [] t t
  | none => ⟨rfl, rfl⟩
  | some s => ⟨s, rfl, rfl⟩

theorem append {a b : Bytes} : ∀ {t t' t'' : Option Bytes}, Consumes a t t' → Consumes b t' t'' →
    Consumes (a ++ b) t t''
  | none, _, _, ⟨ha, rfl⟩, ⟨hb, rfl⟩ => ⟨by simp [ha, hb], rfl⟩
  | some _, _, _, ⟨_, rfl, rfl⟩, ⟨r', rfl, rfl⟩ => ⟨r', by simp, rfl⟩

/-- What the first items leave of the stream is where the next ones start. -/
theorem split {a b : Bytes} : ∀ {t t'' : Option Bytes}, Consumes (a ++ b) t t'' →
    ∃ t', Consumes a t t' ∧ Consumes b t' t''
  | none, _, ⟨h, rfl⟩ => ⟨none, ⟨(List.append_eq_nil_iff.mp h).1, rfl⟩, ⟨(List.append_eq_nil_iff.mp h).2, rfl⟩⟩
  | some _, _, ⟨r, rfl, rfl⟩ => ⟨some (b ++ r), ⟨b ++ r, by simp, rfl⟩, ⟨r, rfl, rfl⟩⟩

/-- Items that are not empty can only come from a stream that is present. -/
theorem eq_some {items : Bytes} (hne : items ≠ []) : ∀ {t t' : Option Bytes}, Consumes items t t' →
    ∃ r, t = some (items ++ r) ∧ t' = some r
  | none, _, ⟨h, _⟩ => absurd h hne
  | some _, _, ⟨r, rfl, rfl⟩ => ⟨r, rfl, rfl⟩

end Consumes

/-- One step of `NextSeq`'s big-endian fold. -/
theorem toNat_shiftLeft_or (seq : UInt64) (b : UInt8) :
    (seq <<< 8 ||| b.toUInt64).toNat = (seq.toNat * 256 + b.toNat) % 2 ^ 64 := by
  have hb : b.toNat < 2 ^ 8 := b.toNat_lt
  have h8 : (8 : UInt64).toNat % 64 = 8 := rfl
  have hs := seq.toNat_lt
  rw [UInt64.toNat_or, UInt64.toNat_shiftLeft, h8, UInt8.toNat_toUInt64, Nat.shiftLeft_eq,
    show seq.toNat * 2 ^ 8 % 2 ^ 64 = (seq.toNat % 2 ^ 56) <<< 8 by rw [Nat.shiftLeft_eq]; omega,
    ← Nat.shiftLeft_add_eq_or_of_lt hb, Nat.shiftLeft_eq]
  omega

theorem toNat_foldl_seq (acc : UInt64) (l : Bytes) :
    (l.foldl (fun (seq : UInt64) (b : UInt8) => seq <<< 8 ||| b.toUInt64) acc).toNat =
      l.foldl (fun a x => a * 256 + x.toNat) acc.toNat % 2 ^ 64 := by
  induction l generalizing acc with
  | nil => simp
  | cons x l ih =>
    rw [List.foldl_cons, List.foldl_cons, ih, toNat_shiftLeft_or, Rlp.foldl_beNat, Rlp.foldl_beNat]
    simp only [Nat.add_mod, Nat.mul_mod, Nat.mod_mod]

theorem trailingNext_of_ne_nil {s : Bytes} (hs : s ≠ []) :
    trailingNext (some s) = ((Rlp.splitString s).mapError .rlp).map fun (content, rest) => (content, some rest) := by
  obtain ⟨x, s, rfl⟩ := List.exists_cons_of_ne_nil hs
  rfl

/-- `NextSeq` reads back the sequence `EncodeUint` wrote. -/
theorem nextSeq_of_consumes {seq : UInt64} {t t' : Option Bytes}
    (h : Consumes (Rlp.encodeUint seq.toNat) t t') : nextSeq t = .ok (seq, t') := by
  have hx := seq.toNat_lt
  rw [Rlp.encodeUint_eq_writeBigInt hx] at h
  have hne : Rlp.writeBigInt seq.toNat ≠ [] := Rlp.encodeString_ne_nil _
  obtain ⟨r, rfl, rfl⟩ := h.eq_some hne
  have hlen := Rlp.length_bigBytes_le hx
  obtain ⟨k, hk, hs⟩ := Rlp.split_writeBigInt (n := seq.toNat) (by omega) r
  obtain ⟨hval, -⟩ := Rlp.bigBytes_spec seq.toNat
  have hfold : (Rlp.bigBytes seq.toNat).foldl (fun (s : UInt64) (b : UInt8) => s <<< 8 ||| b.toUInt64) 0 = seq := by
    apply UInt64.toNat_inj.mp
    rw [toNat_foldl_seq, Rlp.foldl_beNat]
    simp [hval]
  rw [nextSeq, trailingNext_of_ne_nil (by simp [hne])]
  simp [Rlp.splitString, hs, hk, hfold, Except.bind, Except.mapError, Except.map,
    show ¬ (Rlp.bigBytes seq.toNat).length > 8 by omega]

/-- `NextMeta` reads back the metadata `EncodeString` wrote. -/
theorem nextMeta_of_consumes {m : Bytes} (hm : m.length < 2 ^ 64) {t t' : Option Bytes}
    (h : Consumes (Rlp.encodeString m) t t') : nextMeta t = .ok (m, t') := by
  obtain ⟨r, rfl, rfl⟩ := h.eq_some (Rlp.encodeString_ne_nil _)
  rw [nextMeta, trailingNext_of_ne_nil (by simp [Rlp.encodeString_ne_nil])]
  simp [Rlp.splitString_encodeString hm, Except.mapError, Except.map]

/-! ### One node, one value -/

section
variable (nonCrypto : Bool) (gen : UInt16)

theorem Consumes.eq_of_nil : ∀ {t t' : Option Bytes}, Consumes [] t t' → t' = t
  | none, _, ⟨_, h⟩ => h
  | some _, _, ⟨_, rfl, h⟩ => h

/-- Every node's encoding is one RLP value. -/
theorem item_encode : ∀ c : Node, (c.encode nonCrypto).length < 2 ^ 64 → ∃ k x, Rlp.Item k x (c.encode nonCrypto)
  | .nil, _ => by
    obtain ⟨k, -, he⟩ := Rlp.item_encodeString (b := []) (by simp)
    exact ⟨k, _, he⟩
  | .full _ _, hb => ⟨_, _, Rlp.item_encodeList (lt_trans (Rlp.length_lt_encodeList _) hb)⟩
  | .short _ _ _, hb => ⟨_, _, Rlp.item_encodeList (lt_trans (Rlp.length_lt_encodeList _) hb)⟩
  | .hash ref, _ => by
    cases nonCrypto with
    | true =>
      obtain ⟨k, -, he⟩ := Rlp.item_encodeString (b := [0]) (by simp)
      exact ⟨k, _, he⟩
    | false =>
      obtain ⟨k, -, he⟩ := Rlp.item_encodeString (b := ref.hash.toList) (by simp)
      exact ⟨k, _, he⟩
  | .value v _, hb => by
    obtain ⟨k, -, he⟩ := Rlp.item_encodeString (lt_of_le_of_lt (Rlp.length_le_encodeString v) hb)
    exact ⟨k, _, he⟩

/-- `decodeRef` of a collapsed child: the child reloaded, its trailing items read. -/
theorem decodeRef_encode {c : Node} {f : ℕ} (hc : c.RefChild nonCrypto) (hb : (c.encode nonCrypto).length < 2 ^ 64)
    (hnode : c.hasChildren = true → ∀ rest t t', Consumes c.encodeTrailing t t' →
      decodeNode f none (c.encode nonCrypto ++ rest) t gen = .ok (c.reload nonCrypto gen none, t'))
    {t t' : Option Bytes} (ht : Consumes c.encodeTrailing t t') (rest : Bytes) :
    decodeRef (f + 1) (c.encode nonCrypto ++ rest) t gen = .ok (c.reload nonCrypto gen none, rest, t') := by
  cases c with
  | nil =>
    -- an absent child is the empty string
    obtain ⟨k, hk, he⟩ := Rlp.item_encodeString (b := []) (by simp)
    have hsplit : Rlp.split (0x80 :: rest) = .ok (k, [], rest) := he.split rest
    have ht' := Consumes.eq_of_nil ht
    subst ht'
    simp [decodeRef, Node.encode, Node.reload, hsplit, hk, Except.bind, Except.mapError]
  | hash ref =>
    have hseq := nextSeq_of_consumes ht
    cases nonCrypto with
    | true =>
      obtain ⟨k, hk, he⟩ := Rlp.item_encodeString (b := [0]) (by simp)
      simp [decodeRef, Node.encode, Node.reload, he.split rest, hk, hseq, Except.bind, Except.mapError]
    | false =>
      obtain ⟨k, hk, he⟩ := Rlp.item_encodeString (b := ref.hash.toList) (by simp)
      simp [decodeRef, Node.encode, Node.reload, he.split rest, hk, hseq, Tree.bytesToBytes32_toList,
        Except.bind, Except.mapError]
  | value => exact hc.elim
  | short k c' flags =>
    -- an embedded node, decoded in place
    have hsize : (Node.encode nonCrypto (.short k c' flags)).length ≤ hashLen := Nat.le_of_lt hc
    have he := Rlp.item_encodeList (lt_trans (Rlp.length_lt_encodeList _) hb)
    simp only [Node.encode] at hsize hnode ⊢
    simp [decodeRef, he.split rest, hsize, hnode rfl rest t t' ht, Except.bind, Except.mapError, Except.map]
  | full cs flags =>
    have hsize : (Node.encode nonCrypto (.full cs flags)).length ≤ hashLen := Nat.le_of_lt hc
    have he := Rlp.item_encodeList (lt_trans (Rlp.length_lt_encodeList _) hb)
    simp only [Node.encode] at hsize hnode ⊢
    simp [decodeRef, he.split rest, hsize, hnode rfl rest t t' ht, Except.bind, Except.mapError, Except.map]

end

/-! ### A node and its children read back -/

section
variable (nonCrypto : Bool) (gen : UInt16)

/-- Decoding `n`'s encoding, with `n`'s trailing items at the head of the stream,
gives `n` reloaded with hash `h` and leaves the rest of the stream. -/
def DecodesBack (n : Node) : Prop :=
  ∀ (h : Option HashRef) (f : ℕ) (rest : Bytes) (t t' : Option Bytes),
    n.Collapsed nonCrypto → n.hasChildren = true →
    (n.encode nonCrypto).length < 2 ^ 64 → n.encodeTrailing.length < 2 ^ 64 → (n.encode nonCrypto).length < f →
    Consumes n.encodeTrailing t t' →
    decodeNode f h (n.encode nonCrypto ++ rest) t gen = .ok (n.reload nonCrypto gen h, t')

theorem decodeRef_of_decodesBack {c : Node} {f : ℕ} (hc : c.RefChild nonCrypto) (hcol : c.Collapsed nonCrypto)
    (hd : DecodesBack nonCrypto gen c) (hb : (c.encode nonCrypto).length < 2 ^ 64)
    (hbt : c.encodeTrailing.length < 2 ^ 64) (hf : (c.encode nonCrypto).length < f)
    {t t' : Option Bytes} (ht : Consumes c.encodeTrailing t t') (rest : Bytes) :
    decodeRef (f + 1) (c.encode nonCrypto ++ rest) t gen = .ok (c.reload nonCrypto gen none, rest, t') :=
  decodeRef_encode nonCrypto gen hc hb (fun hch rest t t' ht => hd none f rest t t' hcol hch hb hbt hf ht) ht rest

/-- One layer of `decodeShort`: the key, then a value with its metadata or a reference. -/
theorem decodeNode_short {k : Bytes} {c : Node} {flags : NodeFlag} {h : Option HashRef} {f : ℕ} {rest : Bytes}
    {t : Option Bytes} (hb : ((Node.short k c flags).encode nonCrypto).length < 2 ^ 64) :
    decodeNode (f + 1) h ((Node.short k c flags).encode nonCrypto ++ rest) t gen =
      if hasTerm (compactToHex k) then
        ((Rlp.splitString (c.encode nonCrypto)).mapError .rlp).bind fun (val, _) =>
          (nextMeta t).map fun (metadata, t) => (.short (compactToHex k) (.value val metadata) ⟨h, false, gen⟩, t)
      else (decodeRef f (c.encode nonCrypto) t gen).map fun (r, _, t) =>
        (.short (compactToHex k) r ⟨h, false, gen⟩, t) := by
  simp only [Node.encode] at hb ⊢
  have hitems := lt_trans (Rlp.length_lt_encodeList _) hb
  have hk : k.length < 2 ^ 64 := by
    have := Rlp.length_le_encodeString k
    simp only [List.length_append] at hitems
    omega
  obtain ⟨k1, -, he1⟩ := Rlp.item_encodeString hk
  obtain ⟨k2, x2, he2⟩ := item_encode nonCrypto c (by simp only [List.length_append] at hitems; omega)
  have hcount := Rlp.countValues_flatten [Rlp.encodeString k, c.encode nonCrypto]
    (by simp only [List.mem_cons, List.not_mem_nil, or_false]; rintro e (rfl | rfl) <;> exact ⟨_, _, ‹_›⟩)
  simp only [List.flatten_cons, List.flatten_nil, List.append_nil, List.length_cons, List.length_nil] at hcount
  simp [decodeNode, Rlp.encodeList_ne_nil, Rlp.splitList_encodeList hitems rest, hcount,
    Rlp.splitString_encodeString hk, Except.bind, Except.mapError, Except.toOption]

theorem decodesBack_short (k : Bytes) (c : Node) (flags : NodeFlag) (hc : DecodesBack nonCrypto gen c) :
    DecodesBack nonCrypto gen (.short k c flags) := by
  intro h f rest t t' hcol _ hb hbt hf ht
  obtain ⟨f, rfl⟩ : ∃ f', f = f' + 1 := ⟨f - 1, by omega⟩
  rw [decodeNode_short nonCrypto gen hb]
  -- the key's encoding takes at least a byte besides the list header
  have hlen : (Rlp.encodeString k).length + (c.encode nonCrypto).length + 1 ≤
      ((Node.short k c flags).encode nonCrypto).length := by
    have := Rlp.length_lt_encodeList (Rlp.encodeString k ++ c.encode nonCrypto)
    simp only [Node.encode, List.length_append] at this ⊢
    omega
  have hk := List.length_pos_iff.mpr (Rlp.encodeString_ne_nil k)
  simp only [Node.encodeTrailing] at hbt ht
  obtain ⟨ns, hns, ⟨rfl, hv⟩ | ⟨rfl, href, hcc⟩⟩ := hcol
  · -- a value under a terminated key, its metadata the next item of the stream
    cases c with
    | value v m =>
      have hvpos : v.length > 0 := List.length_pos_iff.mpr hv
      have hvb : v.length < 2 ^ 64 := by
        have := Rlp.length_le_encodeString v
        rw [show (Node.value v m).encode nonCrypto = Rlp.encodeString v from rfl] at hlen
        omega
      simp only [Node.encodeTrailing, hvpos, if_true] at hbt ht
      have hmb : m.length < 2 ^ 64 := lt_of_le_of_lt (Rlp.length_le_encodeString m) hbt
      rw [(compactToHex_hexToCompact hns).2, hasTerm_append_terminator, if_pos rfl]
      simp [Node.encode, Node.reload, (compactToHex_hexToCompact hns).2, Tree.splitString_encodeString_self hvb,
        nextMeta_of_consumes hmb ht,
        Except.bind, Except.mapError, Except.map]
    | _ => exact hv.elim
  · -- a child by reference: embedded, or a hash with its sequence
    rw [(compactToHex_hexToCompact hns).1, hasTerm_of_nibbles hns, if_neg (by simp)]
    obtain ⟨f, rfl⟩ : ∃ f', f = f' + 1 := ⟨f - 1, by omega⟩
    rw [← List.append_nil (c.encode nonCrypto),
      decodeRef_of_decodesBack nonCrypto gen href hcc hc (by omega) hbt (by omega) ht]
    simp [Node.reload, (compactToHex_hexToCompact hns).1, Except.map]

theorem length_le_flatMap {α β : Type} {f : α → List β} : ∀ {l : List α} {a : α}, a ∈ l →
    (f a).length ≤ (l.flatMap f).length
  | x :: l, a, ha => by
    rw [List.flatMap_cons, List.length_append]
    rcases List.mem_cons.mp ha with rfl | ha
    · omega
    · have := length_le_flatMap (f := f) ha
      omega

theorem Node.encode_ne_nil : ∀ c : Node, c.encode nonCrypto ≠ []
  | .nil => by simp [Node.encode]
  | .full _ _ => Rlp.encodeList_ne_nil _
  | .short _ _ _ => Rlp.encodeList_ne_nil _
  | .hash _ => by cases nonCrypto <;> simp [Node.encode, Rlp.encodeString_ne_nil]
  | .value _ _ => Rlp.encodeString_ne_nil _

/-- `decodeRef` run once for each of a list of collapsed children laid end to end,
each reading its own trailing items. -/
theorem foldlM_decodeRef_consumes {f : ℕ} : ∀ (idx : List ℕ) (cs acc : List Node) (rest : Bytes)
    (t t' : Option Bytes), idx.length = cs.length →
    (∀ c ∈ cs, ∀ rest t t', Consumes c.encodeTrailing t t' →
      decodeRef f (c.encode nonCrypto ++ rest) t gen = .ok (c.reload nonCrypto gen none, rest, t')) →
    Consumes (cs.flatMap Node.encodeTrailing) t t' →
    idx.foldlM (fun (acc : List Node × Bytes × Option Bytes) _ =>
        (decodeRef f acc.2.1 acc.2.2 gen).map fun (cld, rest, trailing) => (acc.1 ++ [cld], rest, trailing))
      (acc, cs.flatMap (Node.encode nonCrypto) ++ rest, t) =
      .ok (acc ++ cs.map (Node.reload nonCrypto gen none), rest, t')
  | [], [], acc, rest, t, t', _, _, ht => by
    rw [List.flatMap_nil] at ht
    rw [Consumes.eq_of_nil ht]
    simp [pure, Except.pure]
  | _ :: idx, c :: cs, acc, rest, t, t', hlen, hcs, ht => by
    rw [List.flatMap_cons] at ht
    obtain ⟨tm, h1, h2⟩ := ht.split
    have hc := hcs c List.mem_cons_self (cs.flatMap (Node.encode nonCrypto) ++ rest) t tm h1
    have ih := foldlM_decodeRef_consumes idx cs (acc ++ [c.reload nonCrypto gen none]) rest tm t'
      (by simpa using hlen) (fun c' hc' => hcs c' (List.mem_cons_of_mem _ hc')) h2
    simp only [List.foldlM_cons, List.flatMap_cons, List.append_assoc, hc]
    simpa [bind, Except.bind, Except.map] using ih
  | [], _ :: _, _, _, _, _, hlen, _, _ => by simp at hlen
  | _ :: _, [], _, _, _, _, hlen, _, _ => by simp at hlen

/-- The children `decodeFull` collects, the sixteen references then the value slot,
are the slots in order. -/
theorem getD_finRange_sixteen (g : Fin 17 → Node) :
    (fun i : Fin 17 => (((List.finRange 16).map fun j => g j.castSucc) ++ [g 16]).getD i.val .nil) = g := by
  funext i
  by_cases hi : i = 16
  · subst hi
    simp [List.getD_eq_getElem?_getD]
  · have hlt : i.val < 16 := by
      have : i.val ≠ 16 := fun h => hi (Fin.ext h)
      omega
    have hcast : (⟨i.val, hlt⟩ : Fin 16).castSucc = i := Fin.ext rfl
    rw [List.getD_eq_getElem?_getD, List.getElem?_append_left (by simpa using hlt)]
    simp [hlt, hcast]

theorem decodesBack_full (cs : Fin 17 → Node) (flags : NodeFlag) (hcs : ∀ i, DecodesBack nonCrypto gen (cs i)) :
    DecodesBack nonCrypto gen (.full cs flags) := by
  intro h f rest t t' hcol _ hb hbt hf ht
  obtain ⟨hrefs, h16⟩ := hcol
  -- the sixteen references laid end to end, then the value slot; the same for the trailing items
  set refs := (List.finRange 16).map fun j => cs j.castSucc with hrefs_def
  have hsplit17 : ∀ g : Node → Bytes, (List.finRange 17).flatMap (fun i => g (cs i)) = refs.flatMap g ++ g (cs 16) := by
    intro g
    rw [Tree.flatMap_finRange_seventeen]
    simp [hrefs_def, List.flatMap, Function.comp_def]
  have htrail : (Node.full cs flags).encodeTrailing = refs.flatMap Node.encodeTrailing ++ (cs 16).encodeTrailing :=
    hsplit17 Node.encodeTrailing
  simp only [Node.encode] at hb hf ⊢
  -- each child takes at least a byte of the list, whose header takes one more
  have hgi : ∀ i, ((cs i).encode nonCrypto).length + 1 ≤
      ((List.finRange 17).flatMap fun i => (cs i).encode nonCrypto).length := fun i =>
    Tree.length_add_one_le_flatMap (List.mem_finRange i) (fun j _ => Node.encode_ne_nil nonCrypto _) (by simp)
  have hitems := lt_trans (Rlp.length_lt_encodeList _) hb
  have hlen := Rlp.length_lt_encodeList ((List.finRange 17).flatMap fun i => (cs i).encode nonCrypto)
  have hti : ∀ i, (cs i).encodeTrailing.length ≤ (Node.full cs flags).encodeTrailing.length := fun i =>
    length_le_flatMap (f := fun i => (cs i).encodeTrailing) (List.mem_finRange i)
  have hcount : Rlp.countValues ((List.finRange 17).flatMap fun i => (cs i).encode nonCrypto) = .ok 17 := by
    have := Rlp.countValues_flatten ((List.finRange 17).map fun i => (cs i).encode nonCrypto)
      (by
        simp only [List.mem_map]
        rintro e ⟨i, -, rfl⟩
        exact item_encode nonCrypto (cs i) (by have := hgi i; omega))
    simpa [List.flatMap] using this
  obtain ⟨f, rfl⟩ : ∃ f', f = f' + 2 := ⟨f - 2, by have := hgi 0; omega⟩
  obtain ⟨tm, h1, h2⟩ := (htrail ▸ ht : Consumes _ t t').split
  have hfold := foldlM_decodeRef_consumes nonCrypto gen (f := f + 1) (List.range 16) refs []
    ((cs 16).encode nonCrypto) t tm (by simp [hrefs_def]) (by
      simp only [hrefs_def, List.mem_map]
      rintro c ⟨j, -, rfl⟩ rest' t₁ t₂ hj
      have hgj := hgi j.castSucc
      have htj := hti j.castSucc
      exact decodeRef_of_decodesBack nonCrypto gen (hrefs j).1 (hrefs j).2 (hcs _) (by omega) (by omega)
        (by omega) hj rest') h1
  simp only [decodeNode]
  rw [if_neg (by simp [Rlp.encodeList_ne_nil]), Rlp.splitList_encodeList hitems rest]
  simp only [Except.mapError, Except.bind, hcount, Except.toOption, Option.getD_some]
  rw [hsplit17, hfold]
  -- the value slot: absent, or a value whose metadata is the last item of the stream
  rcases h16 with h0 | hv
  · have hsp : Rlp.splitString ((cs 16).encode nonCrypto) = .ok ([], []) := by
      rw [h0]
      exact Tree.splitString_encodeString_self (b := []) (by simp)
    have hslots : (fun i : Fin 17 => (refs.map (Node.reload nonCrypto gen none)).getD i.val .nil) =
        fun i => (cs i).reload nonCrypto gen none := by
      rw [← getD_finRange_sixteen (fun i => (cs i).reload nonCrypto gen none)]
      funext i
      rw [h0, Node.reload, Tree.getD_append_nil_node, hrefs_def, List.map_map]
      rfl
    rw [h0] at h2
    rw [← Consumes.eq_of_nil h2]
    simp only [hsp, List.length_nil, gt_iff_lt, Nat.lt_irrefl, if_false, List.nil_append, hslots]
    rfl
  · cases hc16 : cs 16 with
    | value v m =>
      rw [hc16] at hv
      have hvpos : v.length > 0 := List.length_pos_iff.mpr hv
      have hvb : v.length < 2 ^ 64 := by
        have h16len := hgi 16
        rw [hc16, show (Node.value v m).encode nonCrypto = Rlp.encodeString v from rfl] at h16len
        have := Rlp.length_le_encodeString v
        omega
      have hmb : m.length < 2 ^ 64 := by
        have h16t := hti 16
        rw [hc16, show (Node.value v m).encodeTrailing = Rlp.encodeString m from if_pos hvpos] at h16t
        have := Rlp.length_le_encodeString m
        omega
      rw [hc16] at h2
      simp only [Node.encodeTrailing, hvpos, if_true] at h2
      have hsp : Rlp.splitString ((Node.value v m).encode nonCrypto) = .ok (v, []) :=
        Tree.splitString_encodeString_self hvb
      have hslots : (fun i : Fin 17 => (refs.map (Node.reload nonCrypto gen none) ++ [Node.value v m]).getD i.val .nil) =
          fun i => (cs i).reload nonCrypto gen none := by
        rw [← getD_finRange_sixteen (fun i => (cs i).reload nonCrypto gen none)]
        funext i
        rw [hc16, Node.reload, hrefs_def, List.map_map]
        rfl
      simp only [hsp, hvpos, if_true, List.nil_append, nextMeta_of_consumes hmb h2, Except.map, hslots]
      rfl
    | _ => rw [hc16] at hv; exact hv.elim

/-- Every collapsed short or full node decodes back, by induction on the node:
the short and full cases are the two lemmas above. -/
theorem decodesBack : ∀ n : Node, DecodesBack nonCrypto gen n
  | .nil => fun _ _ _ _ _ _ hch => by cases hch
  | .hash _ => fun _ _ _ _ _ _ hch => by cases hch
  | .value _ _ => fun _ _ _ _ _ _ hch => by cases hch
  | .short k c flags => decodesBack_short nonCrypto gen k c flags (decodesBack c)
  | .full cs flags => decodesBack_full nonCrypto gen cs flags (fun i => decodesBack (cs i))

end

/-- A stored node read back: for a node as `hashChildren` collapses it, whose blob
fits a `uint64` size, `mustDecodeNode` of the consensus encoding followed by the
trailing stream rebuilds the node with its keys in hex form, every hash and
sequence (the placeholder hash in a non-crypto trie), every value and metadata,
and consumes the stream exactly. -/
theorem mustDecodeNode_encode {nonCrypto : Bool} {n : Node} (hc : n.Collapsed nonCrypto)
    (hn : n.hasChildren = true) (hb : (n.encode nonCrypto ++ n.encodeTrailing).length < 2 ^ 64)
    (ref : HashRef) (gen : UInt16) :
    mustDecodeNode ref (n.encode nonCrypto ++ n.encodeTrailing) gen = .ok (n.reload nonCrypto gen (some ref)) := by
  rw [List.length_append] at hb
  have hbe : (n.encode nonCrypto).length < 2 ^ 64 := by omega
  have hbt : n.encodeTrailing.length < 2 ^ 64 := by omega
  obtain ⟨k, x, he⟩ := item_encode nonCrypto n hbe
  have hdec := fun t t' ht => decodesBack nonCrypto gen n (some ref)
    ((n.encode nonCrypto ++ n.encodeTrailing).length + 1) [] t t' hc hn hbe hbt (by rw [List.length_append]; omega) ht
  simp only [List.append_nil] at hdec
  have htake : (n.encode nonCrypto ++ n.encodeTrailing).take
      ((n.encode nonCrypto ++ n.encodeTrailing).length - n.encodeTrailing.length) = n.encode nonCrypto := by simp
  rw [mustDecodeNode, he.split]
  simp only [Except.mapError, Except.bind, htake]
  by_cases h0 : n.encodeTrailing = []
  · -- no trailing items: the stream is missing and nothing is read from it
    simp only [h0, List.isEmpty_nil, if_true]
    rw [← h0, hdec none none ⟨h0, rfl⟩]
  · simp only [List.isEmpty_iff, h0, if_false]
    rw [hdec (some n.encodeTrailing) (some []) ⟨[], by simp, rfl⟩]

theorem mustDecodeNode_encode_extension :
    let n : Node := .short (hexToCompact [1, 2]) (.hash ⟨Vector.replicate 32 7, 9⟩) ⟨none, true, 0⟩
    n.Collapsed true ∧ n.hasChildren = true ∧ (n.encode true ++ n.encodeTrailing).length < 2 ^ 64 ∧
      mustDecodeNode ⟨nonCryptoNodeHash, 3⟩ (n.encode true ++ n.encodeTrailing) 0 =
        .ok (n.reload true 0 (some ⟨nonCryptoNodeHash, 3⟩)) := by
  intro n
  have hc : n.Collapsed true := ⟨[1, 2], by simp, .inr ⟨rfl, trivial, trivial⟩⟩
  have hb : (n.encode true ++ n.encodeTrailing).length < 2 ^ 64 := by decide +kernel
  exact ⟨hc, rfl, hb, mustDecodeNode_encode hc rfl hb ⟨nonCryptoNodeHash, 3⟩ 0⟩

end Workshare
