import Workshare.Trie.Sound

/-!
# Loading a stored node

`resolveHash` decodes the blob stored under a hash. For a blob that is the
encoding of a well-formed tree, decoding gives the node `loaded`: the tree's
node, clean and carrying the hash it was loaded by, with the children its
encoding refers to by hash as hash nodes and the narrower ones decoded in
place. Over a store that holds every node the tree refers to, that node
stands for the tree.
-/
namespace Workshare

namespace Tree

variable (blake2b : Bytes → Bytes32) (gen : UInt16)

/-- What decoding a tree's encoding gives: the node with cached hash `h`,
clean, its children as wide as a hash as hash nodes and the narrower ones
decoded in place. -/
def loaded (h : Option HashRef) : Tree → Node
  | nil => .nil
  | value v m => .value v m
  | short k c =>
    .short k (if c.isValue = true ∨ (enc blake2b c).length < hashLen then loaded none c
      else .hash ⟨hash blake2b c, 0⟩) ⟨h, false, gen⟩
  | full cs =>
    .full (fun i => if i = 16 ∨ (enc blake2b (cs i)).length < hashLen then loaded none (cs i)
      else .hash ⟨hash blake2b (cs i), 0⟩) ⟨h, false, gen⟩

theorem bytesToBytes32_toList (v : Bytes32) : bytesToBytes32 v.toList = v := by
  apply Vector.ext
  intro i hi
  simp [bytesToBytes32]

theorem enc_nil : enc blake2b nil = Rlp.encodeString [] := rfl

/-- The node of a short or full tree is encoded as a list. -/
theorem item_enc {t : Tree} (hn : t.isNil = false) (hv : t.isValue = false)
    (hb : (enc blake2b t).length < 2 ^ 64) : ∃ items, Rlp.Item .list items (enc blake2b t) := by
  cases t with
  | nil => cases hn
  | value _ _ => cases hv
  | short k c =>
    exact ⟨_, Rlp.item_encodeList (lt_trans (Rlp.length_lt_encodeList _) hb)⟩
  | full cs =>
    exact ⟨_, Rlp.item_encodeList (lt_trans (Rlp.length_lt_encodeList _) hb)⟩

/-- Every reference and every encoding is one RLP value. -/
theorem item_refOf {c : Tree} (hv : c.isValue = false) : ∃ k x, Rlp.Item k x (refOf blake2b (enc blake2b c)) := by
  unfold refOf
  split
  · cases hn : c.isNil
    · obtain ⟨items, he⟩ := item_enc blake2b hn hv (by simp only [hashLen] at *; omega)
      exact ⟨_, _, he⟩
    · cases c <;> simp_all [isNil]
      obtain ⟨k, -, he⟩ := Rlp.item_encodeString (b := []) (by simp)
      exact ⟨_, _, he⟩
  · obtain ⟨k, -, he⟩ := Rlp.item_encodeString (b := (blake2b (enc blake2b c)).toList) (by simp)
    exact ⟨_, _, he⟩

/-- `decodeRef` of a child's reference: the child in place, or a hash node. -/
theorem decodeRef_refOf {c : Tree} {f : ℕ} (hv : c.isValue = false)
    (hnode : c.isNil = false → (enc blake2b c).length < hashLen →
      ∀ rest, decodeNode f none (enc blake2b c ++ rest) none gen = .ok (loaded blake2b gen none c, none))
    (rest : Bytes) :
    decodeRef (f + 1) (refOf blake2b (enc blake2b c) ++ rest) none gen =
      .ok (if (enc blake2b c).length < hashLen then loaded blake2b gen none c else .hash ⟨hash blake2b c, 0⟩,
        rest, none) := by
  by_cases hs : (enc blake2b c).length < hashLen
  · rw [if_pos hs]
    simp only [refOf, hs, if_true]
    cases hn : c.isNil
    · -- an embedded node: decoded in place
      obtain ⟨items, he⟩ := item_enc blake2b hn hv (by simp only [hashLen] at hs; omega)
      have hsize : (enc blake2b c).length ≤ hashLen := Nat.le_of_lt hs
      simp [decodeRef, he.split, hsize, hnode hn hs rest, Except.bind, Except.mapError, Except.map]
    · cases c <;> simp_all [isNil]
      obtain ⟨k, hk, he⟩ := Rlp.item_encodeString (b := []) (by simp)
      simp [decodeRef, enc_nil, he.split, hk, loaded, Except.bind, Except.mapError]
  · -- a hash: thirty-two bytes, with sequence zero from an absent trailing stream
    rw [if_neg hs]
    simp only [refOf, hs, if_false]
    obtain ⟨k, hk, he⟩ := Rlp.item_encodeString (b := (blake2b (enc blake2b c)).toList) (by simp)
    simp [decodeRef, he.split, hk, nextSeq, trailingNext, bytesToBytes32_toList, hash,
      Except.bind, Except.mapError]

theorem compactToHex_key {k : Bytes} {c : Tree} (hw : Wf (short k c)) :
    compactToHex (hexToCompact k) = k ∧ hasTerm k = c.isValue := by
  obtain ⟨hk, hkey, -⟩ := hw
  cases hcv : c.isValue
  · simp only [hcv, Bool.false_eq_true, if_false] at hkey
    exact ⟨(compactToHex_hexToCompact hkey).1, hasTerm_of_nibbles hkey⟩
  · simp only [hcv, if_true] at hkey
    rcases hkey with rfl | ⟨ns, hns, rfl⟩
    · exact absurd rfl hk
    · exact ⟨(compactToHex_hexToCompact hns).2, hasTerm_append_terminator ns⟩

/-- The items of a full node: the sixteen references, then the value slot. -/
theorem flatMap_finRange_seventeen {α : Type} (g : Fin 17 → List α) :
    (List.finRange 17).flatMap g = ((List.finRange 16).map fun i => g i.castSucc).flatten ++ g 16 := by
  rw [List.finRange_succ_last, List.flatMap_append, List.flatMap_map]
  simp [List.flatMap]

/-- An item among at least two non-empty ones leaves at least a byte for the others. -/
theorem length_add_one_le_flatMap {α : Type} {f : α → Bytes} :
    ∀ {l : List α} {a : α}, a ∈ l → (∀ x ∈ l, f x ≠ []) → 2 ≤ l.length → (f a).length + 1 ≤ (l.flatMap f).length
  | x :: l, a, ha, hne, hlen => by
    rw [List.flatMap_cons, List.length_append]
    rcases List.mem_cons.mp ha with rfl | ha
    · have hl : l ≠ [] := List.ne_nil_of_length_pos (by rw [List.length_cons] at hlen; omega)
      obtain ⟨y, l', rfl⟩ := List.exists_cons_of_ne_nil hl
      have := List.length_pos_iff.mpr (hne y (by simp))
      simp only [List.flatMap_cons, List.length_append]
      omega
    · have hx := List.length_pos_iff.mpr (hne x List.mem_cons_self)
      by_cases h2 : 2 ≤ l.length
      · have := length_add_one_le_flatMap ha (fun y hy => hne y (List.mem_cons_of_mem _ hy)) h2
        omega
      · have hl : l = [a] := by
          match l, ha, h2 with
          | [b], ha, _ => simp_all
          | [], ha, _ => cases ha
          | _ :: _ :: _, _, h2 => simp at h2
        subst hl
        simp
        omega

/-- `decodeRef` run once for each of a list of references laid end to end. -/
theorem foldlM_decodeRef {f : ℕ} : ∀ (idx : List ℕ) (rs : List (Bytes × Node)) (acc : List Node) (rest : Bytes),
    idx.length = rs.length → (∀ p ∈ rs, ∀ rest, decodeRef f (p.1 ++ rest) none gen = .ok (p.2, rest, none)) →
    idx.foldlM (fun (acc : List Node × Bytes × Option Bytes) _ =>
        (decodeRef f acc.2.1 acc.2.2 gen).map fun (cld, rest, trailing) => (acc.1 ++ [cld], rest, trailing))
      (acc, (rs.map Prod.fst).flatten ++ rest, none) = .ok (acc ++ rs.map Prod.snd, rest, none)
  | [], [], acc, rest, _, _ => by simp [pure, Except.pure]
  | _ :: idx, p :: rs, acc, rest, hlen, hrs => by
    have hp := hrs p List.mem_cons_self ((rs.map Prod.fst).flatten ++ rest)
    have ih := foldlM_decodeRef idx rs (acc ++ [p.2]) rest (by simpa using hlen)
      (fun q hq => hrs q (List.mem_cons_of_mem _ hq))
    simp only [List.foldlM_cons, List.map_cons, List.flatten_cons, List.append_assoc, hp]
    simpa [bind, Except.bind, Except.map] using ih
  | [], _ :: _, _, _, hlen, _ => by simp at hlen
  | _ :: _, [], _, _, hlen, _ => by simp at hlen

/-- The child a full node's decoding finds in a slot below 16. -/
def loadedRef (c : Tree) : Node :=
  if (enc blake2b c).length < hashLen then loaded blake2b gen none c else .hash ⟨hash blake2b c, 0⟩

/-- The children decoding reads for a full node: the sixteen references in order,
then the value slot. -/
theorem children_getD (cs : Fin 17 → Tree) (last : Node) (hlast : loaded blake2b gen none (cs 16) = last) :
    (fun i : Fin 17 => ((List.finRange 16).map (fun j => loadedRef blake2b gen (cs j.castSucc)) ++ [last]).getD i.val .nil) =
      fun i => if i = 16 ∨ (enc blake2b (cs i)).length < hashLen then loaded blake2b gen none (cs i)
        else .hash ⟨hash blake2b (cs i), 0⟩ := by
  funext i
  by_cases hi : i = 16
  · subst hi
    simp [List.getD_eq_getElem?_getD, hlast]
  · have hlt : i.val < 16 := by
      have : i.val ≠ 16 := fun h => hi (Fin.ext h)
      omega
    have hcast : (⟨i.val, hlt⟩ : Fin 16).castSucc = i := Fin.ext rfl
    have hl : i.val < ((List.finRange 16).map (fun j => loadedRef blake2b gen (cs j.castSucc))).length := by
      simpa using hlt
    rw [List.getD_eq_getElem?_getD, List.getElem?_append_left hl]
    simp [hlt, hi, loadedRef, hcast]

theorem enc_ne_nil (t : Tree) : enc blake2b t ≠ [] := by
  cases t with
  | nil => simp [enc]
  | value v _ => exact Rlp.encodeString_ne_nil v
  | short _ _ => exact Rlp.encodeList_ne_nil _
  | full _ => exact Rlp.encodeList_ne_nil _

theorem refOf_ne_nil (e : Bytes) (he : e ≠ []) : refOf blake2b e ≠ [] := by
  unfold refOf
  split
  · exact he
  · exact Rlp.encodeString_ne_nil _

theorem getD_append_nil_node (l : List Node) (n : ℕ) : (l ++ [Node.nil]).getD n .nil = l.getD n .nil := by
  simp only [List.getD_eq_getElem?_getD, List.getElem?_append]
  split
  · rfl
  · rename_i hn
    rw [List.getElem?_eq_none (l := l) (by omega)]
    cases n - l.length <;> simp

theorem splitString_encodeString_self {b : Bytes} (hb : b.length < 2 ^ 64) :
    Rlp.splitString (Rlp.encodeString b) = .ok (b, []) := by
  simpa using Rlp.splitString_encodeString hb []

/-- Decoding the encoding of a well-formed short or full tree, with no trailing
stream, gives the node `loaded`, whatever follows the encoding. -/
theorem decodeNode_enc : ∀ (t : Tree) (h : Option HashRef) (f : ℕ) (rest : Bytes), Wf t → MetaFree t →
    t.isNil = false → t.isValue = false → (enc blake2b t).length < 2 ^ 64 → (enc blake2b t).length < f →
    decodeNode f h (enc blake2b t ++ rest) none gen = .ok (loaded blake2b gen h t, none)
  | nil, _, _, _, _, _, hn, _, _, _ => by cases hn
  | value _ _, _, _, _, _, _, _, hv, _, _ => by cases hv
  | short k c, h, f, rest, hw, hm, _, _, hb, hf => by
    obtain ⟨f, rfl⟩ : ∃ f', f = f' + 1 := ⟨f - 1, by omega⟩
    obtain ⟨hkey, hterm⟩ := compactToHex_key hw
    obtain ⟨-, -, hcn, hcs, hwc⟩ := hw
    simp only [enc] at hb hf ⊢
    have hitems := lt_trans (Rlp.length_lt_encodeList _) hb
    have hsplit := Rlp.splitList_encodeList hitems rest
    have hck : (hexToCompact k).length < 2 ^ 64 := by
      have := Rlp.length_le_encodeString (hexToCompact k)
      simp only [List.length_append] at hitems
      omega
    cases hcv : c.isValue
    · -- a full child, by reference
      simp only [hcv, Bool.false_eq_true, if_false] at hsplit hitems hf hb ⊢
      have hlen := Rlp.length_lt_encodeList (Rlp.encodeString (hexToCompact k) ++ refOf blake2b (enc blake2b c))
      have hks := List.length_pos_iff.mpr (Rlp.encodeString_ne_nil (hexToCompact k))
      obtain ⟨kx, x, hx⟩ := item_refOf blake2b hcv
      have hxs := List.length_pos_iff.mpr hx.ne_nil
      simp only [List.length_append] at hlen
      obtain ⟨f, rfl⟩ : ∃ f', f = f' + 1 := ⟨f - 1, by omega⟩
      have href := decodeRef_refOf blake2b gen (f := f) hcv (fun hn hs rest' =>
        decodeNode_enc c none f rest' hwc hm hn hcv (by simp only [hashLen] at hs; omega) (by
          have hr : refOf blake2b (enc blake2b c) = enc blake2b c := if_pos hs
          rw [hr] at hlen hf
          omega)) []
      rw [List.append_nil] at href
      obtain ⟨k1, -, he1⟩ := Rlp.item_encodeString hck
      have hcount := Rlp.countValues_flatten ([Rlp.encodeString (hexToCompact k), refOf blake2b (enc blake2b c)])
        (by simp only [List.mem_cons, List.not_mem_nil, or_false]; rintro e (rfl | rfl) <;> exact ⟨_, _, ‹_›⟩)
      simp only [List.flatten_cons, List.flatten_nil, List.append_nil, List.length_cons, List.length_nil] at hcount
      simp [decodeNode, Rlp.encodeList_ne_nil, hsplit, hcount, Rlp.splitString_encodeString hck, hkey, hterm, hcv,
        href, loaded, Except.bind, Except.mapError, Except.map, Except.toOption]
    · -- a value child, in place
      cases c with
      | value v m =>
        simp only [MetaFree] at hm
        subst hm
        have hev : enc blake2b (value v []) = Rlp.encodeString v := rfl
        simp only [hcv, if_true, hev] at hsplit hitems ⊢
        have hv : v.length < 2 ^ 64 := by
          have := Rlp.length_le_encodeString v
          simp only [List.length_append] at hitems
          omega
        obtain ⟨k1, -, he1⟩ := Rlp.item_encodeString hck
        obtain ⟨k2, -, he2⟩ := Rlp.item_encodeString hv
        have hcount := Rlp.countValues_flatten ([Rlp.encodeString (hexToCompact k), Rlp.encodeString v])
          (by simp only [List.mem_cons, List.not_mem_nil, or_false]; rintro e (rfl | rfl) <;> exact ⟨_, _, ‹_›⟩)
        simp only [List.flatten_cons, List.flatten_nil, List.append_nil, List.length_cons, List.length_nil] at hcount
        simp [decodeNode, Rlp.encodeList_ne_nil, hsplit, hcount, Rlp.splitString_encodeString hck, hkey, hterm,
          splitString_encodeString_self hv, nextMeta, trailingNext, loaded, isValue, Except.bind, Except.mapError,
          Except.map, Except.toOption]
      | _ => simp [isValue] at hcv
  | full cs, h, f, rest, hw, hm, _, _, hb, hf => by
    obtain ⟨hocc, hslots, h16, hwcs⟩ := hw
    simp only [enc] at hb hf ⊢
    set g : Fin 17 → Bytes := fun i => if i = 16 then enc blake2b (cs i) else refOf blake2b (enc blake2b (cs i))
      with hg
    have hitems := lt_trans (Rlp.length_lt_encodeList _) hb
    have hlen := Rlp.length_lt_encodeList ((List.finRange 17).flatMap g)
    -- each item is one RLP value of at least a byte, inside the bound
    have hgi : ∀ i, (g i).length + 1 ≤ ((List.finRange 17).flatMap g).length := fun i =>
      length_add_one_le_flatMap (List.mem_finRange i) (fun j _ => by
        simp only [hg]
        split
        · exact enc_ne_nil blake2b _
        · exact refOf_ne_nil blake2b _ (enc_ne_nil blake2b _)) (by simp)
    have hitem : ∀ i, ∃ k x, Rlp.Item k x (g i) := by
      intro i
      by_cases hi : i = 16
      · subst hi
        have h16len := hgi 16
        have hg16 : g 16 = enc blake2b (cs 16) := if_pos rfl
        rw [hg16] at h16len ⊢
        rcases h16 with h | h
        · cases hc : cs 16 with
          | nil =>
            obtain ⟨k, -, he⟩ := Rlp.item_encodeString (b := []) (by simp)
            exact ⟨_, _, he⟩
          | _ => rw [hc] at h; cases h
        · cases hc : cs 16 with
          | value v m =>
            rw [hc] at h16len
            simp only [enc] at h16len
            have := Rlp.length_le_encodeString v
            obtain ⟨k, -, he⟩ := Rlp.item_encodeString (b := v) (by omega)
            exact ⟨_, _, he⟩
          | _ => rw [hc] at h; cases h
      · simp only [hg, if_neg hi]
        have hlt : i.val < 16 := by
          have : i.val ≠ 16 := fun h => hi (Fin.ext h)
          omega
        exact item_refOf blake2b (hslots ⟨i.val, hlt⟩)
    have h16b : (enc blake2b (cs 16)).length < 2 ^ 64 := by
      have := hgi 16
      rw [show g 16 = enc blake2b (cs 16) from if_pos rfl] at this
      omega
    have hcount : Rlp.countValues ((List.finRange 17).flatMap g) = .ok 17 := by
      have := Rlp.countValues_flatten ((List.finRange 17).map g)
        (by simp only [List.mem_map]; rintro e ⟨i, -, rfl⟩; exact hitem i)
      simpa [List.flatMap] using this
    obtain ⟨f, rfl⟩ : ∃ f', f = f' + 2 := ⟨f - 2, by have := hgi 0; omega⟩
    -- the sixteen references laid end to end, then the value slot
    have hitems_eq : (List.finRange 17).flatMap g =
        (((List.finRange 16).map fun j => (refOf blake2b (enc blake2b (cs j.castSucc)),
          loadedRef blake2b gen (cs j.castSucc))).map Prod.fst).flatten ++ enc blake2b (cs 16) := by
      rw [flatMap_finRange_seventeen]
      simp [hg, castSucc_ne_sixteen, Function.comp_def]
    have hfold := foldlM_decodeRef gen (f := f + 1) (List.range 16)
      ((List.finRange 16).map fun j => (refOf blake2b (enc blake2b (cs j.castSucc)), loadedRef blake2b gen (cs j.castSucc)))
      [] (enc blake2b (cs 16)) (by simp) (by
        simp only [List.mem_map]
        rintro p ⟨j, -, rfl⟩ rest'
        refine decodeRef_refOf blake2b gen (hslots j) (fun hn hs rest'' =>
          decodeNode_enc (cs j.castSucc) none f rest'' (hwcs _) (hm _) hn (hslots j) (by simp only [hashLen] at hs; omega) ?_) rest'
        -- an embedded child is at least two bytes shorter than its parent
        have hj := hgi j.castSucc
        have hr : g j.castSucc = enc blake2b (cs j.castSucc) := by
          simp only [hg, if_neg (castSucc_ne_sixteen j)]
          exact if_pos hs
        rw [hr] at hj
        omega)
    rw [hitems_eq] at hitems hcount ⊢
    have hsplit := Rlp.splitList_encodeList hitems rest
    simp only [decodeNode]
    rw [if_neg (by simp [Rlp.encodeList_ne_nil]), hsplit]
    simp only [Except.mapError, Except.bind, hcount, Except.toOption, Option.getD_some]
    rw [hfold]
    -- the value slot: absent, or a value with the empty metadata of an absent trailing stream
    rcases h16 with h0 | h0
    · cases hc : cs 16 with
      | nil =>
        have hsp : Rlp.splitString (enc blake2b nil) = .ok ([], []) := by
          rw [enc_nil]
          exact splitString_encodeString_self (by simp)
        simp only [hsp, List.length_nil, gt_iff_lt, Nat.lt_irrefl, if_false, List.nil_append, List.map_map]
        rw [loaded, ← children_getD blake2b gen cs .nil (by rw [hc]; rfl)]
        simp only [Function.comp_def, getD_append_nil_node]
      | _ => rw [hc] at h0; cases h0
    · cases hc : cs 16 with
      | value v m =>
        have hm16 : m = [] := by have := hm 16; rw [hc] at this; exact this
        have hv : v ≠ [] := by have := hwcs 16; rw [hc] at this; exact this
        subst hm16
        rw [hc] at h16b
        have hsp : Rlp.splitString (enc blake2b (value v [])) = .ok (v, []) :=
          splitString_encodeString_self (lt_of_le_of_lt (Rlp.length_le_encodeString v) h16b)
        have hpos : v.length > 0 := List.length_pos_iff.mpr hv
        simp only [hsp, hpos, if_true, List.nil_append, List.map_map, nextMeta, trailingNext, Except.map]
        rw [loaded, ← children_getD blake2b gen cs (.value v []) (by rw [hc]; rfl)]
        simp [Function.comp_def]
      | _ => rw [hc] at h0; cases h0

/-- `mustDecodeNode` of a stored encoding: the node `loaded`, with the hash it was loaded by. -/
theorem mustDecodeNode_enc {t : Tree} (hw : Wf t) (hm : MetaFree t) (hn : t.isNil = false) (hv : t.isValue = false)
    (hb : (enc blake2b t).length < 2 ^ 64) (ref : HashRef) :
    mustDecodeNode ref (enc blake2b t) gen = .ok (loaded blake2b gen (some ref) t) := by
  obtain ⟨items, he⟩ := item_enc blake2b hn hv hb
  have hsplit := he.split []
  rw [List.append_nil] at hsplit
  have hdec := decodeNode_enc blake2b gen t (some ref) ((enc blake2b t).length + 1) [] hw hm hn hv hb (by omega)
  rw [List.append_nil] at hdec
  simp [mustDecodeNode, hsplit, hdec, Except.bind, Except.mapError]

end Tree

theorem flagsOk_dirty {blake2b : Bytes → Bytes32} {kv : Bytes → Option Bytes} (root : Bool) (gen : UInt16)
    (t : Tree) : FlagsOk blake2b kv root ⟨none, true, gen⟩ t :=
  ⟨fun _ h => (nomatch h), fun _ h => Bool.noConfusion h⟩

/-- The flags decoding gives an embedded child. -/
theorem flagsOk_embedded {blake2b : Bytes → Bytes32} {kv : Bytes → Option Bytes} {t : Tree}
    (hn : (Tree.enc blake2b t).length < hashLen) (dirty : Bool) (gen : UInt16) :
    FlagsOk blake2b kv false ⟨none, dirty, gen⟩ t :=
  ⟨fun _ h => (nomatch h), fun _ _ => ⟨rfl, hn⟩⟩

section Loaded

variable (blake2b : Bytes → Bytes32) (gen : UInt16) {kv : Bytes → Option Bytes}

/-- A child the parent's encoding refers to by hash, loaded as a hash node, stands for the child. -/
theorem sound_hash_of_linked {c : Tree} (hl : Tree.Linked blake2b kv c) (hs : Tree.Stored blake2b kv c)
    (hv : c.isValue = false) (hwide : ¬ (Tree.enc blake2b c).length < hashLen) :
    Sound blake2b kv false (.hash ⟨Tree.hash blake2b c, 0⟩) c := by
  have hn : c.isNil = false := by
    cases c <;> simp_all [Tree.isNil, Tree.enc, hashLen]
  exact ⟨rfl, ⟨hl (Nat.le_of_not_lt hwide), hs⟩, hn, hv, fun _ => Nat.le_of_not_lt hwide⟩

/-- Over a store holding everything a tree refers to, the node decoded from its
encoding stands for it. -/
theorem sound_loaded : ∀ (t : Tree) (h : Option HashRef) (root : Bool), Tree.Wf t → Tree.Stored blake2b kv t →
    FlagsOk blake2b kv root ⟨h, false, gen⟩ t → Sound blake2b kv root (Tree.loaded blake2b gen h t) t
  | .nil, _, _, _, _, _ => rfl
  | .value _ _, _, _, _, _, _ => rfl
  | .short k c, h, root, hw, ⟨hl, hs⟩, hf => by
    refine ⟨rfl, ?_, hf⟩
    split
    · rename_i hcond
      -- a value child is loaded as it is; any other child here is embedded
      by_cases hv : c.isValue
      · cases c with
        | value v m => rfl
        | _ => simp [Tree.isValue] at hv
      · exact sound_loaded c none false hw.2.2.2.2 hs
          (flagsOk_embedded (hcond.resolve_left (by simpa using hv)) _ _)
    · rename_i hcond
      push Not at hcond
      have hv : c.isValue = false := by simpa using hcond.1
      exact sound_hash_of_linked blake2b (hl hv) hs hv (Nat.not_lt.mpr hcond.2)
  | .full cs, h, root, hw, hst, hf => by
    refine ⟨fun i => ?_, hf⟩
    obtain ⟨hl, hs⟩ := hst i
    dsimp only
    split
    · rename_i hcond
      by_cases hv : (cs i).isValue
      · obtain ⟨v, m, hc⟩ : ∃ v m, cs i = .value v m := by
          cases hc : cs i <;> simp_all [Tree.isValue]
        rw [hc]
        rfl
      · -- the value slot holds nothing here, which is embedded too
        have hn : (Tree.enc blake2b (cs i)).length < hashLen := by
          rcases hcond with rfl | hn
          · rcases hw.2.2.1 with h | h
            · cases hc : cs 16 <;> simp_all [Tree.isNil, Tree.enc, hashLen]
            · exact absurd h hv
          · exact hn
        exact sound_loaded (cs i) none false (hw.2.2.2 i) hs (flagsOk_embedded hn _ _)
    · rename_i hcond
      push Not at hcond
      -- a slot below 16 holds no value
      have hlt : i.val < 16 := by
        have : i.val ≠ 16 := fun h => hcond.1 (Fin.ext h)
        omega
      have hv : (cs i).isValue = false := hw.2.1 ⟨i.val, hlt⟩
      exact sound_hash_of_linked blake2b (hl hcond.1) hs hv (Nat.not_lt.mpr hcond.2)

/-- Loading a hash node that stands for a well-formed tree gives a node
standing for the same tree, in a store keyed by hash alone. -/
theorem resolveHash_sound (t : Trie) (hk : t.db.keyEncoder = none) {ref : HashRef} {tr : Tree} {root : Bool}
    (hs : Sound blake2b t.db.kv root (.hash ref) tr) (hw : Tree.Wf tr) (hm : Tree.MetaFree tr)
    (hb : (Tree.enc blake2b tr).length < 2 ^ 64) (pfx : Bytes) :
    t.resolveHash ref pfx = .ok (Tree.loaded blake2b t.cacheGen (some ref) tr) ∧
      Sound blake2b t.db.kv root (Tree.loaded blake2b t.cacheGen (some ref) tr) tr := by
  obtain ⟨href, ⟨hkv, hst⟩, hn, hv, hwide⟩ := hs
  constructor
  · have hblob : t.db.kv (nodeKey t.db.keyEncoder ref.hash.toList ref.seq pfx) = some (Tree.enc blake2b tr) := by
      rw [hk, nodeKey, href, hkv]
    obtain ⟨x, e, he⟩ := List.exists_cons_of_ne_nil (Tree.enc_ne_nil blake2b tr)
    rw [he] at hblob
    simp only [Trie.resolveHash, hblob]
    rw [← he, Tree.mustDecodeNode_enc blake2b t.cacheGen hw hm hn hv hb]
    rfl
  · refine sound_loaded blake2b t.cacheGen tr (some ref) root hw hst ?_
    refine ⟨?_, fun h => (nomatch h)⟩
    rintro r ⟨⟩
    exact ⟨href, hwide, fun _ => ⟨hkv, hst⟩⟩

theorem loaded_ne_hash {tr : Tree} (hn : tr.isNil = false) (hv : tr.isValue = false) (h : Option HashRef)
    (ref : HashRef) : Tree.loaded blake2b gen h tr ≠ .hash ref := by
  cases tr <;> simp_all [Tree.isNil, Tree.isValue, Tree.loaded]

end Loaded

end Workshare
