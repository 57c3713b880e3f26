import Workshare.Trie.Hasher
import Workshare.Trie.TreeUpdate

/-!
# Nodes in memory and the trees they stand for

A node of `trie.Trie` in memory stands for a tree once its hash nodes are read
through the store. `Sound` says which: a short or full node stands for the
tree of the same shape whose children its children stand for; a hash node
stands for a tree whose encoding the store holds under that hash, with every
child that the encoding refers to by hash stored the same way. The cached hash
of a node is the hash of its tree, and a node that is clean and hashed is
already stored, which is what lets `Commit` skip it.

The encoding is the consensus encoding of `hasher.go`: a child whose encoding
is shorter than a hash appears in place, a wider one by its hash; a value
appears in place under a short node and in the value slot of a full node.
-/
namespace Workshare

namespace Tree

section Encoding

variable (blake2b : Bytes → Bytes32)

/-- How an encoding appears in its parent: in place when shorter than a hash,
else as the hash of it. -/
def refOf (e : Bytes) : Bytes :=
  if e.length < hashLen then e else Rlp.encodeString (blake2b e).toList

/-- The encoding of a tree's node, the one its hash is taken over. -/
def enc : Tree → Bytes
  | nil => [0x80]
  | value v _ => Rlp.encodeString v
  | short k c =>
    Rlp.encodeList (Rlp.encodeString (hexToCompact k) ++ if c.isValue then enc c else refOf blake2b (enc c))
  | full cs =>
    Rlp.encodeList ((List.finRange 17).flatMap fun i =>
      if i = 16 then enc (cs i) else refOf blake2b (enc (cs i)))

/-- The hash of a tree's node. -/
def hash (t : Tree) : Bytes32 := blake2b (enc blake2b t)

/-- The root hash `Hash` returns for a tree. -/
def rootHash : Tree → Bytes32
  | nil => emptyRoot blake2b
  | t => hash blake2b t

end Encoding

/-- Keys and values of the tree's entries are at most `B` long. -/
def Bounded (B : ℕ) (t : Tree) : Prop :=
  ∀ q x, lookup t q = some x → q.length ≤ B ∧ x.1.length ≤ B

theorem Bounded.short {B : ℕ} {k : Bytes} {c : Tree} (h : Bounded B (short k c)) : Bounded B c := by
  intro q x hq
  have := h (k ++ q) x (by simpa using hq)
  simp only [List.length_append] at this
  omega

theorem Bounded.full {B : ℕ} {cs : Fin 17 → Tree} (h : Bounded B (full cs)) (i : Fin 17) : Bounded B (cs i) := by
  intro q x hq
  have := h (i.val.toUInt8 :: q) x (by simpa using hq)
  simp only [List.length_cons] at this
  omega

theorem length_flatMap_le {α β : Type} {f : α → List β} {M : ℕ} :
    ∀ {l : List α}, (∀ x ∈ l, (f x).length ≤ M) → (l.flatMap f).length ≤ l.length * M
  | [], _ => by simp
  | x :: l, h => by
    have := length_flatMap_le (l := l) (fun y hy => h y (List.mem_cons_of_mem _ hy))
    have := h x List.mem_cons_self
    simp only [List.flatMap_cons, List.length_append, List.length_cons]
    rw [Nat.succ_mul]
    omega

theorem length_refOf_le (blake2b : Bytes → Bytes32) (e : Bytes) : (refOf blake2b e).length ≤ 41 := by
  unfold refOf
  split
  · simp only [hashLen] at *
    omega
  · have := Rlp.length_encodeString_le (b := (blake2b e).toList) (by simp)
    simpa using this

/-- A value slot or a value child, within the bound. -/
theorem length_enc_value_le {B : ℕ} (hB : B < 2 ^ 58) {c : Tree} (r : Bytes) (hc : c.isNil = true ∨ c.isValue = true)
    (hl : ∀ x, lookup c [] = some x → (r.length ≤ B ∧ x.1.length ≤ B)) (blake2b : Bytes → Bytes32) :
    (enc blake2b c).length ≤ B + 9 := by
  cases c with
  | nil => simp [enc]
  | value v m =>
    have hv : v.length ≤ B := (hl (v, m) rfl).2
    have := Rlp.length_encodeString_le (b := v) (by omega)
    simp only [enc]
    omega
  | _ => simp [isNil, isValue] at hc

/-- The encoding of a node of a well-formed tree whose keys and values are
within `B`: its key, its value and sixteen references. -/
theorem length_enc_le {B : ℕ} (hB : B < 2 ^ 58) (blake2b : Bytes → Bytes32) :
    ∀ {t : Tree}, Wf t → Bounded B t → (enc blake2b t).length ≤ 17 * B + 1000
  | nil, _, _ => by simp [enc]
  | value v m, _, hb => by
    have hv : v.length ≤ B := (hb [] (v, m) rfl).2
    have := Rlp.length_encodeString_le (b := v) (by omega)
    simp only [enc]
    omega
  | short k c, hw, hb => by
    obtain ⟨r, x, hr⟩ := exists_lookup hw.2.2.2.2 hw.2.2.1
    have hk := (hb (k ++ r) x (by simpa using hr)).1
    simp only [List.length_append] at hk
    have hck := length_hexToCompact_le k
    have hks := Rlp.length_encodeString_le (b := hexToCompact k) (by omega)
    -- the child: a value within the bound, or a reference
    have hx : (if c.isValue then enc blake2b c else refOf blake2b (enc blake2b c)).length ≤ B + 41 := by
      split
      · rename_i hv
        have hk' : lookup (short k c) (k ++ []) = lookup c [] := lookup_short_append k c []
        rw [List.append_nil] at hk'
        have := length_enc_value_le hB k (Or.inr hv) (fun x hx => hb k x (hk'.trans hx)) blake2b
        omega
      · have := length_refOf_le blake2b (enc blake2b c)
        omega
    have hl := Rlp.length_encodeList_le (show (Rlp.encodeString (hexToCompact k) ++
      if c.isValue then enc blake2b c else refOf blake2b (enc blake2b c)).length < 2 ^ 64 by
        simp only [List.length_append]; omega)
    simp only [enc]
    simp only [List.length_append] at hl
    omega
  | full cs, hw, hb => by
    have hitem : ∀ i ∈ List.finRange 17,
        (if i = 16 then enc blake2b (cs i) else refOf blake2b (enc blake2b (cs i))).length ≤ B + 41 := by
      intro i _
      split
      · rename_i hi
        subst hi
        have := length_enc_value_le hB [(16 : Fin 17).val.toUInt8] hw.2.2.1
          (fun x hx => hb _ x ((lookup_full_index cs 16 []).trans hx)) blake2b
        omega
      · have := length_refOf_le blake2b (enc blake2b (cs i))
        omega
    have hflat := length_flatMap_le hitem
    simp only [List.length_finRange] at hflat
    have hl := Rlp.length_encodeList_le (show ((List.finRange 17).flatMap fun i =>
      if i = 16 then enc blake2b (cs i) else refOf blake2b (enc blake2b (cs i))).length < 2 ^ 64 by omega)
    simp only [enc]
    omega

theorem length_enc_lt {B : ℕ} (hB : B < 2 ^ 58) (blake2b : Bytes → Bytes32) {t : Tree} (hw : Wf t)
    (hb : Bounded B t) : (enc blake2b t).length < 2 ^ 64 := by
  have := length_enc_le hB blake2b hw hb
  omega

/-- Every value's metadata is empty, as in a trie updated through `TryUpdate`. -/
def MetaFree : Tree → Prop
  | nil => True
  | value _ m => m = []
  | short _ c => MetaFree c
  | full cs => ∀ i, MetaFree (cs i)

/-- A tree is without metadata exactly when every entry it holds is. -/
theorem metaFree_iff : ∀ {t : Tree}, MetaFree t ↔ ∀ q x, lookup t q = some x → x.2 = []
  | nil => by simp [MetaFree]
  | value v m => by
    constructor
    · intro hm q x hq
      rw [lookup_value] at hq
      split_ifs at hq
      cases hq
      exact hm
    · intro h
      exact h [] (v, m) rfl
  | short k c => by
    rw [MetaFree, metaFree_iff]
    constructor
    · intro h q x hq
      obtain ⟨r, rfl⟩ := prefix_of_lookup_short hq
      exact h r x (by simpa using hq)
    · intro h r x hr
      exact h (k ++ r) x (by simpa using hr)
  | full cs => by
    simp only [MetaFree, fun i => @metaFree_iff (cs i)]
    constructor
    · intro h q x hq
      obtain ⟨j, rest, -, hj⟩ := exists_of_lookup_full hq
      exact h j rest x hj
    · intro h j r x hr
      exact h (j.val.toUInt8 :: r) x (by simpa using hr)

section Storage

variable (blake2b : Bytes → Bytes32) (kv : Bytes → Option Bytes)

/-- A child the parent's encoding refers to by hash is stored under it. -/
def Linked (c : Tree) : Prop :=
  hashLen ≤ (enc blake2b c).length → kv (hash blake2b c).toList = some (enc blake2b c)

/-- Every node the tree's encoding refers to by hash is stored, all the way down. -/
def Stored : Tree → Prop
  | nil => True
  | value _ _ => True
  | short _ c => (c.isValue = false → Linked blake2b kv c) ∧ Stored c
  | full cs => ∀ i, (i ≠ 16 → Linked blake2b kv (cs i)) ∧ Stored (cs i)

/-- The tree can be loaded from its hash: it is stored, and so is everything below. -/
def Resolvable (t : Tree) : Prop :=
  kv (hash blake2b t).toList = some (enc blake2b t) ∧ Stored blake2b kv t

end Storage

end Tree

section Sound

variable (blake2b : Bytes → Bytes32) (kv : Bytes → Option Bytes)

/-- The flags of a node standing for `t`: a cached hash is the tree's hash, is
on a child only when the child's encoding is as wide as a hash, and on a clean
node means the tree is stored; a clean node without one is a child embedded in
its parent. -/
def FlagsOk (root : Bool) (flags : NodeFlag) (t : Tree) : Prop :=
  (∀ ref, flags.hash = some ref → ref.hash = Tree.hash blake2b t ∧
    (root = false → hashLen ≤ (Tree.enc blake2b t).length) ∧
    (flags.dirty = false → Tree.Resolvable blake2b kv t)) ∧
  (flags.hash = none → flags.dirty = false → root = false ∧ (Tree.enc blake2b t).length < hashLen)

/-- The node stands for the tree over the store `kv`; `root` is whether it is
the root, which is hashed whatever its width. -/
def Sound (root : Bool) : Node → Tree → Prop
  | .nil, t => t = .nil
  | .value v m, t => t = .value v m
  | .hash ref, t =>
    ref.hash = Tree.hash blake2b t ∧ Tree.Resolvable blake2b kv t ∧ t.isNil = false ∧ t.isValue = false ∧
      (root = false → hashLen ≤ (Tree.enc blake2b t).length)
  | .short k c flags, .short k' tc => k = k' ∧ Sound false c tc ∧ FlagsOk blake2b kv root flags (.short k' tc)
  | .full cs flags, .full tcs => (∀ i, Sound false (cs i) (tcs i)) ∧ FlagsOk blake2b kv root flags (.full tcs)
  | _, _ => False

variable {blake2b kv} in
theorem isNil_eq_of_sound {root : Bool} {n : Node} {t : Tree} (hs : Sound blake2b kv root n t) :
    n.isNil = t.isNil := by
  cases n <;> cases t <;> simp_all [Sound, Node.isNil, Tree.isNil]

end Sound

end Workshare
