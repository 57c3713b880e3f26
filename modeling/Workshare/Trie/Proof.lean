import Workshare.Trie.IteratorWalk

/-!
# Merkle proofs

`trie/proof.go`. `Prove` walks the trie along a key, loading the hash nodes it
meets, and puts into the proof database the encoding of the root and of every
node on the way that its parent refers to by hash, each under its hash.
`VerifyProof` goes the other way: it reads the node stored under the root hash,
walks the key through it and the nodes embedded in it (`get`), and goes on with
the node stored under the hash it reaches, until the walk finds the value or
finds the key absent.

On a trie standing for a well-formed tree, `Prove` passes the nodes of
`Tree.proofPath` and puts `Tree.proofElems`. Decoding a stored encoding gives
`Tree.loaded`, through which `get` reaches the end of the walk or the hash of a
wide subtree further down the same path, which `Prove` has put. So
`VerifyProof` at the trie's hash, over what `Prove` put, returns the trie's
value at the key. The proof database is a map, where a later put under a hash
overwrites an earlier one: this needs the nodes on the path with one hash to
have one encoding.
-/
namespace Workshare

open Workshare.Tree

namespace Hasher

/-- `hashChildren`: a short node with its key in compact form and its child
collapsed unless a value, a full node with its nibble children collapsed where
present, any other node as it is; with the copy to keep, the children's hashes
cached in it. `hash` does this before `store`. -/
def hashChildren (h : Hasher) (blake2b : Bytes → Bytes32) (n : Node) (db : Option Writer) (path : Bytes) :
    Node × Node × Option Writer :=
  match n with
  | .short key val flags =>
    if val.isValue then (.short (hexToCompact key) val flags, .short key val flags, db)
    else
      let (cv, cachedVal, db) := h.hash blake2b val db (path ++ key) false
      (.short (hexToCompact key) cv flags, .short key cachedVal flags, db)
  | .full children flags =>
    let (cs, cached, db) := (List.finRange 16).foldl
      (fun (acc : (Fin 17 → Node) × (Fin 17 → Node) × Option Writer) i =>
        if (children i.castSucc).isNil then acc
        else
          let (c, cc, db) := h.hash blake2b (children i.castSucc) acc.2.2 (path ++ [i.val.toUInt8]) false
          (Function.update acc.1 i.castSucc c, Function.update acc.2.1 i.castSucc cc, db))
      (children, children, db)
    (.full cs flags, .full cached flags, db)
  | n => (n, n, db)

end Hasher

namespace Trie

/-- The walk of `Prove` through the nodes in memory: the short and full nodes
it passes along the rest of the key, in order. `onHash` goes on at a hash node;
`none` is a panic. -/
def proveIn (onHash : HashRef → Bytes → Option (Except TrieError (List Node))) :
    Node → Bytes → Option (Except TrieError (List Node))
  | _, [] => some (.ok [])
  | .nil, _ => some (.ok [])
  | .short k v flags, key =>
    -- a key that leaves the short node ends the walk there
    if key.length < k.length ∨ k ≠ key.take k.length then some (.ok [.short k v flags])
    else (proveIn onHash v (key.drop k.length)).map (Except.map (List.cons (.short k v flags)))
  | .full children flags, i :: rest =>
    match childIndex i with
    | some j => (proveIn onHash (children j) rest).map (Except.map (List.cons (.full children flags)))
    -- `n.Children[key[0]]` out of range
    | none => none
  | .hash ref, key => onHash ref key
  -- a value node before the key ends: `invalid node`
  | .value _ _, _ => none

/-- `Prove`'s walk with `fuel` loads: a hash node is loaded by `resolveHash`
with no prefix, and a walk that needs more loads stops with `loadLimit`. -/
def proveWalk (t : Trie) : ℕ → Node → Bytes → Option (Except TrieError (List Node))
  | 0, n, key => proveIn (fun _ _ => some (.error .loadLimit)) n key
  | fuel + 1, n, key => proveIn (fun ref key =>
      match t.resolveHash ref [] with
      | .error e => some (.error e)
      | .ok child => t.proveWalk fuel child key) n key

/-- `newHasher(0, 0)`. -/
def proofHasher : Hasher := ⟨0, 0, false, 0, false⟩

/-- The `i`-th node of the path: a proof element when it collapses to a hash
or is the root. Of the elements, the first `fromLevel` are skipped and every
other is put under its hash. -/
def putProofNode (blake2b : Bytes → Bytes32) (acc : ℕ × Database) (e : Node × ℕ) : ℕ × Database :=
  let n := (proofHasher.hashChildren blake2b e.1 none []).1
  let hashed : Option HashRef := match (proofHasher.store blake2b n none [] false).1 with
    | .hash ref => some ref
    | _ => none
  if hashed.isSome ∨ e.2 = 0 then
    if acc.1 > 0 then (acc.1 - 1, acc.2)
    else
      let enc := n.encode proofHasher.nonCrypto
      match hashed with
      | some ref => (acc.1, acc.2.put ref.hash.toList enc)
      | none => (acc.1, acc.2.put (blake2b enc).toList enc)
  else acc

/-- `Prove`: the proof database after the puts, or the error of a load;
`none` is a panic. -/
def prove (t : Trie) (blake2b : Bytes → Bytes32) (key : Bytes) (fromLevel : ℕ) (proofDb : Database) :
    Option (Except TrieError Database) :=
  (t.proveWalk (walkFuel key) t.root (keybytesToHex key)).map fun r =>
    r.map fun nodes => (nodes.zipIdx.foldl (putProofNode blake2b) (fromLevel, proofDb)).2

end Trie

namespace Proof

/-- The errors of `VerifyProof`: the `i`-th proof node missing, or not decoding. -/
inductive VerifyError
  | missing (i : ℕ) (hash : Bytes32)
  | bad (i : ℕ) (e : DecodeError)
  deriving DecidableEq, Repr

/-- `get`: the walk of the key through a decoded proof node and the nodes
embedded in it, to a hash node with the rest of the key, a value, or nothing;
`none` is a panic. -/
def get : Node → Bytes → Option (Bytes × Node)
  | .short k v _, key =>
    if key.length < k.length ∨ k ≠ key.take k.length then some ([], .nil)
    else get v (key.drop k.length)
  | .full children _, key =>
    match key.head?.bind childIndex with
    | some j => get (children j) key.tail
    -- `n.Children[key[0]]` past the key or out of range
    | none => none
  | .hash ref, key => some (key, .hash ref)
  | .nil, key => some (key, .nil)
  | .value v m, _ => some ([], .value v m)

/-- The loop of `VerifyProof` from the `i`-th proof node, the one stored under
`wantHash`: the value found, the error, and the count of nodes read. Go loops
until the walk ends; the model reads at most `fuel` nodes and answers `none`
past them, as at a panic. -/
def verifyProofFrom (proofDb : Bytes → Option Bytes) :
    ℕ → Bytes → Bytes32 → ℕ → Option (Option Bytes × Option VerifyError × ℕ)
  | 0, _, _, _ => none
  | fuel + 1, key, wantHash, i =>
    match proofDb wantHash.toList with
    | none => some (none, some (.missing i wantHash), i)
    | some buf =>
      match decodeNode (buf.length + 1) (some ⟨wantHash, 0⟩) buf none 0 with
      | .error e => some (none, some (.bad i e), i)
      | .ok (n, _) =>
        match get n key with
        | none => none
        | some (keyrest, .hash ref) => verifyProofFrom proofDb fuel keyrest ref.hash (i + 1)
        | some (_, .value v _) => some (some v, none, i + 1)
        -- `get` stops only at a hash node, a value or nothing
        | some _ => some (none, none, i)

/-- `VerifyProof`, reading at most `fuel` proof nodes. -/
def verifyProof (fuel : ℕ) (rootHash : Bytes32) (key : Bytes) (proofDb : Bytes → Option Bytes) :
    Option (Option Bytes × Option VerifyError × ℕ) :=
  verifyProofFrom proofDb fuel (keybytesToHex key) rootHash 0

end Proof

namespace Tree

/-- The nodes `Prove` passes along the rest `r` of a key: every short or full
node before the key ends or leaves the tree. -/
def proofPath : Tree → Bytes → List Tree
  | _, [] => []
  | short k c, r => short k c :: if k <+: r then proofPath c (r.drop k.length) else []
  | full cs, i :: rest => full cs :: match childIndex i with
    | some j => proofPath (cs j) rest
    | none => []
  | _, _ => []

/-- The proof elements of a path whose first node is the `i`-th: the root and
every node as wide as a hash, each encoding under its hash. -/
def proofElems (blake2b : Bytes → Bytes32) : List Tree → ℕ → List (Bytes × Bytes)
  | [], _ => []
  | u :: path, i =>
    if i = 0 ∨ hashLen ≤ (enc blake2b u).length then
      ((hash blake2b u).toList, enc blake2b u) :: proofElems blake2b path (i + 1)
    else proofElems blake2b path (i + 1)

/-! ## The path and its elements -/

@[simp] theorem proofPath_nil_key (t : Tree) : proofPath t [] = [] := by
  cases t <;> rfl

theorem proofPath_short {k r : Bytes} (c : Tree) (hr : r ≠ []) :
    proofPath (short k c) r = short k c :: if k <+: r then proofPath c (r.drop k.length) else [] := by
  cases r with
  | nil => exact absurd rfl hr
  | cons y r0 => rfl

theorem proofPath_short_append {k : Bytes} (c : Tree) (s : Bytes) (hk : k ≠ []) :
    proofPath (short k c) (k ++ s) = short k c :: proofPath c s := by
  rw [proofPath_short c (by simp [hk])]
  simp

@[simp] theorem proofPath_full_index (cs : Fin 17 → Tree) (j : Fin 17) (rest : Bytes) :
    proofPath (full cs) (j.val.toUInt8 :: rest) = full cs :: proofPath (cs j) rest := by
  simp [proofPath]

/-- A walk along a key left at a short or full node starts with that node. -/
theorem head?_proofPath {t : Tree} {r : Bytes} (hn : t.isNil = false) (hv : t.isValue = false) (hr : r ≠ []) :
    (proofPath t r).head? = some t := by
  obtain ⟨y, r0, rfl⟩ := List.exists_cons_of_ne_nil hr
  cases t with
  | nil => cases hn
  | value v m => cases hv
  | short k c => rfl
  | full cs => simp [proofPath]

theorem mem_proofElems {blake2b : Bytes → Bytes32} {p : Bytes × Bytes} :
    ∀ {path : List Tree} {i : ℕ}, p ∈ proofElems blake2b path i → ∃ u ∈ path, p = ((hash blake2b u).toList, enc blake2b u)
  | [], _, hp => by cases hp
  | u :: path, i, hp => by
    unfold proofElems at hp
    have hrest : p ∈ proofElems blake2b path (i + 1) → ∃ w ∈ u :: path, p = ((hash blake2b w).toList, enc blake2b w) :=
      fun h => (mem_proofElems h).imp fun w hw => ⟨List.mem_cons_of_mem u hw.1, hw.2⟩
    split at hp
    · rcases List.mem_cons.mp hp with rfl | hp
      · exact ⟨u, List.mem_cons_self, rfl⟩
      · exact hrest hp
    · exact hrest hp

/-- The root of the path, and every node on it as wide as a hash, is put. -/
theorem mem_proofElems_of_mem {blake2b : Bytes → Bytes32} {u : Tree} :
    ∀ {path : List Tree} {i : ℕ}, u ∈ path → (path.head? = some u ∧ i = 0 ∨ hashLen ≤ (enc blake2b u).length) →
      ((hash blake2b u).toList, enc blake2b u) ∈ proofElems blake2b path i
  | [], _, hu, _ => by cases hu
  | w :: path, i, hu, hel => by
    unfold proofElems
    by_cases hw : w = u
    · subst hw
      have hi : i = 0 ∨ hashLen ≤ (enc blake2b w).length := hel.imp (fun h => h.2) id
      simp [hi]
    · have hu' : u ∈ path := (List.mem_cons.mp hu).resolve_left (Ne.symm hw)
      have hel' : hashLen ≤ (enc blake2b u).length := by
        rcases hel with ⟨hh, -⟩ | hel
        · exact absurd (Option.some.inj hh) hw
        · exact hel
      have hrest : ((hash blake2b u).toList, enc blake2b u) ∈ proofElems blake2b path (i + 1) :=
        mem_proofElems_of_mem hu' (Or.inr hel')
      split <;> simp [hrest]

theorem isNil_of_wide {blake2b : Bytes → Bytes32} {u : Tree} (h : hashLen ≤ (enc blake2b u).length) :
    u.isNil = false := by
  cases u with
  | nil => simp [enc, hashLen] at h
  | _ => rfl

end Tree

theorem Database.putAll_cons (db : Database) (p : Bytes × Bytes) (puts : List (Bytes × Bytes)) :
    db.putAll (p :: puts) = (db.put p.1 p.2).putAll puts := rfl

/-- A key holds the blob of its puts when they agree on it, or the store's
blob when there is none. -/
theorem Database.putAll_kv_of_agree {k b : Bytes} :
    ∀ {db : Database} {puts : List (Bytes × Bytes)}, (db.kv k = some b ∨ (k, b) ∈ puts) →
      (∀ p ∈ puts, p.1 = k → p.2 = b) → (db.putAll puts).kv k = some b
  | db, [], h, _ => h.resolve_right (by simp)
  | db, p :: ps, h, hag => by
    rw [Database.putAll_cons]
    refine Database.putAll_kv_of_agree ?_ fun q hq => hag q (List.mem_cons_of_mem p hq)
    by_cases hpk : p.1 = k
    · -- the put under the key has the key's blob
      left
      rw [← hpk, hag p List.mem_cons_self hpk]
      simp [Database.put]
    · rcases h with h | h
      · left
        simpa [Database.put, Ne.symm hpk] using h
      · rcases List.mem_cons.mp h with rfl | h
        · exact absurd rfl hpk
        · exact Or.inr h

theorem mismatch_iff (k key : Bytes) : (key.length < k.length ∨ k ≠ key.take k.length) ↔ ¬ k <+: key := by
  simpa using short_mismatch_iff k key 0

section Collapse

variable {blake2b : Bytes → Bytes32} {kv : Bytes → Option Bytes} (h : Hasher)

variable (blake2b) in
/-- What `hashChildren` leaves of a node standing for `u`: a node that is
neither absent nor a hash, encoding as `u` does, with the node's own flags. -/
structure Collapses (n c : Node) (u : Tree) : Prop where
  encode : Node.encode false c = enc blake2b u
  cache : c.cache = n.cache
  notNil : c.isNil = false
  notHash : ∀ ref, c ≠ .hash ref

/-- `hashChildren` without a store, in a plain trie, on a node that is not a
hash and stands for a present well-formed tree. -/
theorem hashChildren_collapses (hext : h.extended = false) (hnc : h.nonCrypto = false) {root : Bool} {n : Node}
    {u : Tree} (hs : Sound blake2b kv root n u) (hw : Wf u) (hn : ∀ ref, n ≠ .hash ref) (hu : u.isNil = false)
    (path : Bytes) : Collapses blake2b n (h.hashChildren blake2b n none path).1 u := by
  have hnone : ∀ w, (none : Option Writer) = some w → w.keyEncoder = none := fun _ h => by cases h
  match n, u, hs with
  | .nil, _, hs => rw [hs] at hu; cases hu
  | .hash ref, _, _ => exact absurd rfl (hn ref)
  | .value v m, _, hs =>
    subst hs
    exact ⟨rfl, rfl, rfl, fun _ h => Node.noConfusion h⟩
  | .short key val flags, .short _ tc, ⟨rfl, hval, _⟩ =>
    by_cases hv : val.isValue = true
    · -- a value child is encoded in place
      obtain ⟨v, m, rfl⟩ : ∃ v m, val = .value v m := by
        cases val with
        | value v m => exact ⟨v, m, rfl⟩
        | _ => simp [Node.isValue] at hv
      subst hval
      have hcol : h.hashChildren blake2b (.short key (.value v m) flags) none path =
          (.short (hexToCompact key) (.value v m) flags, .short key (.value v m) flags, none) := rfl
      rw [hcol]
      exact ⟨by simp [Node.encode, enc, Tree.isValue], rfl, rfl, fun _ h => Node.noConfusion h⟩
    · -- any other child is hashed first, below the root
      have htv : tc.isValue = false := (isValue_eq_of_sound hval).symm.trans (by simpa using hv)
      obtain ⟨⟨-, hcol, -⟩, -⟩ :=
        hash_sound h hext hnc val tc none (path ++ key) false hnone hval hw.2.2.2.2 (fun h => Bool.noConfusion h)
      rcases hr1 : h.hash blake2b val none (path ++ key) false with ⟨cv, cc, db1⟩
      rw [hr1] at hcol
      have hcol' : h.hashChildren blake2b (.short key val flags) none path =
          (.short (hexToCompact key) cv flags, .short key cc flags, db1) := by
        simp [Hasher.hashChildren, hv, hr1]
      rw [hcol']
      exact ⟨by simp [Node.encode, enc, htv, hcol rfl], rfl, rfl, fun _ h => Node.noConfusion h⟩
  | .full cs flags, .full tcs, ⟨hc, _⟩ =>
    have hfold := slotsOk_foldl (fun n db p => h.hash blake2b n db p false) cs tcs none path hc hnone
      (fun i _ db' path' hdb' _ => hash_sound h hext hnc (cs i.castSucc) (tcs i.castSucc) db' path' false hdb'
        (hc _) (hw.2.2.2 _) (fun h => Bool.noConfusion h))
      (List.finRange 16) (fun _ => False) (cs, cs, none) (List.nodup_finRange 16) (fun _ _ h => h)
      (slotsOk_init cs tcs none)
    obtain ⟨r, hr, hfold'⟩ : ∃ r, (h.hashChildren blake2b (.full cs flags) none path).1 = .full r.1 flags ∧
        SlotsOk blake2b kv cs tcs none (fun i => i ∈ List.finRange 16 ∨ False) r := ⟨_, by rfl, hfold⟩
    rw [hr]
    obtain ⟨ccs, cached, db1⟩ := r
    obtain ⟨h16, -, hdone, -, -⟩ := hfold'
    -- each slot below 16 as its parent refers to it, the value slot in place
    have hslot : ∀ i : Fin 17, Node.encode false (ccs i) =
        if i = 16 then enc blake2b (tcs i) else refOf blake2b (enc blake2b (tcs i)) := by
      intro i
      by_cases hi : i = 16
      · subst hi
        rw [if_pos rfl]
        simp only at h16
        rw [h16]
        exact encode_slot (hc 16) hw.2.2.1
      · obtain ⟨j, rfl⟩ := exists_castSucc_of_ne hi
        rw [if_neg hi]
        exact (hdone j (Or.inl (List.mem_finRange j))).2.1 rfl
    exact ⟨by simp only [Node.encode, enc, hslot], rfl, rfl, fun _ h => Node.noConfusion h⟩
  | .short _ _ _, .nil, hs => exact hs.elim
  | .short _ _ _, .value _ _, hs => exact hs.elim
  | .short _ _ _, .full _, hs => exact hs.elim
  | .full _ _, .nil, hs => exact hs.elim
  | .full _ _, .value _ _, hs => exact hs.elim
  | .full _ _, .short _ _, hs => exact hs.elim

/-- One node of `Prove`'s path: a proof element under the tree's hash when it
is the root or as wide as a hash, skipped while levels are left to skip. -/
theorem putProofNode_spec {root : Bool} {n : Node} {u : Tree} (hs : Sound blake2b kv root n u) (hw : Wf u)
    (hn : ∀ ref, n ≠ .hash ref) (hu : u.isNil = false) (acc : ℕ × Database) (i : ℕ) :
    Trie.putProofNode blake2b acc (n, i) =
      if i = 0 ∨ hashLen ≤ (enc blake2b u).length then
        if 0 < acc.1 then (acc.1 - 1, acc.2)
        else (acc.1, acc.2.put (Tree.hash blake2b u).toList (enc blake2b u))
      else acc := by
  have hc := hashChildren_collapses Trie.proofHasher rfl rfl hs hw hn hu []
  unfold Trie.putProofNode
  generalize (Trie.proofHasher.hashChildren blake2b n none []).1 = c at hc ⊢
  have hcache : ∀ ref, c.cache.1 = some ref → ref.hash = Tree.hash blake2b u := by
    intro ref hr
    have hnc : n.cache = (some ref, n.cache.2.1, n.cache.2.2) := by rw [← hc.cache, ← hr]
    exact (cache_sound hs hnc).1
  have hnc : Trie.proofHasher.nonCrypto = false := rfl
  have hnone : ∀ w, (none : Option Writer) = some w → w.keyEncoder = none := fun _ h => by cases h
  rcases store_spec Trie.proofHasher rfl rfl hnone hc.notNil hc.notHash hc.encode hcache [] false with
    ⟨hnarrow, -, hst⟩ | ⟨hwide, ref, href, hst⟩
  · -- narrow: the node stays, and is an element only as the root
    have hnw : ¬ hashLen ≤ (enc blake2b u).length := Nat.not_le.mpr hnarrow
    have hch : (match c with | .hash ref => some ref | _ => (none : Option HashRef)) = none := by
      cases c with
      | hash ref => exact absurd rfl (hc.notHash ref)
      | _ => rfl
    simp only [hst, hch, Option.isSome_none, Bool.false_eq_true, false_or, hnw, or_false, hnc, hc.encode,
      Tree.hash, gt_iff_lt]
  · -- wide: the node becomes its hash, and is an element wherever it is
    have hw' : hashLen ≤ (enc blake2b u).length := by
      by_contra hlt
      exact hwide ⟨Nat.lt_of_not_le hlt, rfl⟩
    simp only [hst, Option.isSome_some, true_or, hw', or_true, if_true, hnc, hc.encode, href]

end Collapse

section Walk

variable (blake2b : Bytes → Bytes32) (kv : Bytes → Option Bytes)

/-- A node `Prove` collects for a node of the path: a short or full node
standing for it, below the root or at it. -/
structure PathNode (n : Node) (u : Tree) : Prop where
  sound : ∃ root, Sound blake2b kv root n u
  notHash : ∀ ref, n ≠ .hash ref
  loadable : u.Loadable
  notNil : u.isNil = false

/-- What `Prove`'s walk returns for a node standing for `u`: no error, and a
node standing for each node of the path, in order. -/
def Proved (res : Option (Except TrieError (List Node))) (u : Tree) (r : Bytes) : Prop :=
  ∃ nodes, res = some (.ok nodes) ∧ List.Forall₂ (PathNode blake2b kv) nodes (proofPath u r)

variable {blake2b kv}

theorem proveIn_nil_key (onHash : HashRef → Bytes → Option (Except TrieError (List Node))) (n : Node) :
    Trie.proveIn onHash n [] = some (.ok []) := by
  cases n <;> rfl

theorem proveIn_short (onHash : HashRef → Bytes → Option (Except TrieError (List Node))) (k : Bytes) (v : Node)
    (flags : NodeFlag) {key : Bytes} (hne : key ≠ []) :
    Trie.proveIn onHash (.short k v flags) key =
      if key.length < k.length ∨ k ≠ key.take k.length then some (.ok [.short k v flags])
      else (Trie.proveIn onHash v (key.drop k.length)).map (Except.map (List.cons (.short k v flags))) := by
  cases key with
  | nil => exact absurd rfl hne
  | cons y r0 => rfl

/-- `Prove`'s walk above the hash nodes follows the path of the tree, given
that the continuation at hash nodes does while fuel is left for the nibbles
still to walk. -/
theorem proveIn_spec (F : ℕ) (onHash : HashRef → Bytes → Option (Except TrieError (List Node)))
    (hon : ∀ ref u r root, Sound blake2b kv root (.hash ref) u → u.Loadable → Pos u r → KeyTail r → r.length < F →
      Proved blake2b kv (onHash ref r) u r) :
    ∀ (n : Node) (u : Tree) (r : Bytes) (root : Bool), Sound blake2b kv root n u → u.Loadable → Pos u r →
      KeyTail r → r.length ≤ F → (∀ ref, n = .hash ref → r.length < F) → Proved blake2b kv (Trie.proveIn onHash n r) u r
  | n, u, [], _, _, _, _, _, _, _ => ⟨[], proveIn_nil_key onHash n, by rw [proofPath_nil_key]; exact .nil⟩
  | .nil, u, y :: r0, _, hs, _, _, _, _, _ => by
    subst hs
    exact ⟨[], rfl, .nil⟩
  | .value v m, u, y :: r0, _, hs, _, hp, _, _, _ => by
    subst hs
    exact absurd (hp.1 rfl) (List.cons_ne_nil y r0)
  | .hash ref, u, y :: r0, root, hs, hl, hp, hk, _, hH => hon ref u _ root hs hl hp hk (hH ref rfl)
  | .short k v flags, .short _ c, y :: r0, root, hs, hl, hp, hk, hF, _ => by
    obtain ⟨rfl, hc, hf⟩ := hs
    have hnode : PathNode blake2b kv (.short k v flags) (short k c) :=
      ⟨⟨root, rfl, hc, hf⟩, fun _ h => Node.noConfusion h, hl, rfl⟩
    rw [proveIn_short onHash k v flags (List.cons_ne_nil y r0)]
    by_cases hpre : k <+: y :: r0
    · -- the key runs through: walk on below
      rw [if_neg (fun h => (mismatch_iff k _).mp h hpre)]
      obtain ⟨s, hs⟩ := hpre
      rw [← hs] at hk hF ⊢
      have hkne : 0 < k.length := List.length_pos_of_ne_nil hl.wf.1
      simp only [List.length_append] at hF
      obtain ⟨nodes, hres, hall⟩ := proveIn_spec F onHash hon v c s false hc hl.short (hl.wf.pos_short_child hk)
        (by simpa using hk.drop k.length) (by omega) (fun _ _ => by omega)
      refine ⟨.short k v flags :: nodes, by simp [hres, Except.map], ?_⟩
      rw [proofPath_short_append c s hl.wf.1]
      exact .cons hnode hall
    · -- the key leaves this node: the walk ends with it
      rw [if_pos ((mismatch_iff k _).mpr hpre)]
      refine ⟨[.short k v flags], rfl, ?_⟩
      rw [proofPath_short c (List.cons_ne_nil y r0), if_neg hpre]
      exact .cons hnode .nil
  | .full cs flags, .full tcs, y :: r0, root, hs, hl, _, hk, hF, _ => by
    obtain ⟨hc, hf⟩ := hs
    -- a nibble of a key tail selects a child
    obtain ⟨j, hj⟩ := Option.isSome_iff_exists.mp (childIndex_isSome (hk.le_of_mem List.mem_cons_self))
    have hpos := hl.wf.pos_full_child hj hk
    obtain rfl := childIndex_eq_some.mp hj
    simp only [List.length_cons] at hF
    obtain ⟨nodes, hres, hall⟩ := proveIn_spec F onHash hon (cs j) (tcs j) r0 false (hc j) (hl.full j) hpos
      (by simpa using hk.drop 1) (by omega) (fun _ _ => by omega)
    refine ⟨.full cs flags :: nodes, ?_, ?_⟩
    · simp [Trie.proveIn, hres, Except.map]
    · rw [proofPath_full_index]
      exact .cons ⟨⟨root, hc, hf⟩, fun _ h => Node.noConfusion h, hl, rfl⟩ hall
  | .short _ _ _, .nil, _ :: _, _, hs, _, _, _, _, _ => hs.elim
  | .short _ _ _, .value _ _, _ :: _, _, hs, _, _, _, _, _ => hs.elim
  | .short _ _ _, .full _, _ :: _, _, hs, _, _, _, _, _ => hs.elim
  | .full _ _, .nil, _ :: _, _, hs, _, _, _, _, _ => hs.elim
  | .full _ _, .value _ _, _ :: _, _, hs, _, _, _, _, _ => hs.elim
  | .full _ _, .short _ _, _ :: _, _, hs, _, _, _, _, _ => hs.elim

/-- `Prove`'s walk with fuel for the nibbles left follows the path of the tree. -/
theorem proveWalk_spec (t : Trie) (hk : t.db.keyEncoder = none) :
    ∀ (fuel : ℕ) (n : Node) (u : Tree) (r : Bytes) (root : Bool), Sound blake2b t.db.kv root n u → u.Loadable →
      Pos u r → KeyTail r → r.length ≤ fuel → (∀ ref, n = .hash ref → r.length < fuel) →
      Proved blake2b t.db.kv (t.proveWalk fuel n r) u r
  | 0, n, u, r, root, hs, hl, hp, hr, hF, hH =>
    proveIn_spec 0 _ (fun _ _ _ _ _ _ _ _ hlt => absurd hlt (Nat.not_lt_zero _)) n u r root hs hl hp hr hF hH
  | fuel + 1, n, u, r, root, hs, hl, hp, hr, hF, hH => by
    refine proveIn_spec (fuel + 1) _ (fun ref u r root hs hl hp hr hlt => ?_) n u r root hs hl hp hr hF hH
    -- a hash node: load it, then walk on with one load fewer
    obtain ⟨cn, hres, hsound, hcn⟩ := resolve_loadable blake2b t hk hs hl []
    have hres' : t.resolveHash ref [] = .ok cn := hres
    simp only [hres']
    exact proveWalk_spec t hk fuel cn u r root hsound hl hp hr (by omega) (fun ref' h => absurd h (hcn ref'))

/-- The puts of `Prove` for the nodes of a path from the `i`-th on, with `l`
levels to skip: the path's proof elements after the first `l`. -/
theorem foldl_putProofNode {nodes : List Node} {path : List Tree}
    (hall : List.Forall₂ (PathNode blake2b kv) nodes path) :
    ∀ (i l : ℕ) (db : Database), (nodes.zipIdx i).foldl (Trie.putProofNode blake2b) (l, db) =
      (l - (proofElems blake2b path i).length, db.putAll ((proofElems blake2b path i).drop l)) := by
  induction hall with
  | nil => intro i l db; simp [proofElems, Database.putAll]
  | @cons n u nodes path hnu _ ih =>
    intro i l db
    obtain ⟨root, hs⟩ := hnu.sound
    rw [List.zipIdx_cons, List.foldl_cons, putProofNode_spec hs hnu.loadable.wf hnu.notHash hnu.notNil]
    unfold proofElems
    split
    · -- a proof element: skipped while levels are left, else put
      cases l with
      | zero =>
        simp only [Nat.lt_irrefl, if_false, List.drop_zero, List.length_cons]
        rw [ih]
        simp [Database.putAll_cons]
      | succ l =>
        simp only [Nat.zero_lt_succ, if_true, Nat.add_sub_cancel, List.length_cons, List.drop_succ_cons]
        rw [ih]
        congr 1
        omega
    · exact ih (i + 1) l db

end Walk

namespace Proof

section Verify

variable (blake2b : Bytes → Bytes32)

/-- A walk through the node of `c` at the rest `r` of a key that goes on at the
hash of `w` with the rest `r'`: `w` is a wide subtree on the same path, holding
what `c` holds at `r`. -/
structure Onward (c : Tree) (r : Bytes) (w : Tree) (r' : Bytes) : Prop where
  loadable : w.Loadable
  notValue : w.isValue = false
  wide : hashLen ≤ (enc blake2b w).length
  pos : Pos w r'
  keyTail : KeyTail r'
  shorter : r'.length < r.length
  lookup : lookup c r = lookup w r'
  path : proofPath w r' ⊆ proofPath c r

/-- What `get` returns for the node decoded from `c` at the rest `r` of a key:
nothing where `c` has no entry, the value where it has one, or else the hash of
a subtree to go on in. -/
def Reached (c : Tree) (r : Bytes) (res : Bytes × Node) : Prop :=
  (res.2 = .nil ∧ lookup c r = none) ∨ (∃ v m, res.2 = .value v m ∧ lookup c r = some (v, m)) ∨
  ∃ w, res.2 = .hash ⟨Tree.hash blake2b w, 0⟩ ∧ Onward blake2b c r w res.1

variable {blake2b}

/-- A walk that goes on from an embedded child goes on from its parent. -/
theorem Reached.lift {c u : Tree} {s r : Bytes} {res : Bytes × Node} (h : Reached blake2b c s res)
    (hl : lookup u r = lookup c s) (hp : proofPath c s ⊆ proofPath u r) (hlen : s.length ≤ r.length) :
    Reached blake2b u r res := by
  rcases h with ⟨h1, h2⟩ | ⟨v, m, h1, h2⟩ | ⟨w, h1, hw⟩
  · exact Or.inl ⟨h1, hl.trans h2⟩
  · exact Or.inr (Or.inl ⟨v, m, h1, hl.trans h2⟩)
  · exact Or.inr (Or.inr ⟨w, h1, ⟨hw.loadable, hw.notValue, hw.wide, hw.pos, hw.keyTail,
      Nat.lt_of_lt_of_le hw.shorter hlen, hl.trans hw.lookup, List.Subset.trans hw.path hp⟩⟩)

theorem isValue_of_ne_sixteen {cs : Fin 17 → Tree} (hw : Wf (full cs)) {j : Fin 17} (hj : j ≠ 16) :
    (cs j).isValue = false := by
  obtain ⟨i, rfl⟩ := exists_castSucc_of_ne hj
  exact hw.2.1 i

variable (blake2b) in
/-- `get` through the node decoded from a tree's encoding reaches the end of
the walk, or the hash of a wide subtree on the path. -/
theorem get_loaded (gen : UInt16) : ∀ (c : Tree) (hr : Option HashRef) (r : Bytes), c.Loadable → Pos c r →
    KeyTail r → ∃ res, get (loaded blake2b gen hr c) r = some res ∧ Reached blake2b c r res
  | nil, _, r, _, _, _ => ⟨(r, .nil), rfl, Or.inl ⟨rfl, rfl⟩⟩
  | value v m, _, r, _, hp, _ => by
    obtain rfl : r = [] := hp.1 rfl
    exact ⟨([], .value v m), rfl, Or.inr (Or.inl ⟨v, m, rfl, rfl⟩)⟩
  | short k c, hr, r, hl, _, hk => by
    have hw := hl.wf
    by_cases hpre : k <+: r
    · obtain ⟨s, rfl⟩ := hpre
      have hkne : 0 < k.length := List.length_pos_of_ne_nil hw.1
      have hs : s.length < (k ++ s).length := by simp; omega
      have hps : Pos c s := hw.pos_short_child hk
      have hks : KeyTail s := by simpa using hk.drop k.length
      have hpath := proofPath_short_append c s hw.1
      have hget : get (loaded blake2b gen hr (short k c)) (k ++ s) =
          get (if c.isValue = true ∨ (enc blake2b c).length < hashLen then loaded blake2b gen none c
            else .hash ⟨Tree.hash blake2b c, 0⟩) s := by
        simp only [loaded, get, mismatch_iff, List.prefix_append, not_true_eq_false, if_false, List.drop_left]
      rw [hget]
      split
      · -- an embedded child: walk on through it
        obtain ⟨res, hres, hreach⟩ := get_loaded gen c none s hl.short hps hks
        refine ⟨res, hres, hreach.lift (by simp) ?_ hs.le⟩
        rw [hpath]
        exact List.subset_cons_self _ _
      · -- a child as wide as a hash: the walk stops at its hash
        rename_i hwide
        simp only [not_or, Bool.not_eq_true, Nat.not_lt] at hwide
        refine ⟨(s, .hash ⟨Tree.hash blake2b c, 0⟩), rfl, Or.inr (Or.inr ⟨c, rfl, ?_⟩)⟩
        refine ⟨hl.short, hwide.1, hwide.2, hps, hks, hs, by simp, ?_⟩
        rw [hpath]
        exact List.subset_cons_self _ _
    · -- the key leaves the short node: nothing is here
      refine ⟨([], .nil), ?_, Or.inl ⟨rfl, by simp [lookup_short, hpre]⟩⟩
      simp only [loaded, get, (mismatch_iff k r).mpr hpre, if_true]
  | full cs, hr, r, hl, hp, hk => by
    have hw := hl.wf
    -- a full node is met with a nibble left, which selects a child
    have hne : r ≠ [] := fun h => by rcases hp.2 h with h' | h' <;> cases h'
    obtain ⟨y, r0, rfl⟩ := List.exists_cons_of_ne_nil hne
    obtain ⟨j, hj⟩ := Option.isSome_iff_exists.mp (childIndex_isSome (hk.le_of_mem List.mem_cons_self))
    have hpj : Pos (cs j) r0 := hw.pos_full_child hj hk
    have hkj : KeyTail r0 := by simpa using hk.drop 1
    obtain rfl := childIndex_eq_some.mp hj
    have hs : r0.length < (j.val.toUInt8 :: r0).length := by simp
    have hget : get (loaded blake2b gen hr (full cs)) (j.val.toUInt8 :: r0) =
        get (if j = 16 ∨ (enc blake2b (cs j)).length < hashLen then loaded blake2b gen none (cs j)
          else .hash ⟨Tree.hash blake2b (cs j), 0⟩) r0 := by
      simp [loaded, get]
    rw [hget]
    split
    · -- an embedded child: walk on through it
      obtain ⟨res, hres, hreach⟩ := get_loaded gen (cs j) none r0 (hl.full j) hpj hkj
      refine ⟨res, hres, hreach.lift (by simp) ?_ hs.le⟩
      rw [proofPath_full_index]
      exact List.subset_cons_self _ _
    · -- a child as wide as a hash: the walk stops at its hash
      rename_i hwide
      simp only [not_or, Nat.not_lt] at hwide
      refine ⟨(r0, .hash ⟨Tree.hash blake2b (cs j), 0⟩), rfl, Or.inr (Or.inr ⟨cs j, rfl, ?_⟩)⟩
      refine ⟨hl.full j, isValue_of_ne_sixteen hw hwide.1, hwide.2, hpj, hkj, hs, by simp, ?_⟩
      rw [proofPath_full_index]
      exact List.subset_cons_self _ _

/-- The loop of `VerifyProof` at the hash of a stored subtree, with every node
of the path from it stored that is as wide as a hash, returns the subtree's
value at the rest of the key, with no error. -/
theorem verifyProofFrom_spec (D : Bytes → Option Bytes) :
    ∀ (fuel : ℕ) (c : Tree) (r : Bytes) (i : ℕ), c.Loadable → c.isNil = false → c.isValue = false → Pos c r →
      KeyTail r → (∀ u ∈ proofPath c r, (u = c ∨ hashLen ≤ (enc blake2b u).length) →
        D (Tree.hash blake2b u).toList = some (enc blake2b u)) → r.length < fuel →
      ∃ n, verifyProofFrom D fuel r (Tree.hash blake2b c) i = some ((lookup c r).map Prod.fst, none, n)
  | 0, _, _, _, _, _, _, _, _, _, hf => absurd hf (Nat.not_lt_zero _)
  | fuel + 1, c, r, i, hl, hn, hv, hp, hk, hD, hf => by
    have hne : r ≠ [] := fun h => by rcases hp.2 h with h' | h' <;> simp_all
    have hbuf := hD c (List.mem_of_mem_head? (head?_proofPath hn hv hne)) (Or.inl rfl)
    have hdec := decodeNode_enc blake2b 0 c (some ⟨Tree.hash blake2b c, 0⟩) ((enc blake2b c).length + 1) [] hl.wf
      hl.metaFree hn hv (length_enc_lt (show 2 ^ 57 < 2 ^ 58 by norm_num) blake2b hl.wf hl.bounded)
      (Nat.lt_succ_self _)
    rw [List.append_nil] at hdec
    obtain ⟨⟨r', n'⟩, hget, hreach⟩ := get_loaded blake2b 0 c (some ⟨Tree.hash blake2b c, 0⟩) r hl hp hk
    rcases hreach with ⟨h1, h2⟩ | ⟨v, m, h1, h2⟩ | ⟨w, h1, hw⟩
    · -- the key is absent: nothing, and no error
      simp only at h1
      subst h1
      exact ⟨i, by simp [verifyProofFrom, hbuf, hdec, hget, h2]⟩
    · -- the value
      simp only at h1
      subst h1
      exact ⟨i + 1, by simp [verifyProofFrom, hbuf, hdec, hget, h2]⟩
    · -- on to the node stored under the next hash, with the rest of the key
      simp only at h1
      subst h1
      have hD' : ∀ u ∈ proofPath w r', (u = w ∨ hashLen ≤ (enc blake2b u).length) →
          D (Tree.hash blake2b u).toList = some (enc blake2b u) := fun u hu hel =>
        hD u (hw.path hu) (Or.inr (hel.elim (fun h => h ▸ hw.wide) id))
      obtain ⟨n, hn'⟩ := verifyProofFrom_spec D fuel w r' (i + 1) hw.loadable (isNil_of_wide hw.wide) hw.notValue
        hw.pos hw.keyTail hD' (by have := hw.shorter; simp only at this; omega)
      refine ⟨n, ?_⟩
      rw [hw.lookup]
      simpa [verifyProofFrom, hbuf, hdec, hget] using hn'

end Verify

end Proof

section Complete

variable {blake2b : Bytes → Bytes32}

/-- `Prove` on a trie standing for a tree puts the proof elements of the key's
path, but the first `fromLevel`. -/
theorem prove_spec {t : Trie} {tr : Tree} (hi : t.Inv blake2b tr) (key : Bytes) (fromLevel : ℕ)
    (proofDb : Database) :
    t.prove blake2b key fromLevel proofDb =
      some (.ok (proofDb.putAll ((proofElems blake2b (proofPath tr (keybytesToHex key)) 0).drop fromLevel))) := by
  obtain ⟨nodes, hres, hall⟩ := proveWalk_spec t hi.keyEncoder (Trie.walkFuel key) t.root tr (keybytesToHex key) true
    hi.sound hi.loadable (hi.pos key) (keyTail_keybytesToHex key) (Trie.length_lt_walkFuel key).le
    (fun _ _ => Trie.length_lt_walkFuel key)
  simp only [Trie.prove, hres, Option.map_some, Except.map, foldl_putProofNode hall 0 fromLevel proofDb]

/-- Over what `Prove` put, at the trie's hash, `VerifyProof` returns the
trie's value at the key, or nothing where the key is absent, with no error;
given enough fuel, and the nodes of the key's path with one hash having one
encoding. -/
theorem verifyProof_prove {t : Trie} {tr : Tree} (hi : t.Inv blake2b tr) (hne : tr.isNil = false) (key : Bytes)
    (proofDb : Database)
    (hcf : ∀ u ∈ proofPath tr (keybytesToHex key), ∀ w ∈ proofPath tr (keybytesToHex key),
      Tree.hash blake2b u = Tree.hash blake2b w → enc blake2b u = enc blake2b w)
    (fuel : ℕ) (hfuel : Trie.walkFuel key ≤ fuel) :
    ∃ db n, t.prove blake2b key 0 proofDb = some (.ok db) ∧
      Proof.verifyProof fuel (t.hash blake2b).1 key db.kv =
        some ((lookup tr (keybytesToHex key)).map Prod.fst, none, n) := by
  have hroot : (t.hash blake2b).1 = Tree.hash blake2b tr := by
    rw [(hash_root hi.sound hi.wf).1, rootHash_of_ne_nil hne]
  have hr : keybytesToHex key ≠ [] := keybytesToHex_ne_nil key
  -- every element is put, and a later put under its hash puts the same encoding
  have hstored : ∀ u ∈ proofPath tr (keybytesToHex key), (u = tr ∨ hashLen ≤ (enc blake2b u).length) →
      (proofDb.putAll (proofElems blake2b (proofPath tr (keybytesToHex key)) 0)).kv (Tree.hash blake2b u).toList =
        some (enc blake2b u) := by
    intro u hu hel
    refine Database.putAll_kv_of_agree (Or.inr (mem_proofElems_of_mem hu ?_)) fun p hp hpk => ?_
    · rcases hel with rfl | hel
      · exact Or.inl ⟨head?_proofPath hne hi.notValue hr, rfl⟩
      · exact Or.inr hel
    · obtain ⟨w, hw, rfl⟩ := mem_proofElems hp
      exact hcf w hw u hu (Vector.toList_inj.mp hpk)
  obtain ⟨n, hn⟩ := Proof.verifyProofFrom_spec _ fuel tr (keybytesToHex key) 0 hi.loadable hne hi.notValue
    (hi.pos key) (keyTail_keybytesToHex key) hstored (Nat.lt_of_lt_of_le (Trie.length_lt_walkFuel key) hfuel)
  refine ⟨_, n, by rw [prove_spec hi key 0 proofDb, List.drop_zero], ?_⟩
  rw [Proof.verifyProof, hroot]
  exact hn

theorem verifyProof_prove_one :
    Trie.Inv (fun b => Vector.replicate 32 b.length.toUInt8)
        ⟨.short [0, 1, 16] (.value [2] []) ⟨none, true, 0⟩, memDb, 0, 0⟩ (short [0, 1, 16] (value [2] [])) ∧
      (short [0, 1, 16] (value [2] [])).isNil = false ∧
      (∀ u ∈ proofPath (short [0, 1, 16] (value [2] [])) (keybytesToHex [1]),
        ∀ w ∈ proofPath (short [0, 1, 16] (value [2] [])) (keybytesToHex [1]),
          Tree.hash (fun b => Vector.replicate 32 b.length.toUInt8) u =
            Tree.hash (fun b => Vector.replicate 32 b.length.toUInt8) w →
          enc (fun b => Vector.replicate 32 b.length.toUInt8) u = enc (fun b => Vector.replicate 32 b.length.toUInt8) w) ∧
      Trie.walkFuel [1] ≤ 4 ∧
      ∃ db n, Trie.prove ⟨.short [0, 1, 16] (.value [2] []) ⟨none, true, 0⟩, memDb, 0, 0⟩
          (fun b => Vector.replicate 32 b.length.toUInt8) [1] 0 memDb = some (.ok db) ∧
        Proof.verifyProof 4 (Trie.hash ⟨.short [0, 1, 16] (.value [2] []) ⟨none, true, 0⟩, memDb, 0, 0⟩
          (fun b => Vector.replicate 32 b.length.toUInt8)).1 [1] db.kv =
          some ((lookup (short [0, 1, 16] (value [2] [])) (keybytesToHex [1])).map Prod.fst, none, n) := by
  have hw : Wf (short [0, 1, 16] (value [2] [])) :=
    ⟨List.cons_ne_nil _ _, Or.inr ⟨[0, 1], fun x hx => by simp at hx; rcases hx with rfl | rfl <;> decide, rfl⟩,
      rfl, rfl, List.cons_ne_nil _ _⟩
  have hb : Bounded (2 ^ 57) (short [0, 1, 16] (value [2] [])) := by
    intro q x hq
    rw [lookup_short] at hq
    split at hq
    · rw [lookup_value] at hq
      split at hq
      · rename_i hd
        cases hq
        have hq3 : q.length ≤ 3 := by simpa using hd
        exact ⟨le_trans hq3 (by norm_num), by norm_num⟩
      · cases hq
    · cases hq
  have hi : Trie.Inv (fun b => Vector.replicate 32 b.length.toUInt8)
      ⟨.short [0, 1, 16] (.value [2] []) ⟨none, true, 0⟩, memDb, 0, 0⟩ (short [0, 1, 16] (value [2] [])) :=
    ⟨rfl, Trie.storeFresh_memDb, ⟨rfl, rfl, flagsOk_dirty true 0 _⟩, hw, rfl, hb, rfl⟩
  have hcf : ∀ u ∈ proofPath (short [0, 1, 16] (value [2] [])) (keybytesToHex [1]),
      ∀ w ∈ proofPath (short [0, 1, 16] (value [2] [])) (keybytesToHex [1]),
        Tree.hash (fun b => Vector.replicate 32 b.length.toUInt8) u =
          Tree.hash (fun b => Vector.replicate 32 b.length.toUInt8) w →
        enc (fun b => Vector.replicate 32 b.length.toUInt8) u = enc (fun b => Vector.replicate 32 b.length.toUInt8) w := by
    have hpath : proofPath (short [0, 1, 16] (value [2] [])) (keybytesToHex [1]) = [short [0, 1, 16] (value [2] [])] :=
      rfl
    intro u hu w hw _
    rw [hpath, List.mem_singleton] at hu hw
    rw [hu, hw]
  exact ⟨hi, rfl, hcf, by decide, verifyProof_prove hi rfl [1] memDb hcf 4 (by decide)⟩

end Complete

end Workshare
