import Workshare.Trie.Run
import Workshare.RlpCodec

/-!
# Merkle roots of lists

`trie/derive_root.go`: `DeriveRoot` puts the items of a list into an empty
trie, each under the RLP encoding of its index, and returns the trie's hash;
the roots of a block's transactions and of its receipts are derived so.

Indices below `2 ^ 64` encode to distinct keys, so the updates of
`DeriveRoot` are a run whose map holds each item under its index and nothing
else. The run keeps the trie standing for a well-formed tree holding that
map, and the hash is that tree's root hash: the root of a list is the root
hash of the one well-formed tree whose entries are the list's non-empty items
under their indices.
-/
namespace Workshare

open Workshare.Tree

/-- `Update`: an error is logged, and the trie left as it was. -/
def Trie.update (t : Trie) (key value : Bytes) : Trie :=
  match t.tryUpdate key value with
  | .ok t' => t'
  | .error _ => t

/-- `DeriveRoot`, over a list of encoded items. -/
def deriveRoot (blake2b : Bytes → Bytes32) (list : List Bytes) : Bytes32 :=
  let t := list.zipIdx.foldl (fun (t : Trie) e => t.update (Rlp.encodeUint e.2) e.1) ⟨.nil, memDb, 0, 0⟩
  (t.hash blake2b).1

/-! ## Index keys -/

theorem length_encodeUint_le {i : ℕ} (hi : i < 2 ^ 64) : (Rlp.encodeUint i).length ≤ 9 := by
  have := Rlp.putint_length_le hi
  unfold Rlp.encodeUint
  split_ifs
  · simp
  · simp
  · simp only [List.length_cons]
    omega

/-- Indices below `2 ^ 64` encode to distinct keys: `decodeUint` reads each back. -/
theorem encodeUint_inj {i j : ℕ} (hi : i < 2 ^ 64) (hj : j < 2 ^ 64) (h : Rlp.encodeUint i = Rlp.encodeUint j) :
    i = j := by
  have hi' := Rlp.readUint_encodeUint (le_refl 8) (show i < 256 ^ 8 by norm_num; omega) []
  have hj' := Rlp.readUint_encodeUint (le_refl 8) (show j < 256 ^ 8 by norm_num; omega) []
  rw [h, hj'] at hi'
  simpa using hi'.symm

/-- The updates of `DeriveRoot` from the item of index `j` on, as steps of a run. -/
def deriveOps (list : List Bytes) (j : ℕ) : List Op :=
  (list.zipIdx j).map fun e => .update (Rlp.encodeUint e.2) e.1

@[simp] theorem deriveOps_nil (j : ℕ) : deriveOps [] j = [] := rfl

@[simp] theorem deriveOps_cons (x : Bytes) (list : List Bytes) (j : ℕ) :
    deriveOps (x :: list) j = .update (Rlp.encodeUint j) x :: deriveOps list (j + 1) := rfl

/-! ## The map the updates write -/

/-- A key that is no index's is left as it was. -/
theorem write_deriveOps_of_ne {key : Bytes} :
    ∀ (list : List Bytes) (j : ℕ) (m : Bytes → Bytes), (∀ i < list.length, key ≠ Rlp.encodeUint (j + i)) →
      (deriveOps list j).foldl Op.write m key = m key
  | [], _, _, _ => rfl
  | x :: list, j, m, hkey => by
    rw [deriveOps_cons, List.foldl_cons]
    rw [write_deriveOps_of_ne list (j + 1) _ fun i hi => by
      simpa [Nat.add_assoc, Nat.add_comm 1 i] using hkey (i + 1) (by simp; omega)]
    have hj : key ≠ Rlp.encodeUint j := by simpa using hkey 0 (by simp)
    simp [Op.write, Function.update_of_ne hj]

/-- The key of an index holds the index's item, given that the indices
written encode to distinct keys. -/
theorem write_deriveOps_at :
    ∀ (list : List Bytes) (j : ℕ) (m : Bytes → Bytes), j + list.length ≤ 2 ^ 64 →
      ∀ i (hi : i < list.length), (deriveOps list j).foldl Op.write m (Rlp.encodeUint (j + i)) = list[i]
  | [], _, _, _, i, hi => absurd hi (Nat.not_lt_zero i)
  | x :: list, j, m, hlen, i, hi => by
    simp only [List.length_cons] at hlen hi
    rw [deriveOps_cons, List.foldl_cons]
    cases i with
    | zero =>
      -- the later indices encode to other keys
      rw [write_deriveOps_of_ne list (j + 1) _ fun i hi h => by
        have := encodeUint_inj (by omega) (by omega) h
        omega]
      simp [Op.write]
    | succ i =>
      have := write_deriveOps_at list (j + 1) (Op.write m (.update (Rlp.encodeUint j) x)) (by omega) i (by omega)
      simpa [Nat.add_assoc, Nat.add_comm 1 i] using this

/-! ## The run of the updates -/

/-- Updates commit nothing, so a run of them is fresh from any trie. -/
theorem runFresh_deriveOps (blake2b : Bytes → Bytes32) :
    ∀ (list : List Bytes) (j : ℕ) (t : Trie), t.RunFresh blake2b (deriveOps list j)
  | [], _, _ => trivial
  | x :: list, j, t => ⟨fun h => (by cases h), fun r _ => runFresh_deriveOps blake2b list (j + 1) r.1⟩

/-- Where the run of the updates succeeds, `Update` one after another ends at
the trie the run ends at. -/
theorem foldl_update_of_run (blake2b : Bytes → Bytes32) :
    ∀ (list : List Bytes) (j : ℕ) (t t' : Trie) (outs : List Bytes),
      t.run blake2b (deriveOps list j) = .ok (t', outs) →
        (list.zipIdx j).foldl (fun (t : Trie) e => t.update (Rlp.encodeUint e.2) e.1) t = t'
  | [], _, t, t', outs, h => by
    simp only [deriveOps_nil, Trie.run, Except.ok.injEq, Prod.mk.injEq] at h
    exact h.1
  | x :: list, j, t, t', outs, h => by
    rw [deriveOps_cons, Trie.run] at h
    cases hu : t.tryUpdate (Rlp.encodeUint j) x with
    | error e => simp [Trie.step, hu, Except.map, Except.bind] at h
    | ok t₁ =>
      -- the first update succeeds, and the run goes on from its trie
      obtain ⟨outs', hrest⟩ : ∃ outs', t₁.run blake2b (deriveOps list (j + 1)) = .ok (t', outs') := by
        cases hr : t₁.run blake2b (deriveOps list (j + 1)) with
        | error e => simp [Trie.step, hu, hr, Except.map, Except.bind] at h
        | ok r =>
          simp only [Trie.step, hu, hr, Except.map, Except.bind, Except.ok.injEq, Prod.mk.injEq] at h
          exact ⟨r.2, by rw [← h.1]⟩
      rw [List.zipIdx_cons, List.foldl_cons]
      have hupd : t.update (Rlp.encodeUint j) x = t₁ := by simp [Trie.update, hu]
      rw [hupd]
      exact foldl_update_of_run blake2b list (j + 1) t₁ t' outs' hrest

/-! ## The root -/

/-- Every update of `DeriveRoot` is small when the items are. -/
theorem small_deriveOps {list : List Bytes} (hlen : list.length ≤ 2 ^ 64) (hs : ∀ b ∈ list, b.length < 2 ^ 56) :
    ∀ op ∈ deriveOps list 0, op.Small := by
  intro op hop
  obtain ⟨⟨x, i⟩, he, rfl⟩ := List.mem_map.mp hop
  obtain ⟨-, hi, hx⟩ := List.mem_zipIdx he
  have hkey := length_encodeUint_le (show i < 2 ^ 64 by omega)
  dsimp only [Op.Small]
  exact ⟨by omega, hs x (by rw [hx]; exact List.getElem_mem _)⟩

/-- `DeriveRoot` of fewer than `2 ^ 64` items, each shorter than `2 ^ 56`
bytes, is the root hash of a well-formed tree holding each non-empty item,
with no metadata, under the hex of its index's encoding, and nothing else. -/
theorem deriveRoot_spec (blake2b : Bytes → Bytes32) (list : List Bytes) (hlen : list.length ≤ 2 ^ 64)
    (hs : ∀ b ∈ list, b.length < 2 ^ 56) :
    ∃ tr, Wf tr ∧ deriveRoot blake2b list = Tree.rootHash blake2b tr ∧
      (∀ i (hi : i < list.length), lookup tr (keybytesToHex (Rlp.encodeUint i)) =
        if list[i] = [] then none else some (list[i], [])) ∧
      ∀ q x, lookup tr q = some x → ∃ i < list.length, q = keybytesToHex (Rlp.encodeUint i) := by
  have hnew : Trie.Inv blake2b ⟨.nil, memDb, 0, 0⟩ nil := Trie.inv_new memDb rfl Trie.storeFresh_memDb
  obtain ⟨t', tr, hrun, hi, ha⟩ := Trie.run_inv (deriveOps list 0) _ _ _ hnew Tree.agrees_empty
    (small_deriveOps hlen hs) (runFresh_deriveOps blake2b list 0 _)
  have hfold := foldl_update_of_run blake2b list 0 _ t' _ hrun
  refine ⟨tr, hi.wf, ?_, fun i hi' => ?_, fun q x hq => ?_⟩
  · -- the updates end at the run's trie, whose hash is the tree's root hash
    show ((list.zipIdx.foldl (fun (t : Trie) e => t.update (Rlp.encodeUint e.2) e.1) ⟨.nil, memDb, 0, 0⟩).hash
      blake2b).1 = _
    rw [hfold]
    exact (hash_root hi.sound hi.wf).1
  · have hat := write_deriveOps_at list 0 (fun _ => []) (by omega) i hi'
    rw [Nat.zero_add] at hat
    rw [ha.1, hat]
  · -- an entry is under a key the run wrote, which is an index's
    obtain ⟨key, rfl⟩ := ha.2 q x hq
    by_contra hno
    have hne : ∀ i < list.length, key ≠ Rlp.encodeUint (0 + i) := fun i hi' h =>
      hno ⟨i, hi', by rw [h, Nat.zero_add]⟩
    rw [ha.1, write_deriveOps_of_ne list 0 _ hne] at hq
    cases hq

theorem deriveRoot_spec_two :
    ([[1], [2]] : List Bytes).length ≤ 2 ^ 64 ∧ (∀ b ∈ ([[1], [2]] : List Bytes), b.length < 2 ^ 56) ∧
      ∃ tr, Wf tr ∧ deriveRoot (fun b => Vector.replicate 32 b.length.toUInt8) [[1], [2]] =
          Tree.rootHash (fun b => Vector.replicate 32 b.length.toUInt8) tr ∧
        (∀ i (hi : i < ([[1], [2]] : List Bytes).length), lookup tr (keybytesToHex (Rlp.encodeUint i)) =
          if ([[1], [2]] : List Bytes)[i] = [] then none else some (([[1], [2]] : List Bytes)[i], [])) ∧
        ∀ q x, lookup tr q = some x → ∃ i < ([[1], [2]] : List Bytes).length, q = keybytesToHex (Rlp.encodeUint i) :=
  ⟨by decide, by decide, deriveRoot_spec (fun b => Vector.replicate 32 b.length.toUInt8) [[1], [2]] (by decide) (by decide)⟩

end Workshare
