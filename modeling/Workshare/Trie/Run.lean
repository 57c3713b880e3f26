import Workshare.Trie.Commit
import Workshare.Trie.Refine

/-!
# Test runs of the trie

`runRandTest` drives a trie over an in-memory store through updates, deletes,
gets, hashes, commits and resets (a commit, then `New` at the returned root),
and checks every get against a map of the values last written. A run here is
that loop over the `Try` functions, stopped at the first error.

The trie stands for a tree (`Trie.Inv`), every step moves it by the tree's
`insert` or `delete`, and the tree holds the map (`Agrees`). Since a
well-formed tree is a function of its entries, so is the root hash.
-/
namespace Workshare

/-- The steps of `runRandTest`. -/
inductive Op
  | update (key value : Bytes)
  | delete (key : Bytes)
  | get (key : Bytes)
  | commit
  | hash
  | reset
  deriving DecidableEq, Repr

namespace Op

/-- Whether the step writes the trie's nodes to the store. -/
def commits : Op → Bool
  | commit | reset => true
  | _ => false

/-- Keys and values shorter than 2^56 bytes: the length of every node's
encoding then fits the eight bytes RLP gives it. -/
def Small : Op → Prop
  | update key value => key.length < 2 ^ 56 ∧ value.length < 2 ^ 56
  | _ => True

/-- The map of `runRandTest` after the step: the value last written at each
key, empty when deleted. -/
def write (m : Bytes → Bytes) : Op → Bytes → Bytes
  | update key value => Function.update m key value
  | delete key => Function.update m key []
  | _ => m

/-- What a get must return. -/
def read (m : Bytes → Bytes) : Op → Option Bytes
  | get key => some (m key)
  | _ => none

end Op

/-- The values the gets of a run must return. -/
def specRun : (Bytes → Bytes) → List Op → List Bytes
  | _, [] => []
  | m, op :: ops => (op.read m).toList ++ specRun (op.write m) ops

/-- The in-memory store of `runRandTest`, keyed by hash. -/
def memDb : Database := ⟨fun _ => none, none⟩

namespace Trie

variable (blake2b : Bytes → Bytes32)

/-- One step of a run: the trie after it, and what a get read (`TryGet`
returns the value alone). -/
def step (t : Trie) : Op → Except TrieError (Trie × Option Bytes)
  | .update key value => (t.tryUpdate key value).map fun t => (t, none)
  | .delete key => (t.tryDelete key).map fun t => (t, none)
  | .get key =>
    let (r, t) := t.tryGetKey key
    r.map fun v => (t, some ((v.map Prod.fst).getD []))
  | .commit => .ok ((t.commit blake2b).2, none)
  | .hash => .ok ((t.hash blake2b).2, none)
  | .reset =>
    let (root, t) := t.commit blake2b
    (new blake2b root t.db).map fun t => (t, none)

/-- A run: the trie at its end and the values its gets returned. -/
def run : Trie → List Op → Except TrieError (Trie × List Bytes)
  | t, [] => .ok (t, [])
  | t, op :: ops =>
    (t.step blake2b op).bind fun (t, out) => (run t ops).map fun (t, outs) => (t, out.toList ++ outs)

/-- The commits of a run put no blob under a key holding another one and none
under the zero hash or the empty root: the hash has no collision on what the
run writes. -/
def RunFresh : Trie → List Op → Prop
  | _, [] => True
  | t, op :: ops =>
    (op.commits = true → PutsFresh blake2b t.db.kv (t.commitPuts blake2b)) ∧
      ∀ r, t.step blake2b op = .ok r → RunFresh r.1 ops

end Trie

namespace Tree

/-- What a step does to the tree the trie stands for. -/
def applyOp (t : Tree) : Op → Tree
  | .update key v => if v.length ≠ 0 then insert v [] t (keybytesToHex key) else delete t (keybytesToHex key)
  | .delete key => delete t (keybytesToHex key)
  | _ => t

/-- What a get reads from the tree. -/
def readOp (t : Tree) : Op → Option Bytes
  | .get key => some (((lookup t (keybytesToHex key)).map Prod.fst).getD [])
  | _ => none

/-- The tree holds the map: at every key its value without metadata, none
when the value is empty, and no entry but under a key. -/
def Agrees (m : Bytes → Bytes) (t : Tree) : Prop :=
  (∀ key, lookup t (keybytesToHex key) = if m key = [] then none else some (m key, [])) ∧
    ∀ q x, lookup t q = some x → ∃ key, q = keybytesToHex key

theorem agrees_empty : Agrees (fun _ => []) nil :=
  ⟨fun _ => rfl, fun _ _ h => nomatch h⟩

section Entries

variable {t : Tree}

theorem pos_keybytesToHex (hv : t.isValue = false) (key : Bytes) : Pos t (keybytesToHex key) :=
  ⟨fun h => absurd h (by simp [hv]), fun h => absurd h (keybytesToHex_ne_nil key)⟩

theorem agrees_insert {m : Bytes → Bytes} (hw : Wf t) (hv : t.isValue = false) (ha : Agrees m t)
    {key v : Bytes} (hval : v ≠ []) :
    Agrees (Function.update m key v) (insert v [] t (keybytesToHex key)) := by
  have hl := lookup_insert v [] hw (pos_keybytesToHex hv key) (keyTail_keybytesToHex key)
  refine ⟨fun key' => ?_, fun q x hq => ?_⟩
  · rw [hl]
    by_cases hk : key' = key
    · subst hk
      simp [hval]
    · rw [if_neg (fun h => hk (keybytesToHex_injective h)), ha.1 key', Function.update_of_ne hk]
  · rw [hl] at hq
    split_ifs at hq with h
    · exact ⟨key, h⟩
    · exact ha.2 q x hq

theorem agrees_delete {m : Bytes → Bytes} (hw : Wf t) (hv : t.isValue = false) (ha : Agrees m t) (key : Bytes) :
    Agrees (Function.update m key []) (delete t (keybytesToHex key)) := by
  have hl := lookup_delete hw (pos_keybytesToHex hv key) (keyTail_keybytesToHex key)
  refine ⟨fun key' => ?_, fun q x hq => ?_⟩
  · rw [hl]
    by_cases hk : key' = key
    · subst hk
      simp
    · rw [if_neg (fun h => hk (keybytesToHex_injective h)), ha.1 key', Function.update_of_ne hk]
  · rw [hl] at hq
    split_ifs at hq
    exact ha.2 q x hq

/-- A step moves the tree as it moves the map. -/
theorem agrees_applyOp {m : Bytes → Bytes} (hw : Wf t) (hv : t.isValue = false) (ha : Agrees m t) :
    ∀ op : Op, Agrees (op.write m) (t.applyOp op)
  | .update key v => by
    by_cases hval : v = []
    · subst hval
      exact agrees_delete hw hv ha key
    · simpa [applyOp, Op.write, hval] using agrees_insert hw hv ha hval
  | .delete key => agrees_delete hw hv ha key
  | .get _ | .commit | .hash | .reset => ha

/-- A get reads the map. -/
theorem readOp_eq_read {m : Bytes → Bytes} (ha : Agrees m t) : ∀ op : Op, t.readOp op = op.read m
  | .get key => by
    rw [readOp, ha.1 key, Op.read]
    split_ifs with h
    · simp [h]
    · rfl
  | .update _ _ | .delete _ | .commit | .hash | .reset => rfl

/-- Two well-formed trees holding one map are the same tree. -/
theorem eq_of_agrees {m : Bytes → Bytes} {t₁ t₂ : Tree} (hw₁ : Wf t₁) (hw₂ : Wf t₂) (h₁ : Agrees m t₁)
    (h₂ : Agrees m t₂) : t₁ = t₂ := by
  refine eq_of_lookup_eq hw₁ hw₂ fun q => ?_
  by_cases hq : ∃ key, q = keybytesToHex key
  · obtain ⟨key, rfl⟩ := hq
    rw [h₁.1 key, h₂.1 key]
  · have hn : ∀ t, Agrees m t → lookup t q = none := fun t h => by
      cases hl : lookup t q with
      | none => rfl
      | some x => exact absurd (h.2 q x hl) hq
    rw [hn t₁ h₁, hn t₂ h₂]

/-- Entries no longer than `B` stay so when one no longer is added. -/
theorem bounded_applyOp {B : ℕ} (hw : Wf t) (hv : t.isValue = false) (hb : Bounded B t) :
    ∀ op : Op, (∀ key v, op = .update key v → (keybytesToHex key).length ≤ B ∧ v.length ≤ B) →
      Bounded B (t.applyOp op)
  | .update key v, hs => by
    obtain ⟨hk, hval⟩ := hs key v rfl
    intro q x hq
    simp only [applyOp] at hq
    split_ifs at hq
    · rw [lookup_insert v [] hw (pos_keybytesToHex hv key) (keyTail_keybytesToHex key)] at hq
      split_ifs at hq with h
      · cases hq
        exact ⟨h ▸ hk, hval⟩
      · exact hb q x hq
    · rw [lookup_delete hw (pos_keybytesToHex hv key) (keyTail_keybytesToHex key)] at hq
      split_ifs at hq
      exact hb q x hq
  | .delete key, _ => by
    intro q x hq
    rw [applyOp, lookup_delete hw (pos_keybytesToHex hv key) (keyTail_keybytesToHex key)] at hq
    split_ifs at hq
    exact hb q x hq
  | .get _, _ | .commit, _ | .hash, _ | .reset, _ => hb

/-- No step adds metadata. -/
theorem metaFree_applyOp (hw : Wf t) (hv : t.isValue = false) (hm : MetaFree t) : ∀ op : Op, MetaFree (t.applyOp op)
  | .update key v => by
    rw [metaFree_iff] at hm ⊢
    intro q x hq
    simp only [applyOp] at hq
    split_ifs at hq
    · rw [lookup_insert v [] hw (pos_keybytesToHex hv key) (keyTail_keybytesToHex key)] at hq
      split_ifs at hq
      · cases hq
        rfl
      · exact hm q x hq
    · rw [lookup_delete hw (pos_keybytesToHex hv key) (keyTail_keybytesToHex key)] at hq
      split_ifs at hq
      exact hm q x hq
  | .delete key => by
    rw [metaFree_iff] at hm ⊢
    intro q x hq
    rw [applyOp, lookup_delete hw (pos_keybytesToHex hv key) (keyTail_keybytesToHex key)] at hq
    split_ifs at hq
    exact hm q x hq
  | .get _ | .commit | .hash | .reset => hm

theorem wf_applyOp (hw : Wf t) (hv : t.isValue = false) : ∀ op : Op, Wf (t.applyOp op)
  | .update key v => by
    simp only [applyOp]
    split_ifs with hval
    · exact wf_insert v [] (fun h => hval (by simp [h])) hw (pos_keybytesToHex hv key)
        (keyTail_keybytesToHex key)
    · exact wf_delete hw (pos_keybytesToHex hv key) (keyTail_keybytesToHex key)
  | .delete key => wf_delete hw (pos_keybytesToHex hv key) (keyTail_keybytesToHex key)
  | .get _ | .commit | .hash | .reset => hw

/-- The tree is never a bare value: every key ends in the terminator. -/
theorem isValue_applyOp (hv : t.isValue = false) : ∀ op : Op, (t.applyOp op).isValue = false
  | .update key v => by
    simp only [applyOp]
    split_ifs
    · rw [Bool.eq_false_iff]
      intro h
      exact keybytesToHex_ne_nil key ((insert_isValue v [] (pos_keybytesToHex hv key)).mp h)
    · exact delete_isValue t _
  | .delete key => delete_isValue t _
  | .get _ | .commit | .hash | .reset => hv

end Entries

end Tree

namespace Trie

variable (blake2b : Bytes → Bytes32)

/-- What a run keeps: a store keyed by hash with nothing under the zero hash or
the empty root, and a root standing for a well-formed tree of entries without
metadata and no longer than 2^57, which is not a bare value. -/
structure Inv (t : Trie) (tr : Tree) : Prop where
  keyEncoder : t.db.keyEncoder = none
  fresh : StoreFresh blake2b t.db.kv
  sound : Sound blake2b t.db.kv true t.root tr
  wf : Tree.Wf tr
  metaFree : Tree.MetaFree tr
  bounded : Tree.Bounded (2 ^ 57) tr
  notValue : tr.isValue = false

variable {blake2b}

theorem inv_new (db : Database) (hk : db.keyEncoder = none) (hf : StoreFresh blake2b db.kv) :
    Inv blake2b ⟨.nil, db, 0, 0⟩ .nil where
  keyEncoder := hk
  fresh := hf
  sound := rfl
  wf := trivial
  metaFree := trivial
  bounded _ _ h := nomatch h
  notValue := rfl

/-- A new root standing for the tree after an update or a delete, over the same store. -/
theorem Inv.withRoot {t : Trie} {tr : Tree} (hi : t.Inv blake2b tr) {op : Op} (hs : op.Small) {n : Node}
    (hn : Sound blake2b t.db.kv true n (tr.applyOp op)) : Inv blake2b { t with root := n } (tr.applyOp op) := by
  have hb : ∀ key v, op = .update key v → (keybytesToHex key).length ≤ 2 ^ 57 ∧ v.length ≤ 2 ^ 57 := by
    rintro key v rfl
    obtain ⟨hk, hv⟩ := hs
    rw [length_keybytesToHex]
    omega
  exact ⟨hi.keyEncoder, hi.fresh, hn, Tree.wf_applyOp hi.wf hi.notValue op,
    Tree.metaFree_applyOp hi.wf hi.notValue hi.metaFree op, Tree.bounded_applyOp hi.wf hi.notValue hi.bounded op hb,
    Tree.isValue_applyOp hi.notValue op⟩

/-- The same tree at another root over another store, keyed by hash and fresh. -/
theorem Inv.withStore {t t' : Trie} {tr : Tree} (hi : t.Inv blake2b tr) (hk : t'.db.keyEncoder = none)
    (hf : StoreFresh blake2b t'.db.kv) (hs : Sound blake2b t'.db.kv true t'.root tr) : t'.Inv blake2b tr :=
  ⟨hk, hf, hs, hi.wf, hi.metaFree, hi.bounded, hi.notValue⟩

theorem Inv.pos {t : Trie} {tr : Tree} (hi : t.Inv blake2b tr) (key : Bytes) : Tree.Pos tr (keybytesToHex key) :=
  Tree.pos_keybytesToHex hi.notValue key

theorem length_lt_walkFuel (key : Bytes) : (keybytesToHex key).length < walkFuel key := Nat.lt_succ_self _

/-- One step keeps the invariant, moves the tree as `applyOp` says and reads
what `readOp` says; only a commit needs its puts fresh. -/
theorem step_inv {t : Trie} {tr : Tree} (hi : t.Inv blake2b tr) (op : Op) (hs : op.Small)
    (hf : op.commits = true → PutsFresh blake2b t.db.kv (t.commitPuts blake2b)) :
    ∃ t', t.step blake2b op = .ok (t', tr.readOp op) ∧ t'.Inv blake2b (tr.applyOp op) := by
  have hB : (2 : ℕ) ^ 57 < 2 ^ 58 := by decide
  cases op with
  | update key v =>
    by_cases hv : v.length ≠ 0
    · -- a value: `insert` at the key's nibbles
      obtain ⟨d, n, hr, hn, -⟩ := insert_sound blake2b t v [] hB (fun h => hv (by simp [h])) hi.keyEncoder
        (walkFuel key) t.root tr [] (keybytesToHex key) true hi.sound hi.wf hi.metaFree hi.bounded (hi.pos key)
        (keyTail_keybytesToHex key) (length_lt_walkFuel key).le (fun _ _ => length_lt_walkFuel key)
      have hn' : Sound blake2b t.db.kv true n (tr.applyOp (.update key v)) := by
        rwa [Tree.applyOp, if_pos hv]
      refine ⟨_, ?_, hi.withRoot hs hn'⟩
      simp only [step, tryUpdate, tryUpdateNode, if_pos hv, hr]
      rfl
    · -- an empty value deletes the key
      obtain ⟨d, n, hr, hn, -⟩ := delete_sound blake2b t hB hi.keyEncoder (walkFuel key) t.root tr []
        (keybytesToHex key) true hi.sound hi.wf hi.metaFree hi.bounded (hi.pos key) (keyTail_keybytesToHex key)
        (length_lt_walkFuel key).le (fun _ _ => length_lt_walkFuel key)
      have hn' : Sound blake2b t.db.kv true n (tr.applyOp (.update key v)) := by
        rwa [Tree.applyOp, if_neg hv]
      refine ⟨_, ?_, hi.withRoot hs hn'⟩
      simp only [step, tryUpdate, tryUpdateNode, if_neg hv, hr]
      rfl
  | delete key =>
    obtain ⟨d, n, hr, hn, -⟩ := delete_sound blake2b t hB hi.keyEncoder (walkFuel key) t.root tr []
      (keybytesToHex key) true hi.sound hi.wf hi.metaFree hi.bounded (hi.pos key) (keyTail_keybytesToHex key)
      (length_lt_walkFuel key).le (fun _ _ => length_lt_walkFuel key)
    refine ⟨_, ?_, hi.withRoot hs hn⟩
    simp only [step, tryDelete, hr]
    rfl
  | get key =>
    -- the walk reads the tree's entry and keeps a root standing for the tree
    obtain ⟨h1, h2, h3⟩ := tryGet_sound blake2b hB t hi.keyEncoder (walkFuel key) t.root tr (keybytesToHex key) 0
      true hi.sound hi.wf hi.metaFree hi.bounded (by simpa using hi.pos key) (by simpa using keyTail_keybytesToHex key)
      (by simpa using (length_lt_walkFuel key).le) (fun _ _ => by simpa using length_lt_walkFuel key)
    generalize hr : t.tryGet (walkFuel key) t.root (keybytesToHex key) 0 = r at h1 h2 h3
    obtain ⟨v, n, e⟩ := r
    simp only [List.drop_zero] at h1 h2 h3
    subst h1 h2
    refine ⟨{ t with root := n }, ?_, hi.withStore hi.keyEncoder hi.fresh h3⟩
    simp only [step, tryGetKey, hr]
    rfl
  | commit =>
    obtain ⟨-, hk, -, hfr, hsound, -⟩ := commit_sound hi.keyEncoder hi.sound hi.wf (hf rfl) hi.fresh
    exact ⟨_, rfl, hi.withStore hk hfr hsound⟩
  | hash =>
    obtain ⟨-, hdb, hsound⟩ := hash_root hi.sound hi.wf
    refine ⟨_, rfl, hi.withStore (by rw [hdb]; exact hi.keyEncoder) (by rw [hdb]; exact hi.fresh) ?_⟩
    rw [hdb]
    exact hsound
  | reset =>
    -- the commit stores the tree under its root hash, from which `New` loads it
    obtain ⟨hroot, hk, -, hfr, -, hres⟩ := commit_sound hi.keyEncoder hi.sound hi.wf (hf rfl) hi.fresh
    obtain ⟨t', hnew, hdb, hsound⟩ := new_sound hk hfr hi.wf hi.metaFree (Tree.length_enc_lt hB blake2b hi.wf hi.bounded)
      hi.notValue hres
    refine ⟨t', ?_, hi.withStore (by rw [hdb]; exact hk) (by rw [hdb]; exact hfr) (by rw [hdb]; exact hsound)⟩
    simp only [step, hroot, hnew]
    rfl

/-- A whole run: no error, every get reads the map, and at the end the trie
stands for a tree holding the map the run wrote. -/
theorem run_inv : ∀ (ops : List Op) (t : Trie) (tr : Tree) (m : Bytes → Bytes), t.Inv blake2b tr →
    Tree.Agrees m tr → (∀ op ∈ ops, op.Small) → t.RunFresh blake2b ops →
    ∃ t' tr', t.run blake2b ops = .ok (t', specRun m ops) ∧ t'.Inv blake2b tr' ∧
      Tree.Agrees (ops.foldl Op.write m) tr'
  | [], t, tr, _, hi, ha, _, _ => ⟨t, tr, rfl, hi, ha⟩
  | op :: ops, t, tr, m, hi, ha, hs, hf => by
    -- one step, then the rest of the run from the tree the step left
    obtain ⟨t₁, hstep, hi₁⟩ := step_inv hi op (hs op List.mem_cons_self) hf.1
    obtain ⟨t', tr', hrun, hi', ha'⟩ := run_inv ops t₁ (tr.applyOp op) (op.write m) hi₁
      (Tree.agrees_applyOp hi.wf hi.notValue ha op) (fun o ho => hs o (List.mem_cons_of_mem _ ho)) (hf.2 _ hstep)
    refine ⟨t', tr', ?_, hi', ha'⟩
    rw [run, hstep, Tree.readOp_eq_read ha op]
    show Except.map _ (run blake2b t₁ ops) = _
    rw [hrun]
    rfl

theorem new_zero (db : Database) : new blake2b (Vector.replicate 32 0) db = .ok ⟨.nil, db, 0, 0⟩ := by
  simp [new]

theorem storeFresh_memDb : StoreFresh blake2b memDb.kv := fun _ _ h => nomatch h

/-- Two runs that write the same map end at tries with the same root hash,
whatever they did on the way: the tree a run leaves is a function of the map. -/
theorem run_hash_eq_of_write_eq (blake2b : Bytes → Bytes32) (ops₁ ops₂ : List Op)
    (hs₁ : ∀ op ∈ ops₁, op.Small) (hs₂ : ∀ op ∈ ops₂, op.Small)
    (hf₁ : RunFresh blake2b ⟨.nil, memDb, 0, 0⟩ ops₁) (hf₂ : RunFresh blake2b ⟨.nil, memDb, 0, 0⟩ ops₂)
    (hm : ops₁.foldl Op.write (fun _ => []) = ops₂.foldl Op.write (fun _ => [])) :
    ∃ h, ((new blake2b (Vector.replicate 32 0) memDb).bind fun t => t.run blake2b ops₁).map
        (fun r => (r.1.hash blake2b).1) = .ok h ∧
      ((new blake2b (Vector.replicate 32 0) memDb).bind fun t => t.run blake2b ops₂).map
        (fun r => (r.1.hash blake2b).1) = .ok h := by
  obtain ⟨t₁, tr₁, hrun₁, hi₁, ha₁⟩ :=
    run_inv ops₁ _ _ _ (inv_new memDb rfl storeFresh_memDb) Tree.agrees_empty hs₁ hf₁
  obtain ⟨t₂, tr₂, hrun₂, hi₂, ha₂⟩ :=
    run_inv ops₂ _ _ _ (inv_new memDb rfl storeFresh_memDb) Tree.agrees_empty hs₂ hf₂
  rw [hm] at ha₁
  -- both runs end at the one well-formed tree holding the map
  have htr : tr₁ = tr₂ := Tree.eq_of_agrees hi₁.wf hi₂.wf ha₁ ha₂
  subst htr
  refine ⟨Tree.rootHash blake2b tr₁, ?_, ?_⟩
  · rw [new_zero]
    show Except.map _ (run blake2b ⟨.nil, memDb, 0, 0⟩ ops₁) = _
    rw [hrun₁]
    exact congrArg Except.ok (hash_root hi₁.sound hi₁.wf).1
  · rw [new_zero]
    show Except.map _ (run blake2b ⟨.nil, memDb, 0, 0⟩ ops₂) = _
    rw [hrun₂]
    exact congrArg Except.ok (hash_root hi₂.sound hi₂.wf).1

end Trie

end Workshare
