import Workshare.Trie.Load

/-!
# The trie operations refine the tree operations

Over a store keyed by hash, `tryGet`, `insert` and `delete` on a node that
stands for a well-formed tree do what `Tree.lookup`, `Tree.insert` and
`Tree.delete` do to the tree, and leave a node standing for the result. The
walks load at most one node for each nibble of the key and one more, so the
fuel `walkFuel` always suffices: a hash node is only met with fuel to spare
for the nibbles left.
-/
namespace Workshare

open Tree

variable (blake2b : Bytes → Bytes32)

/-- A short node's key fails to match the rest of the key exactly when it is not a prefix of it. -/
theorem short_mismatch_iff (k key : Bytes) (pos : ℕ) :
    (key.length - pos < k.length ∨ k ≠ (key.drop pos).take k.length) ↔ ¬ k <+: key.drop pos := by
  rw [List.prefix_iff_eq_take]
  constructor
  · rintro (h | h) hk
    · have := congrArg List.length hk
      simp at this
      omega
    · exact h hk
  · intro h
    exact Or.inr h

namespace Trie

section Get

variable {B : ℕ} {kv : Bytes → Option Bytes}

/-- What a walk returns for a node standing for `tr`: the entry of `tr` at the
rest of the key, no error, and a node standing for the same tree. -/
def GetOk (kv : Bytes → Option Bytes) (root : Bool) (r : GetResult) (tr : Tree) (q : Bytes) : Prop :=
  r.1 = lookup tr q ∧ r.2.2 = none ∧ Sound blake2b kv root r.2.1 tr

/-- `tryGetIn` refines `lookup`, given that the continuation at hash nodes does
while fuel is left for the nibbles still to walk. -/
theorem tryGetIn_sound (F : ℕ) (onHash : HashRef → Bytes → ℕ → GetResult)
    (hon : ∀ ref tr key pos root, Sound blake2b kv root (.hash ref) tr → Wf tr → MetaFree tr → Bounded B tr →
      Pos tr (key.drop pos) → KeyTail (key.drop pos) → (key.drop pos).length < F →
      GetOk blake2b kv root (onHash ref key pos) tr (key.drop pos)) :
    ∀ (n : Node) (tr : Tree) (key : Bytes) (pos : ℕ) (root : Bool), Sound blake2b kv root n tr → Wf tr →
      MetaFree tr → Bounded B tr → Pos tr (key.drop pos) → KeyTail (key.drop pos) →
      (key.drop pos).length ≤ F → (∀ ref, n = .hash ref → (key.drop pos).length < F) →
      GetOk blake2b kv root (tryGetIn onHash n key pos) tr (key.drop pos)
  | .nil, tr, key, pos, root, hs, _, _, _, _, _, _, _ => by
    subst hs
    exact ⟨rfl, rfl, rfl⟩
  | .value v m, tr, key, pos, root, hs, _, _, _, hp, _, _, _ => by
    subst hs
    have hr := hp.1 rfl
    exact ⟨by simp [tryGetIn, lookup_value, hr], rfl, rfl⟩
  | .hash ref, tr, key, pos, root, hs, hw, hm, hb, hp, hr, _, hH => hon ref tr key pos root hs hw hm hb hp hr (hH ref rfl)
  | .short k c flags, .short k' tc, key, pos, root, hs, hw, hm, hb, _, hr, hF, _ => by
    obtain ⟨rfl, hc, hf⟩ := hs
    by_cases hpre : k <+: key.drop pos
    · -- the key runs through: walk on below
      obtain ⟨s, hs⟩ := hpre
      have hdrop : key.drop (pos + k.length) = s := by rw [← List.drop_drop, ← hs, List.drop_left]
      rw [← hs] at hr hF ⊢
      have hk := hw.1
      have ih := tryGetIn_sound F onHash hon c tc key (pos + k.length) false hc hw.2.2.2.2 hm hb.short
        (by rw [hdrop]; exact hw.pos_short_child hr) (by rw [hdrop]; simpa using hr.drop k.length)
        (by rw [hdrop]; simp at hF; omega) (by
          intro ref _
          rw [hdrop]
          have : k.length ≠ 0 := by simpa using hk
          simp at hF
          omega)
      rw [hdrop] at ih
      have hmatch : ¬ (key.length - pos < k.length ∨ k ≠ (key.drop pos).take k.length) := by
        rw [short_mismatch_iff, ← hs]
        simp
      obtain ⟨h1, h2, h3⟩ := ih
      refine ⟨?_, ?_, ?_⟩
      · simp only [tryGetIn, hmatch, if_false]
        rw [h1]
        simp
      · simp only [tryGetIn, hmatch, if_false]
        exact h2
      · simp only [tryGetIn, hmatch, if_false]
        exact ⟨rfl, h3, hf⟩
    · -- the key leaves this node: nothing is here
      have hmatch := (short_mismatch_iff k key pos).mpr hpre
      refine ⟨?_, ?_, ?_⟩
      · simp only [tryGetIn, hmatch, if_true, lookup_short, hpre, if_false]
      · simp only [tryGetIn, hmatch, if_true]
      · simp only [tryGetIn, hmatch, if_true]
        exact ⟨rfl, hc, hf⟩
  | .full cs flags, .full tcs, key, pos, root, hs, hw, hm, hb, hp, hr, hF, _ => by
    obtain ⟨hc, hf⟩ := hs
    -- a full node is met with a nibble left, which selects a child
    have hne : key.drop pos ≠ [] := fun h => by rcases hp.2 h with h' | h' <;> cases h'
    obtain ⟨y, r0, hyr⟩ := List.exists_cons_of_ne_nil hne
    rw [hyr] at hr hF hp ⊢
    obtain ⟨j, hj⟩ := Option.isSome_iff_exists.mp (childIndex_isSome (hr.le_of_mem List.mem_cons_self))
    have hidx : key[pos]?.bind childIndex = some j := by
      rw [← List.head?_drop, hyr]
      simpa using hj
    have hdrop : key.drop (pos + 1) = r0 := by
      rw [← List.drop_drop, hyr]
      simp
    have hlen : r0.length < F := by simp at hF; omega
    have ih := tryGetIn_sound F onHash hon (cs j) (tcs j) key (pos + 1) false (hc j) (hw.2.2.2 j) (hm j) (hb.full j)
      (by rw [hdrop]; exact hw.pos_full_child hj hr) (by rw [hdrop]; simpa using hr.drop 1)
      (by rw [hdrop]; omega) (fun _ _ => by rw [hdrop]; exact hlen)
    rw [hdrop] at ih
    obtain ⟨h1, h2, h3⟩ := ih
    refine ⟨?_, ?_, ?_⟩
    · simp only [tryGetIn, hidx]
      rw [h1, childIndex_eq_some.mp hj, lookup_full_index]
    · simp only [tryGetIn, hidx]
      exact h2
    · simp only [tryGetIn, hidx]
      refine ⟨fun i => ?_, hf⟩
      by_cases hij : i = j
      · subst hij
        rw [Function.update_self]
        exact h3
      · rw [Function.update_of_ne hij]
        exact hc i
  | .short _ _ _, .nil, _, _, _, hs, _, _, _, _, _, _, _ => hs.elim
  | .short _ _ _, .value _ _, _, _, _, hs, _, _, _, _, _, _, _ => hs.elim
  | .short _ _ _, .full _, _, _, _, hs, _, _, _, _, _, _, _ => hs.elim
  | .full _ _, .nil, _, _, _, hs, _, _, _, _, _, _, _ => hs.elim
  | .full _ _, .value _ _, _, _, _, hs, _, _, _, _, _, _, _ => hs.elim
  | .full _ _, .short _ _, _, _, _, hs, _, _, _, _, _, _, _ => hs.elim

/-- `tryGet` with fuel for the nibbles left refines `lookup`. -/
theorem tryGet_sound {B : ℕ} (hB : B < 2 ^ 58) (t : Trie) (hk : t.db.keyEncoder = none) :
    ∀ (fuel : ℕ) (n : Node) (tr : Tree) (key : Bytes) (pos : ℕ) (root : Bool), Sound blake2b t.db.kv root n tr →
      Wf tr → MetaFree tr → Bounded B tr → Pos tr (key.drop pos) → KeyTail (key.drop pos) →
      (key.drop pos).length ≤ fuel → (∀ ref, n = .hash ref → (key.drop pos).length < fuel) →
      GetOk blake2b t.db.kv root (t.tryGet fuel n key pos) tr (key.drop pos)
  | 0, n, tr, key, pos, root, hs, hw, hm, hb, hp, hr, hF, hH => by
    refine tryGetIn_sound blake2b 0 _ (fun _ _ _ _ _ _ _ _ _ _ _ hlt => absurd hlt (Nat.not_lt_zero _)) n tr key pos
      root hs hw hm hb hp hr hF hH
  | fuel + 1, n, tr, key, pos, root, hs, hw, hm, hb, hp, hr, hF, hH => by
    refine tryGetIn_sound blake2b (fuel + 1) _ (fun ref tr key pos root hs hw hm hb hp hr hlt => ?_) n tr key pos
      root hs hw hm hb hp hr hF hH
    -- a hash node: load it, then walk on with one load fewer
    obtain ⟨hres, hsound⟩ := resolveHash_sound blake2b t hk hs hw hm (length_enc_lt hB blake2b hw hb) (key.take pos)
    simp only [hres]
    exact tryGet_sound hB t hk fuel _ tr key pos root hsound hw hm hb hp hr (by omega)
      (fun ref' h => absurd h (loaded_ne_hash blake2b t.cacheGen hs.2.2.1 hs.2.2.2.1 _ ref'))

end Get

section Insert

variable {B : ℕ} {kv : Bytes → Option Bytes} (t : Trie) (v m : Bytes)

/-- What an insertion returns for a node standing for `tr`: no error, a node
standing for the tree with the entry set, and a change reported unless the
entry was already there. -/
def InsertOk (kv : Bytes → Option Bytes) (root : Bool) (r : Change) (tr : Tree) (q : Bytes) : Prop :=
  ∃ dirty n', r = .ok (dirty, n') ∧ Sound blake2b kv root n' (Tree.insert v m tr q) ∧
    (dirty = false → lookup tr q = some (v, m))

/-- An insertion that changed nothing below may keep the node it started from. -/
theorem insertOk_keep (hv : v ≠ []) {root : Bool} {n : Node} {tr : Tree} {q : Bytes}
    (hs : Sound blake2b kv root n tr) (hw : Wf tr) (hp : Pos tr q) (hr : KeyTail q) (hl : lookup tr q = some (v, m)) :
    InsertOk blake2b v m kv root (.ok (false, n)) tr q :=
  ⟨false, n, rfl, by rwa [insert_eq_self v m hv hw hp hr hl], fun _ => hl⟩

/-- `insertNil` builds a node for what `prepend` builds. -/
theorem sound_insertNil {c : Node} {tc : Tree} (hs : Sound blake2b kv false c tc) (k : Bytes) :
    ∃ x, t.insertNil k c = .ok (true, x) ∧ Sound blake2b kv false x (prepend k tc) := by
  unfold insertNil prepend
  split
  · exact ⟨c, rfl, hs⟩
  · exact ⟨_, rfl, ⟨rfl, hs, flagsOk_dirty _ _ _⟩⟩

/-- The full node made where a key leaves a short node, for the tree `insert` makes. -/
theorem sound_split {root : Bool} {ki i : Fin 17} (hki : ki ≠ i) {c1 c2 : Node} {t1 t2 : Tree}
    (h1 : Sound blake2b kv false c1 t1) (h2 : Sound blake2b kv false c2 t2) (gen : UInt16) :
    Sound blake2b kv root (.full (Function.update (Function.update (fun _ => .nil) ki c1) i c2) ⟨none, true, gen⟩)
      (full (Function.update (Function.update (fun _ => nil) ki t1) i t2)) := by
  refine ⟨fun j => ?_, flagsOk_dirty _ _ _⟩
  by_cases hji : j = i
  · subst hji
    simpa using h2
  · by_cases hjk : j = ki
    · subst hjk
      simpa [Function.update_of_ne hji] using h1
    · simp only [Function.update_of_ne hji, Function.update_of_ne hjk]
      rfl

variable (onHash : HashRef → Bytes → Bytes → Node → Change)

theorem insertIn_nil_key {root : Bool} {n : Node} {tr : Tree} (pfx : Bytes) (hs : Sound blake2b kv root n tr) :
    InsertOk blake2b v m kv root (t.insertIn onHash n pfx [] (.value v m)) tr [] := by
  cases n with
  | value v0 m0 =>
    subst hs
    rw [insertIn]
    refine ⟨_, _, rfl, by rw [insert_nil_key]; rfl, fun h => ?_⟩
    simp only [decide_eq_false_iff_not, not_or, not_not] at h
    rw [h.1, h.2]
    rfl
  | _ =>
    rw [insertIn]
    exact ⟨true, _, rfl, by rw [insert_nil_key]; rfl, fun h => Bool.noConfusion h⟩

theorem insertIn_short_through (k s : Bytes) (c : Node) (flags : NodeFlag) (pfx : Bytes) (value : Node)
    (hne : k ++ s ≠ []) :
    t.insertIn onHash (.short k c flags) pfx (k ++ s) value =
      (t.insertIn onHash c (pfx ++ k) s value).map fun (dirty, nn) =>
        if dirty then (true, .short k nn t.newFlag) else (false, .short k c flags) := by
  have hl : prefixLen (k ++ s) k = k.length := prefixLen_eq_length_iff.mpr (List.prefix_append k s)
  rw [insertIn]
  simp [hne, hl]

theorem insertIn_short_split {p k' r' : Bytes} {a b : UInt8} {ki i : Fin 17} (c : Node) (flags : NodeFlag)
    (pfx : Bytes) (value : Node) (hab : a ≠ b) (hb : childIndex b = some ki) (ha : childIndex a = some i) :
    t.insertIn onHash (.short (p ++ b :: k') c flags) pfx (p ++ a :: r') value =
      (t.insertNil k' c).bind fun (_, c1) => (t.insertNil r' value).map fun (_, c2) =>
        let branch : Node := .full (Function.update (Function.update (fun _ => .nil) ki c1) i c2) t.newFlag
        if p.length = 0 then (true, branch) else (true, .short p branch t.newFlag) := by
  have hl : prefixLen (p ++ a :: r') (p ++ b :: k') = p.length := by
    rw [prefixLen_append_left, prefixLen_cons_cons, if_neg hab]; rfl
  rw [insertIn]
  simp [hl, hb, ha]

theorem insertIn_full_cons (cs : Fin 17 → Node) (flags : NodeFlag) (pfx : Bytes) {y : UInt8} {j : Fin 17}
    (r0 : Bytes) (value : Node) (hj : childIndex y = some j) :
    t.insertIn onHash (.full cs flags) pfx (y :: r0) value =
      (t.insertIn onHash (cs j) (pfx ++ [y]) r0 value).map fun (dirty, nn) =>
        if dirty then (true, .full (Function.update cs j nn) t.newFlag) else (false, .full cs flags) := by
  rw [insertIn]
  simp [hj]

/-- The children of a full node with one replaced stand for the trees with that one replaced. -/
theorem sound_update {cs : Fin 17 → Node} {tcs : Fin 17 → Tree} (hc : ∀ i, Sound blake2b kv false (cs i) (tcs i))
    (j : Fin 17) {nn : Node} {tn : Tree} (hn : Sound blake2b kv false nn tn) (i : Fin 17) :
    Sound blake2b kv false (Function.update cs j nn i) (Function.update tcs j tn i) := by
  by_cases hij : i = j
  · subst hij
    simpa using hn
  · simpa [Function.update_of_ne hij] using hc i

/-- `insertIn` refines `Tree.insert`, given that the continuation at hash nodes
does while fuel is left for the nibbles still to walk. -/
theorem insertIn_sound (hv : v ≠ []) (F : ℕ)
    (hon : ∀ ref tr pfx key root, Sound blake2b kv root (.hash ref) tr → Wf tr → MetaFree tr → Bounded B tr →
      Pos tr key → KeyTail key → key.length < F →
      InsertOk blake2b v m kv root (onHash ref pfx key (.value v m)) tr key) :
    ∀ (n : Node) (tr : Tree) (pfx key : Bytes) (root : Bool), Sound blake2b kv root n tr → Wf tr →
      MetaFree tr → Bounded B tr → Pos tr key → KeyTail key → key.length ≤ F →
      (∀ ref, n = .hash ref → key.length < F) →
      InsertOk blake2b v m kv root (t.insertIn onHash n pfx key (.value v m)) tr key
  | n, tr, pfx, [], root, hs, _, _, _, _, _, _, _ => insertIn_nil_key blake2b t v m onHash pfx hs
  | .nil, tr, pfx, y :: r0, root, hs, _, _, _, _, _, _, _ => by
    subst hs
    rw [insertIn]
    exact ⟨true, _, rfl, ⟨rfl, rfl, flagsOk_dirty _ _ _⟩, fun h => Bool.noConfusion h⟩
  | .value _ _, tr, pfx, y :: r0, root, hs, _, _, _, hp, _, _, _ => by
    subst hs
    cases hp.1 rfl
  | .hash ref, tr, pfx, y :: r0, root, hs, hw, hm, hb, hp, hr, _, hH =>
    hon ref tr pfx (y :: r0) root hs hw hm hb hp hr (hH ref rfl)
  | .short k c flags, .short k' tc, pfx, y :: r0, root, hs, hw, hm, hb, hp, hr, hF, _ => by
    obtain ⟨rfl, hc, hf⟩ := hs
    by_cases hl : prefixLen (y :: r0) k = k.length
    · -- the key runs through: insert below, and renew the node if that changed anything
      obtain ⟨s, hks⟩ := prefixLen_eq_length_iff.mp hl
      rw [← hks] at hr hF hp ⊢
      have hne : k ++ s ≠ [] := by rw [hks]; exact List.cons_ne_nil y r0
      have hk : k.length ≠ 0 := by simpa using hw.1
      simp only [List.length_append] at hF
      obtain ⟨d, nn, heq, hsn, hd⟩ := insertIn_sound hv F hon c tc (pfx ++ k) s false hc hw.2.2.2.2 hm hb.short
        (hw.pos_short_child hr) (by simpa using hr.drop k.length) (by omega) (fun _ _ => by omega)
      rw [insertIn_short_through t onHash k s c flags pfx _ hne, heq]
      cases d
      · exact insertOk_keep blake2b v m hv ⟨rfl, hc, hf⟩ hw hp hr (by rw [lookup_short_append]; exact hd rfl)
      · refine ⟨true, _, rfl, ?_, fun h => Bool.noConfusion h⟩
        rw [insert_short_through v m k s tc hne]
        exact ⟨rfl, hsn, flagsOk_dirty _ _ _⟩
    · -- the key leaves the node's key: a full node where they part
      obtain ⟨p, a, r', b, k', i, ki, hr', rfl, hab, hi, hki, hne⟩ := hw.exists_split hr (List.cons_ne_nil y r0) hl
      rw [hr']
      obtain ⟨c1, hc1, hs1⟩ := sound_insertNil blake2b t hc k'
      obtain ⟨c2, hc2, hs2⟩ := sound_insertNil blake2b t (show Sound blake2b kv false (.value v m) (value v m)
        from rfl) r'
      rw [insertIn_short_split t onHash c flags pfx _ hab hki hi, hc1, hc2]
      by_cases hp0 : p = []
      · subst hp0
        refine ⟨true, _, rfl, ?_, fun h => Bool.noConfusion h⟩
        rw [insert_short_split v m tc hab hki hi]
        exact sound_split blake2b hne hs1 hs2 t.cacheGen
      · have hlen : p.length ≠ 0 := by simpa using hp0
        refine ⟨true, _, by simp only [hlen]; rfl, ?_, fun h => Bool.noConfusion h⟩
        rw [insert_short_split v m tc hab hki hi, prepend, if_neg (by simpa using hp0)]
        exact ⟨rfl, sound_split blake2b hne hs1 hs2 t.cacheGen, flagsOk_dirty _ _ _⟩
  | .full cs flags, .full tcs, pfx, y :: r0, root, hs, hw, hm, hb, hp, hr, hF, _ => by
    obtain ⟨hc, hf⟩ := hs
    obtain ⟨j, hj⟩ := Option.isSome_iff_exists.mp (childIndex_isSome (hr.le_of_mem List.mem_cons_self))
    simp only [List.length_cons] at hF
    obtain ⟨d, nn, heq, hsn, hd⟩ := insertIn_sound hv F hon (cs j) (tcs j) (pfx ++ [y]) r0 false (hc j) (hw.2.2.2 j)
      (hm j) (hb.full j) (hw.pos_full_child hj hr) (by simpa using hr.drop 1) (by omega) (fun _ _ => by omega)
    have htree : Tree.insert v m (full tcs) (y :: r0) = full (Function.update tcs j (Tree.insert v m (tcs j) r0)) := by
      simp [Tree.insert, hj]
    rw [insertIn_full_cons t onHash cs flags pfx r0 _ hj, heq]
    cases d
    · refine insertOk_keep blake2b v m hv ⟨hc, hf⟩ hw hp hr ?_
      rw [childIndex_eq_some.mp hj, lookup_full_index]
      exact hd rfl
    · refine ⟨true, _, rfl, ?_, fun h => Bool.noConfusion h⟩
      rw [htree]
      exact ⟨sound_update blake2b hc j hsn, flagsOk_dirty _ _ _⟩
  | .short _ _ _, .nil, _, _ :: _, _, hs, _, _, _, _, _, _, _ => hs.elim
  | .short _ _ _, .value _ _, _, _ :: _, _, hs, _, _, _, _, _, _, _ => hs.elim
  | .short _ _ _, .full _, _, _ :: _, _, hs, _, _, _, _, _, _, _ => hs.elim
  | .full _ _, .nil, _, _ :: _, _, hs, _, _, _, _, _, _, _ => hs.elim
  | .full _ _, .value _ _, _, _ :: _, _, hs, _, _, _, _, _, _, _ => hs.elim
  | .full _ _, .short _ _, _, _ :: _, _, hs, _, _, _, _, _, _, _ => hs.elim

/-- `insert` with fuel for the nibbles left refines `Tree.insert`. -/
theorem insert_sound (hB : B < 2 ^ 58) (hv : v ≠ []) (hk : t.db.keyEncoder = none) :
    ∀ (fuel : ℕ) (n : Node) (tr : Tree) (pfx key : Bytes) (root : Bool), Sound blake2b t.db.kv root n tr →
      Wf tr → MetaFree tr → Bounded B tr → Pos tr key → KeyTail key → key.length ≤ fuel →
      (∀ ref, n = .hash ref → key.length < fuel) →
      InsertOk blake2b v m t.db.kv root (t.insert fuel n pfx key (.value v m)) tr key
  | 0, n, tr, pfx, key, root, hs, hw, hm, hb, hp, hr, hF, hH =>
    insertIn_sound blake2b t v m _ hv 0 (fun _ _ _ _ _ _ _ _ _ _ _ hlt => absurd hlt (Nat.not_lt_zero _)) n tr pfx
      key root hs hw hm hb hp hr hF hH
  | fuel + 1, n, tr, pfx, key, root, hs, hw, hm, hb, hp, hr, hF, hH => by
    refine insertIn_sound blake2b t v m _ hv (fuel + 1) (fun ref tr pfx key root hs hw hm hb hp hr hlt => ?_) n tr
      pfx key root hs hw hm hb hp hr hF hH
    -- a hash node: load it and insert below with one load fewer; the loaded
    -- node stands in when nothing changed
    obtain ⟨hres, hsound⟩ := resolveHash_sound blake2b t hk hs hw hm (length_enc_lt hB blake2b hw hb) pfx
    obtain ⟨d, nn, heq, hsn, hd⟩ := insert_sound hB hv hk fuel _ tr pfx key root hsound hw hm hb hp hr (by omega)
      (fun ref' h => absurd h (loaded_ne_hash blake2b t.cacheGen hs.2.2.1 hs.2.2.2.1 _ ref'))
    simp only [hres, Except.bind, heq, Except.map]
    cases d
    · exact insertOk_keep blake2b v m hv hsound hw hp hr (hd rfl)
    · exact ⟨true, nn, rfl, hsn, fun h => Bool.noConfusion h⟩

end Insert

section Delete

variable {B : ℕ} {kv : Bytes → Option Bytes} (t : Trie)

/-- What a deletion returns for a node standing for `tr`: no error, a node
standing for the tree without the entry, a change reported unless there was no
entry, and a changed node that is never a bare hash. -/
def DeleteOk (kv : Bytes → Option Bytes) (root : Bool) (r : Change) (tr : Tree) (q : Bytes) : Prop :=
  ∃ dirty n', r = .ok (dirty, n') ∧ Sound blake2b kv root n' (Tree.delete tr q) ∧
    (dirty = false → lookup tr q = none) ∧ (dirty = true → ∀ ref, n' ≠ .hash ref)

/-- A deletion that changed nothing below may keep the node it started from. -/
theorem deleteOk_keep {root : Bool} {n : Node} {tr : Tree} {q : Bytes} (hs : Sound blake2b kv root n tr) (hw : Wf tr)
    (hp : Pos tr q) (hr : KeyTail q) (hl : lookup tr q = none) : DeleteOk blake2b kv root (.ok (false, n)) tr q :=
  ⟨false, n, rfl, by rwa [delete_eq_self hw hp hr hl], fun _ => hl, fun h => Bool.noConfusion h⟩

/-- Children standing for trees have their only child where the trees do. -/
theorem singleChild_eq_single {cs : Fin 17 → Node} {tcs : Fin 17 → Tree}
    (hc : ∀ i, Sound blake2b kv false (cs i) (tcs i)) : singleChild cs = single tcs := by
  have hocc : ((List.finRange 17).filter fun i => !(cs i).isNil) = occupied tcs := by
    simp only [occupied, isNil_eq_of_sound (hc _)]
  rw [singleChild, hocc]
  rfl

theorem merge_of_isShort_false {k : Bytes} {c : Tree} (hc : c.isShort = false) : merge k c = short k c := by
  cases c <;> simp_all [merge, Tree.isShort]

/-- A short node over what a deletion left below it, merged as the code merges
it: with the node `cn` the child loads to when that is a short node, else over
the child `n` as it was. -/
theorem sound_merge (root : Bool) (k : Bytes) {n cn : Node} {tc : Tree} (hs : Sound blake2b kv false n tc)
    (hcs : Sound blake2b kv false cn tc) (hcn : ∀ ref, cn ≠ .hash ref) (gen : UInt16) :
    Sound blake2b kv root (match cn with
      | .short ck cv _ => .short (k ++ ck) cv ⟨none, true, gen⟩
      | _ => .short k n ⟨none, true, gen⟩) (merge k tc) := by
  have hfl : ∀ t', FlagsOk blake2b kv root ⟨none, true, gen⟩ t' := flagsOk_dirty root gen
  -- a loaded child that is no short node stands for a tree that is none either
  have hplain : tc.isShort = false → Sound blake2b kv root (.short k n ⟨none, true, gen⟩) (merge k tc) := fun h => by
    rw [merge_of_isShort_false h]
    exact ⟨rfl, hs, hfl _⟩
  cases cn with
  | short ck cv _ =>
    cases tc with
    | short ck' tcv =>
      obtain ⟨rfl, hcv, -⟩ := hcs
      exact ⟨rfl, hcv, hfl _⟩
    | _ => exact hcs.elim
  | hash ref => exact absurd rfl (hcn ref)
  | nil => subst hcs; exact hplain rfl
  | value v m => subst hcs; exact hplain rfl
  | full cs f =>
    cases tc with
    | full tcs => exact hplain rfl
    | _ => exact hcs.elim

theorem resolve_of_ne_hash {n : Node} (hn : ∀ ref, n ≠ .hash ref) (pfx : Bytes) : t.resolve n pfx = .ok n := by
  cases n with
  | hash ref => exact absurd rfl (hn ref)
  | _ => rfl

/-- Resolving a node standing for a stored tree loads it, to a node that is not a hash. -/
theorem resolve_sound (hB : B < 2 ^ 58) (hk : t.db.keyEncoder = none) {n : Node} {tr : Tree}
    (hs : Sound blake2b t.db.kv false n tr) (hw : Wf tr) (hm : MetaFree tr) (hb : Bounded B tr) (pfx : Bytes) :
    ∃ cn, t.resolve n pfx = .ok cn ∧ Sound blake2b t.db.kv false cn tr ∧ ∀ ref, cn ≠ .hash ref := by
  cases n with
  | hash ref =>
    obtain ⟨hres, hsound⟩ := resolveHash_sound blake2b t hk hs hw hm (length_enc_lt hB blake2b hw hb) pfx
    exact ⟨_, hres, hsound, loaded_ne_hash blake2b t.cacheGen hs.2.2.1 hs.2.2.2.1 _⟩
  | _ => exact ⟨_, rfl, hs, fun _ h => Node.noConfusion h⟩

variable (onHash : HashRef → Bytes → Bytes → Change)

theorem deleteIn_short_through (k s : Bytes) (c : Node) (flags : NodeFlag) (pfx : Bytes) (hs : s ≠ []) :
    t.deleteIn onHash (.short k c flags) pfx (k ++ s) =
      (t.deleteIn onHash c (pfx ++ k) s).map fun (dirty, child) =>
        if !dirty then (false, .short k c flags)
        else match child with
          | .short ck cv _ => (true, .short (k ++ ck) cv t.newFlag)
          | child => (true, .short k child t.newFlag) := by
  have hl : prefixLen (k ++ s) k = k.length := prefixLen_eq_length_iff.mpr (List.prefix_append k s)
  have hne : ¬ k.length = (k ++ s).length := by simpa using hs
  simp only [deleteIn, hl, Nat.lt_irrefl, if_false, hne, List.take_left, List.drop_left] <;> rfl

/-- `deleteIn` refines `Tree.delete`, given that the continuation at hash nodes
does while fuel is left for the nibbles still to walk. -/
theorem deleteIn_sound (hB : B < 2 ^ 58) (hk : t.db.keyEncoder = none) (F : ℕ)
    (hon : ∀ ref tr pfx key root, Sound blake2b t.db.kv root (.hash ref) tr → Wf tr → MetaFree tr → Bounded B tr →
      Pos tr key → KeyTail key → key.length < F → DeleteOk blake2b t.db.kv root (onHash ref pfx key) tr key) :
    ∀ (n : Node) (tr : Tree) (pfx key : Bytes) (root : Bool), Sound blake2b t.db.kv root n tr → Wf tr →
      MetaFree tr → Bounded B tr → Pos tr key → KeyTail key → key.length ≤ F →
      (∀ ref, n = .hash ref → key.length < F) →
      DeleteOk blake2b t.db.kv root (t.deleteIn onHash n pfx key) tr key
  | .nil, tr, pfx, key, root, hs, _, _, _, _, _, _, _ => by
    subst hs
    exact ⟨false, .nil, rfl, rfl, fun _ => rfl, fun h => Bool.noConfusion h⟩
  | .value _ _, tr, pfx, key, root, hs, _, _, _, _, _, _, _ => by
    subst hs
    exact ⟨true, .nil, rfl, rfl, fun h => Bool.noConfusion h, fun _ _ h => Node.noConfusion h⟩
  | .hash ref, tr, pfx, key, root, hs, hw, hm, hb, hp, hr, _, hH => hon ref tr pfx key root hs hw hm hb hp hr (hH ref rfl)
  | .short k c flags, .short k' tc, pfx, key, root, hs, hw, hm, hb, hp, hr, hF, _ => by
    obtain ⟨rfl, hc, hf⟩ := hs
    by_cases hlk : prefixLen key k < k.length
    · -- the key leaves the node's key: there is nothing to delete
      have he : t.deleteIn onHash (.short k c flags) pfx key = .ok (false, .short k c flags) := by
        simp [deleteIn, hlk]
      rw [he]
      refine deleteOk_keep blake2b ⟨rfl, hc, hf⟩ hw hp hr ?_
      rw [lookup_short, if_neg (not_prefix_of_prefixLen_lt hlk)]
    · obtain ⟨s, rfl⟩ := prefixLen_eq_length_iff.mp (le_antisymm (prefixLen_le_right _ _) (Nat.le_of_not_lt hlk))
      by_cases hs0 : s = []
      · -- the key ends with the node's key: the node goes
        subst hs0
        have hl : prefixLen k k = k.length := prefixLen_eq_length_iff.mpr (List.prefix_refl k)
        have he : t.deleteIn onHash (.short k c flags) pfx k = .ok (true, .nil) := by
          simp [deleteIn, hl]
        rw [List.append_nil, he]
        refine ⟨true, .nil, rfl, ?_, fun h => Bool.noConfusion h, fun _ _ h => Node.noConfusion h⟩
        rw [delete_short_self]
        rfl
      · -- delete below, and merge with what is left there
        have hk0 : k.length ≠ 0 := by simpa using hw.1
        simp only [List.length_append] at hF
        obtain ⟨d, nn, heq, hsn, hd, hh⟩ := deleteIn_sound hB hk F hon c tc (pfx ++ k) s false hc hw.2.2.2.2 hm
          hb.short (hw.pos_short_child hr) (by simpa using hr.drop k.length) (by omega) (fun _ _ => by omega)
        rw [deleteIn_short_through t onHash k s c flags pfx hs0, heq]
        cases d
        · exact deleteOk_keep blake2b ⟨rfl, hc, hf⟩ hw hp hr (by rw [lookup_short_append]; exact hd rfl)
        · have hsm := sound_merge blake2b root k hsn hsn (hh rfl) t.cacheGen
          rw [← delete_short_append k s tc hs0] at hsm
          cases nn <;> exact ⟨true, _, rfl, hsm, fun h => Bool.noConfusion h, fun _ _ h => Node.noConfusion h⟩
  | .full cs flags, .full tcs, pfx, key, root, hs, hw, hm, hb, hp, hr, hF, _ => by
    obtain ⟨hc, hf⟩ := hs
    -- a full node is met with a nibble left, which selects a child
    have hne : key ≠ [] := fun h => by rcases hp.2 h with h' | h' <;> cases h'
    obtain ⟨y, r0, rfl⟩ := List.exists_cons_of_ne_nil hne
    obtain ⟨j, hj⟩ := Option.isSome_iff_exists.mp (childIndex_isSome (hr.le_of_mem List.mem_cons_self))
    simp only [List.length_cons] at hF
    obtain ⟨d, nn, heq, hsn, hd, hh⟩ := deleteIn_sound hB hk F hon (cs j) (tcs j) (pfx ++ [y]) r0 false (hc j)
      (hw.2.2.2 j) (hm j) (hb.full j) (hw.pos_full_child hj hr) (by simpa using hr.drop 1) (by omega)
      (fun _ _ => by omega)
    simp only [deleteIn, Option.bind_some, hj, List.take_one, List.drop_one, List.tail_cons, List.head?,
      Option.toList_some, heq, Except.bind]
    cases d
    · refine deleteOk_keep blake2b ⟨hc, hf⟩ hw hp hr ?_
      rw [childIndex_eq_some.mp hj, lookup_full_index]
      exact hd rfl
    · -- the child changed: the full node stays, or gives way to a short node over its only child
      have hsc := sound_update blake2b hc j hsn
      have htree : Tree.delete (full tcs) (y :: r0) = collapse (Function.update tcs j (Tree.delete (tcs j) r0)) := by
        simp [Tree.delete, hj]
      simp only [Bool.not_true, Bool.false_eq_true, if_false, singleChild_eq_single blake2b hsc]
      cases hsg : single (Function.update tcs j (Tree.delete (tcs j) r0)) with
      | none =>
        refine ⟨true, _, rfl, ?_, fun h => Bool.noConfusion h, fun _ _ h => Node.noConfusion h⟩
        rw [htree, collapse, hsg]
        exact ⟨hsc, flagsOk_dirty _ _ _⟩
      | some p =>
        dsimp only
        have hcol : collapse (Function.update tcs j (Tree.delete (tcs j) r0)) =
            merge [p.val.toUInt8] (Function.update tcs j (Tree.delete (tcs j) r0) p) := by
          rw [collapse, hsg]
        by_cases hp16 : p.val = 16
        · -- the value slot: its value goes under a short node with the terminator
          have hp : p = 16 := Fin.ext hp16
          subst hp
          have hshort : (Function.update tcs j (Tree.delete (tcs j) r0) 16).isShort = false := by
            have hnv : ∀ c : Tree, (c.isNil = true ∨ c.isValue = true) → c.isShort = false ∧ (Tree.delete c r0).isShort = false := by
              intro c hc
              cases c <;> simp_all [Tree.isNil, Tree.isValue, Tree.isShort, Tree.delete]
            by_cases hj16 : j = 16
            · subst hj16
              rw [Function.update_self]
              exact (hnv _ hw.2.2.1).2
            · rw [Function.update_of_ne (Ne.symm hj16)]
              exact (hnv _ hw.2.2.1).1
          rw [if_neg (show ¬ ((16 : Fin 17).val ≠ 16) from not_not.mpr hp16)]
          refine ⟨true, _, rfl, ?_, fun h => Bool.noConfusion h, fun _ _ h => Node.noConfusion h⟩
          rw [htree, hcol, merge_of_isShort_false hshort]
          exact ⟨rfl, hsc 16, flagsOk_dirty _ _ _⟩
        · -- another slot: the child left is loaded to see whether it merges
          rw [if_pos (show p.val ≠ 16 from hp16)]
          have hres : ∃ cn, t.resolve (Function.update cs j nn p) (pfx ++ [p.val.toUInt8]) = .ok cn ∧
              Sound blake2b t.db.kv false cn (Function.update tcs j (Tree.delete (tcs j) r0) p) ∧
              ∀ ref, cn ≠ .hash ref := by
            by_cases hpj : p = j
            · subst hpj
              simp only [Function.update_self]
              exact ⟨nn, resolve_of_ne_hash t (hh rfl) _, hsn, hh rfl⟩
            · simp only [Function.update_of_ne hpj]
              exact resolve_sound blake2b t hB hk (hc p) (hw.2.2.2 p) (hm p) (hb.full p) _
          obtain ⟨cn, hcn, hscn, hncn⟩ := hres
          have hsm := sound_merge blake2b root [p.val.toUInt8] (hsc p) hscn hncn t.cacheGen
          rw [← hcol, ← htree] at hsm
          rw [hcn]
          cases cn <;> exact ⟨true, _, rfl, hsm, fun h => Bool.noConfusion h, fun _ _ h => Node.noConfusion h⟩
  | .short _ _ _, .nil, _, _, _, hs, _, _, _, _, _, _, _ => hs.elim
  | .short _ _ _, .value _ _, _, _, _, hs, _, _, _, _, _, _, _ => hs.elim
  | .short _ _ _, .full _, _, _, _, hs, _, _, _, _, _, _, _ => hs.elim
  | .full _ _, .nil, _, _, _, hs, _, _, _, _, _, _, _ => hs.elim
  | .full _ _, .value _ _, _, _, _, hs, _, _, _, _, _, _, _ => hs.elim
  | .full _ _, .short _ _, _, _, _, hs, _, _, _, _, _, _, _ => hs.elim

/-- `delete` with fuel for the nibbles left refines `Tree.delete`. -/
theorem delete_sound (hB : B < 2 ^ 58) (hk : t.db.keyEncoder = none) :
    ∀ (fuel : ℕ) (n : Node) (tr : Tree) (pfx key : Bytes) (root : Bool), Sound blake2b t.db.kv root n tr →
      Wf tr → MetaFree tr → Bounded B tr → Pos tr key → KeyTail key → key.length ≤ fuel →
      (∀ ref, n = .hash ref → key.length < fuel) →
      DeleteOk blake2b t.db.kv root (t.delete fuel n pfx key) tr key
  | 0, n, tr, pfx, key, root, hs, hw, hm, hb, hp, hr, hF, hH =>
    deleteIn_sound blake2b t _ hB hk 0 (fun _ _ _ _ _ _ _ _ _ _ _ hlt => absurd hlt (Nat.not_lt_zero _)) n tr pfx
      key root hs hw hm hb hp hr hF hH
  | fuel + 1, n, tr, pfx, key, root, hs, hw, hm, hb, hp, hr, hF, hH => by
    refine deleteIn_sound blake2b t _ hB hk (fuel + 1) (fun ref tr pfx key root hs hw hm hb hp hr hlt => ?_) n tr
      pfx key root hs hw hm hb hp hr hF hH
    -- a hash node: load it and delete below with one load fewer; the loaded
    -- node stands in when nothing changed
    obtain ⟨hres, hsound⟩ := resolveHash_sound blake2b t hk hs hw hm (length_enc_lt hB blake2b hw hb) pfx
    obtain ⟨d, nn, heq, hsn, hd, hh⟩ := delete_sound hB hk fuel _ tr pfx key root hsound hw hm hb hp hr (by omega)
      (fun ref' h => absurd h (loaded_ne_hash blake2b t.cacheGen hs.2.2.1 hs.2.2.2.1 _ ref'))
    simp only [hres, Except.bind, heq, Except.map]
    cases d
    · exact deleteOk_keep blake2b hsound hw hp hr (hd rfl)
    · exact ⟨true, nn, rfl, hsn, fun h => Bool.noConfusion h, hh⟩

end Delete

end Trie

end Workshare
