import Workshare.Trie.Load

/-!
# Hashing and committing refine the tree's hash

`Hash` and `Commit` on a node that stands for a well-formed tree. The node a
hashing collapses to is what the parent's encoding holds for the tree: the
tree's hash, or at a narrow child the tree's own encoding. The node kept in
memory still stands for the tree, with the hashes now cached. A commit puts every
node it collapses to a hash under that hash, so that afterwards the whole tree
is stored, over any store that keeps what was there and holds the puts.

A clean node with a cached hash is not walked again: its hash stands for it,
and its tree is already stored.
-/
namespace Workshare

open Tree

/-- The store `kv'` keeps all that `kv` holds. -/
def Extends (kv kv' : Bytes → Option Bytes) : Prop := ∀ k b, kv k = some b → kv' k = some b

theorem Extends.refl (kv : Bytes → Option Bytes) : Extends kv kv := fun _ _ h => h

theorem Extends.trans {kv kv' kv'' : Bytes → Option Bytes} (h : Extends kv kv') (h' : Extends kv' kv'') :
    Extends kv kv'' := fun k b hk => h' k b (h k b hk)

/-- The store holds every put of the list. -/
def Holds (kv : Bytes → Option Bytes) (puts : List (Bytes × Bytes)) : Prop := ∀ p ∈ puts, kv p.1 = some p.2

theorem Holds.of_append {kv : Bytes → Option Bytes} {l l' : List (Bytes × Bytes)} (h : Holds kv (l ++ l')) :
    Holds kv l := fun p hp => h p (List.mem_append_left _ hp)

/-- The writer with more puts after its own. -/
def Writer.extend (w : Writer) (new : List (Bytes × Bytes)) : Writer := { w with puts := w.puts ++ new }

/-- The puts of a writer; none without one. -/
def putsOf (db : Option Writer) : List (Bytes × Bytes) := (db.map Writer.puts).getD []

theorem Writer.put_eq_extend (w : Writer) (k b : Bytes) : w.put k b = w.extend [(k, b)] := rfl

@[simp] theorem Writer.extend_nil (w : Writer) : w.extend [] = w := by
  simp [Writer.extend]

@[simp] theorem Writer.extend_extend (w : Writer) (l l' : List (Bytes × Bytes)) :
    (w.extend l).extend l' = w.extend (l ++ l') := by
  simp [Writer.extend]

@[simp] theorem Writer.keyEncoder_extend (w : Writer) (l : List (Bytes × Bytes)) :
    (w.extend l).keyEncoder = w.keyEncoder := rfl

theorem putsOf_map_extend (db : Option Writer) (l : List (Bytes × Bytes)) :
    putsOf (db.map (·.extend l)) = putsOf db ++ if db.isSome then l else [] := by
  cases db <;> simp [putsOf, Writer.extend]

section Mono

variable {blake2b : Bytes → Bytes32} {kv kv' : Bytes → Option Bytes}

theorem Tree.Stored.mono (he : Extends kv kv') : ∀ {t : Tree}, Stored blake2b kv t → Stored blake2b kv' t
  | nil, _ => trivial
  | value _ _, _ => trivial
  | short _ c, ⟨hl, hs⟩ => ⟨fun hv hw => he _ _ (hl hv hw), Stored.mono (t := c) he hs⟩
  | full cs, h => fun i => ⟨fun hi hw => he _ _ ((h i).1 hi hw), Stored.mono (t := cs i) he (h i).2⟩

theorem Tree.Resolvable.mono (he : Extends kv kv') {t : Tree} (h : Resolvable blake2b kv t) :
    Resolvable blake2b kv' t :=
  ⟨he _ _ h.1, h.2.mono he⟩

theorem FlagsOk.mono (he : Extends kv kv') {root : Bool} {flags : NodeFlag} {t : Tree}
    (h : FlagsOk blake2b kv root flags t) : FlagsOk blake2b kv' root flags t := by
  refine ⟨fun ref hr => ?_, h.2⟩
  obtain ⟨h1, h2, h3⟩ := h.1 ref hr
  exact ⟨h1, h2, fun hd => (h3 hd).mono he⟩

/-- A node standing for a tree over a store stands for it over every store that keeps more. -/
theorem Sound.mono (he : Extends kv kv') : ∀ {root : Bool} {n : Node} {t : Tree},
    Sound blake2b kv root n t → Sound blake2b kv' root n t
  | _, .nil, _, h => h
  | _, .value _ _, _, h => h
  | _, .hash _, _, ⟨h1, h2, h3, h4, h5⟩ => ⟨h1, h2.mono he, h3, h4, h5⟩
  | _, .short _ c _, .short _ _, ⟨h1, h2, h3⟩ => ⟨h1, Sound.mono (n := c) he h2, h3.mono he⟩
  | _, .full cs _, .full _, ⟨h1, h2⟩ => ⟨fun i => Sound.mono (n := cs i) he (h1 i), h2.mono he⟩
  | _, .short _ _ _, .nil, h => h.elim
  | _, .short _ _ _, .value _ _, h => h.elim
  | _, .short _ _ _, .full _, h => h.elim
  | _, .full _ _, .nil, h => h.elim
  | _, .full _ _, .value _ _, h => h.elim
  | _, .full _ _, .short _ _, h => h.elim

end Mono

section Hashing

variable (blake2b : Bytes → Bytes32) (kv : Bytes → Option Bytes)

/-- What hashing leaves for a tree `t` over a store `kv`, given the puts made so
far: the collapsed node `c`, at the root a hash node with the tree's hash and
below it what the parent's encoding holds for the tree; the node `cc` to keep,
standing for `t` over every store that keeps `kv` and holds the puts; and, when
the hashing writes, the tree stored there, its own node too once hashed. -/
def Collapsed (root writes : Bool) (puts : List (Bytes × Bytes)) (c cc : Node) (t : Tree) : Prop :=
  (root = true → ∃ ref, c = .hash ref ∧ ref.hash = Tree.hash blake2b t) ∧
  (root = false → Node.encode false c = refOf blake2b (enc blake2b t)) ∧
  ∀ kv', Extends kv kv' → Holds kv' puts →
    Sound blake2b kv' root cc t ∧
    (writes = true → Stored blake2b kv' t ∧
      (root = true ∨ hashLen ≤ (enc blake2b t).length → kv' (Tree.hash blake2b t).toList = some (enc blake2b t)))

/-- What `hash` returns for a node standing for `t`: the collapsed and the kept
node as `Collapsed` says, and the writer with the new puts after its own. -/
def HashOk (root : Bool) (db : Option Writer) (r : Node × Node × Option Writer) (t : Tree) : Prop :=
  Collapsed blake2b kv root db.isSome (putsOf r.2.2) r.1 r.2.1 t ∧ ∃ new, r.2.2 = db.map (·.extend new)

variable {blake2b kv}

theorem Collapsed.mono {root writes : Bool} {puts puts' : List (Bytes × Bytes)} {c cc : Node} {t : Tree}
    (h : Collapsed blake2b kv root writes puts c cc t) (hp : puts <+: puts') :
    Collapsed blake2b kv root writes puts' c cc t :=
  ⟨h.1, h.2.1, fun kv' he hh => h.2.2 kv' he fun p hp' => hh p (hp.subset hp')⟩

/-- How a child too wide to embed appears in its parent. -/
theorem refOf_of_wide {e : Bytes} (hw : hashLen ≤ e.length) :
    refOf blake2b e = Rlp.encodeString (blake2b e).toList := by
  rw [refOf, if_neg (Nat.not_lt.mpr hw)]

theorem refOf_of_narrow {e : Bytes} (hn : e.length < hashLen) : refOf blake2b e = e := by
  rw [refOf, if_pos hn]

variable (h : Hasher)

/-- `store` in a plain trie: a node narrow enough and not forced stays, any
other becomes a hash node with the tree's hash and is put under that hash. -/
theorem store_spec (hext : h.extended = false) (hnc : h.nonCrypto = false) {c : Node} {t : Tree} {db : Option Writer} (hdb : ∀ w, db = some w → w.keyEncoder = none)
    (hc : c.isNil = false) (hch : ∀ ref, c ≠ .hash ref) (he : Node.encode false c = enc blake2b t)
    (hcache : ∀ ref, c.cache.1 = some ref → ref.hash = Tree.hash blake2b t) (path : Bytes) (force : Bool) :
    ((enc blake2b t).length < hashLen ∧ force = false ∧ h.store blake2b c db path force = (c, db)) ∨
    (¬ ((enc blake2b t).length < hashLen ∧ force = false) ∧ ∃ ref, ref.hash = Tree.hash blake2b t ∧
      h.store blake2b c db path force = (.hash ref, db.map (·.put (Tree.hash blake2b t).toList (enc blake2b t)))) := by
  by_cases hn : (enc blake2b t).length < hashLen ∧ force = false
  · left
    refine ⟨hn.1, hn.2, ?_⟩
    cases c with
    | nil => cases hc
    | hash ref => exact absurd rfl (hch ref)
    | _ => simp [Hasher.store, hnc, he, hn.1, hn.2]
  · right
    refine ⟨hn, ?_⟩
    have hwide : (enc blake2b t).length < hashLen → force = true := fun hl => by
      cases force
      · exact absurd ⟨hl, rfl⟩ hn
      · rfl
    -- the reference: the cached hash, else the hash of the encoding
    cases hcc : c.cache.1 with
    | none =>
      refine ⟨⟨blake2b (enc blake2b t), 0⟩, rfl, ?_⟩
      cases c with
      | nil => cases hc
      | hash ref => exact absurd rfl (hch ref)
      | _ =>
        cases db with
        | none => simpa [Hasher.store, hnc, hext, he, hcc] using hwide
        | some w => simpa [Hasher.store, hnc, hext, he, hcc, hdb w rfl, nodeKey, Tree.hash] using hwide
    | some r =>
      refine ⟨r, hcache r hcc, ?_⟩
      cases c with
      | nil => cases hc
      | hash ref => exact absurd rfl (hch ref)
      | _ =>
        cases db with
        | none => simpa [Hasher.store, hnc, hext, he, hcc] using hwide
        | some w => simpa [Hasher.store, hnc, hext, he, hcc, hdb w rfl, nodeKey, hcache r hcc] using hwide

/-- A cached hash on a node standing for `t`, as `FlagsOk` has it. -/
theorem cache_sound {root : Bool} {n : Node} {t : Tree} {ref : HashRef} {dirty : Bool} {gen : UInt16}
    (hs : Sound blake2b kv root n t) (hc : n.cache = (some ref, dirty, gen)) :
    ref.hash = Tree.hash blake2b t ∧ (root = false → hashLen ≤ (enc blake2b t).length) ∧
      (dirty = false → Resolvable blake2b kv t) ∧ t.isNil = false ∧ t.isValue = false := by
  cases n with
  | short k c flags =>
    cases t with
    | short k' tc =>
      simp only [Node.cache, Prod.mk.injEq] at hc
      obtain ⟨h1, h2, h3⟩ := hs.2.2.1 ref hc.1
      exact ⟨h1, h2, by rw [← hc.2.1]; exact h3, rfl, rfl⟩
    | _ => exact hs.elim
  | full cs flags =>
    cases t with
    | full tcs =>
      simp only [Node.cache, Prod.mk.injEq] at hc
      obtain ⟨h1, h2, h3⟩ := hs.2.1 ref hc.1
      exact ⟨h1, h2, by rw [← hc.2.1]; exact h3, rfl, rfl⟩
    | _ => exact hs.elim
  | _ => simp [Node.cache] at hc

/-- What `cachedResult` can return: the cached hash collapses the node, and the
node is kept, or below the root, when clean and written, dropped for its hash. -/
theorem cachedResult_some (hext : h.extended = false) {n : Node} {db : Option Writer} {force : Bool}
    {hashed cached : Node} (hr : h.cachedResult n db force = some (hashed, cached)) :
    ∃ ref dirty gen, n.cache = (some ref, dirty, gen) ∧ hashed = .hash ref ∧ (db.isSome = true → dirty = false) ∧
      (cached = n ∨ (force = false ∧ db.isSome = true ∧ cached = .hash ref)) := by
  unfold Hasher.cachedResult at hr
  split at hr
  · rename_i ref dirty gen hc
    refine ⟨ref, dirty, gen, hc, ?_⟩
    cases db with
    | none =>
      simp only [Option.isNone_none, if_true, Option.some.injEq, Prod.mk.injEq] at hr
      exact ⟨hr.1.symm, fun h => Bool.noConfusion h, Or.inl hr.2.symm⟩
    | some w =>
      -- a written node is walked again when dirty
      cases dirty with
      | true => simp at hr
      | false =>
        cases force with
        | true =>
          simp [hext] at hr
          exact ⟨hr.1.symm, fun _ => rfl, Or.inl hr.2.symm⟩
        | false =>
          -- below the root: kept, or dropped for its hash once older than the cache lifetime
          simp only [Option.isNone_some, Bool.false_eq_true, if_false, Bool.not_false, if_true] at hr
          split_ifs at hr
          · simp only [Option.some.injEq, Prod.mk.injEq] at hr
            exact ⟨hr.1.symm, fun _ => rfl, Or.inr ⟨rfl, rfl, hr.2.symm⟩⟩
          · simp only [Option.some.injEq, Prod.mk.injEq] at hr
            exact ⟨hr.1.symm, fun _ => rfl, Or.inl hr.2.symm⟩
  · cases hr

/-- When `cachedResult` gives nothing the node has no cached hash, or is dirty
and is being written. -/
theorem cachedResult_none (hext : h.extended = false) {n : Node} {db : Option Writer} {force : Bool}
    (hr : h.cachedResult n db force = none) : n.cache.1 = none ∨ (db.isSome = true ∧ n.cache.2.1 = true) := by
  unfold Hasher.cachedResult at hr
  split at hr
  · rename_i ref dirty gen hc
    rw [hc]
    right
    cases db with
    | none => simp at hr
    | some w =>
      cases dirty with
      | true => exact ⟨rfl, rfl⟩
      | false => cases force <;> simp [hext] at hr <;> split_ifs at hr
  · rename_i hc
    left
    cases hn : n.cache.1 with
    | none => rfl
    | some ref => exact absurd (show n.cache = (some ref, n.cache.2.1, n.cache.2.2) by rw [← hn]) (hc ref _ _)

/-- A node whose cached hash stands for it: its hash node collapses it, and it,
or below the root its hash, is kept. -/
theorem hashOk_cachedResult (hext : h.extended = false) {n : Node} {t : Tree} {db : Option Writer}
    {root : Bool} {hashed cached : Node} (hs : Sound blake2b kv root n t)
    (hr : h.cachedResult n db root = some (hashed, cached)) :
    HashOk blake2b kv root db (hashed, cached, db) t := by
  obtain ⟨ref, dirty, gen, hc, rfl, hclean, hkept⟩ := cachedResult_some h hext hr
  obtain ⟨href, hwide, hres, hn, hv⟩ := cache_sound hs hc
  refine ⟨⟨fun _ => ⟨ref, rfl, href⟩, fun hroot => ?_, fun kv' he _ => ⟨?_, fun hw => ?_⟩⟩, [], by cases db <;> simp⟩
  · -- below the root a cached hash is as wide as a hash: the parent refers to it by hash
    rw [refOf_of_wide (hwide hroot)]
    simp [Node.encode, href, Tree.hash]
  · rcases hkept with rfl | ⟨rfl, hw, rfl⟩
    · exact hs.mono he
    · exact ⟨href, (hres (hclean hw)).mono he, hn, hv, hwide⟩
  · have hst := (hres (hclean hw)).mono he
    exact ⟨hst.2, fun _ => hst.1⟩

theorem map_extend_map_put (db : Option Writer) (new : List (Bytes × Bytes)) (k b : Bytes) :
    (db.map (·.extend new)).map (·.put k b) = db.map (·.extend (new ++ [(k, b)])) := by
  cases db <;> simp [Writer.put_eq_extend]

theorem keyEncoder_map_extend {db : Option Writer} (hdb : ∀ w, db = some w → w.keyEncoder = none)
    (new : List (Bytes × Bytes)) : ∀ w, db.map (·.extend new) = some w → w.keyEncoder = none := by
  intro w hw
  cases db with
  | none => cases hw
  | some w0 =>
    cases hw
    simpa using hdb w0 rfl

/-- The end of hashing a node: `store` the collapsed node, then give the kept
node the hash and, when written, a clean flag. `cached` is any node whose new
flags decide that it stands for `t`. -/
theorem hashOk_store (hext : h.extended = false) (hnc : h.nonCrypto = false) (collapsed cached : Node)
    (flags : NodeFlag) {t : Tree} {db : Option Writer} (db0 : Option Writer) {root : Bool} (path : Bytes)
    (hdb : ∀ w, db = some w → w.keyEncoder = none) (hw0 : ∃ new, db0 = db.map (·.extend new))
    (hc : collapsed.isNil = false) (hch : ∀ ref, collapsed ≠ .hash ref) (hcache : collapsed.cache.1 = flags.hash)
    (he : Node.encode false collapsed = enc blake2b t) (hf : FlagsOk blake2b kv root flags t)
    (hcr : flags.hash = none ∨ (db.isSome = true ∧ flags.dirty = true))
    (hsound : ∀ kv' r clean, Extends kv kv' → Holds kv' (putsOf db0) →
      FlagsOk blake2b kv' root { flags with hash := r, dirty := flags.dirty && !clean } t →
      Sound blake2b kv' root (cached.withFlags r clean) t)
    (hstored : db.isSome = true → ∀ kv', Extends kv kv' → Holds kv' (putsOf db0) → Stored blake2b kv' t) :
    HashOk blake2b kv root db
      (match h.store blake2b collapsed db0 path root with
        | (hashed, db') =>
          let ref := match hashed with
            | .hash ref => some ref
            | _ => none
          (hashed, cached.withFlags ref db'.isSome, db')) t := by
  obtain ⟨new, rfl⟩ := hw0
  rcases store_spec h hext hnc (keyEncoder_map_extend hdb new) hc hch he
      (fun ref hr => (hf.1 ref (hcache ▸ hr)).1) path root with ⟨hnar, hroot, hst⟩ | ⟨hwide, ref, href, hst⟩
  · -- narrow below the root: the node stays in place, without a hash
    rw [hst]
    dsimp only
    split
    · exact absurd rfl (hch _)
    · subst hroot
      refine ⟨⟨fun h => Bool.noConfusion h, fun _ => by rw [he, refOf_of_narrow hnar], fun kv' hext' hh => ?_⟩,
        new, rfl⟩
      refine ⟨hsound kv' none _ hext' hh ⟨fun _ h => (by cases h), fun _ _ => ⟨rfl, hnar⟩⟩, fun hw => ?_⟩
      refine ⟨hstored (by simpa using hw) kv' hext' hh, ?_⟩
      rintro (h | h)
      · cases h
      · exact absurd h (Nat.not_le.mpr hnar)
  · -- hashed: the hash node collapses it, and a writer gets the encoding under the hash
    rw [hst, map_extend_map_put]
    have hputs := putsOf_map_extend db (new ++ [((Tree.hash blake2b t).toList, enc blake2b t)])
    have hputs0 := putsOf_map_extend db new
    have hwide' : root = false → hashLen ≤ (enc blake2b t).length := fun hr =>
      Nat.le_of_not_lt fun hn => hwide ⟨hn, hr⟩
    -- over a store holding the puts, a written node is stored with everything below it
    have hres : ∀ kv', Extends kv kv' → Holds kv' (putsOf (db.map (·.extend (new ++
        [((Tree.hash blake2b t).toList, enc blake2b t)])))) → db.isSome = true →
        Holds kv' (putsOf (db.map (·.extend new))) ∧ Resolvable blake2b kv' t := by
      intro kv' hext' hh hw
      rw [hputs, if_pos hw, ← List.append_assoc] at hh
      have hh0 : Holds kv' (putsOf (db.map (·.extend new))) := by
        rw [hputs0, if_pos hw]
        exact hh.of_append
      exact ⟨hh0, hh _ (List.mem_append_right _ (List.mem_singleton_self _)), hstored hw kv' hext' hh0⟩
    have hold : ∀ kv', Holds kv' (putsOf (db.map (·.extend (new ++
        [((Tree.hash blake2b t).toList, enc blake2b t)])))) → Holds kv' (putsOf (db.map (·.extend new))) := by
      intro kv' hh
      rw [hputs] at hh
      rw [hputs0]
      by_cases hw : db.isSome = true
      · rw [if_pos hw, ← List.append_assoc] at hh
        rw [if_pos hw]
        exact hh.of_append
      · rw [if_neg hw] at hh
        rw [if_neg hw]
        exact hh
    refine ⟨⟨fun _ => ⟨ref, rfl, href⟩, fun hr => ?_, fun kv' hext' hh => ⟨?_, fun hw => ?_⟩⟩, _, rfl⟩
    · rw [refOf_of_wide (hwide' hr)]
      simp [Node.encode, href, Tree.hash]
    · refine hsound kv' (some ref) _ hext' (hold kv' hh) ⟨fun r hr => ?_, fun h => (by cases h)⟩
      cases hr
      refine ⟨href, hwide', fun hd => ?_⟩
      by_cases hw : db.isSome = true
      · exact (hres kv' hext' hh hw).2
      · -- without a writer a clean node has no hash to lose: it was one embedded
        simp only [Bool.not_eq_true] at hw
        simp only [hw, Option.isSome_map, Bool.not_false, Bool.and_true] at hd
        rcases hcr with hn | ⟨h1, -⟩
        · obtain ⟨hr, hn⟩ := hf.2 hn hd
          exact absurd ⟨hn, hr⟩ hwide
        · rw [hw] at h1
          cases h1
    · exact ⟨(hres kv' hext' hh (by simpa using hw)).2.2, fun _ => (hres kv' hext' hh (by simpa using hw)).2.1⟩

/-- An absent child collapses to itself, embedded as the empty string. -/
theorem collapsed_nil (writes : Bool) (puts : List (Bytes × Bytes)) :
    Collapsed blake2b kv false writes puts .nil .nil nil := by
  have hn : (enc blake2b nil).length < hashLen := by simp [enc, hashLen]
  refine ⟨fun h => Bool.noConfusion h, fun _ => ?_, fun _ _ _ => ⟨rfl, fun _ => ⟨trivial, ?_⟩⟩⟩
  · rw [refOf_of_narrow hn]
    rfl
  · rintro (h | h)
    · cases h
    · exact absurd h (Nat.not_le.mpr hn)

end Hashing

section Children

theorem Node.eq_nil_of_isNil {n : Node} (h : n.isNil = true) : n = .nil := by
  cases n <;> simp_all [Node.isNil]

theorem Tree.eq_nil_of_isNil {t : Tree} (h : t.isNil = true) : t = nil := by
  cases t <;> simp_all [Tree.isNil]

variable (blake2b : Bytes → Bytes32) (kv : Bytes → Option Bytes)
  (hash : Node → Option Writer → Bytes → Node × Node × Option Writer)
  (children : Fin 17 → Node) (tcs : Fin 17 → Tree) (db : Option Writer) (path : Bytes)

/-- The slots of a full node as hashing its children leaves them: slot 16 as it
was, a slot below 16 once done collapsed as `Collapsed` says, else as it was. -/
def SlotsOk (done : Fin 16 → Prop) (acc : (Fin 17 → Node) × (Fin 17 → Node) × Option Writer) : Prop :=
  acc.1 16 = children 16 ∧ acc.2.1 16 = children 16 ∧
  (∀ i : Fin 16, done i →
    Collapsed blake2b kv false db.isSome (putsOf acc.2.2) (acc.1 i.castSucc) (acc.2.1 i.castSucc) (tcs i.castSucc)) ∧
  (∀ i : Fin 16, ¬ done i → acc.1 i.castSucc = children i.castSucc ∧ acc.2.1 i.castSucc = children i.castSucc) ∧
  ∃ new, acc.2.2 = db.map (·.extend new)

variable {blake2b kv}

/-- One child hashed: the slot is done, and the slots done before stay so as
the writer grows. -/
theorem slotsOk_step (hc : ∀ i, Sound blake2b kv false (children i) (tcs i))
    (hdb : ∀ w, db = some w → w.keyEncoder = none)
    (ih : ∀ i : Fin 16, (children i.castSucc).isNil = false → ∀ db' path',
      (∀ w, db' = some w → w.keyEncoder = none) → db'.isSome = db.isSome →
      HashOk blake2b kv false db' (hash (children i.castSucc) db' path') (tcs i.castSucc))
    {done : Fin 16 → Prop} {acc : (Fin 17 → Node) × (Fin 17 → Node) × Option Writer} (x : Fin 16)
    (hx : ¬ done x) (hs : SlotsOk blake2b kv children tcs db done acc) :
    SlotsOk blake2b kv children tcs db (fun i => i = x ∨ done i)
      (if (children x.castSucc).isNil then acc
        else
          let (c, cc, db) := hash (children x.castSucc) acc.2.2 (path ++ [x.val.toUInt8])
          (Function.update acc.1 x.castSucc c, Function.update acc.2.1 x.castSucc cc, db)) := by
  obtain ⟨h16, h16', hdone, hrest, new, hnew⟩ := hs
  have hne16 : x.castSucc ≠ 16 := castSucc_ne_sixteen x
  split
  · -- an absent child is left as it is, which is how it collapses
    rename_i hnil
    have hx' := hrest x hx
    refine ⟨h16, h16', fun i hi => ?_, fun i hi => hrest i fun h => hi (Or.inr h), new, hnew⟩
    rcases hi with rfl | hi
    · have hn : children i.castSucc = .nil := Node.eq_nil_of_isNil hnil
      have ht : tcs i.castSucc = nil :=
        Tree.eq_nil_of_isNil ((isNil_eq_of_sound (hc i.castSucc)).symm.trans hnil)
      rw [hx'.1, hx'.2, hn, ht]
      exact collapsed_nil _ _
    · exact hdone i hi
  · rename_i hnn
    have hok := ih x (by simpa using hnn) acc.2.2 (path ++ [x.val.toUInt8])
      (by rw [hnew]; exact keyEncoder_map_extend hdb new) (by rw [hnew]; simp)
    obtain ⟨hcol, new', hnew'⟩ := hok
    -- the puts so far are a prefix of the puts after this child
    have hpre : putsOf acc.2.2 <+: putsOf (hash (children x.castSucc) acc.2.2 (path ++ [x.val.toUInt8])).2.2 := by
      rw [hnew', putsOf_map_extend]
      exact List.prefix_append _ _
    refine ⟨?_, ?_, fun i hi => ?_, fun i hi => ?_, new ++ new', ?_⟩
    · simp [Function.update_of_ne hne16.symm, h16]
    · simp [Function.update_of_ne hne16.symm, h16']
    · rcases hi with rfl | hi
      · simpa [hnew] using hcol
      · have hix : i ≠ x := fun h => hx (h ▸ hi)
        have hcx : i.castSucc ≠ x.castSucc := fun h => hix (Fin.castSucc_injective _ h)
        simpa [Function.update_of_ne hcx] using (hdone i hi).mono hpre
    · have hix : i ≠ x := fun h => hi (Or.inl h)
      have hcx : i.castSucc ≠ x.castSucc := fun h => hix (Fin.castSucc_injective _ h)
      simpa [Function.update_of_ne hcx] using hrest i fun h => hi (Or.inr h)
    · simp only
      rw [hnew', hnew, Option.map_map]
      cases db <;> simp [Function.comp_def]

theorem SlotsOk.congr {done done' : Fin 16 → Prop} (hd : ∀ i, done i ↔ done' i)
    {acc : (Fin 17 → Node) × (Fin 17 → Node) × Option Writer}
    (hs : SlotsOk blake2b kv children tcs db done acc) :
    SlotsOk blake2b kv children tcs db done' acc :=
  ⟨hs.1, hs.2.1, fun i hi => hs.2.2.1 i ((hd i).mpr hi), fun i hi => hs.2.2.2.1 i (fun h => hi ((hd i).mp h)),
    hs.2.2.2.2⟩

/-- Before any child is hashed every slot is as it was. -/
theorem slotsOk_init : SlotsOk blake2b kv children tcs db (fun _ => False) (children, children, db) :=
  ⟨rfl, rfl, fun _ h => h.elim, fun _ _ => ⟨rfl, rfl⟩, [], by cases db <;> simp⟩

/-- The children hashed one slot after another, each slot once. -/
theorem slotsOk_foldl (hc : ∀ i, Sound blake2b kv false (children i) (tcs i))
    (hdb : ∀ w, db = some w → w.keyEncoder = none)
    (ih : ∀ i : Fin 16, (children i.castSucc).isNil = false → ∀ db' path',
      (∀ w, db' = some w → w.keyEncoder = none) → db'.isSome = db.isSome →
      HashOk blake2b kv false db' (hash (children i.castSucc) db' path') (tcs i.castSucc)) :
    ∀ (l : List (Fin 16)) (done : Fin 16 → Prop) (acc : (Fin 17 → Node) × (Fin 17 → Node) × Option Writer),
      l.Nodup → (∀ i ∈ l, ¬ done i) → SlotsOk blake2b kv children tcs db done acc →
      SlotsOk blake2b kv children tcs db (fun i => i ∈ l ∨ done i)
        (l.foldl (fun acc x =>
          if (children x.castSucc).isNil then acc
          else
            let (c, cc, db) := hash (children x.castSucc) acc.2.2 (path ++ [x.val.toUInt8])
            (Function.update acc.1 x.castSucc c, Function.update acc.2.1 x.castSucc cc, db)) acc)
  | [], done, acc, _, _, hs => hs.congr _ _ _ (fun i => by simp)
  | x :: l, done, acc, hnd, hl, hs => by
    rw [List.foldl_cons]
    have hstep := slotsOk_step hash children tcs db path hc hdb ih x (hl x List.mem_cons_self) hs
    have hnd' := List.nodup_cons.mp hnd
    have hrest := slotsOk_foldl hc hdb ih l (fun i => i = x ∨ done i) _ hnd'.2
      (fun i hi h => h.elim (fun hix => hnd'.1 (hix ▸ hi)) (hl i (List.mem_cons_of_mem _ hi))) hstep
    exact hrest.congr _ _ _ (fun i => by simp only [List.mem_cons]; tauto)

end Children

end Workshare

namespace Workshare

open Tree

section Hash

variable {blake2b : Bytes → Bytes32} {kv : Bytes → Option Bytes} (h : Hasher)

theorem isValue_eq_of_sound {root : Bool} {n : Node} {t : Tree} (hs : Sound blake2b kv root n t) :
    n.isValue = t.isValue := by
  cases n <;> cases t <;> simp_all [Sound, Node.isValue, Tree.isValue]

/-- The value slot of a full node is encoded in place. -/
theorem encode_slot {n : Node} {t : Tree} (hs : Sound blake2b kv false n t) (ht : t.isNil = true ∨ t.isValue = true) :
    Node.encode false n = enc blake2b t := by
  cases n <;> cases t <;> simp_all [Sound, Tree.isNil, Tree.isValue] <;> rfl

theorem stored_slot {t : Tree} (ht : t.isNil = true ∨ t.isValue = true) : Stored blake2b kv t := by
  cases t <;> simp_all [Tree.isNil, Tree.isValue, Stored]

theorem exists_castSucc_of_ne {i : Fin 17} (hi : i ≠ 16) : ∃ j : Fin 16, j.castSucc = i :=
  Fin.exists_castSucc_eq.mpr hi

theorem cachedResult_of_cache_none {n : Node} (hc : n.cache.1 = none) (db : Option Writer) (force : Bool) :
    h.cachedResult n db force = none := by
  unfold Hasher.cachedResult
  split
  · rename_i ref dirty gen hn
    rw [hn] at hc
    cases hc
  · rfl

/-- Hashing a node that stands for a well-formed tree, in a plain trie. -/
theorem hash_sound (hext : h.extended = false) (hnc : h.nonCrypto = false) :
    ∀ (n : Node) (t : Tree) (db : Option Writer) (path : Bytes) (root : Bool),
      (∀ w, db = some w → w.keyEncoder = none) → Sound blake2b kv root n t → Wf t →
      (root = true → t.isNil = false) → HashOk blake2b kv root db (h.hash blake2b n db path root) t
  | .nil, t, db, path, root, _, hs, _, hr => by
    subst hs
    -- an absent node is never hashed at the root, and stays as it is
    obtain rfl : root = false := by
      cases root
      · rfl
      · exact absurd (hr rfl) (by decide)
    rw [Hasher.hash.eq_def]
    show HashOk blake2b kv false db (.nil, .nil, db) nil
    exact ⟨collapsed_nil _ _, [], by cases db <;> simp⟩
  | .value v m, t, db, path, root, hdb, hs, _, _ => by
    subst hs
    rw [Hasher.hash.eq_def]
    exact hashOk_store h hext hnc (.value v m) (.value v m) ⟨none, true, 0⟩ db path hdb ⟨[], by cases db <;> simp⟩ rfl
      (fun _ h => Node.noConfusion h) rfl rfl (flagsOk_dirty _ _ _) (Or.inl rfl) (fun _ _ _ _ _ _ => rfl)
      (fun _ _ _ _ => trivial)
  | .hash ref, t, db, path, root, _, hs, _, _ => by
    -- a hash node stands for a stored tree, and stays as it is
    rw [Hasher.hash.eq_def]
    show HashOk blake2b kv root db (.hash ref, .hash ref, db) t
    obtain ⟨href, hres, hn, hv, hwide⟩ := hs
    refine ⟨⟨fun _ => ⟨ref, rfl, href⟩, fun hr => ?_, fun kv' he _ => ⟨⟨href, hres.mono he, hn, hv, hwide⟩,
      fun _ => ?_⟩⟩, [], by cases db <;> simp⟩
    · rw [refOf_of_wide (hwide hr)]
      simp [Node.encode, href, Tree.hash]
    · have hst := hres.mono he
      exact ⟨hst.2, fun _ => hst.1⟩
  | .short key val flags, .short _ tc, db, path, root, hdb, hs, hw, _ => by
    obtain ⟨rfl, hval, hf⟩ := hs
    rw [Hasher.hash]
    cases hcr : h.cachedResult (.short key val flags) db root with
    | some p =>
      obtain ⟨hashed, cached⟩ := p
      exact hashOk_cachedResult h hext (show Sound blake2b kv root (.short key val flags) (short key tc) from
        ⟨rfl, hval, hf⟩) hcr
    | none =>
      have hcr' := cachedResult_none h hext hcr
      by_cases hv : val.isValue = true
      · -- a value child is encoded in place
        obtain ⟨v, m, rfl⟩ : ∃ v m, val = .value v m := by
          cases val with
          | value v m => exact ⟨v, m, rfl⟩
          | _ => simp [Node.isValue] at hv
        subst hval
        rw [if_pos hv]
        exact hashOk_store h hext hnc (.short (hexToCompact key) (.value v m) flags) (.short key (.value v m) flags)
          flags db path hdb ⟨[], by cases db <;> simp⟩ rfl (fun _ h => Node.noConfusion h) rfl
          (by simp [Node.encode, enc, Tree.isValue]) hf hcr' (fun _ _ _ _ _ hfl => ⟨rfl, rfl, hfl⟩)
          (fun _ _ _ _ => ⟨fun h => Bool.noConfusion h, trivial⟩)
      · -- any other child is hashed first, below the root
        have htv : tc.isValue = false := (isValue_eq_of_sound hval).symm.trans (by simpa using hv)
        obtain ⟨⟨-, hcol, hsnd⟩, new, hnew⟩ :=
          hash_sound hext hnc val tc db (path ++ key) false hdb hval hw.2.2.2.2 (fun h => Bool.noConfusion h)
        rw [if_neg hv]
        rcases hr1 : h.hash blake2b val db (path ++ key) false with ⟨cv, cc, db1⟩
        rw [hr1] at hcol hsnd hnew
        exact hashOk_store h hext hnc (.short (hexToCompact key) cv flags) (.short key cc flags) flags db1 path hdb
          ⟨new, hnew⟩ rfl (fun _ h => Node.noConfusion h) rfl (by simp [Node.encode, enc, htv, hcol rfl]) hf hcr'
          (fun kv' _ _ he hh hfl => ⟨rfl, (hsnd kv' he hh).1, hfl⟩)
          (fun hw' kv' he hh => ⟨fun _ hl => ((hsnd kv' he hh).2 hw').2 (Or.inr hl), ((hsnd kv' he hh).2 hw').1⟩)
  | .full cs flags, .full tcs, db, path, root, hdb, hs, hw, _ => by
    obtain ⟨hc, hf⟩ := hs
    rw [Hasher.hash]
    cases hcr : h.cachedResult (.full cs flags) db root with
    | some p =>
      obtain ⟨hashed, cached⟩ := p
      exact hashOk_cachedResult h hext (show Sound blake2b kv root (.full cs flags) (full tcs) from ⟨hc, hf⟩) hcr
    | none =>
      have hcr' := cachedResult_none h hext hcr
      have hfold := slotsOk_foldl (fun n db p => h.hash blake2b n db p false) cs tcs db path hc hdb
        (fun i _ db' path' hdb' _ => hash_sound hext hnc (cs i.castSucc) (tcs i.castSucc) db' path' false hdb'
          (hc _) (hw.2.2.2 _) (fun h => Bool.noConfusion h))
        (List.finRange 16) (fun _ => False) (cs, cs, db) (List.nodup_finRange 16) (fun _ _ h => h)
        (slotsOk_init cs tcs db)
      generalize List.foldl _ (cs, cs, db) (List.finRange 16) = r at hfold ⊢
      obtain ⟨ccs, cached, db1⟩ := r
      obtain ⟨h16, h16', hdone, -, new, hnew⟩ := hfold
      dsimp only at h16 h16' hnew
      have hdone' : ∀ j : Fin 16, Collapsed blake2b kv false db.isSome (putsOf db1) (ccs j.castSucc) (cached j.castSucc)
          (tcs j.castSucc) := fun j => hdone j (Or.inl (List.mem_finRange j))
      -- each slot below 16 as its parent refers to it, the value slot in place
      have hslot : ∀ i : Fin 17, Node.encode false (ccs i) =
          if i = 16 then enc blake2b (tcs i) else refOf blake2b (enc blake2b (tcs i)) := by
        intro i
        by_cases hi : i = 16
        · subst hi
          rw [if_pos rfl, h16]
          exact encode_slot (hc 16) hw.2.2.1
        · obtain ⟨j, rfl⟩ := exists_castSucc_of_ne hi
          rw [if_neg hi]
          exact (hdone' j).2.1 rfl
      exact hashOk_store h hext hnc (.full ccs flags) (.full cached flags) flags db1 path hdb ⟨new, hnew⟩ rfl
        (fun _ h => Node.noConfusion h) rfl (by simp only [Node.encode, enc, hslot]) hf hcr'
        (fun kv' _ _ he hh hfl => ⟨fun i => by
          by_cases hi : i = 16
          · subst hi
            rw [h16']
            exact (hc 16).mono he
          · obtain ⟨j, rfl⟩ := exists_castSucc_of_ne hi
            exact ((hdone' j).2.2 kv' he hh).1, hfl⟩)
        (fun hw' kv' he hh i => by
          by_cases hi : i = 16
          · subst hi
            exact ⟨fun h => absurd rfl h, stored_slot hw.2.2.1⟩
          · obtain ⟨j, rfl⟩ := exists_castSucc_of_ne hi
            have hs := ((hdone' j).2.2 kv' he hh).2 hw'
            exact ⟨fun _ hl => hs.2 (Or.inr hl), hs.1⟩)
  | .short _ _ _, .nil, _, _, _, _, hs, _, _ => hs.elim
  | .short _ _ _, .value _ _, _, _, _, _, hs, _, _ => hs.elim
  | .short _ _ _, .full _, _, _, _, _, hs, _, _ => hs.elim
  | .full _ _, .nil, _, _, _, _, hs, _, _ => hs.elim
  | .full _ _, .value _ _, _, _, _, _, hs, _, _ => hs.elim
  | .full _ _, .short _ _, _, _, _, _, hs, _, _ => hs.elim

end Hash

end Workshare

namespace Workshare

open Tree

section Root

variable {blake2b : Bytes → Bytes32}

theorem rootHash_of_ne_nil {t : Tree} (hn : t.isNil = false) : Tree.rootHash blake2b t = Tree.hash blake2b t := by
  cases t <;> simp_all [Tree.rootHash, Tree.isNil]

/-- `hashRoot`: the root collapses to the tree's root hash, and the root kept
stands for the tree; with a writer, over a store holding its puts, the tree is
stored under its hash. -/
theorem hashRoot_sound {t : Trie} {tr : Tree} {db : Option Writer} (hdb : ∀ w, db = some w → w.keyEncoder = none)
    (hs : Sound blake2b t.db.kv true t.root tr) (hw : Wf tr) :
    Trie.rootHash (t.hashRoot blake2b db).1 = Tree.rootHash blake2b tr ∧
      (∃ new, (t.hashRoot blake2b db).2.2 = db.map (·.extend new)) ∧
      ∀ kv', Extends t.db.kv kv' → Holds kv' (putsOf (t.hashRoot blake2b db).2.2) →
        Sound blake2b kv' true (t.hashRoot blake2b db).2.1 tr ∧
        (db.isSome = true → tr.isNil = false → Resolvable blake2b kv' tr) := by
  unfold Trie.hashRoot
  split
  · -- the empty trie: the empty root, and nothing to write
    rename_i hroot
    rw [hroot] at hs
    subst hs
    exact ⟨rfl, ⟨[], by cases db <;> simp⟩, fun _ _ _ => ⟨rfl, fun _ h => Bool.noConfusion h⟩⟩
  · rename_i n hroot
    have hn : tr.isNil = false := by
      rw [← isNil_eq_of_sound hs]
      cases hr : t.root <;> simp_all [Node.isNil]
    obtain ⟨⟨hcol, -, hsnd⟩, hnew⟩ := hash_sound (Hasher.mk t.cacheGen t.cacheTTL false 0 false) rfl rfl
      t.root tr db [] true hdb hs hw (fun _ => hn)
    obtain ⟨ref, hr, href⟩ := hcol rfl
    refine ⟨?_, hnew, fun kv' he hh => ⟨(hsnd kv' he hh).1, fun hw' _ => ?_⟩⟩
    · rw [hr, rootHash_of_ne_nil hn]
      exact href
    · obtain ⟨hst, hkv⟩ := (hsnd kv' he hh).2 hw'
      exact ⟨hkv (Or.inl rfl), hst⟩

/-- `Hash` returns the tree's root hash, leaves the store alone and keeps a root
standing for the tree. -/
theorem hash_root {t : Trie} {tr : Tree} (hs : Sound blake2b t.db.kv true t.root tr) (hw : Wf tr) :
    (t.hash blake2b).1 = Tree.rootHash blake2b tr ∧ (t.hash blake2b).2.db = t.db ∧
      Sound blake2b t.db.kv true (t.hash blake2b).2.root tr := by
  obtain ⟨h1, ⟨new, hnew⟩, h3⟩ := hashRoot_sound
    (show ∀ w, (none : Option Writer) = some w → w.keyEncoder = none from fun _ h => (nomatch h)) hs hw
  have hnil : putsOf (t.hashRoot blake2b none).2.2 = [] := by
    rw [hnew]
    rfl
  exact ⟨h1, rfl, (h3 t.db.kv (Extends.refl _) (by rw [hnil]; exact fun _ h => nomatch h)).1⟩

/-- The puts of a commit agree with what the store holds and with one another,
and none is under the zero hash or the empty root: a store keyed by hash never
gets two blobs under one key. -/
def PutsFresh (blake2b : Bytes → Bytes32) (kv : Bytes → Option Bytes) (puts : List (Bytes × Bytes)) : Prop :=
  (∀ p ∈ puts, ∀ b, kv p.1 = some b → b = p.2) ∧ (∀ p ∈ puts, ∀ q ∈ puts, p.1 = q.1 → p.2 = q.2) ∧
  ∀ p ∈ puts, p.1 ≠ (Vector.replicate 32 0 : Bytes32).toList ∧ p.1 ≠ (emptyRoot blake2b).toList

/-- No blob of the store is under the zero hash or the empty root, which `New`
reads as the empty trie. -/
def StoreFresh (blake2b : Bytes → Bytes32) (kv : Bytes → Option Bytes) : Prop :=
  ∀ k b, kv k = some b → k ≠ (Vector.replicate 32 0 : Bytes32).toList ∧ k ≠ (emptyRoot blake2b).toList

/-- The puts `Commit` makes. -/
def Trie.commitPuts (t : Trie) (blake2b : Bytes → Bytes32) : List (Bytes × Bytes) :=
  putsOf (t.hashRoot blake2b (some ⟨t.db.keyEncoder, []⟩)).2.2

/-- Putting blobs that agree with the store and with one another keeps the
store's blobs and holds every put. -/
theorem putAll_spec : ∀ {db : Database} {puts : List (Bytes × Bytes)},
    (∀ p ∈ puts, ∀ b, db.kv p.1 = some b → b = p.2) → (∀ p ∈ puts, ∀ q ∈ puts, p.1 = q.1 → p.2 = q.2) →
    Extends db.kv (db.putAll puts).kv ∧ Holds (db.putAll puts).kv puts
  | db, [], _, _ => ⟨Extends.refl _, fun _ h => nomatch h⟩
  | db, p :: ps, h1, h2 => by
    -- the first put keeps the store's blobs, and the rest agree with the store after it
    have hext : Extends db.kv (db.put p.1 p.2).kv := fun k b hk => by
      by_cases hkp : k = p.1
      · subst hkp
        rw [h1 p List.mem_cons_self b hk]
        simp [Database.put]
      · simpa [Database.put, hkp] using hk
    have h1' : ∀ q ∈ ps, ∀ b, (db.put p.1 p.2).kv q.1 = some b → b = q.2 := fun q hq b hb => by
      by_cases hqp : q.1 = p.1
      · simp only [Database.put, hqp, Function.update_self, Option.some.injEq] at hb
        rw [← hb]
        exact h2 p List.mem_cons_self q (List.mem_cons_of_mem _ hq) hqp.symm
      · simp only [Database.put, Function.update_of_ne hqp] at hb
        exact h1 q (List.mem_cons_of_mem _ hq) b hb
    obtain ⟨hrest, hholds⟩ := putAll_spec h1' fun q hq r hr => h2 q (List.mem_cons_of_mem _ hq) r (List.mem_cons_of_mem _ hr)
    refine ⟨hext.trans hrest, fun q hq => ?_⟩
    rcases List.mem_cons.mp hq with rfl | hq
    · exact hrest _ _ (by simp [Database.put])
    · exact hholds q hq

theorem putAll_fresh {puts : List (Bytes × Bytes)}
    (hp : ∀ p ∈ puts, p.1 ≠ (Vector.replicate 32 0 : Bytes32).toList ∧ p.1 ≠ (emptyRoot blake2b).toList) :
    ∀ {db : Database}, StoreFresh blake2b db.kv → StoreFresh blake2b (db.putAll puts).kv := by
  induction puts with
  | nil => exact fun h => h
  | cons p ps ih =>
    intro db h
    have hput : StoreFresh blake2b (db.put p.1 p.2).kv := fun k b hk => by
      by_cases hkp : k = p.1
      · subst hkp
        exact hp p List.mem_cons_self
      · exact h k b (by simpa [Database.put, hkp] using hk)
    exact ih (fun q hq => hp q (List.mem_cons_of_mem _ hq)) hput

@[simp] theorem Database.keyEncoder_putAll (db : Database) (puts : List (Bytes × Bytes)) :
    (db.putAll puts).keyEncoder = db.keyEncoder := by
  induction puts generalizing db with
  | nil => rfl
  | cons p ps ih => exact ih (db.put p.1 p.2)

/-- `Commit` over a store keyed by hash, when its puts are fresh: the tree's root
hash, a store that keeps the old blobs and now holds the tree, and a root
standing for the tree over it. -/
theorem commit_sound {t : Trie} {tr : Tree} (hk : t.db.keyEncoder = none) (hs : Sound blake2b t.db.kv true t.root tr)
    (hw : Wf tr) (hf : PutsFresh blake2b t.db.kv (t.commitPuts blake2b)) (hsf : StoreFresh blake2b t.db.kv) :
    (t.commit blake2b).1 = Tree.rootHash blake2b tr ∧ (t.commit blake2b).2.db.keyEncoder = none ∧
      Extends t.db.kv (t.commit blake2b).2.db.kv ∧ StoreFresh blake2b (t.commit blake2b).2.db.kv ∧
      Sound blake2b (t.commit blake2b).2.db.kv true (t.commit blake2b).2.root tr ∧
      (tr.isNil = false → Resolvable blake2b (t.commit blake2b).2.db.kv tr) := by
  have hdb : ∀ w, some (⟨t.db.keyEncoder, []⟩ : Writer) = some w → w.keyEncoder = none := by
    rintro w ⟨⟩
    exact hk
  obtain ⟨h1, -, h3⟩ := hashRoot_sound hdb hs hw
  obtain ⟨hext, hholds⟩ := putAll_spec hf.1 hf.2.1
  obtain ⟨hsound, hres⟩ := h3 _ hext hholds
  refine ⟨h1, ?_, hext, putAll_fresh hf.2.2 hsf, hsound, hres rfl⟩
  simpa [Trie.commit] using hk

/-- `New` at the root hash of a tree the store holds loads a root standing for it. -/
theorem new_sound {db : Database} {tr : Tree} (hk : db.keyEncoder = none) (hsf : StoreFresh blake2b db.kv)
    (hw : Wf tr) (hm : MetaFree tr) (hb : (enc blake2b tr).length < 2 ^ 64) (hv : tr.isValue = false)
    (hres : tr.isNil = false → Resolvable blake2b db.kv tr) :
    ∃ t, Trie.new blake2b (Tree.rootHash blake2b tr) db = .ok t ∧ t.db = db ∧ Sound blake2b db.kv true t.root tr := by
  cases hn : tr.isNil
  · -- a stored tree: its hash is neither the zero hash nor the empty root, and loads
    obtain ⟨hkv, hst⟩ := hres hn
    have hfresh := hsf _ _ hkv
    have hroot : Tree.rootHash blake2b tr ≠ Vector.replicate 32 0 ∧ Tree.rootHash blake2b tr ≠ emptyRoot blake2b := by
      rw [rootHash_of_ne_nil hn]
      exact ⟨fun h => hfresh.1 (by rw [h]), fun h => hfresh.2 (by rw [h])⟩
    have hsh : Sound blake2b db.kv true (.hash ⟨Tree.rootHash blake2b tr, 0⟩) tr :=
      ⟨rootHash_of_ne_nil hn, ⟨hkv, hst⟩, hn, hv, fun h => Bool.noConfusion h⟩
    obtain ⟨hload, hsound⟩ := resolveHash_sound blake2b ⟨.nil, db, 0, 0⟩ hk hsh hw hm hb []
    refine ⟨{ root := _, db := db, cacheGen := 0, cacheTTL := 0 }, ?_, rfl, hsound⟩
    simp only [Trie.new, hroot, ne_eq, not_false_eq_true, and_self, if_true]
    rw [hload]
    rfl
  · -- the empty tree: its root hash is the empty root
    have ht : tr = nil := Tree.eq_nil_of_isNil hn
    subst ht
    refine ⟨⟨.nil, db, 0, 0⟩, ?_, rfl, rfl⟩
    simp [Trie.new, Tree.rootHash]

end Root

end Workshare
