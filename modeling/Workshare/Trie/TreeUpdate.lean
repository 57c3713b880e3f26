import Workshare.Trie.Tree

/-!
# Insertion and deletion on trees

`Tree.insert` and `Tree.delete` restructure a tree the way `Trie.insert` and
`Trie.delete` restructure the nodes in memory: a short node is split where a
new key leaves it, a full node left with one child becomes a short node, and
two short nodes in a row are merged. On a well-formed tree, at a key tail, they
change the entry of that key and no other, and keep the tree well formed.
-/
namespace Workshare

theorem KeyTail.not_nibbles {r : Bytes} (h : KeyTail r) (hne : r ≠ []) : ¬ Nibbles r := by
  rcases h with rfl | ⟨ns, -, rfl⟩
  · exact absurd rfl hne
  · intro hn
    have := hn terminator (by simp)
    simp [terminator] at this

theorem KeyTail.le_of_mem {r : Bytes} (h : KeyTail r) {x : UInt8} (hx : x ∈ r) : x ≤ 16 := by
  rcases h with rfl | ⟨ns, hns, rfl⟩
  · cases hx
  · rcases List.mem_append.mp hx with hx | hx
    · exact UInt8.le_of_lt (hns x hx)
    · simp_all [terminator]

theorem childIndex_isSome {x : UInt8} (h : x ≤ 16) : (childIndex x).isSome := by
  unfold childIndex
  rw [dif_pos (by have := UInt8.le_iff_toNat_le.mp h; simp at this; omega)]
  rfl

namespace Tree

/-- `insertNil` on trees: the node itself at the end of a key, else a short
node leading to it. -/
def prepend (k : Bytes) (c : Tree) : Tree := if k.isEmpty then c else short k c

theorem lookup_prepend (k : Bytes) (c : Tree) (q : Bytes) :
    lookup (prepend k c) q = if k <+: q then lookup c (q.drop k.length) else none := by
  unfold prepend
  cases k <;> simp [lookup_short]

theorem lookup_full_update (cs : Fin 17 → Tree) (j : Fin 17) (c : Tree) (q : Bytes) :
    lookup (full (Function.update cs j c)) q =
      if q.head? = some j.val.toUInt8 then lookup c q.tail else lookup (full cs) q := by
  cases q with
  | nil => simp
  | cons z q =>
    simp only [List.head?_cons, Option.some.injEq, List.tail_cons]
    by_cases hz : z = j.val.toUInt8
    · subst hz
      simp
    · rw [if_neg hz, lookup_full_cons, lookup_full_cons]
      cases hi : childIndex z with
      | none => rfl
      | some i =>
        have hij : i ≠ j := fun h => hz (by rw [childIndex_eq_some.mp hi, h])
        simp [Function.update_of_ne hij]

/-- Insertion of a value at a key tail. -/
def insert (v m : Bytes) : Tree → Bytes → Tree
  | _, [] => value v m
  | short k c, r@(_ :: _) =>
    let l := prefixLen r k
    if l = k.length then short k (insert v m c (r.drop l))
    else
      match k[l]?.bind childIndex, r[l]?.bind childIndex with
      | some ki, some i =>
        prepend (r.take l)
          (full (Function.update (Function.update (fun _ => nil) ki (prepend (k.drop (l + 1)) c)) i
            (prepend (r.drop (l + 1)) (value v m))))
      | _, _ => short k c
  | full cs, i :: rest =>
    match childIndex i with
    | some j => full (Function.update cs j (insert v m (cs j) rest))
    | none => full cs
  | nil, r => short r (value v m)
  | value v' m', _ :: _ => value v' m'

/-- The entries of the full node made where a key leaves a short node: the
new key's value on one side, the old short node's entries on the other. -/
theorem lookup_split {p k' r' : Bytes} {ki i : Fin 17} (hxy : ki ≠ i) (c : Tree) (v m q : Bytes) :
    lookup (prepend p (full (Function.update (Function.update (fun _ => nil) ki (prepend k' c)) i
      (prepend r' (value v m))))) q =
      if q = p ++ i.val.toUInt8 :: r' then some (v, m)
      else lookup (short (p ++ ki.val.toUInt8 :: k') c) q := by
  have hne : ki.val.toUInt8 ≠ i.val.toUInt8 := fun h => hxy (toUInt8_inj h)
  rw [lookup_prepend, lookup_short]
  by_cases hp : p <+: q
  · obtain ⟨s, rfl⟩ := hp
    rw [if_pos (List.prefix_append p s), List.length_append, List.drop_length_add_append, List.drop_left]
    simp only [List.prefix_append_right_inj, List.append_cancel_left_eq]
    rw [lookup_full_update, lookup_full_update]
    cases s with
    | nil => simp
    | cons z s =>
      simp only [List.head?_cons, Option.some.injEq, List.tail_cons, List.cons_prefix_cons,
        List.cons.injEq, List.length_cons, List.drop_succ_cons]
      by_cases hzi : z = i.val.toUInt8
      · subst hzi
        simp only [if_true, true_and, hne, false_and, if_false, lookup_prepend, lookup_value]
        by_cases hr : r' <+: s
        · obtain ⟨u, rfl⟩ := hr
          cases u <;> simp
        · have : s ≠ r' := fun h => hr (h ▸ List.prefix_refl _)
          simp [hr, this]
      · rw [if_neg hzi]
        by_cases hzk : z = ki.val.toUInt8
        · subst hzk
          have hc : ¬ (ki.val.toUInt8 = i.val.toUInt8 ∧ s = r') := fun h => hzi h.1
          simp only [if_true, true_and, hc, if_false, lookup_prepend]
        · have hzk' : ¬ ki.val.toUInt8 = z := fun h => hzk h.symm
          -- neither nibble: the empty base of the two updates
          rw [if_neg hzk, if_neg (fun h => hzi h.1), if_neg (fun h => hzk' h.1), lookup_full_cons]
          cases childIndex z <;> rfl
  · have hq : q ≠ p ++ i.val.toUInt8 :: r' := fun h => hp (h ▸ List.prefix_append _ _)
    have hk : ¬ (p ++ ki.val.toUInt8 :: k') <+: q := fun h => hp ((List.prefix_append _ _).trans h)
    simp [hp, hq, hk]

/-- Below a well-formed short node, on a key tail through its key: the child
is a value exactly when the key ends there. -/
theorem Wf.short_child_isValue {k s : Bytes} {c : Tree} (hw : Wf (short k c)) (hr : KeyTail (k ++ s)) :
    c.isValue = true ↔ s = [] := by
  obtain ⟨hk, hkey, -, -, -⟩ := hw
  rcases keyTail_append.mp hr with ⟨rfl, hkt⟩ | ⟨hne, hn, -⟩
  · simp only [iff_true]
    cases hc : c.isValue
    · simp only [hc, Bool.false_eq_true, if_false] at hkey
      exact absurd hkey (hkt.not_nibbles hk)
    · rfl
  · simp only [hne, iff_false]
    cases hc : c.isValue
    · decide
    · simp only [hc, if_true] at hkey
      exact absurd hn (hkey.not_nibbles hk)

theorem Wf.pos_short_child {k s : Bytes} {c : Tree} (hw : Wf (short k c)) (hr : KeyTail (k ++ s)) :
    Pos c s :=
  ⟨fun h => (hw.short_child_isValue hr).mp h, fun h => Or.inr ((hw.short_child_isValue hr).mpr h)⟩

/-- The nibble of a key tail selects the value slot exactly at the terminator. -/
theorem eq_terminator_iff {y : UInt8} {j : Fin 17} (hj : childIndex y = some j) : y = terminator ↔ j = 16 := by
  rw [childIndex_eq_some] at hj
  subst hj
  constructor
  · intro h
    exact toUInt8_inj (b := 16) h
  · rintro rfl
    rfl

theorem Wf.pos_full_child {cs : Fin 17 → Tree} (hw : Wf (full cs)) {y : UInt8} {r0 : Bytes} {j : Fin 17}
    (hj : childIndex y = some j) (hr : KeyTail (y :: r0)) : Pos (cs j) r0 := by
  rcases keyTail_cons.mp hr with ⟨hy, rfl⟩ | ⟨hy, hne, -⟩
  · obtain rfl := (eq_terminator_iff hj).mp hy
    exact ⟨fun _ => rfl, fun _ => hw.2.2.1⟩
  · have hlt : j.val < 16 := by
      rw [childIndex_eq_some] at hj
      subst hj
      have := UInt8.lt_iff_toNat_lt.mp hy
      simp at this
      omega
    have hv : (cs j).isValue = false := hw.2.1 ⟨j.val, hlt⟩
    exact ⟨fun h => absurd h (by rw [hv]; decide), fun h => absurd h hne⟩

theorem Wf.le_of_mem_key {k : Bytes} {c : Tree} (hw : Wf (short k c)) {x : UInt8} (hx : x ∈ k) : x ≤ 16 := by
  have hkey := hw.2.1
  split at hkey
  · exact hkey.le_of_mem hx
  · exact UInt8.le_of_lt (hkey x hx)

/-- A key tail that is a prefix of a well-formed short node's key is the whole key. -/
theorem Wf.eq_of_prefix_key {k r : Bytes} {c : Tree} (hw : Wf (short k c)) (hr : KeyTail r) (hne : r ≠ [])
    (hpre : r <+: k) : r = k := by
  obtain ⟨d, rfl⟩ := hpre
  cases d with
  | nil => simp
  | cons x d =>
    exfalso
    have hkey := hw.2.1
    split at hkey
    · rcases keyTail_append.mp hkey with ⟨h, -⟩ | ⟨-, hn, -⟩
      · cases h
      · exact hr.not_nibbles hne hn
    · exact hr.not_nibbles hne (nibbles_append.mp hkey).1

theorem two_le_occupied {cs : Fin 17 → Tree} {i j : Fin 17} (hij : i ≠ j) (hi : (cs i).isNil = false)
    (hj : (cs j).isNil = false) : 2 ≤ (occupied cs).length := by
  have hmi : i ∈ occupied cs := by simp [occupied, hi]
  have hmj : j ∈ occupied cs := by simp [occupied, hj]
  generalize occupied cs = l at hmi hmj
  rcases l with _ | ⟨a, _ | ⟨b, rest⟩⟩
  · cases hmi
  · simp only [List.mem_singleton] at hmi hmj
    exact absurd (hmi.trans hmj.symm) hij
  · simp

theorem occupied_length_update_le (cs : Fin 17 → Tree) (j : Fin 17) {c : Tree} (hc : c.isNil = false) :
    (occupied cs).length ≤ (occupied (Function.update cs j c)).length := by
  refine (List.monotone_filter_right _ fun i hi => ?_).length_le
  by_cases hij : i = j
  · subst hij
    simp [hc]
  · simpa [Function.update_of_ne hij] using hi

@[simp] theorem isValue_prepend (k : Bytes) (c : Tree) : (prepend k c).isValue = (k.isEmpty && c.isValue) := by
  unfold prepend
  cases k <;> simp [isValue]

theorem isNil_prepend {k : Bytes} {c : Tree} (hc : c.isNil = false) : (prepend k c).isNil = false := by
  unfold prepend
  split
  · exact hc
  · rfl

theorem wf_prepend {k : Bytes} {c : Tree} (hc : Wf c) (hn : c.isNil = false) (hs : c.isShort = false)
    (hk : if c.isValue then KeyTail k else Nibbles k) : Wf (prepend k c) := by
  unfold prepend
  split
  · exact hc
  · exact ⟨by simpa using ‹¬k.isEmpty = true›, hk, hn, hs, hc⟩

theorem ne_terminator_of_lt {b : UInt8} (h : b < 16) : b ≠ terminator := fun hb => by
  simp [hb, terminator] at h

/-- A well-formed short node's key cut at one of its nibbles: nibbles before
it, and the nibble is the terminator exactly at the end of a key that leads to
a value. -/
theorem Wf.key_split {p k' : Bytes} {b : UInt8} {c : Tree} (hw : Wf (short (p ++ b :: k') c)) :
    Nibbles p ∧ (b = terminator ↔ k' = [] ∧ c.isValue = true) ∧
      (if c.isValue then KeyTail k' else Nibbles k') := by
  have hkey := hw.2.1
  cases hc : c.isValue
  · simp only [hc, Bool.false_eq_true, if_false, nibbles_append, nibbles_cons, and_false, iff_false] at hkey ⊢
    exact ⟨hkey.1, ne_terminator_of_lt hkey.2.1, hkey.2.2⟩
  · simp only [hc, if_true, and_true] at hkey ⊢
    rcases keyTail_append.mp hkey with ⟨h, -⟩ | ⟨-, hn, hbk⟩
    · cases h
    · rcases keyTail_cons.mp hbk with ⟨hb, rfl⟩ | ⟨hb, hne, hk'⟩
      · exact ⟨hn, by simp [hb], KeyTail.nil⟩
      · exact ⟨hn, by simp [ne_terminator_of_lt hb, hne], hk'⟩

theorem keyTail_split {p r' : Bytes} {a : UInt8} (hr : KeyTail (p ++ a :: r')) :
    Nibbles p ∧ KeyTail r' ∧ (a = terminator ↔ r' = []) := by
  rcases keyTail_append.mp hr with ⟨h, -⟩ | ⟨-, hn, ha⟩
  · cases h
  · rcases keyTail_cons.mp ha with ⟨hat, rfl⟩ | ⟨hlt, hne, hr'⟩
    · exact ⟨hn, KeyTail.nil, by simp [hat]⟩
    · exact ⟨hn, hr', by simp [ne_terminator_of_lt hlt, hne]⟩

/-- Where a key tail leaves the key of a well-formed short node: a common
prefix, then two different nibbles, both indices of a full node. -/
theorem Wf.exists_split {k r : Bytes} {c : Tree} (hw : Wf (short k c)) (hr : KeyTail r) (hne : r ≠ [])
    (hl : prefixLen r k ≠ k.length) :
    ∃ p a r' b k' i ki, r = p ++ a :: r' ∧ k = p ++ b :: k' ∧ a ≠ b ∧
      childIndex a = some i ∧ childIndex b = some ki ∧ ki ≠ i := by
  have hlk : prefixLen r k < k.length := lt_of_le_of_ne (prefixLen_le_right _ _) hl
  have hlr : prefixLen r k < r.length := by
    refine lt_of_le_of_ne (prefixLen_le_left _ _) fun h => hl ?_
    have hpre : r <+: k := prefixLen_eq_length_iff.mp (by rw [prefixLen_comm]; exact h)
    rw [h, hw.eq_of_prefix_key hr hne hpre]
  obtain ⟨p, a, r', b, k', hr', hk', hab, -⟩ := exists_split_prefixLen hlr hlk
  obtain ⟨i, hi⟩ := Option.isSome_iff_exists.mp
    (childIndex_isSome (hr.le_of_mem (x := a) (by rw [hr']; simp)))
  obtain ⟨ki, hki⟩ := Option.isSome_iff_exists.mp
    (childIndex_isSome (hw.le_of_mem_key (x := b) (by rw [hk']; simp)))
  have hne : ki ≠ i := fun h => hab (by rw [childIndex_eq_some.mp hi, childIndex_eq_some.mp hki, h])
  exact ⟨p, a, r', b, k', i, ki, hr', hk', hab, hi, hki, hne⟩

theorem castSucc_ne_sixteen (i : Fin 16) : i.castSucc ≠ 16 := fun h => by
  have := congrArg Fin.val h
  simp at this
  omega

/-- A full node with two children, each a value exactly in the value slot. -/
theorem wf_full_of_two {cs : Fin 17 → Tree} {i j : Fin 17} (hij : i ≠ j)
    (hothers : ∀ l, l ≠ i → l ≠ j → cs l = nil) (hi : (cs i).isNil = false) (hj : (cs j).isNil = false)
    (hvi : (cs i).isValue = true ↔ i = 16) (hvj : (cs j).isValue = true ↔ j = 16)
    (hwi : Wf (cs i)) (hwj : Wf (cs j)) : Wf (full cs) := by
  -- every slot is one of the two children or absent
  have hslot : ∀ l, (l = i ∧ ((cs l).isValue = true ↔ l = 16)) ∨ (l = j ∧ ((cs l).isValue = true ↔ l = 16)) ∨
      cs l = nil := by
    intro l
    by_cases hli : l = i
    · exact Or.inl ⟨hli, hli ▸ hvi⟩
    · by_cases hlj : l = j
      · exact Or.inr (Or.inl ⟨hlj, hlj ▸ hvj⟩)
      · exact Or.inr (Or.inr (hothers l hli hlj))
  refine ⟨two_le_occupied hij hi hj, fun l => ?_, ?_, fun l => ?_⟩
  · rcases hslot l.castSucc with ⟨-, hv⟩ | ⟨-, hv⟩ | hn
    · exact Bool.eq_false_iff.mpr fun h => castSucc_ne_sixteen l (hv.mp h)
    · exact Bool.eq_false_iff.mpr fun h => castSucc_ne_sixteen l (hv.mp h)
    · rw [hn]; rfl
  · rcases hslot 16 with ⟨-, hv⟩ | ⟨-, hv⟩ | hn
    · exact Or.inr (hv.mpr rfl)
    · exact Or.inr (hv.mpr rfl)
    · rw [hn]; exact Or.inl rfl
  · rcases hslot l with ⟨rfl, -⟩ | ⟨rfl, -⟩ | hn
    · exact hwi
    · exact hwj
    · rw [hn]; trivial

section Insert

variable (v m : Bytes)

theorem insert_nil_key (t : Tree) : insert v m t [] = value v m := by
  cases t <;> rfl

/-- Insertion below a short node whose key the new key extends. -/
theorem insert_short_through (k s : Bytes) (c : Tree) (hne : k ++ s ≠ []) :
    insert v m (short k c) (k ++ s) = short k (insert v m c s) := by
  obtain ⟨y, r0, hr⟩ := List.exists_cons_of_ne_nil hne
  have hl : prefixLen (y :: r0) k = k.length := prefixLen_eq_length_iff.mpr (hr ▸ List.prefix_append k s)
  rw [hr]
  simp only [insert, hl, if_true]
  rw [← hr, List.drop_left]

/-- Insertion where the new key leaves a short node's key. -/
theorem insert_short_split {p k' r' : Bytes} {a b : UInt8} {ki i : Fin 17} (c : Tree) (hab : a ≠ b)
    (hb : childIndex b = some ki) (ha : childIndex a = some i) :
    insert v m (short (p ++ b :: k') c) (p ++ a :: r') =
      prepend p (full (Function.update (Function.update (fun _ => nil) ki (prepend k' c)) i
        (prepend r' (value v m)))) := by
  have hl : prefixLen (p ++ a :: r') (p ++ b :: k') = p.length := by
    rw [prefixLen_append_left, prefixLen_cons_cons, if_neg hab]; rfl
  obtain ⟨y, r0, hr⟩ := List.exists_cons_of_ne_nil (show p ++ a :: r' ≠ [] by simp)
  rw [hr]
  rw [hr] at hl
  have hne : ¬ p.length = (p ++ b :: k').length := by simp
  simp only [insert, hl, hne, if_false]
  rw [← hr]
  simp [hb, ha, List.take_left']

theorem lookup_short_value (r q : Bytes) :
    lookup (short r (value v m)) q = if q = r then some (v, m) else none := by
  rw [lookup_short]
  by_cases hp : r <+: q
  · obtain ⟨s, rfl⟩ := hp
    cases s <;> simp [lookup_value]
  · have hq : q ≠ r := fun h => hp (h ▸ List.prefix_refl r)
    simp [hp, hq]

/-- On a well-formed tree, at a key tail where the tree is positioned, insertion
sets the entry of that key and keeps every other. -/
theorem lookup_insert : ∀ {t : Tree} {r : Bytes}, Wf t → Pos t r → KeyTail r → ∀ q,
    lookup (insert v m t r) q = if q = r then some (v, m) else lookup t q
  | t, [], _, hp, _, q => by
    rw [insert_nil_key]
    rcases hp.2 rfl with h | h
    · cases t <;> simp_all [isNil, lookup_value]
    · cases t <;> simp_all [isValue, lookup_value]
  | nil, _ :: _, _, _, _, q => by
    simp only [insert]
    rw [lookup_short_value]
    rfl
  | value _ _, _ :: _, _, hp, _, _ => absurd (hp.1 rfl) (List.cons_ne_nil _ _)
  | full cs, y :: r0, hw, _, hr, q => by
    obtain ⟨j, hj⟩ := Option.isSome_iff_exists.mp (childIndex_isSome (hr.le_of_mem List.mem_cons_self))
    have ih := lookup_insert (hw.2.2.2 j) (hw.pos_full_child hj hr) (by simpa using hr.drop 1)
    have hy := childIndex_eq_some.mp hj
    simp only [insert, hj]
    rw [lookup_full_update]
    cases q with
    | nil => simp
    | cons z q =>
      by_cases hz : z = j.val.toUInt8
      · subst hz hy
        simp [ih]
      · have hq : ¬ z :: q = y :: r0 := by rw [hy]; simp [hz]
        simp [hz, hq]
  | short k c, y :: r0, hw, _, hr, q => by
    by_cases hl : prefixLen (y :: r0) k = k.length
    · -- the new key runs through the node's key: insert below it
      obtain ⟨s, hs⟩ := prefixLen_eq_length_iff.mp hl
      rw [← hs] at hr ⊢
      have ih := lookup_insert hw.2.2.2.2 (hw.pos_short_child hr) (by simpa using hr.drop k.length)
      rw [insert_short_through v m k s c (by rw [hs]; simp), lookup_short, lookup_short]
      by_cases hq : k <+: q
      · obtain ⟨q', rfl⟩ := hq
        simp [ih]
      · have hne : q ≠ k ++ s := fun h => hq (h ▸ List.prefix_append k s)
        simp [hq, hne]
    · -- the new key leaves the node's key: split it there
      obtain ⟨p, a, r', b, k', i, ki, hr', hk', hab, hi, hki, hne⟩ :=
        hw.exists_split hr (List.cons_ne_nil _ _) hl
      rw [hr', hk', insert_short_split v m c hab hki hi, lookup_split hne,
        ← childIndex_eq_some.mp hi, ← childIndex_eq_some.mp hki]

theorem insert_isNil (t : Tree) (r : Bytes) : (insert v m t r).isNil = false := by
  cases r with
  | nil => rw [insert_nil_key]; rfl
  | cons y r0 =>
    cases t with
    | nil => rfl
    | value _ _ => rfl
    | full cs => simp only [insert]; split <;> rfl
    | short k c =>
      simp only [insert]
      split
      · rfl
      · split
        · exact isNil_prepend rfl
        · rfl

theorem insert_isShort {t : Tree} (hn : t.isNil = false) (hs : t.isShort = false) (r : Bytes) :
    (insert v m t r).isShort = false := by
  cases r with
  | nil => rw [insert_nil_key]; rfl
  | cons y r0 =>
    cases t with
    | nil => cases hn
    | short _ _ => cases hs
    | value _ _ => rfl
    | full cs => simp only [insert]; split <;> rfl

theorem insert_isValue {t : Tree} {r : Bytes} (hp : Pos t r) : (insert v m t r).isValue = true ↔ r = [] := by
  cases r with
  | nil => rw [insert_nil_key]; simp [isValue]
  | cons y r0 =>
    simp only [reduceCtorEq, iff_false, Bool.not_eq_true]
    cases t with
    | nil => rfl
    | value _ _ => exact absurd (hp.1 rfl) (List.cons_ne_nil _ _)
    | full cs => simp only [insert]; split <;> rfl
    | short k c =>
      simp only [insert]
      split
      · rfl
      · split
        · rw [isValue_prepend, Bool.and_eq_false_iff]; exact Or.inr rfl
        · rfl

/-- Insertion of a non-empty value keeps a tree well formed. -/
theorem wf_insert (hv : v ≠ []) : ∀ {t : Tree} {r : Bytes}, Wf t → Pos t r → KeyTail r → Wf (insert v m t r)
  | _, [], _, _, _ => by rw [insert_nil_key]; exact hv
  | nil, _ :: _, _, _, hr => ⟨List.cons_ne_nil _ _, hr, rfl, rfl, hv⟩
  | value _ _, _ :: _, _, hp, _ => absurd (hp.1 rfl) (List.cons_ne_nil _ _)
  | full cs, y :: r0, hw, _, hr => by
    obtain ⟨j, hj⟩ := Option.isSome_iff_exists.mp (childIndex_isSome (hr.le_of_mem List.mem_cons_self))
    have hpj := hw.pos_full_child hj hr
    have ih := wf_insert hv (hw.2.2.2 j) hpj (by simpa using hr.drop 1)
    -- the new key ends in the value slot exactly at the terminator
    have hterm : (insert v m (cs j) r0).isValue = true ↔ j = 16 := by
      rw [insert_isValue v m hpj, ← eq_terminator_iff hj]
      rcases keyTail_cons.mp hr with ⟨h, rfl⟩ | ⟨h, hne, -⟩
      · simp [h]
      · simp [ne_terminator_of_lt h, hne]
    simp only [insert, hj]
    obtain ⟨hocc, hnib, hval, hall⟩ := hw
    refine ⟨hocc.trans (occupied_length_update_le cs j (insert_isNil v m _ _)), fun l => ?_, ?_, fun l => ?_⟩
    · by_cases hl : l.castSucc = j
      · subst hl
        rw [Function.update_self]
        exact Bool.eq_false_iff.mpr fun h => castSucc_ne_sixteen l (hterm.mp h)
      · rw [Function.update_of_ne hl]
        exact hnib l
    · by_cases h16 : (16 : Fin 17) = j
      · subst h16
        rw [Function.update_self]
        exact Or.inr (hterm.mpr rfl)
      · rw [Function.update_of_ne h16]
        exact hval
    · by_cases hl : l = j
      · subst hl
        rw [Function.update_self]
        exact ih
      · rw [Function.update_of_ne hl]
        exact hall l
  | short k c, y :: r0, hw, _, hr => by
    by_cases hl : prefixLen (y :: r0) k = k.length
    · obtain ⟨s, hs⟩ := prefixLen_eq_length_iff.mp hl
      rw [← hs] at hr ⊢
      have hpc := hw.pos_short_child hr
      have ih := wf_insert hv hw.2.2.2.2 hpc (by simpa using hr.drop k.length)
      have hvc : (insert v m c s).isValue = c.isValue :=
        Bool.eq_iff_iff.mpr ((insert_isValue v m hpc).trans (hw.short_child_isValue hr).symm)
      rw [insert_short_through v m k s c (by rw [hs]; simp)]
      obtain ⟨hk, hkey, hn, hsh, -⟩ := hw
      exact ⟨hk, hvc ▸ hkey, insert_isNil v m c s, insert_isShort v m hn hsh s, ih⟩
    · obtain ⟨p, a, r', b, k', i, ki, hr', hk', hab, hi, hki, hne⟩ :=
        hw.exists_split hr (List.cons_ne_nil _ _) hl
      rw [hr', hk', insert_short_split v m c hab hki hi]
      rw [hk'] at hw
      rw [hr'] at hr
      obtain ⟨hnp, hbt, hkey'⟩ := hw.key_split
      obtain ⟨-, hkr', hat⟩ := keyTail_split hr
      obtain ⟨-, -, hn, hsh, hc⟩ := hw
      -- the old key's rest on one side, the new key's rest on the other
      refine wf_prepend (wf_full_of_two hne (fun l hl1 hl2 => ?_) ?_ ?_ ?_ ?_ ?_ ?_) rfl rfl hnp
      · rw [Function.update_of_ne hl2, Function.update_of_ne hl1]
      · rw [Function.update_of_ne hne, Function.update_self]
        exact isNil_prepend hn
      · rw [Function.update_self]
        exact isNil_prepend rfl
      · rw [Function.update_of_ne hne, Function.update_self, isValue_prepend, ← eq_terminator_iff hki, hbt]
        simp
      · rw [Function.update_self, isValue_prepend, ← eq_terminator_iff hi, hat]
        simp [isValue]
      · rw [Function.update_of_ne hne, Function.update_self]
        exact wf_prepend hc hn hsh hkey'
      · rw [Function.update_self]
        exact wf_prepend hv rfl rfl hkr'

/-- Setting an entry to what it already is leaves the tree as it is. -/
theorem insert_eq_self (hv : v ≠ []) {t : Tree} {r : Bytes} (hw : Wf t) (hp : Pos t r) (hr : KeyTail r)
    (hl : lookup t r = some (v, m)) : insert v m t r = t := by
  refine eq_of_lookup_eq (wf_insert v m hv hw hp hr) hw fun q => ?_
  rw [lookup_insert v m hw hp hr]
  split
  · subst q
    exact hl.symm
  · rfl

end Insert

/-- A short node over what a deletion left below it; two short nodes in a row merge. -/
def merge (k : Bytes) : Tree → Tree
  | short ck cv => short (k ++ ck) cv
  | c => short k c

/-- The child of a full node, when it has exactly one. -/
def single (cs : Fin 17 → Tree) : Option (Fin 17) :=
  match occupied cs with
  | [p] => some p
  | _ => none

/-- A full node after a deletion below it: with one child left, a short node over that child. -/
def collapse (cs : Fin 17 → Tree) : Tree :=
  match single cs with
  | some p => merge [p.val.toUInt8] (cs p)
  | none => full cs

/-- Deletion of a key tail, as `Trie.delete` restructures the nodes. -/
def delete : Tree → Bytes → Tree
  | nil, _ => nil
  | value _ _, _ => nil
  | short k c, r =>
    if prefixLen r k < k.length then short k c
    else if prefixLen r k = r.length then nil
    else merge k (delete c (r.drop k.length))
  | full cs, r =>
    match r.head?.bind childIndex with
    | none => full cs
    | some i => collapse (Function.update cs i (delete (cs i) (r.drop 1)))

theorem lookup_merge (k : Bytes) (c : Tree) (q : Bytes) : lookup (merge k c) q = lookup (short k c) q := by
  cases c with
  | short ck cv =>
    simp only [merge, lookup_short]
    by_cases hk : k <+: q
    · obtain ⟨s, rfl⟩ := hk
      simp [List.prefix_append_right_inj]
    · have hkc : ¬ (k ++ ck) <+: q := fun h => hk ((List.prefix_append k ck).trans h)
      simp [hk, hkc]
  | _ => rfl

theorem mem_occupied {cs : Fin 17 → Tree} {i : Fin 17} : i ∈ occupied cs ↔ (cs i).isNil = false := by
  simp [occupied]

theorem single_eq_some {cs : Fin 17 → Tree} {p : Fin 17} : single cs = some p ↔ occupied cs = [p] := by
  unfold single
  split <;> simp_all

/-- The children other than the only one are absent. -/
theorem eq_nil_of_single {cs : Fin 17 → Tree} {p : Fin 17} (h : single cs = some p) {i : Fin 17} (hi : i ≠ p) :
    cs i = nil := by
  have hmem : i ∉ occupied cs := by rw [single_eq_some.mp h]; simpa using hi
  rw [mem_occupied] at hmem
  cases hci : cs i <;> simp_all [isNil]

theorem lookup_collapse (cs : Fin 17 → Tree) (q : Bytes) : lookup (collapse cs) q = lookup (full cs) q := by
  unfold collapse
  split
  · rename_i p hp
    rw [lookup_merge]
    cases q with
    | nil => simp [lookup_short]
    | cons z q =>
      rw [lookup_short, lookup_full_cons]
      by_cases hz : z = p.val.toUInt8
      · subst hz
        simp
      · have hpre : ¬ [p.val.toUInt8] <+: z :: q := by simpa using fun h => hz h.symm
        rw [if_neg hpre]
        cases hi : childIndex z with
        | none => rfl
        | some i =>
          have hip : i ≠ p := fun h => hz (by rw [childIndex_eq_some.mp hi, h])
          simp [eq_nil_of_single hp hip]
  · rfl

theorem delete_short_append (k s : Bytes) (c : Tree) (hs : s ≠ []) :
    delete (short k c) (k ++ s) = merge k (delete c s) := by
  have hl : prefixLen (k ++ s) k = k.length := prefixLen_eq_length_iff.mpr (List.prefix_append k s)
  have hne : k.length ≠ (k ++ s).length := by simpa using hs
  simp only [delete, hl, Nat.lt_irrefl, hne, if_false, List.drop_left]

theorem delete_short_self (k : Bytes) (c : Tree) : delete (short k c) k = nil := by
  have hl : prefixLen k k = k.length := prefixLen_eq_length_iff.mpr (List.prefix_refl k)
  simp [delete, hl]

theorem not_prefix_of_prefixLen_lt {r k : Bytes} (h : prefixLen r k < k.length) : ¬ k <+: r :=
  fun hk => absurd (prefixLen_eq_length_iff.mpr hk) (Nat.ne_of_lt h)

/-- On a well-formed tree, at a key tail where the tree is positioned, deletion
removes the entry of that key and keeps every other. -/
theorem lookup_delete : ∀ {t : Tree} {r : Bytes}, Wf t → Pos t r → KeyTail r → ∀ q,
    lookup (delete t r) q = if q = r then none else lookup t q
  | nil, r, _, _, _, q => by simp [delete]
  | value v m, r, _, hp, _, q => by
    obtain rfl := hp.1 rfl
    by_cases hq : q = [] <;> simp [delete, hq, lookup_value]
  | short k c, r, hw, _, hr, q => by
    by_cases hlk : prefixLen r k < k.length
    · -- the key is not below this node
      have hq : q = r → lookup (short k c) q = none := by
        rintro rfl
        rw [lookup_short, if_neg (not_prefix_of_prefixLen_lt hlk)]
      simp only [delete, hlk, if_true]
      split
      · rw [hq ‹_›]
      · rfl
    · have hl : prefixLen r k = k.length := le_antisymm (prefixLen_le_right _ _) (Nat.le_of_not_lt hlk)
      obtain ⟨s, rfl⟩ := prefixLen_eq_length_iff.mp hl
      by_cases hs : s = []
      · -- the key ends at this node's key: the child is its value
        subst hs
        have hv := (hw.short_child_isValue hr).mpr rfl
        rw [List.append_nil, delete_short_self, lookup_nil]
        cases c with
        | value v m =>
          rw [lookup_short]
          by_cases hk : k <+: q
          · obtain ⟨u, rfl⟩ := hk
            cases u <;> simp [lookup_value]
          · simp [hk]
        | _ => cases hv
      · have hpc := hw.pos_short_child hr
        have ih := lookup_delete hw.2.2.2.2 hpc (by simpa using hr.drop k.length)
        rw [delete_short_append k s c hs, lookup_merge, lookup_short, lookup_short]
        by_cases hq : k <+: q
        · obtain ⟨q', rfl⟩ := hq
          simp [ih]
        · have hne : q ≠ k ++ s := fun h => hq (h ▸ List.prefix_append k s)
          simp [hq, hne]
  | full cs, [], _, hp, _, _ => by
    rcases hp.2 rfl with h | h <;> cases h
  | full cs, y :: r0, hw, _, hr, q => by
    obtain ⟨j, hj⟩ := Option.isSome_iff_exists.mp (childIndex_isSome (hr.le_of_mem List.mem_cons_self))
    have ih := lookup_delete (hw.2.2.2 j) (hw.pos_full_child hj hr) (by simpa using hr.drop 1)
    have hy := childIndex_eq_some.mp hj
    simp only [delete, List.head?_cons, Option.bind_some, hj, List.drop_succ_cons, List.drop_zero]
    rw [lookup_collapse, lookup_full_update]
    cases q with
    | nil => simp
    | cons z q =>
      by_cases hz : z = j.val.toUInt8
      · subst hz hy
        simp [ih]
      · have hq : ¬ z :: q = y :: r0 := by rw [hy]; simp [hz]
        simp [hz, hq]

theorem merge_isShort (k : Bytes) (c : Tree) : (merge k c).isShort = true := by
  cases c <;> rfl

theorem merge_isNil (k : Bytes) (c : Tree) : (merge k c).isNil = false := by
  cases c <;> rfl

theorem collapse_isNil (cs : Fin 17 → Tree) : (collapse cs).isNil = false := by
  unfold collapse
  split
  · exact merge_isNil _ _
  · rfl

theorem collapse_isValue (cs : Fin 17 → Tree) : (collapse cs).isValue = false := by
  unfold collapse
  split
  · cases h : cs _ <;> rfl
  · rfl

theorem delete_isValue (t : Tree) (r : Bytes) : (delete t r).isValue = false := by
  cases t with
  | nil => rfl
  | value _ _ => rfl
  | short k c =>
    simp only [delete]
    split
    · rfl
    · split
      · rfl
      · cases delete c _ <;> rfl
  | full cs =>
    simp only [delete]
    split
    · rfl
    · exact collapse_isValue _

/-- A short node over a full node, or over the short node it merges with. -/
theorem wf_merge {k : Bytes} {c : Tree} (hk : k ≠ []) (hn : Nibbles k) (hc : Wf c) (hcn : c.isNil = false)
    (hcv : c.isValue = false) : Wf (merge k c) := by
  cases c with
  | nil => cases hcn
  | value _ _ => cases hcv
  | full cs => exact ⟨hk, hn, rfl, rfl, hc⟩
  | short ck cv =>
    obtain ⟨hck, hkey, hvn, hvs, hcv'⟩ := hc
    refine ⟨by simp [hk], ?_, hvn, hvs, hcv'⟩
    split
    · rw [if_pos ‹_›] at hkey
      exact keyTail_append.mpr (Or.inr ⟨hck, hn, hkey⟩)
    · rw [if_neg ‹_›] at hkey
      exact nibbles_append.mpr ⟨hn, hkey⟩

/-- A full node left with at least one child, values only in the value slot,
collapses to a well-formed tree. -/
theorem wf_collapse {cs : Fin 17 → Tree} (hocc : occupied cs ≠ [])
    (hslots : ∀ i : Fin 16, (cs i.castSucc).isValue = false) (h16 : (cs 16).isNil = true ∨ (cs 16).isValue = true)
    (hall : ∀ i, Wf (cs i)) : Wf (collapse cs) := by
  unfold collapse
  split
  · rename_i p hp
    have hpn : (cs p).isNil = false := mem_occupied.mp (by rw [single_eq_some.mp hp]; simp)
    by_cases h16p : p = 16
    · -- the value slot: a short node with the terminator over the value
      subst h16p
      have hv : (cs 16).isValue = true := h16.resolve_left (by rw [hpn]; decide)
      cases hc : cs 16 with
      | value v m =>
        have hw16 := hall 16
        rw [hc] at hw16
        exact ⟨List.cons_ne_nil _ _, keyTail_cons.mpr (Or.inl ⟨rfl, rfl⟩), rfl, rfl, hw16⟩
      | _ => rw [hc] at hv; cases hv
    · have hlt : p.val < 16 := by
        have : p.val ≠ 16 := fun h => h16p (Fin.ext h)
        omega
      have hnib : Nibbles [p.val.toUInt8] := by
        simp only [nibbles_cons, nibbles_nil, and_true]
        exact UInt8.lt_iff_toNat_lt.mpr (by simp; omega)
      exact wf_merge (List.cons_ne_nil _ _) hnib (hall p) hpn (hslots ⟨p.val, hlt⟩)
  · rename_i hne
    refine ⟨?_, hslots, h16, hall⟩
    have hne' : ∀ p, occupied cs ≠ [p] := fun p h => by
      rw [single_eq_some.mpr h] at hne
      cases hne
    generalize occupied cs = l at hocc hne'
    rcases l with _ | ⟨p, _ | ⟨q, rest⟩⟩
    · exact absurd rfl hocc
    · exact absurd rfl (hne' p)
    · simp

/-- Deletion keeps a tree well formed. -/
theorem wf_delete : ∀ {t : Tree} {r : Bytes}, Wf t → Pos t r → KeyTail r → Wf (delete t r)
  | nil, _, _, _, _ => trivial
  | value _ _, _, _, _, _ => trivial
  | short k c, r, hw, _, hr => by
    by_cases hlk : prefixLen r k < k.length
    · simp only [delete, hlk, if_true]
      exact hw
    · have hl : prefixLen r k = k.length := le_antisymm (prefixLen_le_right _ _) (Nat.le_of_not_lt hlk)
      obtain ⟨s, rfl⟩ := prefixLen_eq_length_iff.mp hl
      by_cases hs : s = []
      · subst hs
        rw [List.append_nil, delete_short_self]
        trivial
      · have hcv : c.isValue = false := by
          rw [Bool.eq_false_iff, Ne, hw.short_child_isValue hr]
          exact hs
        have ih := wf_delete hw.2.2.2.2 (hw.pos_short_child hr) (by simpa using hr.drop k.length)
        rw [delete_short_append k s c hs]
        obtain ⟨hk, hkey, hn, hsh, -⟩ := hw
        rw [hcv] at hkey
        refine wf_merge hk hkey ih ?_ (delete_isValue c s)
        cases c with
        | full cs =>
          simp only [delete]
          split
          · rfl
          · exact collapse_isNil _
        | short _ _ => cases hsh
        | nil => cases hn
        | value _ _ => cases hcv
  | full cs, [], _, hp, _ => by
    rcases hp.2 rfl with h | h <;> cases h
  | full cs, y :: r0, hw, _, hr => by
    obtain ⟨j, hj⟩ := Option.isSome_iff_exists.mp (childIndex_isSome (hr.le_of_mem List.mem_cons_self))
    have ih := wf_delete (hw.2.2.2 j) (hw.pos_full_child hj hr) (by simpa using hr.drop 1)
    simp only [delete, List.head?_cons, Option.bind_some, hj, List.drop_succ_cons, List.drop_zero]
    obtain ⟨hocc, hslots, h16, hall⟩ := hw
    refine wf_collapse ?_ (fun i => ?_) ?_ (fun i => ?_)
    · -- of two children, one is not the one the key goes to
      obtain ⟨a, b, hab, ha, hb⟩ := exists_two_occupied hocc
      have hother : ∃ i, i ≠ j ∧ (cs i).isNil = false := by
        by_cases haj : a = j
        · exact ⟨b, fun h => hab (haj.trans h.symm), hb⟩
        · exact ⟨a, haj, ha⟩
      obtain ⟨i, hij, hi⟩ := hother
      exact List.ne_nil_of_mem (mem_occupied.mpr (by rw [Function.update_of_ne hij]; exact hi))
    · by_cases hi : i.castSucc = j
      · subst hi
        rw [Function.update_self]
        exact delete_isValue _ _
      · rw [Function.update_of_ne hi]
        exact hslots i
    · by_cases h16j : (16 : Fin 17) = j
      · subst h16j
        rw [Function.update_self]
        left
        cases hc : cs 16 <;> simp_all [isNil, isValue, delete]
      · rw [Function.update_of_ne h16j]
        exact h16
    · by_cases hi : i = j
      · subst hi
        rw [Function.update_self]
        exact ih
      · rw [Function.update_of_ne hi]
        exact hall i

/-- Deleting an absent entry leaves the tree as it is. -/
theorem delete_eq_self {t : Tree} {r : Bytes} (hw : Wf t) (hp : Pos t r) (hr : KeyTail r) (hl : lookup t r = none) :
    delete t r = t := by
  refine eq_of_lookup_eq (wf_delete hw hp hr) hw fun q => ?_
  rw [lookup_delete hw hp hr]
  split
  · subst q
    exact hl.symm
  · rfl

end Tree

end Workshare
