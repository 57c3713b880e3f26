import Workshare.Trie.Trie

/-!
# Tries as trees

What a trie in memory stands for once every hash node is replaced by the node
stored for it: a tree of full, short and value nodes. Keys are in nibbles, as
`keybytesToHex` makes them: nibbles below 16, closed by the terminator 16. A
tree is well formed when its shape is the one `insert` and `delete` keep:
short nodes with a non-empty key and a full or value child, full nodes with at
least two children, values exactly at the end of a key. Two well-formed trees
with the same entries are equal, so the tree, and its root hash, is a function
of the key-value map it holds.
-/
namespace Workshare

/-- Nibbles below 16: the key of a short node that leads on to a full node. -/
def Nibbles (k : Bytes) : Prop := ∀ x ∈ k, x < 16

/-- What is left of a key in nibbles after a walk: nothing, or nibbles below
16 closed by the terminator. -/
def KeyTail (r : Bytes) : Prop :=
  r = [] ∨ ∃ ns, Nibbles ns ∧ r = ns ++ [terminator]

theorem KeyTail.nil : KeyTail [] := Or.inl rfl

theorem keyTail_cons {i : UInt8} {rest : Bytes} :
    KeyTail (i :: rest) ↔ (i = terminator ∧ rest = []) ∨ (i < 16 ∧ rest ≠ [] ∧ KeyTail rest) := by
  constructor
  · rintro (h | ⟨ns, hns, h⟩)
    · cases h
    · cases ns with
      | nil =>
        simp only [List.nil_append, List.cons.injEq] at h
        exact Or.inl h
      | cons n ns =>
        simp only [List.cons_append, List.cons.injEq] at h
        obtain ⟨rfl, rfl⟩ := h
        exact Or.inr ⟨hns _ List.mem_cons_self, by simp,
          Or.inr ⟨ns, fun x hx => hns x (List.mem_cons_of_mem _ hx), rfl⟩⟩
  · rintro (⟨rfl, rfl⟩ | ⟨hi, hne, hns | ⟨ns, hns, rfl⟩⟩)
    · exact Or.inr ⟨[], (fun _ h => by cases h), rfl⟩
    · exact absurd hns hne
    · refine Or.inr ⟨i :: ns, ?_, rfl⟩
      intro x hx
      rcases List.mem_cons.mp hx with rfl | hx
      · exact hi
      · exact hns x hx

theorem KeyTail.drop {r : Bytes} (h : KeyTail r) (n : ℕ) : KeyTail (r.drop n) := by
  induction n generalizing r with
  | zero => simpa using h
  | succ n ih =>
    cases r with
    | nil => exact KeyTail.nil
    | cons i rest =>
      rw [List.drop_succ_cons]
      rcases keyTail_cons.mp h with ⟨-, rfl⟩ | ⟨-, -, hrest⟩
      · simpa using KeyTail.nil
      · exact ih hrest

@[simp] theorem nibbles_nil : Nibbles [] := by simp [Nibbles]

@[simp] theorem nibbles_cons {x : UInt8} {a : Bytes} : Nibbles (x :: a) ↔ x < 16 ∧ Nibbles a := by
  simp [Nibbles]

@[simp] theorem nibbles_append {a b : Bytes} : Nibbles (a ++ b) ↔ Nibbles a ∧ Nibbles b := by
  simp [Nibbles, or_imp, forall_and]

/-- A key tail split in two: the first part is all nibbles, unless the second is empty. -/
theorem keyTail_append {a b : Bytes} :
    KeyTail (a ++ b) ↔ (b = [] ∧ KeyTail a) ∨ (b ≠ [] ∧ Nibbles a ∧ KeyTail b) := by
  induction a with
  | nil =>
    by_cases hb : b = []
    · simp [hb]
    · simp [hb]
  | cons x a ih =>
    rw [List.cons_append, keyTail_cons, keyTail_cons, ih]
    by_cases hb : b = []
    · simp [hb]
    · simp [hb]
      tauto

theorem keyTail_keybytesToHex (key : Bytes) : KeyTail (keybytesToHex key) := by
  refine Or.inr ⟨key.flatMap fun b => [b / 16, b % 16], ?_, rfl⟩
  intro x hx
  obtain ⟨b, -, hb⟩ := List.mem_flatMap.mp hx
  have hlt := b.toNat_lt
  rcases List.mem_pair.mp hb with rfl | rfl
  · exact UInt8.lt_iff_toNat_lt.mpr (by simp [UInt8.toNat_div]; omega)
  · exact UInt8.lt_iff_toNat_lt.mpr (by simp [UInt8.toNat_mod]; omega)

/-- A trie node without hashes or cache flags. -/
inductive Tree
  | nil
  | full (children : Fin 17 → Tree)
  | short (key : Bytes) (child : Tree)
  | value (value metadata : Bytes)

namespace Tree

/-- Whether the tree is absent. -/
def isNil : Tree → Bool
  | nil => true
  | _ => false

/-- Whether the tree is a value. -/
def isValue : Tree → Bool
  | value _ _ => true
  | _ => false

/-- Whether the tree is a short node. -/
def isShort : Tree → Bool
  | short _ _ => true
  | _ => false

/-- The value and metadata stored at a key, read from this node on. -/
def lookup : Tree → Bytes → Option (Bytes × Bytes)
  | nil, _ => none
  | value v m, key => if key = [] then some (v, m) else none
  | short k c, key => if k <+: key then lookup c (key.drop k.length) else none
  | full _, [] => none
  | full cs, i :: rest =>
    match childIndex i with
    | some j => lookup (cs j) rest
    | none => none

/-- The children of a full node that are present, in order. -/
def occupied (cs : Fin 17 → Tree) : List (Fin 17) :=
  (List.finRange 17).filter fun i => !(cs i).isNil

/-- Well formed: the shape every trie built by `insert` and `delete` has. -/
def Wf : Tree → Prop
  | nil => True
  | value v _ => v ≠ []
  | short k c =>
    k ≠ [] ∧ (if c.isValue then KeyTail k else Nibbles k) ∧ c.isNil = false ∧ c.isShort = false ∧ Wf c
  | full cs =>
    2 ≤ (occupied cs).length ∧ (∀ i : Fin 16, (cs i.castSucc).isValue = false) ∧
      ((cs 16).isNil = true ∨ (cs 16).isValue = true) ∧ ∀ i, Wf (cs i)

/-- A tree at a remaining key: a value exactly where the key ends, and at the
end of a key nothing but a value or an absent node. -/
def Pos (t : Tree) (r : Bytes) : Prop :=
  (t.isValue = true → r = []) ∧ (r = [] → t.isNil = true ∨ t.isValue = true)

end Tree

namespace Tree

@[simp] theorem lookup_nil (r : Bytes) : lookup nil r = none := rfl

theorem lookup_value (v m r : Bytes) : lookup (value v m) r = if r = [] then some (v, m) else none := rfl

theorem lookup_short (k : Bytes) (c : Tree) (r : Bytes) :
    lookup (short k c) r = if k <+: r then lookup c (r.drop k.length) else none := rfl

@[simp] theorem lookup_short_append (k : Bytes) (c : Tree) (r : Bytes) :
    lookup (short k c) (k ++ r) = lookup c r := by
  simp [lookup_short]

@[simp] theorem lookup_full_nil (cs : Fin 17 → Tree) : lookup (full cs) [] = none := rfl

theorem lookup_full_cons (cs : Fin 17 → Tree) (i : UInt8) (rest : Bytes) :
    lookup (full cs) (i :: rest) = (childIndex i).elim none fun j => lookup (cs j) rest := by
  simp only [lookup]
  cases childIndex i <;> rfl

@[simp] theorem lookup_full_index (cs : Fin 17 → Tree) (j : Fin 17) (rest : Bytes) :
    lookup (full cs) (j.val.toUInt8 :: rest) = lookup (cs j) rest := by
  simp [lookup_full_cons]

theorem prefix_of_lookup_short {k r : Bytes} {c : Tree} {x : Bytes × Bytes}
    (h : lookup (short k c) r = some x) : k <+: r := by
  rw [lookup_short] at h
  split at h
  · assumption
  · cases h

theorem exists_of_lookup_full {cs : Fin 17 → Tree} {r : Bytes} {x : Bytes × Bytes}
    (h : lookup (full cs) r = some x) : ∃ j rest, r = j.val.toUInt8 :: rest ∧ lookup (cs j) rest = some x := by
  cases r with
  | nil => cases h
  | cons i rest =>
    rw [lookup_full_cons] at h
    cases hi : childIndex i with
    | none => simp [hi] at h
    | some j =>
      simp only [hi, Option.elim_some] at h
      exact ⟨j, rest, by rw [childIndex_eq_some.mp hi], h⟩

/-- Two different children of a full node with at least two. -/
theorem exists_two_occupied {cs : Fin 17 → Tree} (h : 2 ≤ (occupied cs).length) :
    ∃ i j, i ≠ j ∧ (cs i).isNil = false ∧ (cs j).isNil = false := by
  obtain ⟨i, j, rest, hl⟩ : ∃ i j rest, occupied cs = i :: j :: rest := by
    match hl : occupied cs, h with
    | i :: j :: rest, _ => exact ⟨i, j, rest, rfl⟩
  have hnd : (occupied cs).Nodup := (List.nodup_finRange 17).filter _
  have hmem : ∀ x, x ∈ occupied cs → (cs x).isNil = false := by
    intro x hx
    simpa [occupied] using (List.mem_filter.mp hx).2
  rw [hl] at hnd hmem
  exact ⟨i, j, fun hij => (List.nodup_cons.mp hnd).1 (hij ▸ List.mem_cons_self),
    hmem i List.mem_cons_self, hmem j (List.mem_cons_of_mem _ List.mem_cons_self)⟩

/-- A well-formed tree other than `nil` holds an entry. -/
theorem exists_lookup : ∀ {t : Tree}, Wf t → t.isNil = false → ∃ r x, lookup t r = some x
  | nil, _, h => by cases h
  | value v m, _, _ => ⟨[], (v, m), rfl⟩
  | short k c, hw, _ => by
    obtain ⟨r, x, hx⟩ := exists_lookup hw.2.2.2.2 hw.2.2.1
    exact ⟨k ++ r, x, by simpa using hx⟩
  | full cs, hw, _ => by
    obtain ⟨i, -, -, hi, -⟩ := exists_two_occupied hw.1
    obtain ⟨r, x, hx⟩ := exists_lookup (hw.2.2.2 i) hi
    exact ⟨i.val.toUInt8 :: r, x, by simpa using hx⟩

/-- Of two well-formed short nodes with the same entries, neither key is a
proper prefix of the other: below the shorter key the tree branches, or ends
in a value. -/
theorem short_key_eq_of_prefix_key {k k' : Bytes} {c c' : Tree} (hw : Wf (short k c)) (hw' : Wf (short k' c'))
    (heq : ∀ r, lookup (short k c) r = lookup (short k' c') r) (hp : k <+: k') : k = k' := by
  obtain ⟨d, rfl⟩ := hp
  cases d with
  | nil => simp
  | cons x d =>
    exfalso
    obtain ⟨-, -, hnil, hshort, hc⟩ := hw
    -- every entry of the second node starts with the longer key
    have hpre : ∀ r y, lookup (short k c) r = some y → k ++ x :: d <+: r := fun r y h =>
      prefix_of_lookup_short ((heq r).symm.trans h)
    cases c with
    | nil => cases hnil
    | short _ _ => cases hshort
    | value v m =>
      obtain ⟨r, y, hr⟩ := exists_lookup hw'.2.2.2.2 hw'.2.2.1
      have hk : lookup (short k (value v m)) (k ++ x :: d ++ r) = some y := by
        rw [heq, lookup_short_append]
        exact hr
      simp only [List.append_assoc, List.cons_append, lookup_short_append, lookup_value] at hk
      split at hk <;> simp_all
    | full cs =>
      obtain ⟨i, j, hij, hi, hj⟩ := exists_two_occupied hc.1
      obtain ⟨ri, yi, hri⟩ := exists_lookup (hc.2.2.2 i) hi
      obtain ⟨rj, yj, hrj⟩ := exists_lookup (hc.2.2.2 j) hj
      have hxi := hpre (k ++ i.val.toUInt8 :: ri) yi (by simpa using hri)
      have hxj := hpre (k ++ j.val.toUInt8 :: rj) yj (by simpa using hrj)
      simp only [List.prefix_append_right_inj, List.cons_prefix_cons] at hxi hxj
      exact hij (toUInt8_inj (hxi.1.symm.trans hxj.1))

/-- A well-formed short node and a well-formed full node never hold the same entries. -/
theorem short_ne_full {k : Bytes} {c : Tree} {cs : Fin 17 → Tree} (hw : Wf (short k c)) (hw' : Wf (full cs)) :
    ∃ r, lookup (short k c) r ≠ lookup (full cs) r := by
  by_contra hall
  push Not at hall
  obtain ⟨i, j, hij, hi, hj⟩ := exists_two_occupied hw'.1
  obtain ⟨ri, yi, hri⟩ := exists_lookup (hw'.2.2.2 i) hi
  obtain ⟨rj, yj, hrj⟩ := exists_lookup (hw'.2.2.2 j) hj
  have hxi := prefix_of_lookup_short ((hall (i.val.toUInt8 :: ri)).trans (by simpa using hri))
  have hxj := prefix_of_lookup_short ((hall (j.val.toUInt8 :: rj)).trans (by simpa using hrj))
  obtain ⟨x, k', rfl⟩ := List.exists_cons_of_ne_nil hw.1
  simp only [List.cons_prefix_cons] at hxi hxj
  exact hij (toUInt8_inj (hxi.1.symm.trans hxj.1))

/-- Two well-formed trees with the same entries are the same tree. -/
theorem eq_of_lookup_eq : ∀ {t₁ t₂ : Tree}, Wf t₁ → Wf t₂ → (∀ r, lookup t₁ r = lookup t₂ r) → t₁ = t₂
  | nil, nil, _, _, _ => rfl
  | nil, t₂, _, hw₂, heq => by
    cases hn : t₂.isNil
    · obtain ⟨r, x, hx⟩ := exists_lookup hw₂ hn
      simp [← heq r] at hx
    · cases t₂ <;> simp_all [isNil]
  | t₁, nil, hw₁, _, heq => by
    cases hn : t₁.isNil
    · obtain ⟨r, x, hx⟩ := exists_lookup hw₁ hn
      simp [heq r] at hx
    · cases t₁ <;> simp_all [isNil]
  | value v m, value v' m', _, _, heq => by
    simpa [lookup_value] using heq []
  | value v m, short k c, _, hw₂, heq => by
    have := heq []
    simp [lookup_value, lookup_short, List.prefix_nil, hw₂.1] at this
  | value v m, full cs, _, _, heq => by
    simpa [lookup_value] using heq []
  | short k c, value v m, hw₁, _, heq => by
    have := heq []
    simp [lookup_value, lookup_short, List.prefix_nil, hw₁.1] at this
  | full cs, value v m, _, _, heq => by
    simpa [lookup_value] using heq []
  | short k c, full cs, hw₁, hw₂, heq => by
    obtain ⟨r, hr⟩ := short_ne_full hw₁ hw₂
    exact absurd (heq r) hr
  | full cs, short k c, hw₁, hw₂, heq => by
    obtain ⟨r, hr⟩ := short_ne_full hw₂ hw₁
    exact absurd (heq r).symm hr
  | short k c, short k' c', hw₁, hw₂, heq => by
    -- both keys prefix one entry of the first node, so one prefixes the other
    obtain ⟨r, x, hr⟩ := exists_lookup hw₁.2.2.2.2 hw₁.2.2.1
    have hk : k <+: k ++ r := List.prefix_append k r
    have hk' : k' <+: k ++ r := prefix_of_lookup_short ((heq (k ++ r)).symm.trans (by simpa using hr))
    have hkk : k = k' := by
      rcases le_total k.length k'.length with hle | hle
      · exact short_key_eq_of_prefix_key hw₁ hw₂ heq (List.prefix_of_prefix_length_le hk hk' hle)
      · exact (short_key_eq_of_prefix_key hw₂ hw₁ (fun r => (heq r).symm)
          (List.prefix_of_prefix_length_le hk' hk hle)).symm
    subst hkk
    have hc : c = c' := eq_of_lookup_eq hw₁.2.2.2.2 hw₂.2.2.2.2 fun r => by
      simpa using heq (k ++ r)
    rw [hc]
  | full cs, full cs', hw₁, hw₂, heq => by
    have hcs : cs = cs' := funext fun j => eq_of_lookup_eq (hw₁.2.2.2 j) (hw₂.2.2.2 j) fun r => by
      simpa using heq (j.val.toUInt8 :: r)
    rw [hcs]

end Tree

end Workshare
