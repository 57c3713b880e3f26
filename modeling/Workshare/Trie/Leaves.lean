import Workshare.Trie.Tree

/-!
# The entries of a trie in the order of their paths

What iterating a trie is for: its entries, each with the nibble path that
leads to it, in increasing order of the paths as `bytes.Compare` orders them.
A pre-order walk that takes the children of a full node in index order meets
the values in that order: a path sorts before every path it does not extend
and is less than, and the terminator, the last index, is greater than every
nibble. `leaves` lists the entries in that order, and an entry is in the list
exactly when `lookup` finds it.
-/
namespace Workshare

/-! ## Lexicographic order on paths -/

/-- A path less than `b` that `b` does not extend stays less than `b` whatever
follows it. -/
theorem append_lt_of_not_prefix : ∀ {a b : Bytes}, a < b → ¬ a <+: b → ∀ x : Bytes, a ++ x < b
  | [], _, _, hp, _ => absurd List.nil_prefix hp
  | _ :: _, [], h, _, _ => absurd h (List.not_lt_nil _)
  | c :: a, d :: b, h, hp, x => by
    rcases List.cons_lt_cons_iff.mp h with hcd | ⟨rfl, hab⟩
    · exact List.cons_lt_cons_iff.mpr (.inl hcd)
    · have hp' : ¬ a <+: b := fun hab' => hp (List.cons_prefix_cons.mpr ⟨rfl, hab'⟩)
      exact List.cons_lt_cons_iff.mpr (.inr ⟨rfl, append_lt_of_not_prefix hab hp' x⟩)

/-- A path at or after `b` has every extension at or after `b`. -/
theorem not_append_lt : ∀ {a b : Bytes}, ¬ a < b → ∀ x : Bytes, ¬ a ++ x < b
  | [], [], _, x => List.not_lt_nil x
  | [], _ :: _, h, _ => absurd (List.nil_lt_cons _ _) h
  | _ :: _, [], _, _ => List.not_lt_nil _
  | c :: a, d :: b, h, x => by
    rw [List.cons_append, List.cons_lt_cons_iff]
    rw [List.cons_lt_cons_iff, not_or] at h
    rintro (hcd | ⟨rfl, hab⟩)
    · exact h.1 hcd
    · exact not_append_lt (fun hab' => h.2 ⟨rfl, hab'⟩) x hab

/-- In a list sorted by path, split where every node before the split is
before the key and the first after it is not, the nodes at or after the key
are exactly those after the split. -/
theorem filter_not_lt_of_sorted {α : Type} {D R : List (Bytes × α)} {key : Bytes}
    (hs : (D ++ R).Pairwise fun a b => a.1 < b.1) (hD : ∀ e ∈ D, e.1 < key) (hR : ∀ e ∈ R.head?, ¬ e.1 < key) :
    (D ++ R).filter (fun e => ¬ e.1 < key) = R := by
  rw [List.filter_append, List.filter_eq_nil_iff.mpr (fun e he => by simpa using hD e he), List.nil_append]
  refine List.filter_eq_self.mpr ?_
  cases R with
  | nil => simp
  | cons r R =>
    have hr : ¬ r.1 < key := hR r rfl
    have hsR := (List.pairwise_append.mp hs).2.1
    intro e he
    rcases List.mem_cons.mp he with rfl | he
    · simpa using hr
    · -- a later node is after the first, so after the key too
      have hre : r.1 < e.1 := List.rel_of_pairwise_cons hsR he
      simpa using fun hek => hr (List.lt_trans hre hek)

namespace Tree

/-! ## Entries, children and nodes -/

/-- Entries with a path in front of theirs. -/
def pre (p : Bytes) (l : List (Bytes × Bytes × Bytes)) : List (Bytes × Bytes × Bytes) :=
  l.map fun e => (p ++ e.1, e.2)

/-- The children of a node, each with the key that leads to it, in the order
`nextChild` takes them. -/
def kids : Tree → List (Bytes × Tree)
  | full cs => (List.finRange 17).map fun i => ([i.val.toUInt8], cs i)
  | short k c => [(k, c)]
  | _ => []

/-- The entries below a node, with their paths from it, in the order a
pre-order walk meets them. -/
def leaves : Tree → List (Bytes × Bytes × Bytes)
  | nil => []
  | value v m => [([], v, m)]
  | short k c => pre k (leaves c)
  | full cs => (List.finRange 17).flatMap fun i => pre [i.val.toUInt8] (leaves (cs i))

/-- The nodes at and below a node; an absent node is none. -/
def nodes : Tree → ℕ
  | nil => 0
  | value _ _ => 1
  | short _ c => nodes c + 1
  | full cs => ((List.finRange 17).map fun i => nodes (cs i)).sum + 1

@[simp] theorem pre_nil (p : Bytes) : pre p [] = [] := rfl

@[simp] theorem pre_append (p : Bytes) (l l' : List (Bytes × Bytes × Bytes)) :
    pre p (l ++ l') = pre p l ++ pre p l' := List.map_append

@[simp] theorem pre_nil_path (l : List (Bytes × Bytes × Bytes)) : pre [] l = l := by
  simp [pre]

theorem pre_pre (p q : Bytes) (l : List (Bytes × Bytes × Bytes)) : pre p (pre q l) = pre (p ++ q) l := by
  simp [pre, Function.comp_def]

theorem pre_flatMap {α : Type} (p : Bytes) (l : List α) (f : α → List (Bytes × Bytes × Bytes)) :
    pre p (l.flatMap f) = l.flatMap fun a => pre p (f a) := List.map_flatMap

theorem mem_pre {p : Bytes} {l : List (Bytes × Bytes × Bytes)} {e : Bytes × Bytes × Bytes} :
    e ∈ pre p l ↔ ∃ e' ∈ l, e = (p ++ e'.1, e'.2) := by
  simp [pre, eq_comm]

/-- Below a node that is not a value, the entries are those of its children,
child after child. -/
theorem leaves_kids {t : Tree} (ht : t.isValue = false) :
    leaves t = t.kids.flatMap fun kc => pre kc.1 (leaves kc.2) := by
  cases t with
  | nil => rfl
  | value v m => cases ht
  | short k c => simp [leaves, kids]
  | full cs => simp [leaves, kids, List.flatMap_map]

theorem leaves_of_isNil {t : Tree} (h : t.isNil = true) : leaves t = [] := by
  cases t <;> first | rfl | cases h

theorem nodes_of_isNil {t : Tree} (h : t.isNil = true) : nodes t = 0 := by
  cases t <;> first | rfl | cases h

/-- A present node is one more than the nodes of its children. -/
theorem nodes_kids {t : Tree} (ht : t.isNil = false) : nodes t = (t.kids.map fun kc => nodes kc.2).sum + 1 := by
  cases t with
  | nil => cases ht
  | value v m => rfl
  | short k c => simp [nodes, kids]
  | full cs => simp [nodes, kids, Function.comp_def]

@[simp] theorem leaves_nil : leaves nil = [] := rfl

@[simp] theorem nodes_nil : nodes nil = 0 := rfl

/-! ## The entries are those `lookup` finds, in order -/

/-- An entry is below a node exactly when `lookup` finds it. -/
theorem mem_leaves : ∀ {t : Tree} {r : Bytes} {x : Bytes × Bytes}, (r, x) ∈ leaves t ↔ lookup t r = some x
  | nil, _, _ => by simp
  | value v m, r, x => by
    rw [lookup_value]
    by_cases hr : r = []
    · subst hr
      simp [leaves, eq_comm]
    · simp [leaves, hr]
  | short k c, r, x => by
    rw [leaves, mem_pre]
    constructor
    · rintro ⟨⟨r', x'⟩, hmem, heq⟩
      simp only [Prod.mk.injEq] at heq
      obtain ⟨rfl, rfl⟩ := heq
      rw [lookup_short_append]
      exact mem_leaves.mp hmem
    · intro h
      obtain ⟨r', rfl⟩ := prefix_of_lookup_short h
      rw [lookup_short_append] at h
      exact ⟨(r', x), mem_leaves.mpr h, rfl⟩
  | full cs, r, x => by
    simp only [leaves, List.mem_flatMap, List.mem_finRange, true_and, mem_pre]
    constructor
    · rintro ⟨j, ⟨r', x'⟩, hmem, heq⟩
      simp only [Prod.mk.injEq] at heq
      obtain ⟨rfl, rfl⟩ := heq
      rw [List.singleton_append, lookup_full_index]
      exact mem_leaves.mp hmem
    · intro h
      obtain ⟨j, rest, rfl, hj⟩ := exists_of_lookup_full h
      exact ⟨j, (rest, x), mem_leaves.mpr hj, rfl⟩

theorem pairwise_pre {p : Bytes} {l : List (Bytes × Bytes × Bytes)} (h : l.Pairwise fun a b => a.1 < b.1) :
    (pre p l).Pairwise fun a b => a.1 < b.1 := by
  rw [pre, List.pairwise_map]
  exact h.imp List.append_left_lt

theorem toUInt8_lt_toUInt8 {i j : Fin 17} (h : i < j) : i.val.toUInt8 < j.val.toUInt8 := by
  have hi := i.isLt
  have hj := j.isLt
  rw [UInt8.lt_iff_toNat_lt]
  simp
  omega

/-- The entries below a node come in strictly increasing order of their paths. -/
theorem leaves_sorted : ∀ t : Tree, (leaves t).Pairwise fun a b => a.1 < b.1
  | nil => List.Pairwise.nil
  | value v m => List.pairwise_singleton _ _
  | short k c => pairwise_pre (leaves_sorted c)
  | full cs => by
    rw [leaves, List.pairwise_flatMap]
    refine ⟨fun i _ => pairwise_pre (leaves_sorted (cs i)), ?_⟩
    -- the entries of an earlier child lead with a smaller index
    refine (List.pairwise_lt_finRange 17).imp fun {i j} hij a ha b hb => ?_
    obtain ⟨a', -, rfl⟩ := mem_pre.mp ha
    obtain ⟨b', -, rfl⟩ := mem_pre.mp hb
    exact List.cons_lt_cons_iff.mpr (.inl (toUInt8_lt_toUInt8 hij))

/-- A well-formed node that is present has an entry below it. -/
theorem leaves_ne_nil {t : Tree} (hw : Wf t) (hn : t.isNil = false) : leaves t ≠ [] := by
  obtain ⟨r, x, hx⟩ := exists_lookup hw hn
  exact List.ne_nil_of_mem (mem_leaves.mpr hx)

/-! ## The walk of a node iterator -/

/-- The nodes a pre-order walk from a node at path `p` meets, each with its
path: the node, then the walks below its children in index order. An absent
child of a full node is passed over, as `nextChild` passes it over. -/
def walk (p : Bytes) : Tree → List (Bytes × Tree)
  | nil => [(p, nil)]
  | value v m => [(p, value v m)]
  | short k c => (p, short k c) :: walk (p ++ k) c
  | full cs => (p, full cs) :: (List.finRange 17).flatMap fun i =>
      if (cs i).isNil then [] else walk (p ++ [i.val.toUInt8]) (cs i)

/-- The walks below the children of a node at path `p`, from the `j`-th child
on: what is left below a frame of the iterator whose next child is the `j`-th. -/
def walkKids (p : Bytes) (u : Tree) (j : ℕ) : List (Bytes × Tree) :=
  match u with
  | full cs => ((List.finRange 17).drop j).flatMap fun i =>
      if (cs i).isNil then [] else walk (p ++ [i.val.toUInt8]) (cs i)
  | short k c => if j = 0 then walk (p ++ k) c else []
  | _ => []

/-- The entry a node of a walk holds, when it is a value. -/
def entryOf (e : Bytes × Tree) : Option (Bytes × Bytes × Bytes) :=
  match e.2 with
  | value v m => some (e.1, v, m)
  | _ => none

theorem walk_eq_cons (p : Bytes) (u : Tree) : walk p u = (p, u) :: walkKids p u 0 := by
  cases u <;> simp [walk, walkKids]

theorem walkKids_full_of_lt (p : Bytes) (cs : Fin 17 → Tree) {j : ℕ} (hj : j < 17) :
    walkKids p (full cs) j =
      (if (cs ⟨j, hj⟩).isNil then [] else walk (p ++ [j.toUInt8]) (cs ⟨j, hj⟩)) ++ walkKids p (full cs) (j + 1) := by
  simp only [walkKids]
  rw [List.drop_eq_getElem_cons (by simpa using hj), List.flatMap_cons]
  simp

theorem walkKids_full_of_le (p : Bytes) (cs : Fin 17 → Tree) {j : ℕ} (hj : 17 ≤ j) : walkKids p (full cs) j = [] := by
  simp [walkKids, List.drop_eq_nil_of_le (show (List.finRange 17).length ≤ j by simpa using hj)]

@[simp] theorem walkKids_short_succ (p k : Bytes) (c : Tree) (j : ℕ) : walkKids p (short k c) (j + 1) = [] := rfl

theorem walkKids_of_not_inner {u : Tree} (hu : u.isNil = true ∨ u.isValue = true) (p : Bytes) (j : ℕ) :
    walkKids p u j = [] := by
  cases u <;> simp_all [isNil, isValue, walkKids]

/-- A path strictly less than the nodes' paths after it: `p` before `p ++ y`. -/
theorem lt_append_of_ne_nil (p : Bytes) {y : Bytes} (hy : y ≠ []) : p < p ++ y := by
  obtain ⟨a, y, rfl⟩ := List.exists_cons_of_ne_nil hy
  have h : p ++ [] < p ++ a :: y := List.append_left_lt (List.nil_lt_cons a y)
  rwa [List.append_nil] at h

/-- Every node of a walk is at an extension of the path it starts from. -/
theorem prefix_of_mem_walk : ∀ {p : Bytes} {u : Tree} {e : Bytes × Tree}, e ∈ walk p u → p <+: e.1
  | p, nil, e, h => by
    rw [walk, List.mem_singleton] at h
    exact h ▸ List.prefix_refl p
  | p, value v m, e, h => by
    rw [walk, List.mem_singleton] at h
    exact h ▸ List.prefix_refl p
  | p, short k c, e, h => by
    rcases List.mem_cons.mp h with rfl | h
    · exact List.prefix_refl p
    · exact (List.prefix_append p k).trans (prefix_of_mem_walk h)
  | p, full cs, e, h => by
    rcases List.mem_cons.mp h with rfl | h
    · exact List.prefix_refl p
    · obtain ⟨i, -, hi⟩ := List.mem_flatMap.mp h
      split_ifs at hi
      · cases hi
      · exact (List.prefix_append p _).trans (prefix_of_mem_walk hi)

/-- Below the children of a well-formed node, every node is at a path that
strictly extends the node's. -/
theorem mem_walkKids {p : Bytes} {u : Tree} {j : ℕ} {e : Bytes × Tree} (hw : Wf u) (h : e ∈ walkKids p u j) :
    ∃ y, y ≠ [] ∧ e.1 = p ++ y := by
  cases u with
  | nil => cases h
  | value v m => cases h
  | short k c =>
    simp only [walkKids] at h
    split_ifs at h
    · obtain ⟨z, hz⟩ := prefix_of_mem_walk h
      exact ⟨k ++ z, by simp [hw.1], by rw [← hz, List.append_assoc]⟩
    · cases h
  | full cs =>
    obtain ⟨i, -, hi⟩ := List.mem_flatMap.mp h
    split_ifs at hi
    · cases hi
    · obtain ⟨z, hz⟩ := prefix_of_mem_walk hi
      exact ⟨[i.val.toUInt8] ++ z, by simp, by rw [← hz, List.append_assoc]⟩

/-- A walk meets the nodes of a well-formed tree in strictly increasing order
of their paths. -/
theorem walk_sorted : ∀ (p : Bytes) {u : Tree}, Wf u → (walk p u).Pairwise fun a b => a.1 < b.1
  | p, nil, _ => List.pairwise_singleton _ _
  | p, value v m, _ => List.pairwise_singleton _ _
  | p, short k c, hw => by
    refine List.Pairwise.cons (fun e he => ?_) (walk_sorted (p ++ k) hw.2.2.2.2)
    obtain ⟨y, hy, he⟩ := mem_walkKids (j := 0) hw (by simpa [walkKids] using he)
    rw [he]
    exact lt_append_of_ne_nil p hy
  | p, full cs, hw => by
    refine List.Pairwise.cons (fun e he => ?_) ?_
    · obtain ⟨y, hy, he⟩ := mem_walkKids (j := 0) hw (by simpa [walkKids] using he)
      rw [he]
      exact lt_append_of_ne_nil p hy
    rw [List.pairwise_flatMap]
    refine ⟨fun i _ => ?_, ?_⟩
    · split_ifs
      · exact List.Pairwise.nil
      · exact walk_sorted _ (hw.2.2.2 i)
    -- the nodes below an earlier child lead with a smaller index
    refine (List.pairwise_lt_finRange 17).imp fun {i j} hij a ha b hb => ?_
    split_ifs at ha hb
    all_goals first | cases ha | cases hb | skip
    obtain ⟨x, hx⟩ := prefix_of_mem_walk ha
    obtain ⟨y, hy⟩ := prefix_of_mem_walk hb
    rw [← hx, ← hy, List.append_assoc, List.append_assoc]
    exact List.append_left_lt (List.cons_lt_cons_iff.mpr (.inl (toUInt8_lt_toUInt8 hij)))

/-- The values a walk meets are the entries below the node, in order. -/
theorem filterMap_walk : ∀ (p : Bytes) (u : Tree), (walk p u).filterMap entryOf = pre p (leaves u)
  | p, nil => rfl
  | p, value v m => by simp [walk, entryOf, leaves, pre]
  | p, short k c => by
    rw [walk, List.filterMap_cons_none rfl, filterMap_walk, leaves, pre_pre]
  | p, full cs => by
    rw [walk, List.filterMap_cons_none rfl, List.filterMap_flatMap, leaves, pre_flatMap]
    refine List.flatMap_congr fun i _ => ?_
    split_ifs with hn
    · rw [leaves_of_isNil hn]
      rfl
    · rw [filterMap_walk, pre_pre]

/-- Keeping the nodes at paths a test accepts keeps the values at those paths. -/
theorem filterMap_entryOf_filter (g : Bytes → Bool) :
    ∀ l : List (Bytes × Tree), (l.filter fun e => g e.1).filterMap entryOf = (l.filterMap entryOf).filter fun e => g e.1
  | [] => rfl
  | e :: l => by
    obtain ⟨q, w⟩ := e
    cases w <;> by_cases hg : g q <;> simp [List.filterMap_cons, entryOf, hg, filterMap_entryOf_filter g l]

/-- A walk of a well-formed tree that is present meets each of its nodes once. -/
theorem length_walk : ∀ (p : Bytes) {u : Tree}, Wf u → u.isNil = false → (walk p u).length = nodes u
  | p, nil, _, hn => by cases hn
  | p, value v m, _, _ => rfl
  | p, short k c, hw, _ => by
    rw [walk, List.length_cons, length_walk _ hw.2.2.2.2 hw.2.2.1, nodes]
  | p, full cs, hw, _ => by
    rw [walk, List.length_cons, List.length_flatMap, nodes]
    congr 2
    refine List.map_congr_left fun i _ => ?_
    split_ifs with hn
    · rw [nodes_of_isNil hn]
      rfl
    · exact length_walk _ (hw.2.2.2 i) (by simpa using hn)

theorem length_walk_le (p : Bytes) {u : Tree} (hw : Wf u) : (walk p u).length ≤ nodes u + 1 := by
  cases hn : u.isNil
  · rw [length_walk p hw hn]
    omega
  · cases u <;> first | rfl | cases hn

end Tree

end Workshare
