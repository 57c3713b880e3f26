import Workshare.Trie.Iterator
import Workshare.Trie.Leaves
import Workshare.Trie.Run

/-!
# The node iterator walks the trie in pre-order

A node iterator over a trie standing for a well-formed tree meets the tree's
nodes in the order of `Tree.walk`, and the key-value iterator over it reads
the tree's entries in increasing order of their paths.

The proof keeps one picture of the iterator. Each frame of the stack stands
for a subtree, and what is left to visit is, frame after frame from the top,
the walks below the children the frame has not taken yet (`Stacked`). `peek`
finds the first node of that list and `push` moves it onto the stack, so each
step of `Next` takes one node off the list. `seek` moves the nodes before the
key off the list, a whole subtree at a time where its path leaves the key;
the walk being sorted, what is left where it stops is the walk from the key on.
-/
namespace Workshare

open Workshare.Tree

/-- What `resolve` needs of the tree a node stands for to load it. -/
structure Tree.Loadable (u : Tree) : Prop where
  wf : Wf u
  metaFree : MetaFree u
  bounded : Bounded (2 ^ 57) u

theorem Tree.Loadable.short {k : Bytes} {c : Tree} (h : (short k c).Loadable) : c.Loadable :=
  ⟨h.wf.2.2.2.2, h.metaFree, h.bounded.short⟩

theorem Tree.Loadable.full {cs : Fin 17 → Tree} (h : (full cs).Loadable) (i : Fin 17) : (cs i).Loadable :=
  ⟨h.wf.2.2.2 i, h.metaFree i, h.bounded.full i⟩

theorem Trie.Inv.loadable {blake2b : Bytes → Bytes32} {t : Trie} {tr : Tree} (hi : t.Inv blake2b tr) :
    tr.Loadable :=
  ⟨hi.wf, hi.metaFree, hi.bounded⟩

/-- Resolving a node that stands for a loadable tree, at the root or below it,
gives a node standing for the same tree that is not a hash node. -/
theorem resolve_loadable (blake2b : Bytes → Bytes32) (t : Trie) (hk : t.db.keyEncoder = none) {root : Bool}
    {n : Node} {u : Tree} (hs : Sound blake2b t.db.kv root n u) (hl : u.Loadable) (pfx : Bytes) :
    ∃ cn, t.resolve n pfx = .ok cn ∧ Sound blake2b t.db.kv root cn u ∧ ∀ ref, cn ≠ .hash ref := by
  cases n with
  | hash ref =>
    have hb := length_enc_lt (show 2 ^ 57 < 2 ^ 58 by norm_num) blake2b hl.wf hl.bounded
    obtain ⟨hres, hsound⟩ := resolveHash_sound blake2b t hk hs hl.wf hl.metaFree hb pfx
    exact ⟨_, hres, hsound, loaded_ne_hash blake2b t.cacheGen hs.2.2.1 hs.2.2.2.1 _⟩
  | nil => exact ⟨_, rfl, hs, fun _ h => Node.noConfusion h⟩
  | full cs flags => exact ⟨_, rfl, hs, fun _ h => Node.noConfusion h⟩
  | short k c flags => exact ⟨_, rfl, hs, fun _ h => Node.noConfusion h⟩
  | value v m => exact ⟨_, rfl, hs, fun _ h => Node.noConfusion h⟩

namespace NodeIterator

/-! ## `nextChild` takes the next child present -/

@[simp] theorem skipped_true (n : Node) : skipped (fun _ => true) n = false := by
  cases n <;> simp [skipped]

theorem isNil_of_firstChild {cs : Fin 17 → Node} {j : ℕ} {i : Fin 17}
    (h : firstChild (fun _ => true) cs j = some i) : (cs i).isNil = false := by
  fun_induction firstChild (fun _ => true) cs j with
  | case1 j hj hc =>
    cases h
    simpa using hc
  | case2 j hj hc ih => exact ih h
  | case3 j hj => cases h

/-- With every node passing the filter, the children `nextChild`'s loop passes
over are absent, so below a full node the walks left from `j` on are those
from the child it finds. -/
theorem walkKids_of_firstChild_some {cs : Fin 17 → Node} {tcs : Fin 17 → Tree}
    (hnil : ∀ l, (cs l).isNil = (tcs l).isNil) (p : Bytes) {j : ℕ} {i : Fin 17}
    (h : firstChild (fun _ => true) cs j = some i) : walkKids p (full tcs) j = walkKids p (full tcs) i.val := by
  fun_induction firstChild (fun _ => true) cs j with
  | case1 j hj hc => cases h; rfl
  | case2 j hj hc ih =>
    -- the child at `j` is absent and contributes nothing
    have hn : (tcs ⟨j, hj⟩).isNil = true := by simpa [hnil] using hc
    rw [walkKids_full_of_lt p tcs hj, if_pos hn, List.nil_append, ih h]
  | case3 j hj => cases h

theorem walkKids_of_firstChild_none {cs : Fin 17 → Node} {tcs : Fin 17 → Tree}
    (hnil : ∀ l, (cs l).isNil = (tcs l).isNil) (p : Bytes) {j : ℕ}
    (h : firstChild (fun _ => true) cs j = none) : walkKids p (full tcs) j = [] := by
  fun_induction firstChild (fun _ => true) cs j with
  | case1 j hj hc => cases h
  | case2 j hj hc ih =>
    have hn : (tcs ⟨j, hj⟩).isNil = true := by simpa [hnil] using hc
    rw [walkKids_full_of_lt p tcs hj, if_pos hn, List.nil_append, ih h]
  | case3 j hj => exact walkKids_full_of_le p tcs (by omega)

section Frames

variable (blake2b : Bytes → Bytes32) (kv : Bytes → Option Bytes)

/-- A frame of the stack stands for the subtree `u`: its node is loaded and
stands for `u` over the store, and its index has not gone below -1. -/
structure FrameOk (f : IterState) (u : Tree) : Prop where
  sound : ∃ root, Sound blake2b kv root f.node u
  loaded : ∀ ref, f.node ≠ .hash ref
  tree : u.Loadable
  index : -1 ≤ f.index

/-- What `nextChild` gives below a frame standing for `u` at path `p`: the
frame `f'` with its index just before the child taken, the child's state `st`
at path `q` standing for `w`, and the walk of `w` first among what the frame
has left. -/
structure Taken (f f' st : IterState) (p q : Bytes) (u w : Tree) : Prop where
  child : Sound blake2b kv false st.node w
  childTree : w.Loadable
  frame : FrameOk blake2b kv f' u
  pathlen : f'.pathlen = f.pathlen
  index : st.index = -1
  childPathlen : st.pathlen = p.length
  pfx : p <+: q
  same : walkKids p u (f'.index + 1).toNat = walkKids p u (f.index + 1).toNat
  first : walkKids p u (f'.index + 1).toNat = walk q w ++ walkKids p u (f'.index + 1 + 1).toNat

variable {blake2b kv}

theorem FrameOk.withIndex {f : IterState} {u : Tree} (hf : FrameOk blake2b kv f u) {i : ℤ} (hi : -1 ≤ i) :
    FrameOk blake2b kv { f with index := i } u :=
  ⟨hf.sound, hf.loaded, hf.tree, hi⟩

/-- The shapes a loaded frame can have: a full or a short node over the
children of the tree, or a value or nothing. -/
theorem FrameOk.kids {f : IterState} {u : Tree} (hf : FrameOk blake2b kv f u) :
    (∃ cs flags tcs, f.node = .full cs flags ∧ u = full tcs ∧ ∀ i, Sound blake2b kv false (cs i) (tcs i)) ∨
    (∃ k c flags tc, f.node = .short k c flags ∧ u = short k tc ∧ Sound blake2b kv false c tc) ∨
    (f.node = .nil ∧ u = nil) ∨ (∃ v m, f.node = .value v m ∧ u = value v m) := by
  obtain ⟨root, hs⟩ := hf.sound
  cases hn : f.node with
  | nil =>
    rw [hn] at hs
    exact .inr (.inr (.inl ⟨rfl, hs⟩))
  | full cs flags =>
    rw [hn] at hs
    cases u with
    | full tcs => exact .inl ⟨cs, flags, tcs, rfl, rfl, hs.1⟩
    | _ => simp [Sound] at hs
  | short k c flags =>
    rw [hn] at hs
    cases u with
    | short k' tc =>
      obtain ⟨rfl, hc, -⟩ := hs
      exact .inr (.inl ⟨k, c, flags, tc, rfl, rfl, hc⟩)
    | _ => simp [Sound] at hs
  | hash ref => exact absurd hn (hf.loaded ref)
  | value v m =>
    rw [hn] at hs
    exact .inr (.inr (.inr ⟨v, m, rfl, hs⟩))

theorem FrameOk.node_value {f : IterState} {v m : Bytes} (hf : FrameOk blake2b kv f (value v m)) :
    f.node = .value v m := by
  rcases hf.kids with ⟨_, _, _, _, h, _⟩ | ⟨_, _, _, _, _, h, _⟩ | ⟨_, h⟩ | ⟨v', m', hn, h⟩
  · cases h
  · cases h
  · cases h
  · cases h
    exact hn

/-- When `nextChild` finds no child, the frame has nothing left below it. -/
theorem nextChild_none {f : IterState} {u : Tree} (hf : FrameOk blake2b kv f u) {p : Bytes}
    (h : nextChild (fun _ => true) f p = none) : walkKids p u (f.index + 1).toNat = [] := by
  rcases hf.kids with ⟨cs, flags, tcs, hn, rfl, hc⟩ | ⟨k, c, flags, tc, hn, rfl, -⟩ | ⟨hn, rfl⟩ |
    ⟨v, m, hn, rfl⟩
  · simp only [nextChild, hn, Option.map_eq_none_iff] at h
    exact walkKids_of_firstChild_none (fun l => isNil_eq_of_sound (hc l)) p h
  · -- a short node's child is taken once, while the index is below zero
    simp only [nextChild, hn, skipped_true, Bool.not_false, Bool.and_true, decide_eq_true_eq,
      ite_eq_right_iff, reduceCtorEq, imp_false, not_lt] at h
    obtain ⟨j, hj⟩ : ∃ j : ℕ, (f.index + 1).toNat = j + 1 := ⟨f.index.toNat, by omega⟩
    rw [hj]
    rfl
  · rfl
  · rfl

/-- When `nextChild` finds a child, it is the next one present, and its walk
is the first of what the frame has left. -/
theorem nextChild_some {f f' st : IterState} {u : Tree} (hf : FrameOk blake2b kv f u) {p q : Bytes}
    (h : nextChild (fun _ => true) f p = some (f', st, q)) : ∃ w, Taken blake2b kv f f' st p q u w := by
  obtain ⟨node, index, pathlen⟩ := f
  rcases hf.kids with ⟨cs, flags, tcs, hn, rfl, hc⟩ | ⟨k, c, flags, tc, hn, rfl, hc⟩ | ⟨hn, rfl⟩ |
    ⟨v, m, hn, rfl⟩ <;> dsimp only at hn <;> subst hn
  · simp only [nextChild, Option.map_eq_some_iff, Prod.mk.injEq] at h
    obtain ⟨i, hi, rfl, rfl, rfl⟩ := h
    have hnil : ∀ l, (cs l).isNil = (tcs l).isNil := fun l => isNil_eq_of_sound (hc l)
    have hti : (tcs i).isNil = false := by rw [← hnil]; exact isNil_of_firstChild hi
    have hidx : ((i.val : ℤ) - 1 + 1).toNat = i.val := by omega
    have hidx' : ((i.val : ℤ) - 1 + 1 + 1).toNat = i.val + 1 := by omega
    refine ⟨tcs i, hc i, hf.tree.full i, hf.withIndex (by omega), rfl, rfl, rfl, List.prefix_append _ _, ?_, ?_⟩
    · dsimp only
      rw [hidx, walkKids_of_firstChild_some hnil p hi]
    · dsimp only
      rw [hidx, hidx', walkKids_full_of_lt p tcs i.isLt, if_neg (by simp [hti])]
  · simp only [nextChild, skipped_true, Bool.not_false, Bool.and_true, Option.ite_none_right_eq_some,
      decide_eq_true_eq, Option.some.injEq, Prod.mk.injEq] at h
    obtain ⟨hlt, rfl, rfl, rfl⟩ := h
    -- the index is -1: the child is all the frame has left
    have h0 : (index + 1).toNat = 0 := by have := hf.index; dsimp only at this; omega
    have h1 : (index + 1 + 1).toNat = 1 := by have := hf.index; dsimp only at this; omega
    refine ⟨tc, hc, hf.tree.short, hf, rfl, rfl, rfl, List.prefix_append _ _, rfl, ?_⟩
    dsimp only
    rw [h0, h1]
    simp [walkKids]
  · simp [nextChild] at h
  · simp [nextChild] at h

end Frames

/-! ## The stack and what is left to visit -/

section Stack

variable (blake2b : Bytes → Bytes32) (kv : Bytes → Option Bytes)

/-- The stack, top first, with the path `p` to its top node, stands for frames
of the tree with `R` left to visit: below each frame, from the top down, the
walks under the children it has not taken. A frame's `pathlen` is the length
of the path of the frame under it, which its own path extends. -/
inductive Stacked : List IterState → Bytes → List (Bytes × Tree) → Prop
  | nil : Stacked [] [] []
  | cons {f : IterState} {s : List IterState} {u : Tree} {p q : Bytes} {R : List (Bytes × Tree)} :
      FrameOk blake2b kv f u → f.pathlen = q.length → q <+: p → Stacked s q R →
      Stacked (f :: s) p (walkKids p u (f.index + 1).toNat ++ R)

/-- What `peekLoop` gives on a stack with `R` left: the end when nothing is;
otherwise the first node left, loaded and fresh, with the stack it leaves
still standing for `R`, and, once the node is pushed, the stack standing for
the rest. -/
def PeekLoopOk (res : List IterState × Bytes × Except IterError (IterState × Bool × Bytes)) :
    List (Bytes × Tree) → Prop
  | [] => res.2.2 = .error .iteratorEnd
  | (q, w) :: R => Stacked blake2b kv res.1 res.2.1 ((q, w) :: R) ∧
      ∃ st, res.2.2 = .ok (st, true, q) ∧ FrameOk blake2b kv st w ∧ st.index = -1 ∧
        Stacked blake2b kv (st :: res.1.modifyHead fun s => { s with index := s.index + 1 }) q R

variable {blake2b kv}

theorem Stacked.eq_nil_of_nil {p : Bytes} {R : List (Bytes × Tree)} (h : Stacked blake2b kv [] p R) : R = [] := by
  cases h
  rfl

theorem Stacked.cons_inv {f : IterState} {s : List IterState} {p : Bytes} {R : List (Bytes × Tree)}
    (h : Stacked blake2b kv (f :: s) p R) :
    ∃ u q R', FrameOk blake2b kv f u ∧ f.pathlen = q.length ∧ q <+: p ∧ Stacked blake2b kv s q R' ∧
      R = walkKids p u (f.index + 1).toNat ++ R' := by
  cases h with
  | cons hf hlen hq hs => exact ⟨_, _, _, hf, hlen, hq, hs, rfl⟩

theorem Stacked.ne_nil {s : List IterState} {p q : Bytes} {w : Tree} {R : List (Bytes × Tree)}
    (h : Stacked blake2b kv s p ((q, w) :: R)) : s ≠ [] := by
  rintro rfl
  cases h.eq_nil_of_nil

/-- `peekLoop` takes the first node left: it pops the frames with nothing left
below them and loads the next child of the first frame that has one. -/
theorem peekLoop_spec (t : Trie) (hk : t.db.keyEncoder = none) (hkv : t.db.kv = kv) {s : List IterState}
    {p : Bytes} {R : List (Bytes × Tree)} (h : Stacked blake2b kv s p R) :
    PeekLoopOk blake2b kv (peekLoop t (fun _ => true) s p) R := by
  induction h with
  | nil => rfl
  | @cons f s u p q R hf hlen hq hs ih =>
    cases hnc : nextChild (fun _ => true) f p with
    | none =>
      -- nothing is left below the top frame: it is popped
      have hpop : p.take f.pathlen = q := by
        rw [hlen]
        exact (List.prefix_iff_eq_take.mp hq).symm
      rw [nextChild_none hf hnc, List.nil_append]
      simpa only [peekLoop, hnc, hpop] using ih
    | some r =>
      obtain ⟨f', st, q'⟩ := r
      obtain ⟨w, ht⟩ := nextChild_some hf hnc
      obtain ⟨cn, hres, hsound, hcn⟩ := resolve_loadable blake2b t hk (hkv ▸ ht.child) ht.childTree q'
      rw [hkv] at hsound
      have hframe : FrameOk blake2b kv { st with node := cn } w := ⟨⟨false, hsound⟩, hcn, ht.childTree, by simp [ht.index]⟩
      -- the frame keeps what it had left, now led by the child's walk
      have hbetween := Stacked.cons ht.frame (ht.pathlen ▸ hlen) hq hs
      have hpushed := Stacked.cons hframe (by simpa using ht.childPathlen) ht.pfx
        (Stacked.cons (ht.frame.withIndex (i := f'.index + 1) (by have := ht.frame.index; omega)) (ht.pathlen ▸ hlen) hq hs)
      rw [← ht.same, ht.first, walk_eq_cons]
      rw [ht.first, walk_eq_cons] at hbetween
      simp only [List.cons_append, List.append_assoc] at hbetween ⊢
      simp only [peekLoop, hnc, hres]
      refine ⟨hbetween, { st with node := cn }, rfl, hframe, ht.index, ?_⟩
      simpa [ht.index] using hpushed

end Stack

/-! ## `peek` and `Next` take one node off what is left -/

section Walk

variable (blake2b : Bytes → Bytes32) (t : Trie) (tr : Tree)

/-- The iterator over `t`, which stands for `tr`, has `R` left to visit:
before the first node the whole walk, and after it what its stack stands for.
Its trie is `t` with the root's hashes cached, over the same store. -/
structure Walking (it : NodeIterator) (R : List (Bytes × Tree)) : Prop where
  trie : ∃ t', it.trie = some t' ∧ t'.db = t.db ∧ Sound blake2b t.db.kv true t'.root tr
  filter : it.filter = fun _ => true
  left : it.stack = [] ∧ it.path = [] ∧ R = walk [] tr ∨ it.stack ≠ [] ∧ Stacked blake2b t.db.kv it.stack it.path R

/-- What `peek` gives on an iterator with `R` left: the end when nothing is;
otherwise an iterator with the same left, and the first node's state, loaded
and fresh, at the node's path, after whose `push` the rest is left. -/
def Peeked (it : NodeIterator) (r : Except IterError (IterState × Bool × Bytes)) : List (Bytes × Tree) → Prop
  | [] => r = .error .iteratorEnd
  | (q, w) :: R => Walking blake2b t tr it ((q, w) :: R) ∧
      ∃ st hp, r = .ok (st, hp, q) ∧ FrameOk blake2b t.db.kv st w ∧ st.index = -1 ∧
        Walking blake2b t tr (it.push st hp q) R

variable {blake2b t tr}

/-- A stack left by `peekLoop` in the iterator gives what `peek` promises. -/
theorem peeked_of_peekLoopOk {it : NodeIterator} (ht : ∃ t', it.trie = some t' ∧ t'.db = t.db ∧
    Sound blake2b t.db.kv true t'.root tr) (hf : it.filter = fun _ => true)
    {res : List IterState × Bytes × Except IterError (IterState × Bool × Bytes)} {R : List (Bytes × Tree)}
    (h : PeekLoopOk blake2b t.db.kv res R) :
    Peeked blake2b t tr { it with stack := res.1, path := res.2.1 } res.2.2 R := by
  cases R with
  | nil => exact h
  | cons e R =>
    obtain ⟨q, w⟩ := e
    obtain ⟨hbetween, st, hr, hframe, hidx, hpushed⟩ := h
    exact ⟨⟨ht, hf, .inr ⟨hbetween.ne_nil, hbetween⟩⟩, st, true, hr, hframe, hidx,
      ⟨ht, hf, .inr ⟨List.cons_ne_nil _ _, hpushed⟩⟩⟩

/-- `peek` descending: the first node left. Before the first node it is the
root, loaded once `Hash` has cached the root's hashes. -/
theorem peek_true (hi : t.Inv blake2b tr) {it : NodeIterator} {R : List (Bytes × Tree)}
    (hw : Walking blake2b t tr it R) : ∃ it₁ r, it.peek blake2b true = some (it₁, r) ∧ Peeked blake2b t tr it₁ r R := by
  obtain ⟨t', ht', hdb, hroot⟩ := hw.trie
  have hkv : t'.db.kv = t.db.kv := by rw [hdb]
  rcases hw.left with ⟨hs, hp, rfl⟩ | ⟨hs, hst⟩
  · obtain ⟨-, hdb₂, hroot₂⟩ := hash_root (hkv ▸ hroot) hi.wf
    have hkv₂ : ((t'.hash blake2b).2).db.kv = t.db.kv := by rw [hdb₂, hkv]
    obtain ⟨cn, hres, hsound, hcn⟩ := resolve_loadable blake2b (t'.hash blake2b).2
      (by rw [hdb₂, hdb]; exact hi.keyEncoder) hroot₂ hi.loadable []
    have ht₂ : ∃ t₂, some (t'.hash blake2b).2 = some t₂ ∧ t₂.db = t.db ∧ Sound blake2b t.db.kv true t₂.root tr :=
      ⟨_, rfl, hdb₂.trans hdb, hkv₂ ▸ hroot₂⟩
    have hframe : FrameOk blake2b t.db.kv ⟨cn, -1, 0⟩ tr := ⟨⟨true, hkv₂ ▸ hsound⟩, hcn, hi.loadable, le_rfl⟩
    refine ⟨{ it with trie := some (t'.hash blake2b).2 }, .ok (⟨cn, -1, 0⟩, false, []), ?_, ?_⟩
    · simp only [peek, ht', hs, hw.filter, hres, Bool.not_true, Bool.and_false, Bool.false_eq_true, ↓reduceIte]
      rfl
    rw [walk_eq_cons]
    refine ⟨⟨ht₂, hw.filter, .inl ⟨hs, hp, (walk_eq_cons _ _).symm⟩⟩, ⟨cn, -1, 0⟩, false, rfl, hframe, rfl, ?_⟩
    have hstacked := Stacked.cons (s := []) (q := []) (p := []) hframe rfl (List.prefix_refl []) Stacked.nil
    exact ⟨ht₂, hw.filter, .inr ⟨by simp [push], by simpa [push, hs, hp] using hstacked⟩⟩
  · obtain ⟨top, rest, hstack⟩ := List.exists_cons_of_ne_nil hs
    rw [hstack] at hst
    have hspec := peekLoop_spec t' (by rw [hdb]; exact hi.keyEncoder) hkv hst
    refine ⟨_, _, ?_, peeked_of_peekLoopOk ⟨t', ht', hdb, hroot⟩ hw.filter hspec⟩
    simp [peek, ht', hstack, hw.filter]

/-- `peek` without descending: what is left below the node on top, all at
paths extending its own, is passed over, and the first node after it is the
next. -/
theorem peek_false (hi : t.Inv blake2b tr) {it : NodeIterator} {R : List (Bytes × Tree)}
    (hw : Walking blake2b t tr it R) {f : IterState} {s : List IterState} (hs : it.stack = f :: s) :
    ∃ D R', R = D ++ R' ∧ (∀ e ∈ D, ∃ y, e.1 = it.path ++ y) ∧
      ∃ it₁ r, it.peek blake2b false = some (it₁, r) ∧ Peeked blake2b t tr it₁ r R' := by
  obtain ⟨t', ht', hdb, hroot⟩ := hw.trie
  have hkv : t'.db.kv = t.db.kv := by rw [hdb]
  rcases hw.left with ⟨hs', -, -⟩ | ⟨-, hst⟩
  · rw [hs] at hs'
    cases hs'
  rw [hs] at hst
  obtain ⟨u, q, R', hframe, hlen, hq, hrest, rfl⟩ := hst.cons_inv
  have hpop : it.path.take f.pathlen = q := by
    rw [hlen]
    exact (List.prefix_iff_eq_take.mp hq).symm
  refine ⟨_, R', rfl, fun e he => ?_, ?_⟩
  · obtain ⟨y, -, hy⟩ := mem_walkKids hframe.tree.wf he
    exact ⟨y, hy⟩
  have hspec := peekLoop_spec t' (by rw [hdb]; exact hi.keyEncoder) hkv hrest
  refine ⟨_, _, ?_, peeked_of_peekLoopOk ⟨t', ht', hdb, hroot⟩ hw.filter hspec⟩
  simp [peek, ht', hs, hw.filter, hpop]

theorem Walking.withErr {it : NodeIterator} {R : List (Bytes × Tree)} (hw : Walking blake2b t tr it R)
    (e : Option IterError) : Walking blake2b t tr { it with err := e } R :=
  ⟨hw.trie, hw.filter, hw.left⟩

/-- `Next` on an iterator with nothing left ends the iteration. -/
theorem next_of_nil (hi : t.Inv blake2b tr) {it : NodeIterator} (hw : Walking blake2b t tr it [])
    (herr : it.err = none) (fuel : ℕ) :
    ∃ it', it.next blake2b fuel true = some (it', false) ∧ it'.err = some .iteratorEnd := by
  obtain ⟨it₁, r, hpeek, hr⟩ := peek_true hi hw
  change r = .error .iteratorEnd at hr
  subst hr
  refine ⟨{ it₁ with err := some .iteratorEnd }, ?_, rfl⟩
  simp [next, herr, stepForward, hpeek]

/-- `Next` descending takes the first node left: the iterator stands on it,
at its path, with the rest left. -/
theorem next_of_cons (hi : t.Inv blake2b tr) {it : NodeIterator} {q : Bytes} {w : Tree} {R : List (Bytes × Tree)}
    (hw : Walking blake2b t tr it ((q, w) :: R)) (herr : it.err = none) (fuel : ℕ) :
    ∃ it' st, it.next blake2b fuel true = some (it', true) ∧ it'.err = none ∧ Walking blake2b t tr it' R ∧
      it'.path = q ∧ it'.stack.head? = some st ∧ FrameOk blake2b t.db.kv st w := by
  obtain ⟨it₁, r, hpeek, -, st, hp, rfl, hframe, -, hpushed⟩ := peek_true hi hw
  refine ⟨{ it₁.push st hp q with err := none }, st, ?_, rfl, hpushed.withErr none, rfl, by simp [push], hframe⟩
  simp [next, herr, stepForward, hpeek]

end Walk

/-! ## The values the iterator stands on -/

theorem entryOf_eq_some {e : Bytes × Tree} {x : Bytes × Bytes × Bytes} (h : entryOf e = some x) :
    ∃ v m, e.2 = .value v m ∧ x = (e.1, v, m) := by
  obtain ⟨q, w⟩ := e
  cases w <;> simp only [entryOf, reduceCtorEq, Option.some.injEq] at h
  exact ⟨_, _, rfl, h.symm⟩

/-- `Leaf` reads the node on top: a value, and nothing on any other node. -/
theorem leaf_of_head {blake2b : Bytes → Bytes32} {kv : Bytes → Option Bytes} {it : NodeIterator} {st : IterState}
    {w : Tree} (hs : it.stack.head? = some st) (hf : FrameOk blake2b kv st w) (q : Bytes) :
    it.leaf = (entryOf (q, w)).map Prod.snd := by
  obtain ⟨s, hstack⟩ := List.head?_eq_some_iff.mp hs
  obtain ⟨node, index, pathlen⟩ := st
  rcases hf.kids with ⟨cs, flags, tcs, hn, rfl, -⟩ | ⟨k, c, flags, tc, hn, rfl, -⟩ | ⟨hn, rfl⟩ |
    ⟨v, m, hn, rfl⟩ <;> dsimp only at hn <;> subst hn <;> simp [leaf, hstack, entryOf]

theorem leafKey_of_head {it : NodeIterator} {st : IterState} {v m : Bytes} (hs : it.stack.head? = some st)
    (hv : st.node = .value v m) : it.leafKey = hexToKeybytes it.path := by
  obtain ⟨s, hstack⟩ := List.head?_eq_some_iff.mp hs
  obtain ⟨node, index, pathlen⟩ := st
  dsimp only at hv
  subst hv
  simp [leafKey, hstack]

/-! ## `seek` passes over the nodes before the key -/

section Seek

variable (blake2b : Bytes → Bytes32) (t : Trie) (tr : Tree)

/-- Where `seek` for `key` stops: the iterator has the walk from the key on
left, or, when nothing of the walk is at or after the key, the iteration has
ended. -/
def Sought (key : Bytes) (it : NodeIterator) : Option IterError → Prop
  | none => Walking blake2b t tr it ((walk [] tr).filter fun e => ¬ e.1 < key)
  | some e => e = .iteratorEnd ∧ (walk [] tr).filter (fun e => ¬ e.1 < key) = []

variable {blake2b t tr}

/-- One `peek` of the seek loop: descending only along the key, it passes
over nodes before the key, and what it passes over joins the nodes passed. -/
theorem peek_seek (hi : t.Inv blake2b tr) {key : Bytes} {it : NodeIterator} {D R : List (Bytes × Tree)}
    (hw : Walking blake2b t tr it R) (hwalk : walk [] tr = D ++ R) (hD : ∀ e ∈ D, e.1 < key)
    (htop : it.stack ≠ [] → it.path < key) :
    ∃ it₁ r D' R', it.peek blake2b (it.path.isPrefixOf key) = some (it₁, r) ∧ Peeked blake2b t tr it₁ r R' ∧
      walk [] tr = D' ++ R' ∧ (∀ e ∈ D', e.1 < key) ∧ R'.length ≤ R.length := by
  cases hpre : it.path.isPrefixOf key
  · -- the path leaves the key: the subtree below it is all before the key
    have hs : it.stack ≠ [] := by
      rintro hs
      rcases hw.left with ⟨-, hp, -⟩ | ⟨hs', -⟩
      · rw [hp] at hpre
        simp at hpre
      · exact hs' hs
    obtain ⟨f, s, hstack⟩ := List.exists_cons_of_ne_nil hs
    have hnp : ¬ it.path <+: key := fun h => by simp [List.isPrefixOf_iff_prefix.mpr h] at hpre
    obtain ⟨D₁, R₁, rfl, hD₁, it₁, r, hpeek, hp⟩ := peek_false hi hw hstack
    refine ⟨it₁, r, D ++ D₁, R₁, hpeek, hp, by rw [hwalk, List.append_assoc], fun e he => ?_, by simp⟩
    rcases List.mem_append.mp he with he | he
    · exact hD e he
    · obtain ⟨y, hy⟩ := hD₁ e he
      rw [hy]
      exact append_lt_of_not_prefix (htop hs) hnp y
  · obtain ⟨it₁, r, hpeek, hp⟩ := peek_true hi hw
    exact ⟨it₁, r, D, R, hpeek, hp, hwalk, hD, le_rfl⟩

/-- The seek loop, with one unit of fuel per node left and one more, stops
just before the first node at or after the key; every node pushed on the way
is before the key. -/
theorem seekLoop_spec (hi : t.Inv blake2b tr) (pfx key : Bytes) :
    ∀ (fuel : ℕ) (it : NodeIterator) (D R : List (Bytes × Tree)), Walking blake2b t tr it R →
      walk [] tr = D ++ R → (∀ e ∈ D, e.1 < key) → (it.stack ≠ [] → it.path < key) → R.length < fuel →
      ∃ it' e, seekLoop blake2b pfx key fuel it = some (it', e) ∧ Sought blake2b t tr key it' e
  | 0, _, _, _, _, _, _, _, hlen => absurd hlen (Nat.not_lt_zero _)
  | fuel + 1, it, D, R, hw, hwalk, hD, htop, hlen => by
    obtain ⟨it₁, r, D', R', hpeek, hp, hwalk', hD', hlen'⟩ := peek_seek hi hw hwalk hD htop
    cases R' with
    | nil =>
      change r = .error .iteratorEnd at hp
      subst hp
      refine ⟨it₁, some .iteratorEnd, by simp [seekLoop, hpeek], rfl, ?_⟩
      rw [hwalk', List.append_nil]
      exact List.filter_eq_nil_iff.mpr fun e he => by simpa using hD' e he
    | cons e R' =>
      obtain ⟨q, w⟩ := e
      obtain ⟨hw₁, st, hpar, rfl, -, -, hpushed⟩ := hp
      by_cases hq : q < key
      · -- before the key: the node is pushed and the loop goes on
        have hD'' : ∀ e ∈ D' ++ [(q, w)], e.1 < key := by
          intro e he
          rcases List.mem_append.mp he with he | he
          · exact hD' e he
          · rw [List.mem_singleton.mp he]
            exact hq
        obtain ⟨it', e, hrec, hsought⟩ := seekLoop_spec hi pfx key fuel (it₁.push st hpar q) (D' ++ [(q, w)]) R'
          hpushed (by simp [hwalk']) hD'' (fun _ => hq) (by simp at hlen'; omega)
        exact ⟨it', e, by simp [seekLoop, hpeek, hq, hrec], hsought⟩
      · -- at or after the key: the seek stops before it
        refine ⟨it₁, none, by simp [seekLoop, hpeek, hq], ?_⟩
        have hsorted := walk_sorted [] hi.wf
        rw [hwalk'] at hsorted
        show Walking blake2b t tr it₁ _
        rw [hwalk', filter_not_lt_of_sorted hsorted hD' (by simpa using hq)]
        exact hw₁

end Seek

end NodeIterator

/-! ## The key-value iterator reads the values left -/

namespace Iterator

open NodeIterator

section Read

variable (blake2b : Bytes → Bytes32) (t : Trie) (tr : Tree)

/-- What `Iterator.Next` gives when `E` are the entries left on a node
iterator with `n` nodes left: the end when there is none; otherwise the first
entry, its key read back from its path, with fewer nodes left and the other
entries. -/
def Read (it : Iterator) (ok : Bool) (n : ℕ) : List (Bytes × Bytes × Bytes) → Prop
  | [] => ok = false
  | (q, v, m) :: E => ok = true ∧ q = keybytesToHex it.key ∧ it.value = v ∧ it.metadata = m ∧
      it.nodeIt.err = none ∧ ∃ R, Walking blake2b t tr it.nodeIt R ∧ R.filterMap entryOf = E ∧ R.length < n

variable {blake2b t tr}

theorem Read.mono {it : Iterator} {ok : Bool} {n n' : ℕ} (hn : n ≤ n') :
    ∀ {E : List (Bytes × Bytes × Bytes)}, Read blake2b t tr it ok n E → Read blake2b t tr it ok n' E
  | [], h => h
  | (_, _, _) :: _, ⟨hok, hq, hv, hm, herr, R, hw, hE, hlen⟩ => ⟨hok, hq, hv, hm, herr, R, hw, hE, by omega⟩

/-- `Iterator.Next` steps the node iterator over the nodes that hold no value
and stops on the first that does, reading its entry; with nothing left it
ends. One unit of fuel is spent per node. -/
theorem next_spec (hi : t.Inv blake2b tr) :
    ∀ (fuel : ℕ) (it : Iterator) (R : List (Bytes × Tree)), Walking blake2b t tr it.nodeIt R →
      it.nodeIt.err = none → R.length < fuel → (∀ e ∈ R.filterMap entryOf, ∃ k, e.1 = keybytesToHex k) →
      ∃ it' ok, it.next blake2b fuel = some (it', ok) ∧ Read blake2b t tr it' ok R.length (R.filterMap entryOf)
  | 0, _, _, _, _, hlen, _ => absurd hlen (Nat.not_lt_zero _)
  | fuel + 1, it, [], hw, herr, _, _ => by
    obtain ⟨it₁, hnext, -⟩ := next_of_nil hi hw herr fuel
    refine ⟨{ it with nodeIt := it₁, key := [], value := [], metadata := [], err := it₁.error }, false, ?_, rfl⟩
    simp [Iterator.next, hnext]
  | fuel + 1, it, (q, w) :: R, hw, herr, hlen, hkeys => by
    obtain ⟨it₁, st, hnext, herr₁, hw₁, hpath, hhead, hframe⟩ := next_of_cons hi hw herr fuel
    have hleaf := leaf_of_head hhead hframe q
    rcases hentry : entryOf (q, w) with _ | x
    · -- no value here: on to the next node
      rw [hentry, Option.map_none] at hleaf
      obtain ⟨it', ok, hrec, hread⟩ := next_spec hi fuel { it with nodeIt := it₁ } R hw₁ herr₁ (by simpa using hlen)
        (by simpa [List.filterMap_cons, hentry] using hkeys)
      refine ⟨it', ok, by simp [Iterator.next, hnext, hleaf, hrec], ?_⟩
      rw [List.filterMap_cons_none hentry]
      exact hread.mono (by simp)
    · -- a value: its key is read back from the path
      obtain ⟨v, m, hw', rfl⟩ := entryOf_eq_some hentry
      dsimp only at hw' hentry
      subst hw'
      rw [hentry, Option.map_some] at hleaf
      obtain ⟨k, hk⟩ := hkeys (q, v, m) (by simp [hentry])
      dsimp only at hk
      have hkey : it₁.leafKey = some k := by
        rw [leafKey_of_head hhead hframe.node_value, hpath, hk, hexToKeybytes_keybytesToHex]
      refine ⟨{ it with nodeIt := it₁, key := k, value := v, metadata := m }, true,
        by simp [Iterator.next, hnext, hleaf, hkey], ?_⟩
      rw [List.filterMap_cons_some hentry]
      exact ⟨rfl, hk, rfl, rfl, herr₁, R, hw₁, rfl, by simp⟩

/-- Collecting the entries reads every entry left, in order, with one unit of
fuel per node left and two more. -/
theorem collect_spec (hi : t.Inv blake2b tr) :
    ∀ (fuel : ℕ) (it : Iterator) (R : List (Bytes × Tree)), Walking blake2b t tr it.nodeIt R →
      it.nodeIt.err = none → R.length + 2 ≤ fuel → (∀ e ∈ R.filterMap entryOf, ∃ k, e.1 = keybytesToHex k) →
      ∃ l, it.collect blake2b fuel = some l ∧ l.map (fun e => (keybytesToHex e.1, e.2)) = R.filterMap entryOf
  | 0, _, _, _, _, hlen, _ => absurd hlen (by omega)
  | fuel + 1, it, R, hw, herr, hlen, hkeys => by
    obtain ⟨it', ok, hnext, hread⟩ := next_spec hi fuel it R hw herr (by omega) hkeys
    -- the entries left decide whether `Next` read one
    generalize hE : R.filterMap entryOf = E at hread hkeys ⊢
    cases E with
    | nil =>
      change ok = false at hread
      subst hread
      exact ⟨[], by simp [collect, hnext], rfl⟩
    | cons e E =>
      obtain ⟨q, v, m⟩ := e
      obtain ⟨rfl, hq, rfl, rfl, herr', R', hw', hE', hlen'⟩ := hread
      obtain ⟨l, hl, hmap⟩ := collect_spec hi fuel it' R' hw' herr' (by omega)
        (by rw [hE']; exact fun e he => hkeys e (List.mem_cons_of_mem _ he))
      refine ⟨(it'.key, it'.value, it'.metadata) :: l, by simp [collect, hnext, hl], ?_⟩
      rw [List.map_cons, hmap, hE', hq]

variable (blake2b) in
/-- Once the iteration has ended, collecting reads no entry. -/
theorem collect_of_end {it : Iterator} (herr : it.nodeIt.err = some .iteratorEnd) {fuel : ℕ} (hfuel : 2 ≤ fuel) :
    it.collect blake2b fuel = some [] := by
  obtain ⟨fuel, rfl⟩ : ∃ n, fuel = n + 2 := ⟨fuel - 2, by omega⟩
  simp [collect, Iterator.next, NodeIterator.next, herr]

end Read

end Iterator

/-! ## Iterating a trie reads its entries from the start key on, in order -/

section Entries

open NodeIterator

variable {blake2b : Bytes → Bytes32} {t : Trie} {tr : Tree}

/-- `NodeIterator` from a start key: after `Hash` and the seek, the iterator
has the walk from the start key's path on left, or has ended when nothing of
the walk is at or after it. The trie's hash must not be the hash of the empty
input, which `newNodeIterator` takes for an empty trie. -/
theorem nodeIterator_spec (hi : t.Inv blake2b tr) (hne : Tree.rootHash blake2b tr ≠ blake2b []) (start : Bytes)
    {fuel : ℕ} (hfuel : (walk [] tr).length < fuel) :
    ∃ it, t.nodeIterator blake2b fuel start = some it ∧
      (it.err = none ∧
          Walking blake2b t tr it ((walk [] tr).filter fun e => ¬ e.1 < (keybytesToHex start).dropLast) ∨
        it.err = some .iteratorEnd ∧ (walk [] tr).filter (fun e => ¬ e.1 < (keybytesToHex start).dropLast) = []) := by
  obtain ⟨hhash, hdb, hroot⟩ := hash_root hi.sound hi.wf
  -- the iterator the seek starts from, before the root
  have hw : Walking blake2b t tr ⟨some (t.hash blake2b).2, [], [], none, fun _ => true⟩ (walk [] tr) :=
    ⟨⟨_, rfl, hdb, hdb ▸ hroot⟩, rfl, .inl ⟨rfl, rfl, rfl⟩⟩
  obtain ⟨it', e, hseek, hsought⟩ := seekLoop_spec hi start (keybytesToHex start).dropLast fuel _ [] _ hw
    (List.nil_append _).symm (fun _ h => absurd h List.not_mem_nil) (fun h => absurd rfl h) hfuel
  refine ⟨{ it' with err := e }, ?_, ?_⟩
  · simp only [Trie.nodeIterator, newNodeIterator, hhash, if_neg hne, seek, hseek, Option.map_some]
  · cases e with
    | none => exact .inl ⟨rfl, Walking.withErr hsought none⟩
    | some e =>
      obtain ⟨rfl, hnil⟩ := hsought
      exact .inr ⟨rfl, hnil⟩

/-- The key-value iterator over a node iterator from a start key reads the
entries of the tree whose paths are at or after the start key's path, in the
order of `leaves`, each with its key read back from its path; fuel of the
number of nodes and three more is enough. -/
theorem iterate_eq_leaves (hi : t.Inv blake2b tr) (hkeys : ∀ q x, lookup tr q = some x → ∃ k, q = keybytesToHex k)
    (hne : Tree.rootHash blake2b tr ≠ blake2b []) (start : Bytes) {fuel : ℕ} (hfuel : nodes tr + 3 ≤ fuel) :
    ∃ l, ((t.nodeIterator blake2b fuel start).bind fun it => (newIterator it).collect blake2b fuel) = some l ∧
      l.map (fun e => (keybytesToHex e.1, e.2)) =
        (leaves tr).filter fun e => ¬ e.1 < (keybytesToHex start).dropLast := by
  have hlen := length_walk_le [] hi.wf
  -- the entries of what is left are the entries of the tree at or after the key
  have hentries : ((walk [] tr).filter fun e => ¬ e.1 < (keybytesToHex start).dropLast).filterMap entryOf =
      (leaves tr).filter fun e => ¬ e.1 < (keybytesToHex start).dropLast := by
    rw [filterMap_entryOf_filter (fun q => decide ¬ q < (keybytesToHex start).dropLast), filterMap_walk, pre_nil_path]
  obtain ⟨it, hit, ⟨herr, hw⟩ | ⟨herr, hnil⟩⟩ := nodeIterator_spec hi hne start (show (walk [] tr).length < fuel by omega)
  · have hk : ∀ e ∈ ((walk [] tr).filter fun e => ¬ e.1 < (keybytesToHex start).dropLast).filterMap entryOf,
        ∃ k, e.1 = keybytesToHex k := by
      rw [hentries]
      intro e he
      exact hkeys e.1 e.2 (mem_leaves.mp (List.mem_of_mem_filter he))
    obtain ⟨l, hl, hmap⟩ := Iterator.collect_spec hi fuel (newIterator it) _ hw herr
      (by have := List.length_filter_le (fun e => decide ¬ e.1 < (keybytesToHex start).dropLast) (walk [] tr); omega) hk
    exact ⟨l, by simp [hit, hl], by rw [hmap, hentries]⟩
  · have hend := Iterator.collect_of_end blake2b (show (newIterator it).nodeIt.err = some .iteratorEnd from herr)
      (show 2 ≤ fuel by omega)
    refine ⟨[], by simp [hit, hend], ?_⟩
    rw [← hentries, hnil]
    rfl

/-- Iterating a trie from a start key reads exactly the entries whose key's
path is at or after the start key's, each once, in strictly increasing order
of the paths. -/
theorem iterator_exact_ordered (hi : t.Inv blake2b tr)
    (hkeys : ∀ q x, lookup tr q = some x → ∃ k, q = keybytesToHex k) (hne : Tree.rootHash blake2b tr ≠ blake2b [])
    (start : Bytes) {fuel : ℕ} (hfuel : nodes tr + 3 ≤ fuel) :
    ∃ l, ((t.nodeIterator blake2b fuel start).bind fun it => (newIterator it).collect blake2b fuel) = some l ∧
      (∀ k v m, (k, v, m) ∈ l ↔
        lookup tr (keybytesToHex k) = some (v, m) ∧ ¬ keybytesToHex k < (keybytesToHex start).dropLast) ∧
      l.Pairwise fun a b => keybytesToHex a.1 < keybytesToHex b.1 := by
  obtain ⟨l, hl, hmap⟩ := iterate_eq_leaves hi hkeys hne start hfuel
  refine ⟨l, hl, fun k v m => ?_, ?_⟩
  · -- keys are read back from paths one to one
    have hinj : Function.Injective fun e : Bytes × Bytes × Bytes => (keybytesToHex e.1, e.2) := by
      rintro ⟨k, x⟩ ⟨k', x'⟩ h
      simp only [Prod.mk.injEq] at h
      rw [keybytesToHex_injective h.1, h.2]
    rw [← List.mem_map_of_injective hinj, hmap, List.mem_filter, mem_leaves]
    simp
  · have hsorted : (l.map fun e => (keybytesToHex e.1, e.2)).Pairwise fun a b => a.1 < b.1 := by
      rw [hmap]
      exact (leaves_sorted tr).filter _
    rw [List.pairwise_map] at hsorted
    exact hsorted

theorem iterator_exact_ordered_empty :
    Trie.Inv (fun b => Vector.replicate 32 b.length.toUInt8) ⟨.nil, memDb, 0, 0⟩ nil ∧
      (∀ q x, lookup nil q = some x → ∃ k, q = keybytesToHex k) ∧
      Tree.rootHash (fun b => Vector.replicate 32 b.length.toUInt8) nil ≠
        (fun b : Bytes => Vector.replicate 32 b.length.toUInt8) [] ∧ nodes nil + 3 ≤ 3 ∧
      ∃ l, ((Trie.nodeIterator (fun b => Vector.replicate 32 b.length.toUInt8) 3 ⟨.nil, memDb, 0, 0⟩ [1]).bind
          fun it => (newIterator it).collect (fun b => Vector.replicate 32 b.length.toUInt8) 3) = some l ∧
        (∀ k v m, (k, v, m) ∈ l ↔
          lookup nil (keybytesToHex k) = some (v, m) ∧ ¬ keybytesToHex k < (keybytesToHex [1]).dropLast) ∧
        l.Pairwise fun a b => keybytesToHex a.1 < keybytesToHex b.1 := by
  have hi : Trie.Inv (fun b => Vector.replicate 32 b.length.toUInt8) ⟨.nil, memDb, 0, 0⟩ nil :=
    Trie.inv_new memDb rfl Trie.storeFresh_memDb
  have hkeys : ∀ q x, lookup nil q = some x → ∃ k, q = keybytesToHex k := fun _ _ h => by cases h
  have hne : Tree.rootHash (fun b => Vector.replicate 32 b.length.toUInt8) nil ≠
      (fun b : Bytes => Vector.replicate 32 b.length.toUInt8) [] := by decide
  exact ⟨hi, hkeys, hne, le_rfl, iterator_exact_ordered hi hkeys hne [1] le_rfl⟩

/-- With no input but the empty one hashing to the hash of the empty input,
no tree's root hash is that hash. -/
theorem rootHash_ne_empty_hash (hcoll : ∀ b, blake2b b = blake2b [] → b = []) (u : Tree) :
    Tree.rootHash blake2b u ≠ blake2b [] := by
  intro h
  cases hn : u.isNil
  · rw [rootHash_of_ne_nil hn, Tree.hash] at h
    exact enc_ne_nil blake2b u (hcoll _ h)
  · rw [Tree.eq_nil_of_isNil hn] at h
    exact Rlp.encodeString_ne_nil [] (hcoll _ h)

/-- After any run of updates, deletes, gets, hashes and commits from the empty
trie over the in-memory store, iterating the trie from a start key reads, with
enough fuel, exactly the keys whose last written value is not empty and whose
path is at or after the start key's, with those values and empty metadata, each
once, in increasing order of their paths. The hash is taken to give no other
input the hash of the empty input. -/
theorem run_iterate_exact (hcoll : ∀ b, blake2b b = blake2b [] → b = []) (ops : List Op)
    (hs : ∀ op ∈ ops, op.Small) (hf : Trie.RunFresh blake2b ⟨.nil, memDb, 0, 0⟩ ops) :
    ∃ t' gets, ((Trie.new blake2b (Vector.replicate 32 0) memDb).bind fun t => t.run blake2b ops) = .ok (t', gets) ∧
      ∃ F, ∀ start fuel, F ≤ fuel → ∃ l,
        ((t'.nodeIterator blake2b fuel start).bind fun it => (newIterator it).collect blake2b fuel) = some l ∧
        (∀ k v m, (k, v, m) ∈ l ↔ ops.foldl Op.write (fun _ => []) k = v ∧ v ≠ [] ∧ m = [] ∧
          ¬ keybytesToHex k < (keybytesToHex start).dropLast) ∧
        l.Pairwise fun a b => keybytesToHex a.1 < keybytesToHex b.1 := by
  obtain ⟨t', tr', hrun, hi, ha⟩ :=
    Trie.run_inv ops _ _ _ (Trie.inv_new memDb rfl Trie.storeFresh_memDb) Tree.agrees_empty hs hf
  refine ⟨t', _, by rw [Trie.new_zero]; exact hrun, nodes tr' + 3, fun start fuel hfuel => ?_⟩
  obtain ⟨l, hl, hmem, hsorted⟩ := iterator_exact_ordered hi ha.2 (rootHash_ne_empty_hash hcoll tr') start hfuel
  refine ⟨l, hl, fun k v m => ?_, hsorted⟩
  -- the tree holds the map the run wrote, each value without metadata
  rw [hmem, ha.1 k]
  by_cases hk : ops.foldl Op.write (fun _ => []) k = []
  · simp only [hk, if_true, reduceCtorEq, false_and, false_iff]
    rintro ⟨rfl, hv, -⟩
    exact hv rfl
  · simp only [hk, if_false, Option.some.injEq, Prod.mk.injEq]
    constructor
    · rintro ⟨⟨rfl, rfl⟩, hlt⟩
      exact ⟨rfl, hk, rfl, hlt⟩
    · rintro ⟨rfl, -, rfl, hlt⟩
      exact ⟨⟨rfl, rfl⟩, hlt⟩

theorem run_iterate_exact_two :
    (∀ b, (fun b : Bytes => Vector.replicate 32 (if b = [] then (1 : UInt8) else 0)) b =
        (fun b : Bytes => Vector.replicate 32 (if b = [] then (1 : UInt8) else 0)) [] → b = []) ∧
      (∀ op ∈ [Op.update [1] [2], .update [3] [4]], op.Small) ∧
      Trie.RunFresh (fun b => Vector.replicate 32 (if b = [] then (1 : UInt8) else 0)) ⟨.nil, memDb, 0, 0⟩
        [.update [1] [2], .update [3] [4]] ∧
      ∃ t' gets, ((Trie.new (fun b => Vector.replicate 32 (if b = [] then (1 : UInt8) else 0)) (Vector.replicate 32 0)
          memDb).bind fun t => t.run (fun b => Vector.replicate 32 (if b = [] then (1 : UInt8) else 0))
            [.update [1] [2], .update [3] [4]]) = .ok (t', gets) ∧
        ∃ F, ∀ start fuel, F ≤ fuel → ∃ l,
          ((t'.nodeIterator (fun b => Vector.replicate 32 (if b = [] then (1 : UInt8) else 0)) fuel start).bind
            fun it => (newIterator it).collect (fun b => Vector.replicate 32 (if b = [] then (1 : UInt8) else 0)) fuel) =
              some l ∧
          (∀ k v m, (k, v, m) ∈ l ↔ [Op.update [1] [2], .update [3] [4]].foldl Op.write (fun _ => []) k = v ∧
            v ≠ [] ∧ m = [] ∧ ¬ keybytesToHex k < (keybytesToHex start).dropLast) ∧
          l.Pairwise fun a b => keybytesToHex a.1 < keybytesToHex b.1 := by
  have hcoll : ∀ b, (fun b : Bytes => Vector.replicate 32 (if b = [] then (1 : UInt8) else 0)) b =
      (fun b : Bytes => Vector.replicate 32 (if b = [] then (1 : UInt8) else 0)) [] → b = [] := by
    intro b h
    by_contra hb
    simp only [hb, if_false, if_true] at h
    exact absurd h (by decide)
  have hs : ∀ op ∈ [Op.update [1] [2], .update [3] [4]], op.Small := by simp [Op.Small]
  have hf : Trie.RunFresh (fun b => Vector.replicate 32 (if b = [] then (1 : UInt8) else 0)) ⟨.nil, memDb, 0, 0⟩
      [.update [1] [2], .update [3] [4]] := by
    simp [Trie.RunFresh, Op.commits]
  exact ⟨hcoll, hs, hf, run_iterate_exact hcoll _ hs hf⟩

end Entries

end Workshare
