import Mathlib

/-!
# Go's `container/heap`

The package keeps a binary min-heap in any container that offers `Len`, `Less`
and `Swap` of places, and `Push` and `Pop` at the end (`Interface`). `up`
swaps an element with its parent while it is less; `down` swaps it with its
lesser child while that child is less, within the first `n` places; `Push`,
`Pop`, `Remove` and `Fix` are built from these. They are translated as the
package writes them, over an arbitrary interface whose methods may panic
(`none`).

What the functions do is stated over a view of the container as a list,
ordered by a key into a linear order (`Lawful`): `Less` compares keys and
`Swap` swaps the list. The parent of place `k` is `(k - 1) / 2`; a place `k`
with `0 < k` below `n` is *in order* when its parent's key is at most its own
(`Ordered`). `up` at `j` repairs a list in order but at `j` (`UpOrder`),
`down` at `i` one in order but at `i` and at `i`'s children (`DownOrder`); in
both, the children of the place are at least its parent (`Grand`), which is
what makes one swap keep the rest in order.
-/
namespace GoHeap

/-- `heap.Interface`. A method that would panic (a place out of range, a
`Pop` of nothing) answers `none`. -/
structure Interface (σ α : Type) where
  len : σ → ℕ
  less : σ → ℕ → ℕ → Option Bool
  swap : σ → ℕ → ℕ → Option σ
  push : σ → α → Option σ
  pop : σ → Option (σ × α)

variable {σ α : Type}

/-- `up`: while the element at `j` is less than its parent, swap them. Go's
division makes 0 its own parent, which ends the loop at the root. -/
def up (h : Interface σ α) (s : σ) (j : ℕ) : Option σ :=
  let i := (j - 1) / 2
  if _ : i = j then some s
  else
    match h.less s j i with
    | some true =>
      match h.swap s i j with
      | some s' => up h s' i
      | none => none
    | some false => some s
    | none => none
termination_by j
decreasing_by omega

/-- The loop of `down` within the first `n` places: while the lesser child of
the element at `i` is less than it, swap them. The place where it stops. -/
def downLoop (h : Interface σ α) (s : σ) (i n : ℕ) : Option (σ × ℕ) :=
  let j1 := 2 * i + 1
  if _ : n ≤ j1 then some (s, i)
  else
    -- whether the right child is there and less than the left one
    match (if j1 + 1 < n then h.less s (j1 + 1) j1 else some false) with
    | none => none
    | some right =>
      let j := if right then j1 + 1 else j1
      match h.less s j i with
      | some true =>
        match h.swap s i j with
        | some s' => downLoop h s' j n
        | none => none
      | some false => some (s, i)
      | none => none
termination_by n - i
decreasing_by split <;> omega

/-- `down`: the state, and whether the element at `i0` moved. -/
def down (h : Interface σ α) (s : σ) (i0 n : ℕ) : Option (σ × Bool) :=
  (downLoop h s i0 n).map fun r => (r.1, decide (i0 < r.2))

/-- `heap.Push`. -/
def push (h : Interface σ α) (s : σ) (x : α) : Option σ := do
  let s ← h.push s x
  up h s (h.len s - 1)

/-- `heap.Pop`: the first element goes last, the new first goes down, and the
last is popped. -/
def pop (h : Interface σ α) (s : σ) : Option (σ × α) := do
  let n := h.len s - 1
  let s ← h.swap s 0 n
  let (s, _) ← down h s 0 n
  h.pop s

/-- `heap.Remove`: the element at `i` goes last, the one put in its place
goes down or else up, and the last is popped. -/
def remove (h : Interface σ α) (s : σ) (i : ℕ) : Option (σ × α) := do
  let n := h.len s - 1
  let s ← if n ≠ i then do
      let s ← h.swap s i n
      let (s, moved) ← down h s i n
      if moved then pure s else up h s i
    else pure s
  h.pop s

/-- `heap.Fix`: the element at `i` goes down, or else up. -/
def fix (h : Interface σ α) (s : σ) (i : ℕ) : Option σ := do
  let (s, moved) ← down h s i (h.len s)
  if moved then pure s else up h s i

/-! ## Heap order on a list -/

section Order

variable {β : Type} [LinearOrder β] (key : α → β)

/-- The element at `p` is at most the one at `c`, where both are there. -/
def PairOk (l : List α) (p c : ℕ) : Prop := ∀ a ∈ l[p]?, ∀ b ∈ l[c]?, key a ≤ key b

/-- Every place below `n` that is not skipped is at least its parent. -/
def Ordered (l : List α) (n : ℕ) (skip : ℕ → Prop) : Prop :=
  ∀ k, 0 < k → k < n → ¬ skip k → PairOk key l ((k - 1) / 2) k

/-- The children of `j` below `n` are at least `j`'s parent; nothing is asked
of the root. -/
def Grand (l : List α) (n j : ℕ) : Prop :=
  0 < j → ∀ c, 0 < c → c < n → (c - 1) / 2 = j → PairOk key l ((j - 1) / 2) c

/-- What `up` at `j` needs. -/
structure UpOrder (l : List α) (n j : ℕ) : Prop where
  except : Ordered key l n (· = j)
  grand : Grand key l n j

/-- What `down` at `i` needs. -/
structure DownOrder (l : List α) (n i : ℕ) : Prop where
  except : Ordered key l n fun k => k = i ∨ (k - 1) / 2 = i
  grand : Grand key l n i

variable {key}

theorem PairOk.trans {l : List α} {p m c : ℕ} (h₁ : PairOk key l p m) (h₂ : PairOk key l m c)
    (hm : m < l.length) : PairOk key l p c := by
  intro a ha b hb
  have hm' : l[m]? = some l[m] := List.getElem?_eq_getElem hm
  exact (h₁ a ha _ hm').trans (h₂ _ hm' b hb)

theorem pairOk_of_le {l : List α} {p c : ℕ} (hp : p < l.length) (hc : c < l.length)
    (h : key l[p] ≤ key l[c]) : PairOk key l p c := by
  intro a ha b hb
  rw [List.getElem?_eq_getElem hp, Option.mem_some_iff] at ha
  rw [List.getElem?_eq_getElem hc, Option.mem_some_iff] at hb
  rw [← ha, ← hb]
  exact h

theorem getElem?_swap {l : List α} {i j : ℕ} (hi : i < l.length) (hj : j < l.length) (k : ℕ) :
    (l.swap i j)[k]? = l[Equiv.swap i j k]? := by
  rw [List.swap_eq_of_lt hi hj, List.getElem?_set, List.getElem?_set, List.length_set, Equiv.swap_apply_def]
  split_ifs <;> subst_vars <;> simp_all

/-- Pairs after a swap are pairs before it, at the swapped places. -/
theorem pairOk_swap {l : List α} {i j : ℕ} (hi : i < l.length) (hj : j < l.length) (p c : ℕ) :
    PairOk key (l.swap i j) p c ↔ PairOk key l (Equiv.swap i j p) (Equiv.swap i j c) := by
  simp only [PairOk, getElem?_swap hi hj]

theorem pairOk_refl (l : List α) (k : ℕ) : PairOk key l k k := by
  intro a ha b hb
  obtain rfl : a = b := Option.some.inj ((Option.mem_def.mp ha).symm.trans (Option.mem_def.mp hb))
  exact le_refl _

/-- One swap of `up`: the element at `j`, less than its parent, trades places
with it, and the order then asks for nothing but at the parent. -/
theorem UpOrder.swap {l : List α} {n j : ℕ} (ho : UpOrder key l n j) (hn : n ≤ l.length) (hj : j < n)
    (hj0 : 0 < j) (hlt : PairOk key l j ((j - 1) / 2)) :
    UpOrder key (l.swap ((j - 1) / 2) j) n ((j - 1) / 2) := by
  have hil : (j - 1) / 2 < l.length := by omega
  have hjl : j < l.length := by omega
  constructor
  · intro k hk0 hkn hki
    rw [pairOk_swap hil hjl]
    by_cases hkj : k = j
    · -- the swapped pair itself
      subst hkj
      rw [Equiv.swap_apply_left, Equiv.swap_apply_right]
      exact hlt
    by_cases hpj : (k - 1) / 2 = j
    · -- a child of `j`: it now sits below the old parent
      rw [hpj, Equiv.swap_apply_right, Equiv.swap_apply_of_ne_of_ne hki hkj]
      exact ho.grand hj0 k hk0 hkn hpj
    by_cases hpi : (k - 1) / 2 = (j - 1) / 2
    · -- a sibling of `j`: it now sits below `j`'s element, which is less than the old parent
      have hsib : PairOk key l ((j - 1) / 2) k := hpi ▸ ho.except k hk0 hkn hkj
      rw [hpi, Equiv.swap_apply_left, Equiv.swap_apply_of_ne_of_ne hki hkj]
      exact hlt.trans hsib hil
    · rw [Equiv.swap_apply_of_ne_of_ne hpi hpj, Equiv.swap_apply_of_ne_of_ne hki hkj]
      exact ho.except k hk0 hkn hkj
  · intro hi0 c hc0 hcn hpc
    have hup : PairOk key l (((j - 1) / 2 - 1) / 2) ((j - 1) / 2) :=
      ho.except _ hi0 (by omega) (by omega)
    rw [pairOk_swap hil hjl, Equiv.swap_apply_of_ne_of_ne (by omega) (by omega)]
    by_cases hcj : c = j
    · subst hcj
      rw [Equiv.swap_apply_right]
      exact hup
    · have hsib : PairOk key l ((j - 1) / 2) c := hpc ▸ ho.except c hc0 hcn hcj
      rw [Equiv.swap_apply_of_ne_of_ne (by omega) hcj]
      exact hup.trans hsib hil

/-- `up` stops at the root, or where the element is at least its parent. -/
theorem UpOrder.ordered {l : List α} {n j : ℕ} (ho : UpOrder key l n j)
    (hstop : 0 < j → PairOk key l ((j - 1) / 2) j) : Ordered key l n fun _ => False := by
  intro k hk0 hkn _
  by_cases hkj : k = j
  · subst hkj
    exact hstop hk0
  · exact ho.except k hk0 hkn hkj

/-- One swap of `down`: the element at `i` trades places with its lesser
child `j`, which is less than it; the order then asks for nothing but at `j`
and its children, and `j`'s new parent is at most it. -/
theorem DownOrder.swap {l : List α} {n i j : ℕ} (ho : DownOrder key l n i) (hn : n ≤ l.length)
    (hjn : j < n) (hj0 : 0 < j) (hij : (j - 1) / 2 = i)
    (hmin : ∀ c, 0 < c → c < n → (c - 1) / 2 = i → PairOk key l j c) (hlt : PairOk key l j i) :
    DownOrder key (l.swap i j) n j ∧ PairOk key (l.swap i j) i j := by
  have hil : i < l.length := by omega
  have hjl : j < l.length := by omega
  refine ⟨⟨?_, ?_⟩, ?_⟩
  · intro k hk0 hkn hk
    obtain ⟨hkj, hpj⟩ := not_or.mp hk
    rw [pairOk_swap hil hjl]
    by_cases hki : k = i
    · -- `i` now holds its old child, which is at least `i`'s parent
      subst hki
      rw [Equiv.swap_apply_left, Equiv.swap_apply_of_ne_of_ne (by omega) (by omega)]
      exact ho.grand hk0 j hj0 hjn hij
    by_cases hpi : (k - 1) / 2 = i
    · -- a sibling of `j`: at least the lesser child, now at `i`
      rw [hpi, Equiv.swap_apply_left, Equiv.swap_apply_of_ne_of_ne hki hkj]
      exact hmin k hk0 hkn hpi
    · rw [Equiv.swap_apply_of_ne_of_ne hpi hpj, Equiv.swap_apply_of_ne_of_ne hki hkj]
      exact ho.except k hk0 hkn (not_or.mpr ⟨hki, hpi⟩)
  · intro _ c hc0 hcn hpc
    have hjc : PairOk key l j c := hpc ▸ ho.except c hc0 hcn (not_or.mpr ⟨by omega, by omega⟩)
    rw [pairOk_swap hil hjl, hij, Equiv.swap_apply_left, Equiv.swap_apply_of_ne_of_ne (by omega) (by omega)]
    exact hjc
  · rw [pairOk_swap hil hjl, Equiv.swap_apply_left, Equiv.swap_apply_right]
    exact hlt

/-- Where `down` stops, the children are at least the element, and what is
left to repair is above it. -/
theorem DownOrder.upOrder {l : List α} {n i : ℕ} (ho : DownOrder key l n i)
    (hc : ∀ c, 0 < c → c < n → (c - 1) / 2 = i → PairOk key l i c) : UpOrder key l n i where
  except k hk0 hkn hki := by
    by_cases hpi : (k - 1) / 2 = i
    · rw [hpi]
      exact hc k hk0 hkn hpi
    · exact ho.except k hk0 hkn (not_or.mpr ⟨hki, hpi⟩)
  grand := ho.grand

/-- `l'` is `l` with its first `n` places rearranged. -/
structure Within (n : ℕ) (l' l : List α) : Prop where
  perm : l'.Perm l
  drop_eq : l'.drop n = l.drop n

theorem Within.refl (n : ℕ) (l : List α) : Within n l l := ⟨.refl l, rfl⟩

theorem Within.trans {n : ℕ} {l₁ l₂ l₃ : List α} (h₁ : Within n l₁ l₂) (h₂ : Within n l₂ l₃) :
    Within n l₁ l₃ :=
  ⟨h₁.perm.trans h₂.perm, h₁.drop_eq.trans h₂.drop_eq⟩

theorem within_swap {l : List α} {n i j : ℕ} (hi : i < n) (hj : j < n) (hn : n ≤ l.length) :
    Within n (l.swap i j) l := by
  refine ⟨List.swap_perm l i j, List.ext_getElem? fun k => ?_⟩
  rw [List.getElem?_drop, List.getElem?_drop, getElem?_swap (by omega) (by omega),
    Equiv.swap_apply_of_ne_of_ne (by omega) (by omega)]

theorem pairOk_append {l r : List α} {p c : ℕ} (hp : p < l.length) (hc : c < l.length) :
    PairOk key (l ++ r) p c ↔ PairOk key l p c := by
  simp only [PairOk, List.getElem?_append_left hp, List.getElem?_append_left hc]

theorem Ordered.of_append {l r : List α} {skip : ℕ → Prop} (ho : Ordered key (l ++ r) l.length skip) :
    Ordered key l l.length skip := fun k hk0 hkn hk =>
  (pairOk_append (by omega) hkn).mp (ho k hk0 hkn hk)

/-- A heap with one more element at the end needs `up` at that place only. -/
theorem Ordered.upOrder_append {l : List α} (ho : Ordered key l l.length fun _ => False) (x : α) :
    UpOrder key (l ++ [x]) (l.length + 1) l.length where
  except k hk0 hkn hk := (pairOk_append (by omega) (by omega)).mpr (ho k hk0 (by omega) id)
  grand _ c _ hcn hpc := absurd hcn (by omega)

/-- The root of a heap is at most every element. -/
theorem Ordered.root_le {l : List α} (ho : Ordered key l l.length fun _ => False) :
    ∀ k, k < l.length → PairOk key l 0 k := by
  intro k
  induction k using Nat.strongRecOn with
  | _ k ih =>
    intro hk
    rcases Nat.eq_zero_or_pos k with rfl | hk0
    · exact pairOk_refl _ _
    · exact (ih _ (by omega) (by omega)).trans (ho k hk0 hk id) (by omega)

/-- The last element swapped into place `i` leaves the first `n` places in
order but at `i` and its children; its new children are at least its parent,
through the element that was there. -/
theorem Ordered.downOrder_swap {l : List α} {n i : ℕ} (ho : Ordered key l l.length fun _ => False)
    (hi : i ≤ n) (hn : l.length = n + 1) : DownOrder key (l.swap i n) n i := by
  have hil : i < l.length := by omega
  have hnl : n < l.length := by omega
  constructor
  · intro k hk0 hkn hk
    obtain ⟨hki, hpi⟩ := not_or.mp hk
    rw [pairOk_swap hil hnl, Equiv.swap_apply_of_ne_of_ne hpi (by omega),
      Equiv.swap_apply_of_ne_of_ne hki (by omega)]
    exact ho k hk0 (by omega) id
  · intro hi0 c hc0 hcn hpc
    have hic : PairOk key l i c := hpc ▸ ho c hc0 (by omega) id
    rw [pairOk_swap hil hnl, Equiv.swap_apply_of_ne_of_ne (by omega) (by omega),
      Equiv.swap_apply_of_ne_of_ne (by omega) (by omega)]
    exact (ho i hi0 hil id).trans hic hil

theorem PairOk.congr_key {key₀ : α → β} {l : List α} {p c : ℕ} (h : PairOk key₀ l p c)
    (hp : p < l.length) (hc : c < l.length) (hkp : key l[p] = key₀ l[p]) (hkc : key l[c] = key₀ l[c]) :
    PairOk key l p c := by
  apply pairOk_of_le hp hc
  rw [hkp, hkc]
  exact h _ (List.getElem?_eq_getElem hp) _ (List.getElem?_eq_getElem hc)

/-- A heap whose element at `i` gets a new key needs `down` at `i`, or else `up`. -/
theorem Ordered.downOrder_of_key {key₀ : α → β} {l : List α} {i : ℕ}
    (ho : Ordered key₀ l l.length fun _ => False) (hi : i < l.length)
    (hkey : ∀ k (hk : k < l.length), k ≠ i → key l[k] = key₀ l[k]) : DownOrder key l l.length i := by
  constructor
  · intro k hk0 hkn hk
    obtain ⟨hki, hpi⟩ := not_or.mp hk
    exact (ho k hk0 hkn id).congr_key (by omega) hkn (hkey _ (by omega) hpi) (hkey k hkn hki)
  · intro hi0 c hc0 hcn hpc
    have hic : PairOk key₀ l i c := hpc ▸ ho c hc0 hcn id
    exact ((ho i hi0 hi id).trans hic hi).congr_key (by omega) hcn (hkey _ (by omega) (by omega))
      (hkey c hcn (by omega))

/-- The order depends on the keys of the elements only. -/
theorem Ordered.congr {key₀ : α → β} {l : List α} {n : ℕ} {skip : ℕ → Prop} (ho : Ordered key₀ l n skip)
    (hkey : ∀ x ∈ l, key x = key₀ x) : Ordered key l n skip := by
  intro k hk0 hkn hk a ha b hb
  rw [hkey a (List.mem_of_getElem? ha), hkey b (List.mem_of_getElem? hb)]
  exact ho k hk0 hkn hk a ha b hb

end Order

/-! ## The functions on a lawful interface -/

section Lawful

variable {β : Type} [LinearOrder β]

/-- On the states where `Inv` holds, the interface is the list `view s`
ordered by `key`: `Less` compares keys, `Swap` swaps, `Pop` takes the last
element, and all keep `Inv`. `Push` is left to each use, since what it may be
given depends on the container. -/
structure Lawful (h : Interface σ α) (view : σ → List α) (key : α → β) (Inv : σ → Prop) : Prop where
  len : ∀ s, Inv s → h.len s = (view s).length
  less : ∀ s i j (hi : i < (view s).length) (hj : j < (view s).length), Inv s →
    h.less s i j = some (decide (key (view s)[i] < key (view s)[j]))
  swap : ∀ s i j, Inv s → i < (view s).length → j < (view s).length →
    ∃ s', h.swap s i j = some s' ∧ Inv s' ∧ view s' = (view s).swap i j
  pop : ∀ s, Inv s → view s ≠ [] → ∃ s' x, h.pop s = some (s', x) ∧ Inv s' ∧ view s = view s' ++ [x]

variable {h : Interface σ α} {view : σ → List α} {key : α → β} {Inv : σ → Prop}

namespace Lawful

variable (hl : Lawful h view key Inv) {s : σ} (hs : Inv s) {i j : ℕ} (hi : i < (view s).length)
  (hj : j < (view s).length)
include hl hs hi hj

theorem less_ne_none : h.less s i j ≠ none := by
  rw [hl.less s i j hi hj hs]
  exact Option.some_ne_none _

theorem pairOk_of_less_true (hless : h.less s i j = some true) : PairOk key (view s) i j := by
  rw [hl.less s i j hi hj hs, Option.some.injEq, decide_eq_true_iff] at hless
  exact pairOk_of_le hi hj hless.le

theorem pairOk_of_less_false (hless : h.less s i j = some false) : PairOk key (view s) j i := by
  rw [hl.less s i j hi hj hs, Option.some.injEq, decide_eq_false_iff_not, not_lt] at hless
  exact pairOk_of_le hj hi hless

theorem swap_eq (hswap : h.swap s i j = some s') : Inv s' ∧ view s' = (view s).swap i j := by
  obtain ⟨s₁, hs₁, hinv, hv⟩ := hl.swap s i j hs hi hj
  rw [hswap, Option.some.injEq] at hs₁
  subst hs₁
  exact ⟨hinv, hv⟩

theorem swap_ne_none : h.swap s i j ≠ none := by
  obtain ⟨s₁, hs₁, -⟩ := hl.swap s i j hs hi hj
  rw [hs₁]
  exact Option.some_ne_none _

end Lawful

/-- The child `down` picks is a child below `n`. -/
theorem child_spec {s : σ} {n i : ℕ} {right : Bool} (hi : ¬n ≤ 2 * i + 1)
    (hright : (if _ : 2 * i + 1 + 1 < n then h.less s (2 * i + 1 + 1) (2 * i + 1) else some false) = some right) :
    (if _ : right = true then 2 * i + 1 + 1 else 2 * i + 1) < n ∧
      0 < (if _ : right = true then 2 * i + 1 + 1 else 2 * i + 1) ∧
      ((if _ : right = true then 2 * i + 1 + 1 else 2 * i + 1) - 1) / 2 = i := by
  split_ifs at hright ⊢ <;> simp_all
  omega

variable (hl : Lawful h view key Inv)
include hl

/-- `up` at `j` below `n` repairs the order below `n`, rearranging only places
below `n`. -/
theorem up_spec {n : ℕ} (s : σ) (j : ℕ) (hs : Inv s) (hn : n ≤ (view s).length) (hj : j < n)
    (ho : UpOrder key (view s) n j) :
    ∃ s', up h s j = some s' ∧ Inv s' ∧ Within n (view s') (view s) ∧ Ordered key (view s') n fun _ => False := by
  induction s, j using up.induct h with
  | case1 s j i hij =>
    -- at the root
    rw [up, dif_pos hij]
    exact ⟨s, rfl, hs, .refl n _, ho.ordered fun hj0 => absurd hij (by omega)⟩
  | case2 s j i hij hless s' hswap ih =>
    simp only [i] at hij hless hswap ih
    have hjl : j < (view s).length := by omega
    have hil : (j - 1) / 2 < (view s).length := by omega
    have hlt := hl.pairOk_of_less_true hs hjl hil hless
    obtain ⟨hs', hv⟩ := hl.swap_eq hs hil hjl hswap
    have ho' := ho.swap hn hj (by omega) hlt
    rw [← hv] at ho'
    obtain ⟨s'', hup, hs'', hw, hord⟩ :=
      ih hs' (by rw [hv, List.length_swap]; exact hn) (by omega) ho'
    refine ⟨s'', ?_, hs'', hw.trans (hv ▸ within_swap (by omega) hj hn), hord⟩
    rw [up, dif_neg hij]
    simp only [hless, hswap]
    exact hup
  | case3 s j i hij hless hswap =>
    exact absurd hswap (hl.swap_ne_none hs (by omega) (by omega))
  | case4 s j i hij hless =>
    -- the element is at least its parent
    simp only [i] at hij hless
    have hge := hl.pairOk_of_less_false hs (by omega) (by omega) hless
    rw [up, dif_neg hij]
    simp only [hless]
    exact ⟨s, rfl, hs, .refl n _, ho.ordered fun _ => hge⟩
  | case5 s j i hij hless =>
    exact absurd hless (hl.less_ne_none hs (by omega) (by omega))

/-- The child `down` picks is at most every child. -/
theorem Lawful.pick_min {s : σ} (hs : Inv s) {n : ℕ} (hn : n ≤ (view s).length) {i : ℕ}
    (hi : 2 * i + 1 < n) {right : Bool}
    (hright : (if _ : 2 * i + 1 + 1 < n then h.less s (2 * i + 1 + 1) (2 * i + 1) else some false) = some right) :
    ∀ c, 0 < c → c < n → (c - 1) / 2 = i →
      PairOk key (view s) (if _ : right = true then 2 * i + 1 + 1 else 2 * i + 1) c := by
  intro c hc0 hcn hpc
  have hc : c = 2 * i + 1 ∨ c = 2 * i + 1 + 1 := by omega
  split_ifs at hright with h2
  · -- both children are there, and `Less` told which is less
    cases right
    · have hle := hl.pairOk_of_less_false hs (by omega) (by omega) hright
      rcases hc with rfl | rfl
      · exact pairOk_refl _ _
      · exact hle
    · have hle := hl.pairOk_of_less_true hs (by omega) (by omega) hright
      rcases hc with rfl | rfl
      · exact hle
      · exact pairOk_refl _ _
  · -- only the left child is there
    cases hright
    obtain rfl : c = 2 * i + 1 := by omega
    exact pairOk_refl _ _

/-- The loop of `down` at `i` within `n` places: it stops at once, with the
children at least the element, or it moves the element and leaves the first
`n` places in order. -/
theorem downLoop_spec {n : ℕ} (s : σ) (i : ℕ) (hs : Inv s) (hn : n ≤ (view s).length)
    (ho : DownOrder key (view s) n i) :
    ∃ s' i', downLoop h s i n = some (s', i') ∧ Inv s' ∧ Within n (view s') (view s) ∧
      ((i' = i ∧ view s' = view s ∧ ∀ c, 0 < c → c < n → (c - 1) / 2 = i → PairOk key (view s) i c) ∨
        (i < i' ∧ Ordered key (view s') n fun _ => False)) := by
  induction s, i using downLoop.induct h n with
  | case1 s i j1 hj1 =>
    -- no child below `n`
    rw [downLoop, dif_pos hj1]
    exact ⟨s, i, rfl, hs, .refl n _, .inl ⟨rfl, rfl, fun c _ hcn hpc => absurd hcn (by omega)⟩⟩
  | case2 s i j1 hj1 hright =>
    simp only [j1] at hj1 hright
    split_ifs at hright with h2
    exact absurd hright (hl.less_ne_none hs (by omega) (by omega))
  | case3 s i j1 hj1 right hright j hless s' hswap ih =>
    obtain ⟨hjn, hj0, hij⟩ : j < n ∧ 0 < j ∧ (j - 1) / 2 = i := child_spec hj1 hright
    have hmin : ∀ c, 0 < c → c < n → (c - 1) / 2 = i → PairOk key (view s) j c :=
      hl.pick_min hs hn (by omega) hright
    have hlt := hl.pairOk_of_less_true hs (by omega) (by omega) hless
    obtain ⟨hs', hv⟩ := hl.swap_eq hs (by omega) (by omega) hswap
    obtain ⟨ho', hpair⟩ := ho.swap hn hjn hj0 hij hmin hlt
    rw [← hv] at ho' hpair
    obtain ⟨s'', i'', hloop, hs'', hw, hres⟩ := ih hs' (by rw [hv, List.length_swap]; exact hn) ho'
    refine ⟨s'', i'', ?_, hs'', hw.trans (hv ▸ within_swap (by omega) hjn hn), .inr ?_⟩
    · rw [downLoop, dif_neg hj1]
      simp only [j1, j, dite_eq_ite] at hright hless hswap
      simp only [hright, hless, hswap]
      exact hloop
    · rcases hres with ⟨rfl, hv', hc⟩ | ⟨hlt', hord⟩
      · -- it stops at `j`, below its new parent
        refine ⟨by omega, ?_⟩
        rw [hv']
        exact (ho'.upOrder hc).ordered fun _ => by rw [hij]; exact hpair
      · exact ⟨by omega, hord⟩
  | case4 s i j1 hj1 right hright j hless hswap =>
    obtain ⟨hjn, -⟩ : j < n ∧ _ := child_spec hj1 hright
    exact absurd hswap (hl.swap_ne_none hs (by omega) (by omega))
  | case5 s i j1 hj1 right hright j hless =>
    -- the lesser child is at least the element, so every child is
    obtain ⟨hjn, -, -⟩ : j < n ∧ 0 < j ∧ (j - 1) / 2 = i := child_spec hj1 hright
    have hmin : ∀ c, 0 < c → c < n → (c - 1) / 2 = i → PairOk key (view s) j c :=
      hl.pick_min hs hn (by omega) hright
    have hge := hl.pairOk_of_less_false hs (by omega) (by omega) hless
    refine ⟨s, i, ?_, hs, .refl n _,
      .inl ⟨rfl, rfl, fun c hc0 hcn hpc => hge.trans (hmin c hc0 hcn hpc) (by omega)⟩⟩
    rw [downLoop, dif_neg hj1]
    simp only [j1, j, dite_eq_ite] at hright hless
    simp only [hright, hless]
  | case6 s i j1 hj1 right hright j hless =>
    obtain ⟨hjn, -⟩ : j < n ∧ _ := child_spec hj1 hright
    exact absurd hless (hl.less_ne_none hs (by omega) (by omega))


/-- `down` at `i` within `n` places: if the element did not move, what is
left to repair is above it; if it moved, the first `n` places are in order. -/
theorem down_spec {n : ℕ} (s : σ) (i : ℕ) (hs : Inv s) (hn : n ≤ (view s).length)
    (ho : DownOrder key (view s) n i) :
    ∃ s' moved, down h s i n = some (s', moved) ∧ Inv s' ∧ Within n (view s') (view s) ∧
      (moved = false → view s' = view s ∧ UpOrder key (view s) n i) ∧
      (moved = true → Ordered key (view s') n fun _ => False) := by
  obtain ⟨s', i', hloop, hs', hw, hres⟩ := downLoop_spec hl s i hs hn ho
  refine ⟨s', decide (i < i'), by rw [down, hloop]; rfl, hs', hw, fun hm => ?_, fun hm => ?_⟩
  · rcases hres with ⟨rfl, hv, hc⟩ | ⟨hlt, -⟩
    · exact ⟨hv, ho.upOrder hc⟩
    · simp [hlt] at hm
  · rcases hres with ⟨rfl, -, -⟩ | ⟨-, hord⟩
    · simp at hm
    · exact hord

/-- `Pop` of the last element when the places before it are in order. -/
theorem Lawful.pop_last {s : σ} (hs : Inv s) {n : ℕ} (hlen : (view s).length = n + 1)
    (hord : Ordered key (view s) n fun _ => False) :
    ∃ s' x, h.pop s = some (s', x) ∧ Inv s' ∧ view s = view s' ++ [x] ∧ (view s)[n]? = some x ∧
      Ordered key (view s') (view s').length fun _ => False := by
  obtain ⟨s', x, hpop, hs', hv⟩ := hl.pop s hs (by intro h0; simp [h0] at hlen)
  have hlen' : (view s').length = n := by
    have := congrArg List.length hv
    simp only [List.length_append, List.length_singleton] at this
    omega
  refine ⟨s', x, hpop, hs', hv, ?_, ?_⟩
  · rw [hv, List.getElem?_append_right (by omega), hlen', Nat.sub_self]
    rfl
  · rw [hv, ← hlen'] at hord
    exact hord.of_append


/-- `down` at `i`, and `up` if the element did not move: the first `n`
places end in order. -/
theorem down_up_spec {n : ℕ} (s : σ) (i : ℕ) (hs : Inv s) (hn : n ≤ (view s).length) (hi : i < n)
    (ho : DownOrder key (view s) n i) :
    ∃ s₁ moved s', down h s i n = some (s₁, moved) ∧ (if moved then some s₁ else up h s₁ i) = some s' ∧
      Inv s' ∧ Within n (view s') (view s) ∧ Ordered key (view s') n fun _ => False := by
  obtain ⟨s₁, moved, hdown, hs₁, hw₁, hstay, hmoved⟩ := down_spec hl s i hs hn ho
  cases moved
  · -- the element stayed: it goes up
    obtain ⟨hv, hup⟩ := hstay rfl
    obtain ⟨s', hup', hs', hw', hord⟩ := up_spec hl s₁ i hs₁ (by rw [hv]; exact hn) hi (hv ▸ hup)
    exact ⟨s₁, false, s', hdown, hup', hs', hw'.trans hw₁, hord⟩
  · exact ⟨s₁, true, s₁, hdown, rfl, hs₁, hw₁, hmoved rfl⟩

/-- `heap.Push` of an element that the container's `Push` appends. -/
theorem push_spec {s s₁ : σ} {x : α} (hord : Ordered key (view s) (view s).length fun _ => False)
    (hpush : h.push s x = some s₁) (hs₁ : Inv s₁) (hv : view s₁ = view s ++ [x]) :
    ∃ s', push h s x = some s' ∧ Inv s' ∧ (view s').Perm (view s ++ [x]) ∧
      Ordered key (view s') (view s').length fun _ => False := by
  have hlen : (view s₁).length = (view s).length + 1 := by simp [hv]
  have ho : UpOrder key (view s₁) ((view s).length + 1) (view s).length := hv ▸ hord.upOrder_append x
  obtain ⟨s', hup, hs', hw, hord'⟩ := up_spec hl s₁ (view s).length hs₁ (by omega) (by omega) ho
  refine ⟨s', ?_, hs', hv ▸ hw.perm, by rw [hw.perm.length_eq, hlen]; exact hord'⟩
  simp only [push, hpush, Option.bind_eq_bind, Option.bind_some, hl.len s₁ hs₁, hlen, Nat.add_sub_cancel]
  exact hup

/-- `heap.Pop` of a heap with an element: its root, which is at most every element. -/
theorem pop_spec {s : σ} (hs : Inv s) (hord : Ordered key (view s) (view s).length fun _ => False)
    (hne : view s ≠ []) :
    ∃ s' x, pop h s = some (s', x) ∧ Inv s' ∧ (view s' ++ [x]).Perm (view s) ∧
      Ordered key (view s') (view s').length (fun _ => False) ∧ ∀ y ∈ view s, key x ≤ key y := by
  obtain ⟨n, hlen⟩ : ∃ n, (view s).length = n + 1 :=
    Nat.exists_eq_succ_of_ne_zero (by simpa using hne)
  obtain ⟨s₁, hswap, hs₁, hv₁⟩ := hl.swap s 0 n hs (by omega) (by omega)
  have ho : DownOrder key (view s₁) n 0 := hv₁ ▸ hord.downOrder_swap (Nat.zero_le n) hlen
  obtain ⟨s₂, moved, hdown, hs₂, hw, hstay, hmoved⟩ :=
    down_spec hl s₁ 0 hs₁ (by rw [hv₁, List.length_swap]; omega) ho
  have hord₂ : Ordered key (view s₂) n fun _ => False := by
    cases moved
    · obtain ⟨hv, hup⟩ := hstay rfl
      rw [hv]
      exact hup.ordered fun h0 => absurd h0 (Nat.lt_irrefl 0)
    · exact hmoved rfl
  have hlen₂ : (view s₂).length = n + 1 := by rw [hw.perm.length_eq, hv₁, List.length_swap, hlen]
  obtain ⟨s₃, x, hpop, hs₃, hv₂, hx, hord₃⟩ := hl.pop_last hs₂ hlen₂ hord₂
  -- the popped element is the old root
  have hx0 : (view s)[0]? = some x := by
    have hdrop := congrArg (·[0]?) hw.drop_eq
    simp only [List.getElem?_drop, Nat.add_zero] at hdrop
    rw [← hx, hdrop, hv₁, getElem?_swap (by omega) (by omega), Equiv.swap_apply_right]
  refine ⟨s₃, x, ?_, hs₃, ?_, hord₃, ?_⟩
  · simp only [pop, hl.len s hs, hlen, Nat.add_sub_cancel, hswap, hdown, hpop, Option.bind_eq_bind,
      Option.bind_some]
  · rw [← hv₂]
    exact hw.perm.trans (hv₁ ▸ List.swap_perm _ _ _)
  · intro y hy
    obtain ⟨k, hk, rfl⟩ := List.getElem_of_mem hy
    exact hord.root_le k hk x hx0 _ (List.getElem?_eq_getElem hk)

/-- `heap.Remove` at a place of a heap: the element there, and a heap of the rest. -/
theorem remove_spec {s : σ} (hs : Inv s) (hord : Ordered key (view s) (view s).length fun _ => False)
    {i : ℕ} (hi : i < (view s).length) :
    ∃ s' x, remove h s i = some (s', x) ∧ Inv s' ∧ (view s)[i]? = some x ∧ (view s' ++ [x]).Perm (view s) ∧
      Ordered key (view s') (view s').length fun _ => False := by
  obtain ⟨n, hlen⟩ : ∃ n, (view s).length = n + 1 := Nat.exists_eq_succ_of_ne_zero (by omega)
  by_cases hni : n = i
  · -- the last element: nothing to sift
    subst hni
    obtain ⟨s', x, hpop, hs', hv, hx, hord'⟩ :=
      hl.pop_last hs hlen fun k hk0 hkn _ => hord k hk0 (by omega) id
    refine ⟨s', x, ?_, hs', hx, by rw [hv], hord'⟩
    simp only [remove, hl.len s hs, hlen, Nat.add_sub_cancel, ne_eq, not_true_eq_false, if_false,
      pure, Option.bind_eq_bind, Option.bind_some, hpop]
  · obtain ⟨s₁, hswap, hs₁, hv₁⟩ := hl.swap s i n hs hi (by omega)
    have ho : DownOrder key (view s₁) n i := hv₁ ▸ hord.downOrder_swap (by omega) hlen
    obtain ⟨s₂, moved, s₃, hdown, hsift, hs₃, hw, hord₃⟩ :=
      down_up_spec hl s₁ i hs₁ (by rw [hv₁, List.length_swap]; omega) (by omega) ho
    have hlen₃ : (view s₃).length = n + 1 := by rw [hw.perm.length_eq, hv₁, List.length_swap, hlen]
    obtain ⟨s₄, x, hpop, hs₄, hv₃, hx, hord₄⟩ := hl.pop_last hs₃ hlen₃ hord₃
    -- the popped element is the one that was at `i`
    have hxi : (view s)[i]? = some x := by
      have hdrop := congrArg (·[0]?) hw.drop_eq
      simp only [List.getElem?_drop, Nat.add_zero] at hdrop
      rw [← hx, hdrop, hv₁, getElem?_swap hi (by omega), Equiv.swap_apply_right]
    refine ⟨s₄, x, ?_, hs₄, hxi, ?_, hord₄⟩
    · simp only [remove, hl.len s hs, hlen, Nat.add_sub_cancel, ne_eq, hni, not_false_eq_true, if_true,
        hswap, hdown, Option.bind_eq_bind, Option.bind_some]
      cases moved
      · simp only [Bool.false_eq_true, if_false] at hsift ⊢
        rw [hsift, Option.bind_some, hpop]
      · simp only [if_true, Option.some.injEq] at hsift
        subst hsift
        exact hpop
    · rw [← hv₃]
      exact hw.perm.trans (hv₁ ▸ List.swap_perm _ _ _)

/-- `heap.Fix` at a place whose element got a new key. -/
theorem fix_spec {s : σ} (hs : Inv s) {i : ℕ} (hi : i < (view s).length)
    (ho : DownOrder key (view s) (view s).length i) :
    ∃ s', fix h s i = some s' ∧ Inv s' ∧ (view s').Perm (view s) ∧
      Ordered key (view s') (view s').length fun _ => False := by
  obtain ⟨s₁, moved, s', hdown, hsift, hs', hw, hord⟩ := down_up_spec hl s i hs (Nat.le_refl _) hi ho
  refine ⟨s', ?_, hs', hw.perm, by rw [hw.perm.length_eq]; exact hord⟩
  simp only [fix, hl.len s hs, hdown, Option.bind_eq_bind, Option.bind_some]
  exact hsift
end Lawful

end GoHeap
