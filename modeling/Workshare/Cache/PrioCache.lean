import Mathlib
import Workshare.Cache.RandCache
import Workshare.GoHeap

/-!
# `PrioCache`: a bounded cache that evicts the lowest priority

`PrioCache` keeps each entry behind one pointer that two containers share: the
map `m` from keys, and the slice `s`, which `container/heap` keeps as a binary
min-heap on priority through the methods of `prioEntries`. Pointers are
addresses into `heap` here, and `next` is the first address never handed out;
`Swap`, `Push` and `Pop` write each moved entry's new place through its
pointer, `Pop` writing -1. `Set` of a present key writes the value and
priority through the pointer and fixes the heap at the entry's place; `Set`
of a new key pushes it and, past the limit, pops the lowest entry and deletes
its key. Priorities are `float64` in the source; here they are any linear
order, so no NaN. Where the source would panic (a dangling pointer, a place
out of range) the model answers `none`.

What the cache is for is a map with at most `limit` keys from which, to make
room for a new key, a key of lowest priority is dropped, the new one included
(`AStep`). Over every run from `NewPrioCache` no call panics, the map and the
slice hold the same entries, each at the place it records, the slice is a
min-heap on priority within the limit, and the contents read through `Get`
change as that map's do (`run_spec`).
-/
namespace Workshare.Cache

open Function

/-- `PrioEntry`: an entry and its priority. -/
structure PrioEntry (K V P : Type) extends Entry K V where
  priority : P

/-- `prioEntry`: a `PrioEntry` and its place in the slice, -1 once popped. -/
structure IndexedEntry (K V P : Type) extends PrioEntry K V P where
  index : ℤ

/-- `PrioCache`. The entries live in `heap` by address; `m` and `s` hold
addresses, and `next` is the first address not yet handed out. -/
structure PrioCache (K V P : Type) where
  heap : ℕ → Option (IndexedEntry K V P)
  next : ℕ
  m : K → Option ℕ
  s : List ℕ
  limit : ℕ

namespace PrioCache

variable {K V P : Type}

/-- `NewPrioCache`; it panics on a limit below one. -/
def new (limit : ℕ) : Option (PrioCache K V P) :=
  if limit < 1 then none else some ⟨fun _ => none, 0, fun _ => none, [], limit⟩

/-- `Len`. -/
def len (c : PrioCache K V P) : ℕ := c.s.length

/-- `Get`: the value and priority under the key. -/
def get (c : PrioCache K V P) (key : K) : Option (V × P) :=
  (c.m key).bind fun p => (c.heap p).map fun e => (e.value, e.priority)

/-- `Contains`. -/
def contains (c : PrioCache K V P) (key : K) : Bool := (c.m key).isSome

/-! ## `prioEntries` -/

section Entries

variable [LinearOrder P]

/-- The entry at place `i` of the slice. -/
def entryAt (c : PrioCache K V P) (i : ℕ) : Option (IndexedEntry K V P) := c.s[i]?.bind c.heap

/-- `prioEntries.Less`. -/
def less (c : PrioCache K V P) (i j : ℕ) : Option Bool := do
  let a ← c.entryAt i
  let b ← c.entryAt j
  pure (decide (a.priority < b.priority))

/-- `prioEntries.Swap`: each entry is told its new place, then the pointers trade places. -/
def swap (c : PrioCache K V P) (i j : ℕ) : Option (PrioCache K V P) := do
  let p ← c.s[i]?
  let q ← c.s[j]?
  let a ← c.heap p
  let heap := update c.heap p (some { a with index := (j : ℤ) })
  let b ← heap q
  pure { c with heap := update heap q (some { b with index := (i : ℤ) }), s := c.s.swap i j }

/-- `prioEntries.Push`: the entry is told its place at the end. -/
def pushEntry (c : PrioCache K V P) (p : ℕ) : Option (PrioCache K V P) := do
  let a ← c.heap p
  pure { c with heap := update c.heap p (some { a with index := (c.s.length : ℤ) }), s := c.s ++ [p] }

/-- `prioEntries.Pop`: the last entry is told it has no place, and leaves the slice. -/
def popEntry (c : PrioCache K V P) : Option (PrioCache K V P × ℕ) := do
  let p ← c.s[c.s.length - 1]?
  let a ← c.heap p
  pure ({ c with heap := update c.heap p (some { a with index := -1 }), s := c.s.take (c.s.length - 1) }, p)

/-- `prioEntries` as a `heap.Interface`. -/
def entries : GoHeap.Interface (PrioCache K V P) ℕ := ⟨len, less, swap, pushEntry, popEntry⟩

end Entries

/-! ## The calls -/

section Calls

variable [LinearOrder P] [DecidableEq K]

/-- `popLowest`: pop the heap's root and delete its key. -/
def popLowest (c : PrioCache K V P) : Option (PrioCache K V P) :=
  if c.s.length = 0 then some c
  else do
    let (c, p) ← GoHeap.pop entries c
    let e ← c.heap p
    pure { c with m := update c.m e.key none }

/-- `Set`. A present key's entry takes the value and priority and the heap is
fixed at its place; a new key's entry is pushed, and past the limit the
lowest entry goes. -/
def set (c : PrioCache K V P) (key : K) (value : V) (priority : P) : Option (PrioCache K V P) :=
  match c.m key with
  | some p => do
    let e ← c.heap p
    let c := { c with heap := update c.heap p (some { e with value := value, priority := priority }) }
    -- `heap.Fix` at -1 does nothing: `down` finds no child and `up` no parent
    if e.index < 0 then pure c else GoHeap.fix entries c e.index.toNat
  | none => do
    let p := c.next
    let c := { c with heap := update c.heap p (some ⟨⟨⟨key, value⟩, priority⟩, 0⟩), next := p + 1 }
    let c ← GoHeap.push entries c p
    let c := { c with m := update c.m key (some p) }
    if c.s.length > c.limit then popLowest c else pure c

/-- `Remove`: the removed entry, if the key was there. -/
def remove (c : PrioCache K V P) (key : K) : Option (PrioCache K V P × Option (PrioEntry K V P)) :=
  match c.m key with
  | some p => do
    let e ← c.heap p
    let c := { c with m := update c.m key none }
    -- `heap.Remove` at -1 panics: `Swap` is given a place out of range
    if e.index < 0 then none
    else do
      let (c, _) ← GoHeap.remove entries c e.index.toNat
      pure (c, some e.toPrioEntry)
  | none => pure (c, none)

/-- The calls of the cache. -/
inductive Op (K V P : Type)
  | set (key : K) (value : V) (priority : P)
  | remove (key : K)
  | get (key : K)

/-- What a call returns. -/
inductive Answer (K V P : Type)
  | removed (entry : Option (PrioEntry K V P))
  | got (found : Option (V × P))

/-- One call: the cache after it and its answer, or `none` on a panic. -/
def exec (c : PrioCache K V P) : Op K V P → Option (PrioCache K V P × Option (Answer K V P))
  | .set key value priority => (c.set key value priority).map fun c' => (c', none)
  | .remove key => (c.remove key).map fun r => (r.1, some (.removed r.2))
  | .get key => some (c, some (.got (c.get key)))

/-- A run of calls, with the answers in order. -/
def run (c : PrioCache K V P) : List (Op K V P) → Option (PrioCache K V P × List (Answer K V P))
  | [] => some (c, [])
  | o :: os => (c.exec o).bind fun r => (r.1.run os).map fun r' => (r'.1, r.2.toList ++ r'.2)

end Calls

/-! ## `prioEntries` is a heap

`container/heap` is correct on `prioEntries` because its methods act on the
slice as on a list of addresses ordered by their entries' priorities
(`entries_lawful`): what the heap functions change is only the slice and the
places the entries record (`Slots`). -/

section Lawful

/-- The priority at an address, as `Less` compares it; an unused address has none. -/
def prioKey (heap : ℕ → Option (IndexedEntry K V P)) (p : ℕ) : WithBot P := (heap p).map (·.priority)

/-- What the heap functions keep of a cache `c₀`: each place's entry records
the place, the entries are `c₀`'s but for the places they record, and the map,
`next` and the limit are `c₀`'s. -/
structure Slots (c₀ c : PrioCache K V P) : Prop where
  at_index : ∀ (i p : ℕ), c.s[i]? = some p → ∃ e, c.heap p = some e ∧ e.index = i
  entries : ∀ p, (c.heap p).map (·.toPrioEntry) = (c₀.heap p).map (·.toPrioEntry)
  m_eq : c.m = c₀.m
  next_eq : c.next = c₀.next
  limit_eq : c.limit = c₀.limit

/-- A write of an entry's place through its pointer keeps every entry but
for places. -/
theorem map_update_index {heap : ℕ → Option (IndexedEntry K V P)} {p : ℕ} {e : IndexedEntry K V P}
    (he : heap p = some e) (x : ℤ) (r : ℕ) :
    (update heap p (some { e with index := x }) r).map (·.toPrioEntry) = (heap r).map (·.toPrioEntry) := by
  by_cases hr : r = p
  · subst hr
    simp [he]
  · simp [hr]

/-- Priorities depend on the entries but for their places. -/
theorem prioKey_congr {heap heap₀ : ℕ → Option (IndexedEntry K V P)}
    (hent : ∀ p, (heap p).map (·.toPrioEntry) = (heap₀ p).map (·.toPrioEntry)) :
    prioKey heap = prioKey heap₀ := by
  funext p
  have := congrArg (Option.map (·.priority)) (hent p)
  simp only [Option.map_map] at this
  exact this

/-- So do `Get`'s answers. -/
theorem get_congr {c c₀ : PrioCache K V P}
    (hent : ∀ p, (c.heap p).map (·.toPrioEntry) = (c₀.heap p).map (·.toPrioEntry)) (hm : c.m = c₀.m) :
    c.get = c₀.get := by
  funext k
  simp only [get, hm]
  congr 1
  funext p
  have := congrArg (Option.map fun e : PrioEntry K V P => (e.value, e.priority)) (hent p)
  simp only [Option.map_map] at this
  exact this

theorem get_of_some {c : PrioCache K V P} {k : K} {p : ℕ} {e : IndexedEntry K V P} (hk : c.m k = some p)
    (he : c.heap p = some e) : c.get k = some (e.value, e.priority) := by
  simp [get, hk, he]

theorem get_of_none {c : PrioCache K V P} {k : K} (hk : c.m k = none) : c.get k = none := by
  simp [get, hk]

/-- An entry of `heap₀` is in a heap with the same entries but for places. -/
theorem exists_of_entries {heap heap₀ : ℕ → Option (IndexedEntry K V P)}
    (hent : ∀ p, (heap p).map (·.toPrioEntry) = (heap₀ p).map (·.toPrioEntry)) {p : ℕ}
    {e : IndexedEntry K V P} (he : heap₀ p = some e) : ∃ e', heap p = some e' ∧ e'.toPrioEntry = e.toPrioEntry := by
  have := hent p
  rw [he, Option.map_some] at this
  exact Option.map_eq_some_iff.mp this

namespace Slots

variable {c₀ c : PrioCache K V P}

/-- A pointer stands at one place of the slice at most. -/
theorem eq_of_getElem? (h : Slots c₀ c) {i j p : ℕ} (hi : c.s[i]? = some p) (hj : c.s[j]? = some p) :
    i = j := by
  obtain ⟨e, he, hei⟩ := h.at_index i p hi
  obtain ⟨e', he', hej⟩ := h.at_index j p hj
  rw [he] at he'
  cases he'
  omega

theorem prioKey_eq (h : Slots c₀ c) : prioKey c.heap = prioKey c₀.heap :=
  prioKey_congr h.entries

theorem refl (c : PrioCache K V P)
    (hc : ∀ (i p : ℕ), c.s[i]? = some p → ∃ e, c.heap p = some e ∧ e.index = i) :
    Slots c c := ⟨hc, fun _ => rfl, rfl, rfl, rfl⟩

end Slots

/-- `Swap` of two places: the entries learn their new places and the slice swaps. -/
theorem Slots.swap {c₀ c : PrioCache K V P} (h : Slots c₀ c) {i j : ℕ} (hi : i < c.s.length)
    (hj : j < c.s.length) : ∃ c', c.swap i j = some c' ∧ Slots c₀ c' ∧ c'.s = c.s.swap i j := by
  obtain ⟨a, ha, hai⟩ := h.at_index i _ (List.getElem?_eq_getElem hi)
  obtain ⟨b, hb, hbj⟩ := h.at_index j _ (List.getElem?_eq_getElem hj)
  -- the entry at `j`, read after the entry at `i` learnt its new place
  set b' := (update c.heap c.s[i] (some { a with index := (j : ℤ) }) c.s[j]).get
    (by by_cases hq : c.s[j] = c.s[i] <;> simp [hq, hb])
  have hb' : update c.heap c.s[i] (some { a with index := (j : ℤ) }) c.s[j] = some b' := by simp [b']
  have hpq : c.s[i] = c.s[j] → i = j := fun hpq =>
    h.eq_of_getElem? (List.getElem?_eq_getElem hi) (by rw [hpq]; exact List.getElem?_eq_getElem hj)
  refine ⟨{ c with
    heap := (update (update c.heap c.s[i] (some { a with index := (j : ℤ) })) c.s[j]
      (some { b' with index := (i : ℤ) }))
    s := c.s.swap i j }, ?_, ?_, rfl⟩
  · simp [PrioCache.swap, List.getElem?_eq_getElem hi, List.getElem?_eq_getElem hj, ha, hb']
  refine ⟨fun k r hk => ?_, fun r => ?_, h.m_eq, h.next_eq, h.limit_eq⟩
  · rw [GoHeap.getElem?_swap hi hj] at hk
    by_cases hki : k = i
    · -- place `i` now holds the entry from `j`, which was told `i` last
      subst hki
      rw [Equiv.swap_apply_left, List.getElem?_eq_getElem hj, Option.some.injEq] at hk
      subst hk
      exact ⟨{ b' with index := (k : ℤ) }, by simp, rfl⟩
    by_cases hkj : k = j
    · -- place `j` holds the entry from `i`, a different pointer
      subst hkj
      rw [Equiv.swap_apply_right, List.getElem?_eq_getElem hi, Option.some.injEq] at hk
      subst hk
      have hne : c.s[i] ≠ c.s[k] := fun he => hki (hpq he).symm
      exact ⟨{ a with index := (k : ℤ) }, by simp [hne], rfl⟩
    · rw [Equiv.swap_apply_of_ne_of_ne hki hkj] at hk
      obtain ⟨e, he, hek⟩ := h.at_index k r hk
      have hri : r ≠ c.s[i] := fun hr =>
        hki (h.eq_of_getElem? hk (by rw [hr]; exact List.getElem?_eq_getElem hi))
      have hrj : r ≠ c.s[j] := fun hr =>
        hkj (h.eq_of_getElem? hk (by rw [hr]; exact List.getElem?_eq_getElem hj))
      exact ⟨e, by simp [hri, hrj, he], hek⟩
  · rw [map_update_index hb', map_update_index ha]
    exact h.entries r

/-- `Pop` of the last place: its entry is told -1 and leaves the slice. -/
theorem Slots.popEntry {c₀ c : PrioCache K V P} (h : Slots c₀ c) (hne : c.s ≠ []) :
    ∃ c' p, c.popEntry = some (c', p) ∧ Slots c₀ c' ∧ c.s = c'.s ++ [p] := by
  have hlen : c.s.length - 1 < c.s.length := by
    have := List.length_pos_of_ne_nil hne
    omega
  obtain ⟨a, ha, -⟩ := h.at_index _ _ (List.getElem?_eq_getElem hlen)
  refine ⟨{ c with
    heap := update c.heap c.s[c.s.length - 1] (some { a with index := -1 })
    s := c.s.take (c.s.length - 1) }, c.s[c.s.length - 1],
    by simp [PrioCache.popEntry, List.getElem?_eq_getElem hlen, ha], ?_, ?_⟩
  · refine ⟨fun k r hk => ?_, fun r => ?_, h.m_eq, h.next_eq, h.limit_eq⟩
    · -- the places before the last keep their entries
      rw [List.getElem?_take] at hk
      split_ifs at hk with hkl
      obtain ⟨e, he, hek⟩ := h.at_index k r hk
      have hr : r ≠ c.s[c.s.length - 1] := fun hr =>
        absurd (h.eq_of_getElem? hk (by rw [hr]; exact List.getElem?_eq_getElem hlen)) (by omega)
      exact ⟨e, by simp [hr, he], hek⟩
    · rw [map_update_index ha]
      exact h.entries r
  · conv_lhs => rw [← List.dropLast_append_getLast hne]
    rw [List.dropLast_eq_take, List.getLast_eq_getElem]

/-- `Push` of an address not in the slice: its entry is told the last place. -/
theorem Slots.pushEntry {c₀ c : PrioCache K V P} (h : Slots c₀ c) {p : ℕ} {a : IndexedEntry K V P}
    (ha : c.heap p = some a) (hp : p ∉ c.s) :
    ∃ c', c.pushEntry p = some c' ∧ Slots c₀ c' ∧ c'.s = c.s ++ [p] := by
  refine ⟨{ c with
    heap := update c.heap p (some { a with index := (c.s.length : ℤ) })
    s := c.s ++ [p] }, by simp [PrioCache.pushEntry, ha], ?_, rfl⟩
  refine ⟨fun k r hk => ?_, fun r => ?_, h.m_eq, h.next_eq, h.limit_eq⟩
  · rw [List.getElem?_append] at hk
    split_ifs at hk with hkl
    · -- an old place: its pointer is not the pushed one
      obtain ⟨e, he, hek⟩ := h.at_index k r hk
      have hr : r ≠ p := fun hr => hp (hr ▸ List.mem_of_getElem? hk)
      exact ⟨e, by simp [hr, he], hek⟩
    · -- the new last place
      obtain ⟨hlt, hpr⟩ := List.getElem?_eq_some_iff.mp hk
      simp only [List.length_singleton, List.getElem_singleton] at hlt hpr
      subst hpr
      exact ⟨{ a with index := (c.s.length : ℤ) }, by simp, by simp; omega⟩
  · rw [map_update_index ha]
    exact h.entries r

variable [LinearOrder P]

/-- On caches that keep `c₀`'s entries, `prioEntries` is the list of the
slice's addresses, ordered by their priorities. -/
theorem entries_lawful (c₀ : PrioCache K V P) :
    GoHeap.Lawful entries PrioCache.s (prioKey c₀.heap) (Slots c₀) where
  len _ _ := rfl
  less c i j hi hj h := by
    obtain ⟨a, ha, -⟩ := h.at_index i _ (List.getElem?_eq_getElem hi)
    obtain ⟨b, hb, -⟩ := h.at_index j _ (List.getElem?_eq_getElem hj)
    have hka : prioKey c₀.heap c.s[i] = (a.priority : WithBot P) := by
      rw [← h.prioKey_eq, prioKey, ha]
      rfl
    have hkb : prioKey c₀.heap c.s[j] = (b.priority : WithBot P) := by
      rw [← h.prioKey_eq, prioKey, hb]
      rfl
    rw [hka, hkb]
    simp [entries, less, entryAt, List.getElem?_eq_getElem hi, List.getElem?_eq_getElem hj, ha, hb]
  swap _ _ _ h hi hj := h.swap hi hj
  pop _ h hne := h.popEntry hne

end Lawful

/-! ## What the cache is for

A map from keys to values and priorities with at most `limit` keys. A write
of a new key to a full map drops a key of least priority, the new one
included. -/

section Abstract

variable [DecidableEq K]

/-- What the calls last wrote under `k`: the value and priority of its last
`Set`, nothing after a `Remove`, or what was there before. -/
def lastWrite (k : K) (init : Option (V × P)) : List (Op K V P) → Option (V × P)
  | [] => init
  | .set k' v p :: os => lastWrite k (if k' = k then some (v, p) else init) os
  | .remove k' :: os => lastWrite k (if k' = k then none else init) os
  | .get _ :: os => lastWrite k init os

/-- `lastWrite` of a longer run continues from the first call's. -/
theorem lastWrite_cons (k : K) (init : Option (V × P)) (o : Op K V P) (os : List (Op K V P)) :
    lastWrite k init (o :: os) = lastWrite k (lastWrite k init [o]) os := by
  cases o <;> rfl

/-- A run leaves what is under `k` as it was, or writes it whatever was there. -/
theorem lastWrite_eq_init_or_forall (k : K) :
    ∀ (os : List (Op K V P)) (x : Option (V × P)),
      lastWrite k x os = x ∨ ∀ y, lastWrite k y os = lastWrite k x os
  | [], _ => .inl rfl
  | .set k' v p :: os, x => by
    by_cases hk : k' = k
    · right; intro y; simp [lastWrite, hk]
    · simpa [lastWrite, hk] using lastWrite_eq_init_or_forall k os x
  | .remove k' :: os, x => by
    by_cases hk : k' = k
    · right; intro y; simp [lastWrite, hk]
    · simpa [lastWrite, hk] using lastWrite_eq_init_or_forall k os x
  | .get _ :: os, x => lastWrite_eq_init_or_forall k os x

variable [LinearOrder P]

/-- What one call may do to a bounded map `M`, and what it answers. -/
inductive AStep (limit : ℕ) :
    (K → Option (V × P)) → Op K V P → (K → Option (V × P)) → Option (Answer K V P) → Prop
  | set_present {M k v p} : M k ≠ none → AStep limit M (.set k v p) (update M k (some (v, p))) none
  | set_fits {M k v p} : M k = none → RandCache.size M < limit →
      AStep limit M (.set k v p) (update M k (some (v, p))) none
  | set_evicts {M k v p} (k' : K) (e : V × P) : M k = none → limit ≤ RandCache.size M →
      update M k (some (v, p)) k' = some e →
      (∀ k'' e'', update M k (some (v, p)) k'' = some e'' → e.2 ≤ e''.2) →
      AStep limit M (.set k v p) (update (update M k (some (v, p))) k' none) none
  | remove {M k} :
      AStep limit M (.remove k) (update M k none) (some (.removed ((M k).map fun e => ⟨⟨k, e.1⟩, e.2⟩)))
  | get {M k} : AStep limit M (.get k) M (some (.got (M k)))

/-- The runs of `AStep`. -/
inductive ARun (limit : ℕ) :
    (K → Option (V × P)) → List (Op K V P) → (K → Option (V × P)) → List (Answer K V P) → Prop
  | nil {M} : ARun limit M [] M []
  | cons {M o M₁ a os M₂ as} : AStep limit M o M₁ a → ARun limit M₁ os M₂ as →
      ARun limit M (o :: os) M₂ (a.toList ++ as)

/-- A step keeps what is under `k`, or writes it as the call says, or drops it. -/
theorem AStep.eq_or_none {limit : ℕ} {M M' : K → Option (V × P)} {o : Op K V P}
    {a : Option (Answer K V P)} (h : AStep limit M o M' a) (k : K) :
    M' k = none ∨ M' k = lastWrite k (M k) [o] := by
  cases h with
  | @set_present k' v p _ =>
    right; by_cases hk : k' = k
    · subst hk; simp [lastWrite]
    · simp [lastWrite, hk, Ne.symm hk]
  | @set_fits k' v p _ _ =>
    right; by_cases hk : k' = k
    · subst hk; simp [lastWrite]
    · simp [lastWrite, hk, Ne.symm hk]
  | @set_evicts k' v p k'' _ _ _ _ _ =>
    by_cases hk'' : k = k''
    · left; simp [hk'']
    · right; by_cases hk : k' = k
      · subst hk; simp [lastWrite, hk'']
      · simp [lastWrite, hk, Ne.symm hk, hk'']
  | @remove k' =>
    by_cases hk : k = k'
    · left; simp [hk]
    · right; simp [lastWrite, hk, Ne.symm hk]
  | get => right; rfl

/-- After a run, what is under `k` is what the calls last wrote there, or
nothing: the key was removed or evicted since. -/
theorem ARun.eq_lastWrite_or_none {limit : ℕ} {M M' : K → Option (V × P)} {os : List (Op K V P)}
    {as : List (Answer K V P)} (h : ARun limit M os M' as) (k : K) :
    M' k = none ∨ M' k = lastWrite k (M k) os := by
  induction h with
  | nil => right; rfl
  | @cons M o M₁ a os M₂ as hstep _ ih =>
    rw [lastWrite_cons]
    rcases hstep.eq_or_none k with h₁ | h₁
    · -- the key went in this step: the rest of the run writes it, or it stays out
      rw [h₁] at ih
      rcases ih with h₂ | h₂
      · exact .inl h₂
      · rcases lastWrite_eq_init_or_forall k os none with h₃ | h₃
        · exact .inl (h₂.trans h₃)
        · exact .inr (h₂.trans (h₃ _).symm)
    · rw [← h₁]; exact ih

end Abstract

/-! ## The invariant -/

section Invariant

variable [LinearOrder P]

/-- The map and the slice hold the same entries: the entry at each place of
the slice records that place and is the map's entry for its key, and each
address the map holds is in the slice under its key. No entry lives at `next`
or after, and the slice is a min-heap on priority. -/
structure Holds (c : PrioCache K V P) : Prop where
  at_index : ∀ (i p : ℕ), c.s[i]? = some p → ∃ e, c.heap p = some e ∧ e.index = i
  keyed : ∀ p ∈ c.s, ∃ e, c.heap p = some e ∧ c.m e.key = some p
  in_slice : ∀ k p, c.m k = some p → ∃ e, c.heap p = some e ∧ e.key = k ∧ p ∈ c.s
  fresh : ∀ q, c.next ≤ q → c.heap q = none
  ordered : GoHeap.Ordered (prioKey c.heap) c.s c.s.length fun _ => False

/-- A cache as the calls leave it: it holds, and the slice is within a
positive limit. -/
structure Valid (c : PrioCache K V P) : Prop extends Holds c where
  limit_pos : 1 ≤ c.limit
  len_le : c.s.length ≤ c.limit

/-- A cache holds when its places are recorded, and its keys, addresses and
order hold of a heap `heap₀` with the same entries but for places. -/
theorem Holds.of_entries {c : PrioCache K V P} {heap₀ : ℕ → Option (IndexedEntry K V P)}
    (hidx : ∀ (i p : ℕ), c.s[i]? = some p → ∃ e, c.heap p = some e ∧ e.index = i)
    (hent : ∀ p, (c.heap p).map (·.toPrioEntry) = (heap₀ p).map (·.toPrioEntry))
    (hkeyed : ∀ p ∈ c.s, ∃ e, heap₀ p = some e ∧ c.m e.key = some p)
    (hin : ∀ k p, c.m k = some p → ∃ e, heap₀ p = some e ∧ e.key = k ∧ p ∈ c.s)
    (hfresh : ∀ q, c.next ≤ q → heap₀ q = none)
    (hord : GoHeap.Ordered (prioKey heap₀) c.s c.s.length fun _ => False) : c.Holds where
  at_index := hidx
  keyed p hp := by
    obtain ⟨e, he, hm⟩ := hkeyed p hp
    obtain ⟨e', he', hpe⟩ := exists_of_entries hent he
    refine ⟨e', he', ?_⟩
    rw [show e'.key = e.key from congrArg (·.key) hpe]
    exact hm
  in_slice k p hk := by
    obtain ⟨e, he, hkey, hp⟩ := hin k p hk
    obtain ⟨e', he', hpe⟩ := exists_of_entries hent he
    exact ⟨e', he', (congrArg (·.key) hpe).trans hkey, hp⟩
  fresh q hq := by
    have := hent q
    rw [hfresh q hq, Option.map_none, Option.map_eq_none_iff] at this
    exact this
  ordered := by
    rw [prioKey_congr hent]
    exact hord

namespace Holds

variable {c : PrioCache K V P}

theorem slots (h : c.Holds) : Slots c c := Slots.refl c h.at_index

/-- No address stands twice in the slice. -/
theorem nodup (h : c.Holds) : c.s.Nodup := by
  refine List.nodup_iff_getElem?_ne_getElem?.mpr fun i j hij hj heq => ?_
  have hj' := List.getElem?_eq_getElem hj
  have := h.slots.eq_of_getElem? (heq.trans hj') hj'
  omega

/-- Every address in use is below `next`. -/
theorem lt_next (h : c.Holds) {p : ℕ} {e : IndexedEntry K V P} (he : c.heap p = some e) : p < c.next := by
  by_contra hp
  rw [h.fresh p (Nat.le_of_not_lt hp)] at he
  cases he

/-- The entry the map reaches for `k` is under `k`. -/
theorem key_eq (h : c.Holds) {k : K} {p : ℕ} {e : IndexedEntry K V P} (hk : c.m k = some p)
    (he : c.heap p = some e) : e.key = k := by
  obtain ⟨e', he', hkey, -⟩ := h.in_slice k p hk
  rw [he] at he'
  cases he'
  exact hkey

/-- The map sends two keys to one address only if they are one key. -/
theorem key_inj (h : c.Holds) {k k' : K} {p : ℕ} (hk : c.m k = some p) (hk' : c.m k' = some p) :
    k = k' := by
  obtain ⟨e, he, rfl, -⟩ := h.in_slice k p hk
  exact h.key_eq hk' he

/-- `Get` finds exactly the keys the map holds. -/
theorem get_eq_none_iff (h : c.Holds) {k : K} : c.get k = none ↔ c.m k = none := by
  cases hk : c.m k with
  | none => simp [get_of_none hk]
  | some p =>
    obtain ⟨e, he, -, -⟩ := h.in_slice k p hk
    simp [get_of_some hk he]

/-- The cache holds as many keys as the slice has places: the key of the
entry at each place, and these keys differ. -/
theorem size_get (h : c.Holds) : RandCache.size c.get = c.s.length := by
  have hent : ∀ i (hi : i < c.s.length), ∃ e, c.heap c.s[i] = some e ∧ c.m e.key = some c.s[i] :=
    fun i hi => h.keyed _ (List.getElem_mem hi)
  refine Set.ncard_eq_of_bijective (fun i hi => (hent i hi).choose.key) ?_ ?_ ?_
  · -- a key the cache holds is the key at the place of its address
    intro k (hk : c.get k ≠ none)
    obtain ⟨p, hp⟩ : ∃ p, c.m k = some p :=
      Option.ne_none_iff_exists'.mp (mt h.get_eq_none_iff.mpr hk)
    obtain ⟨e, he, rfl, hmem⟩ := h.in_slice k p hp
    obtain ⟨i, hi, rfl⟩ := List.getElem_of_mem hmem
    refine ⟨i, hi, ?_⟩
    rw [Option.some.inj (((hent i hi).choose_spec.1).symm.trans he)]
  · intro i hi
    obtain ⟨he, hm⟩ := (hent i hi).choose_spec
    show c.get _ ≠ none
    simp [get_of_some hm he]
  · intro i j hi hj hij
    have hmi := (hent i hi).choose_spec.2
    have hmj := (hent j hj).choose_spec.2
    rw [hij, hmj] at hmi
    exact (h.nodup.getElem_inj_iff).mp (Option.some.inj hmi).symm

end Holds

end Invariant

/-! ## What each call does -/

section Ops

variable [DecidableEq K] {c : PrioCache K V P}

/-- Deleting a key from the map deletes it from `Get`. -/
theorem get_delete (c : PrioCache K V P) (k : K) :
    ({ c with m := update c.m k none } : PrioCache K V P).get = update c.get k none := by
  funext k'
  by_cases hk : k' = k
  · subst hk
    simp [get]
  · simp [get, hk]

theorem length_succ_of_perm {l l' : List ℕ} {x : ℕ} (h : (l ++ [x]).Perm l') : l.length + 1 = l'.length := by
  simpa using h.length_eq

variable [LinearOrder P]

/-- An address that leaves the slice with its key, the rest rearranged and
told their places: the cache still holds. -/
theorem Holds.drop (h : c.Holds) {c' : PrioCache K V P} {x : ℕ} {ex : IndexedEntry K V P}
    (hx : c.heap x = some ex) (hidx : ∀ (i p : ℕ), c'.s[i]? = some p → ∃ e, c'.heap p = some e ∧ e.index = i)
    (hent : ∀ p, (c'.heap p).map (·.toPrioEntry) = (c.heap p).map (·.toPrioEntry))
    (hperm : (c'.s ++ [x]).Perm c.s) (hm : c'.m = update c.m ex.key none) (hnext : c'.next = c.next)
    (hord : GoHeap.Ordered (prioKey c.heap) c'.s c'.s.length fun _ => False) : c'.Holds := by
  have hxs : x ∈ c.s := hperm.mem_iff.mp (by simp)
  have hmx : c.m ex.key = some x := by
    obtain ⟨e, he, hm⟩ := h.keyed x hxs
    rw [hx] at he
    cases he
    exact hm
  -- `x` stood once in the slice, so it is not among the rest
  have hxn : x ∉ c'.s := by
    have := (hperm.nodup_iff.mpr h.nodup)
    rw [List.nodup_append] at this
    exact fun hx' => this.2.2 x hx' x (by simp) rfl
  refine Holds.of_entries hidx hent (fun q hq => ?_) (fun k q hk => ?_) (fun q hq => ?_) hord
  · obtain ⟨e, he, hm'⟩ := h.keyed q (hperm.mem_iff.mp (by simp [hq]))
    have hqx : q ≠ x := fun hqx => hxn (hqx ▸ hq)
    have hkey : e.key ≠ ex.key := fun hkey => hqx (Option.some.inj ((hkey ▸ hm').symm.trans hmx))
    exact ⟨e, he, by rw [hm, update_of_ne hkey]; exact hm'⟩
  · rw [hm] at hk
    by_cases hkx : k = ex.key
    · simp [hkx] at hk
    · rw [update_of_ne hkx] at hk
      obtain ⟨e, he, hkey, hq⟩ := h.in_slice k q hk
      have hqx : q ≠ x := fun hqx => hkx (by subst hqx; rw [hx] at he; cases he; exact hkey.symm)
      refine ⟨e, he, hkey, ?_⟩
      have : q ∈ c'.s ++ [x] := hperm.mem_iff.mpr hq
      simpa [hqx] using this
  · exact h.fresh q (hnext ▸ hq)

/-- `popLowest` of a non-empty cache: the key of least priority goes. -/
theorem popLowest_spec (h : c.Holds) (hne : c.s ≠ []) :
    ∃ c' k e, c.popLowest = some c' ∧ c'.Holds ∧ c.get k = some e ∧
      (∀ k' e', c.get k' = some e' → e.2 ≤ e'.2) ∧ c'.get = update c.get k none ∧
      c'.s.length + 1 = c.s.length ∧ c'.limit = c.limit := by
  obtain ⟨c₁, x, hpop, hs₁, hperm, hord₁, hmin⟩ :=
    GoHeap.pop_spec (entries_lawful c) h.slots h.ordered hne
  have hxs : x ∈ c.s := hperm.mem_iff.mp (by simp)
  obtain ⟨ex, hx, hmx⟩ := h.keyed x hxs
  obtain ⟨e₁, he₁, hpe⟩ := exists_of_entries hs₁.entries hx
  have hkey : e₁.key = ex.key := congrArg (·.key) hpe
  refine ⟨{ c₁ with m := update c₁.m e₁.key none }, ex.key, (ex.value, ex.priority), ?_, ?_,
    get_of_some hmx hx, fun k' e' hk' => ?_, ?_, ?_, hs₁.limit_eq⟩
  · simp [popLowest, List.length_eq_zero_iff, hne, hpop, he₁]
  · refine h.drop hx hs₁.at_index hs₁.entries hperm (by rw [hkey, hs₁.m_eq]) hs₁.next_eq hord₁
  · -- every other entry is at least the root's priority
    simp only [get, Option.bind_eq_some_iff, Option.map_eq_some_iff] at hk'
    obtain ⟨y, hy, f, hf, rfl⟩ := hk'
    obtain ⟨f', hf', -, hys⟩ := h.in_slice k' y hy
    rw [hf] at hf'
    cases hf'
    have := hmin y hys
    simp only [prioKey, hx, hf, Option.map_some] at this
    exact WithBot.coe_le_coe.mp this
  · rw [hkey, get_delete, get_congr hs₁.entries hs₁.m_eq]
  · exact length_succ_of_perm hperm

/-- `Remove` of a present key: the entry goes, the rest holds. -/
theorem remove_of_some (h : c.Holds) {key : K} {p : ℕ} (hk : c.m key = some p) :
    ∃ c' e, c.remove key = some (c', some e) ∧ c'.Holds ∧ c'.get = update c.get key none ∧
      (c.get key).map (fun v => ⟨⟨key, v.1⟩, v.2⟩) = some e ∧ c'.s.length + 1 = c.s.length ∧
      c'.limit = c.limit := by
  obtain ⟨e, he, rfl, hmem⟩ := h.in_slice key p hk
  obtain ⟨i, hi, rfl⟩ := List.getElem_of_mem hmem
  obtain ⟨e', he', hidx⟩ := h.at_index i _ (List.getElem?_eq_getElem hi)
  rw [he] at he'
  cases he'
  -- the key leaves the map first
  set c₁ : PrioCache K V P := { c with m := update c.m e.key none } with hc₁
  have hslots : Slots c₁ c₁ := Slots.refl c₁ h.at_index
  obtain ⟨c₂, x, hrem, hs₂, hx, hperm, hord₂⟩ :=
    GoHeap.remove_spec (entries_lawful c₁) hslots h.ordered hi
  have hxp : x = c.s[i] := Option.some.inj (hx.symm.trans (List.getElem?_eq_getElem hi))
  subst hxp
  refine ⟨c₂, e.toPrioEntry, ?_, ?_, ?_, by rw [get_of_some hk he]; rfl, ?_, hs₂.limit_eq⟩
  · simp [remove, hk, he, hidx]
    rw [← hc₁, hrem]
    rfl
  · exact h.drop he hs₂.at_index hs₂.entries hperm hs₂.m_eq hs₂.next_eq hord₂
  · rw [get_congr hs₂.entries hs₂.m_eq, hc₁, get_delete]
  · exact length_succ_of_perm hperm

/-- `Set` of a present key: its entry takes the value and priority, and the
heap is fixed at its place. -/
theorem set_of_some (h : c.Holds) {key : K} {p : ℕ} (hk : c.m key = some p) (value : V) (priority : P) :
    ∃ c', c.set key value priority = some c' ∧ c'.Holds ∧
      c'.get = update c.get key (some (value, priority)) ∧ c'.s.length = c.s.length ∧
      c'.limit = c.limit := by
  obtain ⟨e, he, rfl, hmem⟩ := h.in_slice key p hk
  obtain ⟨i, hi, rfl⟩ := List.getElem_of_mem hmem
  obtain ⟨e', he', hidx⟩ := h.at_index i _ (List.getElem?_eq_getElem hi)
  rw [he] at he'
  cases he'
  set c₁ : PrioCache K V P :=
    { c with heap := update c.heap c.s[i] (some { e with value := value, priority := priority }) } with hc₁
  -- the write keeps every entry's key and place
  have hkey₁ : ∀ q e₀, c.heap q = some e₀ → ∃ e₁, c₁.heap q = some e₁ ∧ e₁.key = e₀.key ∧ e₁.index = e₀.index := by
    intro q e₀ hq
    by_cases hqi : q = c.s[i]
    · subst hqi
      rw [he] at hq
      cases hq
      exact ⟨{ e with value := value, priority := priority }, by simp [c₁], rfl, rfl⟩
    · exact ⟨e₀, by simp [c₁, hqi, hq], rfl, rfl⟩
  have hslots : Slots c₁ c₁ := Slots.refl c₁ fun j q hj => by
    obtain ⟨e₀, hq₀, hj₀⟩ := h.at_index j q hj
    obtain ⟨e₁, hq₁, -, hj₁⟩ := hkey₁ q e₀ hq₀
    exact ⟨e₁, hq₁, hj₁.trans hj₀⟩
  -- only the place `i` changed priority
  have ho : GoHeap.DownOrder (prioKey c₁.heap) c₁.s c₁.s.length i := by
    refine h.ordered.downOrder_of_key hi fun j hj hji => ?_
    have hne : c.s[j] ≠ c.s[i] := fun heq => hji ((h.nodup.getElem_inj_iff).mp heq)
    show prioKey c₁.heap c.s[j] = prioKey c.heap c.s[j]
    rw [prioKey, prioKey, show c₁.heap c.s[j] = c.heap c.s[j] from update_of_ne hne _ _]
  obtain ⟨c', hfix, hs', hperm, hord'⟩ := GoHeap.fix_spec (entries_lawful c₁) hslots hi ho
  refine ⟨c', ?_, ?_, ?_, hperm.length_eq, hs'.limit_eq⟩
  · have hnn : ¬ e.index < 0 := by omega
    have hnat : e.index.toNat = i := by omega
    simp only [set, hk, he, hnn, hnat, Option.bind_eq_bind, Option.bind_some, if_false]
    exact hfix
  · refine Holds.of_entries hs'.at_index hs'.entries (fun q hq => ?_) (fun k q hq => ?_) (fun q hq => ?_) hord'
    · obtain ⟨e₀, hq₀, hm⟩ := h.keyed q (hperm.mem_iff.mp hq)
      obtain ⟨e₁, hq₁, hk₁, -⟩ := hkey₁ q e₀ hq₀
      exact ⟨e₁, hq₁, by rw [hs'.m_eq, hk₁]; exact hm⟩
    · rw [hs'.m_eq] at hq
      obtain ⟨e₀, hq₀, hk₀, hmem₀⟩ := h.in_slice k q hq
      obtain ⟨e₁, hq₁, hk₁, -⟩ := hkey₁ q e₀ hq₀
      exact ⟨e₁, hq₁, hk₁.trans hk₀, hperm.mem_iff.mpr hmem₀⟩
    · -- the written address is in use, so below `next`
      have hne : q ≠ c.s[i] := fun hq' => absurd (h.lt_next he) (by rw [← hq', ← hs'.next_eq]; omega)
      simpa [c₁, hne] using h.fresh q (hs'.next_eq ▸ hq)
  · rw [get_congr hs'.entries hs'.m_eq]
    funext k
    by_cases hke : k = e.key
    · subst hke
      simp [get, hk, c₁]
    · rw [update_of_ne hke]
      cases hq : c.m k with
      | none => simp [get, c₁, hq]
      | some q =>
        have hne : q ≠ c.s[i] := fun hq' => hke (h.key_inj hq (by rw [hq']; exact hk))
        simp [get, c₁, hq, hne]

/-- The new entry of `Set`, pushed at a fresh address and keyed in the map:
the cache holds, one longer, and `Get` reads the new value under the key. -/
theorem Holds.pushNew (h : c.Holds) {key : K} (hk : c.m key = none) (value : V) (priority : P) :
    ∃ c₃, GoHeap.push entries
        { c with heap := update c.heap c.next (some ⟨⟨⟨key, value⟩, priority⟩, 0⟩), next := c.next + 1 }
        c.next = some c₃ ∧
      ({ c₃ with m := update c₃.m key (some c.next) } : PrioCache K V P).Holds ∧
      ({ c₃ with m := update c₃.m key (some c.next) } : PrioCache K V P).get =
        update c.get key (some (value, priority)) ∧
      c₃.s.length = c.s.length + 1 ∧ c₃.limit = c.limit := by
  set c₁ : PrioCache K V P :=
    { c with heap := update c.heap c.next (some ⟨⟨⟨key, value⟩, priority⟩, 0⟩), next := c.next + 1 } with hc₁
  -- every address in use is below `next`, so the write leaves it alone
  have hold : ∀ q e, c.heap q = some e → c₁.heap q = some e := fun q e hq => by
    simp [c₁, (h.lt_next hq).ne, hq]
  have hnew : c.next ∉ c.s := fun hmem => by
    obtain ⟨e, he, -⟩ := h.keyed _ hmem
    exact absurd (h.lt_next he) (Nat.lt_irrefl _)
  have hslots : Slots c₁ c₁ := Slots.refl c₁ fun i q hi => by
    obtain ⟨e, he, hidx⟩ := h.at_index i q hi
    exact ⟨e, hold q e he, hidx⟩
  have hord : GoHeap.Ordered (prioKey c₁.heap) c₁.s c₁.s.length fun _ => False := by
    refine GoHeap.Ordered.congr h.ordered fun q hq => ?_
    obtain ⟨e, he, -⟩ := h.keyed q hq
    rw [prioKey, prioKey, hold q e he, he]
  have he₀ : c₁.heap c.next = some ⟨⟨⟨key, value⟩, priority⟩, 0⟩ := by simp [c₁]
  obtain ⟨c₂, hpe, hs₂, hv₂⟩ := hslots.pushEntry he₀ hnew
  obtain ⟨c₃, hpush, hs₃, hperm, hord₃⟩ := GoHeap.push_spec (entries_lawful c₁) hord hpe hs₂ hv₂
  have hmem : ∀ q, q ∈ c₃.s ↔ q ∈ c.s ∨ q = c.next := fun q => by
    rw [hperm.mem_iff]
    simp [c₁]
  refine ⟨c₃, hpush, ?_, ?_, by simpa [c₁] using hperm.length_eq, hs₃.limit_eq⟩
  · refine Holds.of_entries hs₃.at_index hs₃.entries (fun q hq => ?_) (fun k q hq => ?_) (fun q hq => ?_) hord₃
    · rcases (hmem q).mp hq with hq | rfl
      · -- an old address: its key is not the new one
        obtain ⟨e, he, hm⟩ := h.keyed q hq
        have hkey : e.key ≠ key := fun heq => by rw [heq, hk] at hm; cases hm
        refine ⟨e, hold q e he, ?_⟩
        simp only [update_of_ne hkey, hs₃.m_eq]
        exact hm
      · exact ⟨_, he₀, by simp⟩
    · by_cases hkk : k = key
      · subst hkk
        simp only [update_self, Option.some.injEq] at hq
        subst hq
        exact ⟨_, he₀, rfl, (hmem _).mpr (.inr rfl)⟩
      · simp only [update_of_ne hkk, hs₃.m_eq] at hq
        obtain ⟨e, he, hkey, hq'⟩ := h.in_slice k q hq
        exact ⟨e, hold q e he, hkey, (hmem q).mpr (.inl hq')⟩
    · have hq' : c.next + 1 ≤ q := by simpa [hs₃.next_eq, c₁] using hq
      simp [c₁, show q ≠ c.next by omega, h.fresh q (by omega)]
  · have hget : ({ c₃ with m := update c₃.m key (some c.next) } : PrioCache K V P).get =
        ({ c₁ with m := update c.m key (some c.next) } : PrioCache K V P).get :=
      get_congr hs₃.entries (by rw [hs₃.m_eq])
    rw [hget]
    funext k
    by_cases hkk : k = key
    · subst hkk
      simp [get, c₁]
    · rw [update_of_ne hkk]
      cases hm : c.m k with
      | none => simp [get, hkk, hm]
      | some q =>
        obtain ⟨e, he, -, -⟩ := h.in_slice k q hm
        simp [get, hkk, hm, hold q e he, he]

end Ops

/-! ## Runs -/

section Runs

/-- `NewPrioCache` with a positive limit gives an empty valid cache. -/
theorem new_valid [LinearOrder P] {limit : ℕ} (hl : 1 ≤ limit) :
    ∃ c : PrioCache K V P, new limit = some c ∧ c.Valid ∧ c.limit = limit ∧ c.get = fun _ => none := by
  refine ⟨⟨fun _ => none, 0, fun _ => none, [], limit⟩, by simp [new, Nat.not_lt.mpr hl], ?_, rfl, rfl⟩
  exact { at_index := by simp, keyed := by simp, in_slice := by simp, fresh := by simp,
          ordered := fun k _ hk => absurd hk (Nat.not_lt_zero k), limit_pos := hl, len_le := by simp }

variable [LinearOrder P] [DecidableEq K] {c : PrioCache K V P}

/-- `Set` on a valid cache is a step of the bounded map: a present key is
overwritten, a new one fits, or a key of least priority goes. -/
theorem set_step (h : c.Valid) (key : K) (value : V) (priority : P) :
    ∃ c', c.set key value priority = some c' ∧ c'.Valid ∧ c'.limit = c.limit ∧
      AStep c.limit c.get (.set key value priority) c'.get none := by
  cases hk : c.m key with
  | some p =>
    obtain ⟨c', hset, hh, hget, hs, hl⟩ := set_of_some h.toHolds hk value priority
    have hpresent : c.get key ≠ none := mt h.get_eq_none_iff.mp (by simp [hk])
    refine ⟨c', hset, ⟨hh, by rw [hl]; exact h.limit_pos, by rw [hs, hl]; exact h.len_le⟩, hl, ?_⟩
    rw [hget]
    exact .set_present hpresent
  | none =>
    have hnone : c.get key = none := get_of_none hk
    have hsize : RandCache.size c.get = c.s.length := h.size_get
    have hle := h.len_le
    obtain ⟨c₃, hpush, hh₄, hget₄, hlen₃, hl₃⟩ := h.toHolds.pushNew hk value priority
    by_cases hfull : c₃.limit < c₃.s.length
    · -- one past the limit: the lowest entry goes, maybe the new one
      obtain ⟨c', k', e', hpop, hh', hk', hmin, hget', hlen', hl'⟩ :=
        popLowest_spec hh₄ (List.ne_nil_of_length_pos (by simp only; omega))
      have hset : c.set key value priority = some c' := by simp [set, hk, hpush, hfull, hpop]
      simp only at hlen' hl'
      refine ⟨c', hset, ⟨hh', by rw [hl', hl₃]; exact h.limit_pos, by omega⟩, hl'.trans hl₃, ?_⟩
      rw [hget', hget₄]
      rw [hget₄] at hk' hmin
      exact .set_evicts k' e' hnone (by omega) hk' hmin
    · have hset : c.set key value priority = some { c₃ with m := update c₃.m key (some c.next) } := by
        simp [set, hk, hpush, hfull]
      refine ⟨_, hset, ⟨hh₄, by simp only [hl₃]; exact h.limit_pos, by simp only; omega⟩, hl₃, ?_⟩
      rw [hget₄]
      exact .set_fits hnone (by omega)

/-- `Remove` on a valid cache is a step of the bounded map, answering the
entry it removed. -/
theorem remove_step (h : c.Valid) (key : K) :
    ∃ c' r, c.remove key = some (c', r) ∧ c'.Valid ∧ c'.limit = c.limit ∧
      AStep c.limit c.get (.remove key) c'.get (some (.removed r)) := by
  cases hk : c.m key with
  | none =>
    have hnone : c.get key = none := get_of_none hk
    refine ⟨c, none, by simp [remove, hk], h, rfl, ?_⟩
    have hstep : AStep c.limit c.get (.remove key) (update c.get key none)
        (some (.removed ((c.get key).map fun e => ⟨⟨key, e.1⟩, e.2⟩))) := .remove
    rw [hnone, update_eq_self_iff.mpr hnone.symm] at hstep
    exact hstep
  | some p =>
    obtain ⟨c', e, hrem, hh, hget, hans, hlen, hl⟩ := remove_of_some h.toHolds hk
    have hle := h.len_le
    refine ⟨c', some e, hrem, ⟨hh, by rw [hl]; exact h.limit_pos, by omega⟩, hl, ?_⟩
    rw [hget, ← hans]
    exact .remove

/-- One call on a valid cache does not panic, keeps the cache valid, and does
to its contents what `AStep` allows, with the answer `AStep` gives. -/
theorem exec_spec (h : c.Valid) (o : Op K V P) :
    ∃ c' a, c.exec o = some (c', a) ∧ c'.Valid ∧ c'.limit = c.limit ∧ AStep c.limit c.get o c'.get a := by
  cases o with
  | set key value priority =>
    obtain ⟨c', hset, hv, hl, hstep⟩ := set_step h key value priority
    exact ⟨c', none, by simp [exec, hset], hv, hl, hstep⟩
  | remove key =>
    obtain ⟨c', r, hrem, hv, hl, hstep⟩ := remove_step h key
    exact ⟨c', _, by simp [exec, hrem], hv, hl, hstep⟩
  | get key => exact ⟨c, _, rfl, h, rfl, .get⟩

/-- A run from a valid cache does not panic, keeps the cache valid, and is a
run of `AStep`. -/
theorem run_spec (h : c.Valid) (os : List (Op K V P)) :
    ∃ c' as, c.run os = some (c', as) ∧ c'.Valid ∧ c'.limit = c.limit ∧ ARun c.limit c.get os c'.get as := by
  induction os generalizing c with
  | nil => exact ⟨c, [], rfl, h, rfl, .nil⟩
  | cons o os ih =>
    obtain ⟨c₁, a, hexec, h₁, hl₁, hstep⟩ := exec_spec h o
    obtain ⟨c₂, as, hrun, h₂, hl₂, hrest⟩ := ih h₁
    refine ⟨c₂, a.toList ++ as, by simp [run, hexec, hrun], h₂, hl₂.trans hl₁, ?_⟩
    rw [hl₁] at hrest
    exact .cons hstep hrest

/-- Every run from `NewPrioCache` with a positive limit: no call panics, the
map and the slice hold the same keys, each entry records its place in the
slice, the slice is a min-heap on priority within the limit, the contents
change as those of a bounded map that drops a key of least priority to make
room, and so each key holds the value and priority of its last `Set` unless it
was removed or dropped since. -/
theorem new_run_keeps_heap (limit : ℕ) (hlimit : 1 ≤ limit) (ops : List (Op K V P)) :
    ∃ c₀ c as, new limit = some c₀ ∧ c₀.run ops = some (c, as) ∧ c.Valid ∧ c.limit = limit ∧
      ARun limit (fun _ => none) ops c.get as ∧
      ∀ k, c.get k = none ∨ c.get k = lastWrite k none ops := by
  obtain ⟨c₀, hnew, h₀, hl₀, hg₀⟩ := new_valid (K := K) (V := V) (P := P) hlimit
  obtain ⟨c, as, hrun, h, hl, hrunA⟩ := run_spec h₀ ops
  rw [hl₀, hg₀] at hrunA
  exact ⟨c₀, c, as, hnew, hrun, h, hl.trans hl₀, hrunA, hrunA.eq_lastWrite_or_none⟩

theorem new_run_keeps_heap_two : 1 ≤ 2 ∧ ∃ (c₀ c : PrioCache ℕ ℕ ℕ) (as : List (Answer ℕ ℕ ℕ)),
    new 2 = some c₀ ∧
    c₀.run [.set 1 10 5, .set 2 20 3, .set 3 30 4, .set 2 21 9, .remove 1, .get 3] = some (c, as) ∧
    c.Valid ∧ c.limit = 2 ∧
    ARun 2 (fun _ => none) [.set 1 10 5, .set 2 20 3, .set 3 30 4, .set 2 21 9, .remove 1, .get 3] c.get as ∧
    ∀ k, c.get k = none ∨
      c.get k = lastWrite k none [.set 1 10 5, .set 2 20 3, .set 3 30 4, .set 2 21 9, .remove 1, .get 3] :=
  ⟨by decide, new_run_keeps_heap 2 (by decide) _⟩

end Runs

end PrioCache

end Workshare.Cache
