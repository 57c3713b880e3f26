import Mathlib

/-!
# `RandCache`: a bounded cache with random eviction

`RandCache` keeps each entry behind one pointer that two containers share: the
map `m` from keys, and the slice `s`, whose entry at place `i` records
`index = i`. Pointers are addresses into `heap` here, and `next` is the first
address never handed out, so that a write through a pointer changes the entry
both containers reach. `Remove` moves the slice's last pointer into the hole
and patches that entry's index, also when the removed entry is the last one;
`Set` of a new key that takes the slice past the limit drops a random entry
the same way. The random draws are inputs: `r` stands for
`rand.Intn(len(rc.s))` and is taken modulo the length, so each draw of the
source is some `r`. Where the source would panic (a dangling pointer, an
index past the slice) the model answers `none`.

What the cache is for is a map with at most `limit` keys from which any key
may be dropped to make room (`AStep`). Over every run from `NewRandCache` no
call panics, the map and the slice hold the same entries at the places they
record, the slice stays within the limit, and the contents read through `Get`
change as that map's do (`run_spec`).
-/
namespace Workshare.Cache

open Function

/-- `Entry`: a key and its value. -/
structure Entry (K V : Type) where
  key : K
  value : V
  deriving DecidableEq

/-- `randEntry`: an entry and its place in the slice. -/
structure RandEntry (K V : Type) extends Entry K V where
  index : ℕ

/-- `RandCache`. The entries live in `heap` by address; `m` and `s` hold
addresses, and `next` is the first address not yet handed out. -/
structure RandCache (K V : Type) where
  heap : ℕ → Option (RandEntry K V)
  next : ℕ
  m : K → Option ℕ
  s : List ℕ
  limit : ℕ

namespace RandCache

variable {K V : Type}

/-- `NewRandCache`: the source panics on a limit below one. -/
def new (limit : ℕ) : Option (RandCache K V) :=
  if limit < 1 then none else some ⟨fun _ => none, 0, fun _ => none, [], limit⟩

/-- `Len`. -/
def len (c : RandCache K V) : ℕ := c.s.length

/-- `Get`. A dangling pointer, where the source would panic, reads as no
entry; no valid cache has one. -/
def get (c : RandCache K V) (key : K) : Option V :=
  (c.m key).bind fun p => (c.heap p).map (·.value)

/-- `Contains`. -/
def contains (c : RandCache K V) (key : K) : Bool := (c.m key).isSome

/-- The writes `Set` makes for a key the map does not hold: a new entry at
the next address, at the end of the slice. -/
def insertNew [DecidableEq K] (c : RandCache K V) (key : K) (value : V) : RandCache K V :=
  { c with
    heap := update c.heap c.next (some ⟨⟨key, value⟩, c.s.length⟩)
    next := c.next + 1
    m := update c.m key (some c.next)
    s := c.s ++ [c.next] }

section Writes

variable [DecidableEq K] (c : RandCache K V) (key : K) (value : V)

@[simp] theorem insertNew_heap :
    (c.insertNew key value).heap = update c.heap c.next (some ⟨⟨key, value⟩, c.s.length⟩) := rfl
@[simp] theorem insertNew_next : (c.insertNew key value).next = c.next + 1 := rfl
@[simp] theorem insertNew_m : (c.insertNew key value).m = update c.m key (some c.next) := rfl
@[simp] theorem insertNew_s : (c.insertNew key value).s = c.s ++ [c.next] := rfl
@[simp] theorem insertNew_limit : (c.insertNew key value).limit = c.limit := rfl

end Writes

/-- The writes `remove` makes once it has found the place `i` of the entry of
`key`: the last pointer `last`, to the entry `lastEnt`, moves to place `i`
and records it, and the slice loses its last place. -/
def unlink [DecidableEq K] (c : RandCache K V) (key : K) (i last : ℕ) (lastEnt : RandEntry K V) :
    RandCache K V :=
  { c with
    m := update c.m key none
    s := (c.s.set i last).dropLast
    heap := update c.heap last (some { lastEnt with index := i }) }

section Writes

variable [DecidableEq K] (c : RandCache K V) (key : K) (i last : ℕ) (lastEnt : RandEntry K V)

@[simp] theorem unlink_heap :
    (c.unlink key i last lastEnt).heap = update c.heap last (some { lastEnt with index := i }) := rfl
@[simp] theorem unlink_next : (c.unlink key i last lastEnt).next = c.next := rfl
@[simp] theorem unlink_m : (c.unlink key i last lastEnt).m = update c.m key none := rfl
@[simp] theorem unlink_s : (c.unlink key i last lastEnt).s = (c.s.set i last).dropLast := rfl
@[simp] theorem unlink_limit : (c.unlink key i last lastEnt).limit = c.limit := rfl

end Writes

/-- `remove`. -/
def remove [DecidableEq K] (c : RandCache K V) (key : K) : Option (RandCache K V × Bool) :=
  match c.m key with
  | none => some (c, false)
  | some p => do
    let ent ← c.heap p
    let last ← c.s.getLast?
    let lastEnt ← c.heap last
    -- `rc.s[ent.index] = last` panics past the slice
    if ent.index < c.s.length then some (c.unlink key ent.index last lastEnt, true) else none

/-- `randDrop`, with `r` for the draw of `rand.Intn(len(rc.s))`. -/
def randDrop [DecidableEq K] (c : RandCache K V) (r : ℕ) : Option (RandCache K V) :=
  if c.s.length = 0 then some c
  else do
    let p ← c.s[r % c.s.length]?
    let ent ← c.heap p
    (c.remove ent.key).map (·.1)

/-- `Set`, with `r` for the draw of `randDrop` should a new entry take the
slice past the limit. -/
def set [DecidableEq K] (c : RandCache K V) (key : K) (value : V) (r : ℕ) :
    Option (RandCache K V) :=
  match c.m key with
  | some p => do
    -- `ent.Value = value`, through the pointer both containers share
    let ent ← c.heap p
    some { c with heap := update c.heap p (some { ent with value := value }) }
  | none =>
    let c' := c.insertNew key value
    if c'.s.length > c'.limit then c'.randDrop r else some c'

/-- `Pick`, with `r` for the draw of `rand.Intn(len(rc.s))`: a copy of the
entry there. -/
def pick (c : RandCache K V) (r : ℕ) : Option (Entry K V) :=
  if c.s.length = 0 then none
  else do
    let p ← c.s[r % c.s.length]?
    let ent ← c.heap p
    some ent.toEntry

/-- The calls of the cache, with the random draws they make. -/
inductive Op (K V : Type)
  | set (key : K) (value : V) (r : ℕ)
  | remove (key : K)
  | get (key : K)
  | pick (r : ℕ)

/-- What a call returns. -/
inductive Answer (K V : Type)
  | removed (ok : Bool)
  | got (value : Option V)
  | picked (entry : Option (Entry K V))
  deriving DecidableEq

/-- One call: the cache after it and its answer, or `none` on a panic. -/
def exec [DecidableEq K] (c : RandCache K V) : Op K V → Option (RandCache K V × Option (Answer K V))
  | .set key value r => (c.set key value r).map fun c' => (c', none)
  | .remove key => (c.remove key).map fun r => (r.1, some (.removed r.2))
  | .get key => some (c, some (.got (c.get key)))
  | .pick r => some (c, some (.picked (c.pick r)))

/-- A run of calls, with the answers in order. -/
def run [DecidableEq K] (c : RandCache K V) : List (Op K V) → Option (RandCache K V × List (Answer K V))
  | [] => some (c, [])
  | o :: os => (c.exec o).bind fun r => (r.1.run os).map fun r' => (r'.1, r.2.toList ++ r'.2)

example : (((new 1 : Option (RandCache ℕ ℕ)).bind fun c =>
    c.run [.set 1 10 0, .set 2 20 0, .get 1, .get 2, .pick 5]).map (·.2)) =
    some [.got none, .got (some 20), .picked (some ⟨2, 20⟩)] := by
  rfl

/-! ## What the cache is for

A map from keys to values with at most `limit` keys. A write of a new key to
a full map drops one key that is there, the new one included; which one is
left open. -/

section Abstract

/-- The number of keys a map holds. -/
noncomputable def size (M : K → Option V) : ℕ := {k | M k ≠ none}.ncard

variable [DecidableEq K]

/-- What one call may do to a bounded map `M`, and what it answers. -/
inductive AStep (limit : ℕ) : (K → Option V) → Op K V → (K → Option V) → Option (Answer K V) → Prop
  | set_present {M k v r} : M k ≠ none → AStep limit M (.set k v r) (update M k (some v)) none
  | set_fits {M k v r} : M k = none → size M < limit →
      AStep limit M (.set k v r) (update M k (some v)) none
  | set_evicts {M k v r} (k' : K) : M k = none → limit ≤ size M → update M k (some v) k' ≠ none →
      AStep limit M (.set k v r) (update (update M k (some v)) k' none) none
  | remove {M k} : AStep limit M (.remove k) (update M k none) (some (.removed (M k).isSome))
  | get {M k} : AStep limit M (.get k) M (some (.got (M k)))
  | pick_empty {M r} : (∀ k, M k = none) → AStep limit M (.pick r) M (some (.picked none))
  | pick {M r} (e : Entry K V) : M e.key = some e.value → AStep limit M (.pick r) M (some (.picked (some e)))

/-- The runs of `AStep`. -/
inductive ARun (limit : ℕ) : (K → Option V) → List (Op K V) → (K → Option V) → List (Answer K V) → Prop
  | nil {M} : ARun limit M [] M []
  | cons {M o M₁ a os M₂ as} : AStep limit M o M₁ a → ARun limit M₁ os M₂ as →
      ARun limit M (o :: os) M₂ (a.toList ++ as)

/-- What the calls last wrote under `k`: the value of its last `Set`, nothing
after a `Remove`, or what was there before. -/
def lastWrite (k : K) (init : Option V) : List (Op K V) → Option V
  | [] => init
  | .set k' v _ :: os => lastWrite k (if k' = k then some v else init) os
  | .remove k' :: os => lastWrite k (if k' = k then none else init) os
  | .get _ :: os => lastWrite k init os
  | .pick _ :: os => lastWrite k init os

/-- A step keeps what is under `k`, or writes it as the call says, or drops it. -/
theorem AStep.eq_or_none {limit : ℕ} {M M' : K → Option V} {o : Op K V} {a : Option (Answer K V)}
    (h : AStep limit M o M' a) (k : K) : M' k = none ∨ M' k = lastWrite k (M k) [o] := by
  cases h with
  | @set_present k' v _ _ =>
    right; by_cases hk : k' = k
    · subst hk; simp [lastWrite]
    · simp [lastWrite, hk, Ne.symm hk]
  | @set_fits k' v _ _ _ =>
    right; by_cases hk : k' = k
    · subst hk; simp [lastWrite]
    · simp [lastWrite, hk, Ne.symm hk]
  | @set_evicts k' v _ k'' _ _ _ =>
    by_cases hk'' : k = k''
    · left; simp [hk'']
    · right; by_cases hk : k' = k
      · subst hk; simp [lastWrite, hk'']
      · simp [lastWrite, hk, Ne.symm hk, hk'']
  | @remove k' =>
    by_cases hk : k = k'
    · left; simp [hk]
    · right; simp [lastWrite, hk, Ne.symm hk]
  | get | pick_empty | pick => right; rfl

/-- `lastWrite` of a longer run continues from the first call's. -/
theorem lastWrite_cons (k : K) (init : Option V) (o : Op K V) (os : List (Op K V)) :
    lastWrite k init (o :: os) = lastWrite k (lastWrite k init [o]) os := by
  cases o <;> rfl

/-- A run leaves what is under `k` as it was, or writes it whatever was there. -/
theorem lastWrite_eq_init_or_forall (k : K) :
    ∀ (os : List (Op K V)) (x : Option V), lastWrite k x os = x ∨ ∀ y, lastWrite k y os = lastWrite k x os
  | [], _ => .inl rfl
  | .set k' v _ :: os, x => by
    by_cases hk : k' = k
    · right; intro y; simp [lastWrite, hk]
    · simpa [lastWrite, hk] using lastWrite_eq_init_or_forall k os x
  | .remove k' :: os, x => by
    by_cases hk : k' = k
    · right; intro y; simp [lastWrite, hk]
    · simpa [lastWrite, hk] using lastWrite_eq_init_or_forall k os x
  | .get _ :: os, x => lastWrite_eq_init_or_forall k os x
  | .pick _ :: os, x => lastWrite_eq_init_or_forall k os x

/-- After a run, what is under `k` is what the calls last wrote there, or
nothing: the key was removed or dropped since. -/
theorem ARun.eq_lastWrite_or_none {limit : ℕ} {M M' : K → Option V} {os : List (Op K V)}
    {as : List (Answer K V)} (h : ARun limit M os M' as) (k : K) :
    M' k = none ∨ M' k = lastWrite k (M k) os := by
  induction h with
  | nil => right; rfl
  | @cons M o M₁ a os M₂ as hstep _ ih =>
    rw [lastWrite_cons]
    rcases hstep.eq_or_none k with h₁ | h₁
    · -- the key went in this step: the rest of the run writes it, or it stays out
      rw [h₁] at ih
      rcases ih with h₂ | h₂
      · exact .inl h₂
      · rcases lastWrite_eq_init_or_forall k os none with h₃ | h₃
        · exact .inl (h₂.trans h₃)
        · exact .inr (h₂.trans (h₃ _).symm)
    · rw [← h₁]; exact ih

end Abstract

/-! ## The invariant -/

/-- The map and the slice hold the same entries: the entry at each place of
the slice records that place and is the map's entry for its key, and each
entry the map reaches is under its own key, at the place it records. No entry
lives at `next` or after. -/
structure Holds (c : RandCache K V) : Prop where
  at_index : ∀ i p, c.s[i]? = some p → ∃ e, c.heap p = some e ∧ e.index = i ∧ c.m e.key = some p
  in_slice : ∀ k p, c.m k = some p → ∃ e, c.heap p = some e ∧ e.key = k ∧ c.s[e.index]? = some p
  fresh : ∀ q, c.next ≤ q → c.heap q = none

/-- A cache as the calls leave it: its entries hold, and the slice is within
a positive limit. -/
structure Valid (c : RandCache K V) : Prop extends Holds c where
  limit_pos : 1 ≤ c.limit
  len_le : c.s.length ≤ c.limit

/-- What `Get` reads for a key the map holds. -/
theorem get_of_some {c : RandCache K V} {k : K} {p : ℕ} {e : RandEntry K V} (hk : c.m k = some p)
    (he : c.heap p = some e) : c.get k = some e.value := by
  simp [get, hk, he]

theorem get_of_none {c : RandCache K V} {k : K} (hk : c.m k = none) : c.get k = none := by
  simp [get, hk]

namespace Holds

variable {c : RandCache K V}

/-- A pointer stands at one place of the slice at most. -/
theorem eq_of_getElem? (h : c.Holds) {i j p : ℕ} (hi : c.s[i]? = some p) (hj : c.s[j]? = some p) :
    i = j := by
  obtain ⟨e, he, rfl, -⟩ := h.at_index i p hi
  obtain ⟨e', he', rfl, -⟩ := h.at_index j p hj
  rw [he] at he'
  cases he'
  rfl

/-- Every address in use is below `next`. -/
theorem lt_next (h : c.Holds) {p : ℕ} {e : RandEntry K V} (he : c.heap p = some e) : p < c.next := by
  by_contra hp
  rw [h.fresh p (Nat.le_of_not_lt hp)] at he
  cases he

/-- The entry the map reaches for `k` is under `k`. -/
theorem key_eq (h : c.Holds) {k : K} {p : ℕ} {e : RandEntry K V} (hk : c.m k = some p)
    (he : c.heap p = some e) : e.key = k := by
  obtain ⟨e', he', hkey, -⟩ := h.in_slice k p hk
  rw [he] at he'
  cases he'
  exact hkey

/-- The map sends two keys to one pointer only if they are one key. -/
theorem key_inj (h : c.Holds) {k k' : K} {p : ℕ} (hk : c.m k = some p) (hk' : c.m k' = some p) :
    k = k' := by
  obtain ⟨e, he, rfl, -⟩ := h.in_slice k p hk
  exact h.key_eq hk' he

/-- `Get` finds exactly the keys the map holds. -/
theorem get_eq_none_iff (h : c.Holds) {k : K} : c.get k = none ↔ c.m k = none := by
  cases hk : c.m k with
  | none => simp [get_of_none hk]
  | some p =>
    obtain ⟨e, he, -, -⟩ := h.in_slice k p hk
    simp [get_of_some hk he]

/-- The cache holds as many keys as the slice has places: the key of the
entry at each place, and these keys differ. -/
theorem size_get (h : c.Holds) : size c.get = c.s.length := by
  have hent : ∀ i (hi : i < c.s.length),
      ∃ e, c.heap c.s[i] = some e ∧ e.index = i ∧ c.m e.key = some c.s[i] :=
    fun i hi => h.at_index i _ (List.getElem?_eq_getElem hi)
  refine Set.ncard_eq_of_bijective (fun i hi => (hent i hi).choose.key) ?_ ?_ ?_
  · -- a key the cache holds is the key at the place its entry records
    intro k (hk : c.get k ≠ none)
    obtain ⟨p, hp⟩ : ∃ p, c.m k = some p :=
      Option.ne_none_iff_exists'.mp (mt h.get_eq_none_iff.mpr hk)
    obtain ⟨e, he, rfl, hidx⟩ := h.in_slice k p hp
    obtain ⟨hlt, hpe⟩ := List.getElem?_eq_some_iff.mp hidx
    refine ⟨e.index, hlt, ?_⟩
    have he' : c.heap c.s[e.index] = some e := by rw [hpe]; exact he
    rw [Option.some.inj (((hent e.index hlt).choose_spec.1).symm.trans he')]
  · intro i hi
    obtain ⟨he, -, hm⟩ := (hent i hi).choose_spec
    show c.get _ ≠ none
    simp [get_of_some hm he]
  · intro i j hi hj hij
    have hmi := (hent i hi).choose_spec.2.2
    have hmj := (hent j hj).choose_spec.2.2
    rw [hij, hmj] at hmi
    have hs : c.s[i] = c.s[j] := (Option.some.inj hmi).symm
    exact h.eq_of_getElem? (List.getElem?_eq_getElem hi) (by rw [hs]; exact List.getElem?_eq_getElem hj)

end Holds

/-! ## What each call does -/

/-- The slice after `remove` moved `last` into place `i`: the places before
the last one, with `last` at `i`. -/
theorem getElem?_set_dropLast {α : Type} {l : List α} {i : ℕ} (a : α) (hi : i < l.length) (j : ℕ) :
    ((l.set i a).dropLast)[j]? = if j < l.length - 1 then (if i = j then some a else l[j]?) else none := by
  rw [List.getElem?_dropLast, List.length_set, List.getElem?_set]
  simp [hi]

section Ops

variable {c : RandCache K V}

/-- A write through a pointer that keeps the entry's key and place keeps the
invariant. -/
theorem Holds.write (h : c.Holds) {p : ℕ} {e e' : RandEntry K V} (he : c.heap p = some e)
    (hkey : e'.key = e.key) (hidx : e'.index = e.index) :
    ({ c with heap := update c.heap p (some e') } : RandCache K V).Holds where
  at_index i q hi := by
    obtain ⟨f, hf, rfl, hm⟩ := h.at_index i q hi
    by_cases hq : q = p
    · subst hq
      rw [he] at hf
      cases hf
      exact ⟨e', by simp, hidx, by rw [hkey]; exact hm⟩
    · exact ⟨f, by simp [hq, hf], rfl, hm⟩
  in_slice k q hk := by
    obtain ⟨f, hf, rfl, hs⟩ := h.in_slice k q hk
    by_cases hq : q = p
    · subst hq
      rw [he] at hf
      cases hf
      exact ⟨e', by simp, hkey, by rw [hidx]; exact hs⟩
    · exact ⟨f, by simp [hq, hf], rfl, hs⟩
  fresh q hq := by
    have hq' : c.next ≤ q := hq
    have hne : q ≠ p := fun heq => by have := h.lt_next he; omega
    simp [hne, h.fresh q hq']

variable [DecidableEq K]

/-- `Set` of a key the map holds writes the value through its pointer. -/
theorem set_of_some (h : c.Holds) {key : K} {p : ℕ} (hk : c.m key = some p) (value : V) (r : ℕ) :
    ∃ c', c.set key value r = some c' ∧ c'.Holds ∧ c'.get = update c.get key (some value) ∧
      c'.s = c.s ∧ c'.limit = c.limit := by
  obtain ⟨e, he, rfl, -⟩ := h.in_slice _ p hk
  refine ⟨_, by simp [set, hk, he],
    h.write he (show ({ e with value := value } : RandEntry K V).key = e.key from rfl) rfl, ?_, rfl, rfl⟩
  funext k
  by_cases hkk : k = e.key
  · subst hkk
    simp [get, hk]
  · rw [update_of_ne hkk]
    cases hm : c.m k with
    | none => simp [get, hm]
    | some q =>
      have hq : q ≠ p := fun hqp => hkk (h.key_inj hm (hqp ▸ hk))
      simp [get, hm, hq]

/-- The new entry of `Set` keeps the invariant. -/
theorem Holds.insertNew (h : c.Holds) {key : K} (hk : c.m key = none) (value : V) :
    (c.insertNew key value).Holds where
  at_index i p hi := by
    rw [insertNew_s, List.getElem?_append] at hi
    split_ifs at hi with hlt
    · -- an old place: its entry is not at the new address, nor under the new key
      obtain ⟨e, he, rfl, hm⟩ := h.at_index _ p hi
      have hne : p ≠ c.next := (h.lt_next he).ne
      have hkey : e.key ≠ key := fun heq => by rw [heq, hk] at hm; cases hm
      exact ⟨e, by simp [hne, he], rfl, by simp [hkey, hm]⟩
    · -- the new place
      have hi0 : i - c.s.length = 0 := by
        by_contra h0
        rw [List.getElem?_eq_none (by simp; omega)] at hi
        cases hi
      simp only [hi0, List.getElem?_cons_zero, Option.some.injEq] at hi
      subst hi
      exact ⟨⟨⟨key, value⟩, c.s.length⟩, by simp, by simp only; omega, by simp⟩
  in_slice k p hk' := by
    by_cases hkk : k = key
    · subst hkk
      simp only [insertNew_m, update_self, Option.some.injEq] at hk'
      subst hk'
      exact ⟨⟨⟨k, value⟩, c.s.length⟩, by simp, rfl, by simp⟩
    · have hm : c.m k = some p := by simpa [hkk] using hk'
      obtain ⟨e, he, rfl, hidx⟩ := h.in_slice _ p hm
      have hne : p ≠ c.next := (h.lt_next he).ne
      have hlt : e.index < c.s.length := (List.getElem?_eq_some_iff.mp hidx).1
      exact ⟨e, by simp [hne, he], rfl, by simp [List.getElem?_append_left hlt, hidx]⟩
  fresh q hq := by
    have hne : q ≠ c.next := by simp at hq; omega
    simp only [insertNew_heap, update_of_ne hne]
    exact h.fresh q (by simp at hq; omega)

/-- After the new entry of `Set`, `Get` reads the new value under its key. -/
theorem Holds.get_insertNew (h : c.Holds) {key : K} (value : V) :
    (c.insertNew key value).get = update c.get key (some value) := by
  funext k
  by_cases hkk : k = key
  · subst hkk
    simp [get]
  · rw [update_of_ne hkk]
    cases hm : c.m k with
    | none => simp [get, hkk, hm]
    | some p =>
      obtain ⟨e, he, -, -⟩ := h.in_slice k p hm
      have hne : p ≠ c.next := (h.lt_next he).ne
      simp [get, hkk, hm, hne]

/-- `remove`'s writes keep the invariant: the entry moved into the hole
records it, and the map no longer reaches the removed one. -/
theorem Holds.unlink (h : c.Holds) {key : K} {p last : ℕ} {ent lastEnt : RandEntry K V}
    (hk : c.m key = some p) (he : c.heap p = some ent) (hlast : c.s.getLast? = some last)
    (hl : c.heap last = some lastEnt) : (c.unlink key ent.index last lastEnt).Holds := by
  have hidx : c.s[ent.index]? = some p := by
    obtain ⟨e, he', -, hs⟩ := h.in_slice key p hk
    rw [he] at he'
    cases he'
    exact hs
  have hn : ent.index < c.s.length := (List.getElem?_eq_some_iff.mp hidx).1
  have hlast' : c.s[c.s.length - 1]? = some last := by rwa [← List.getLast?_eq_getElem?]
  obtain ⟨lastEnt', hl', hli, hlm⟩ := h.at_index _ last hlast'
  rw [hl] at hl'
  cases hl'
  have hs := getElem?_set_dropLast last hn
  -- the removed entry is the last one exactly when it stands at the last place
  have hlastKey : lastEnt.key = key → ent.index = c.s.length - 1 := fun hkey => by
    rw [hkey, hk] at hlm
    cases hlm
    exact h.eq_of_getElem? hidx hlast'
  constructor
  · intro j q hj
    rw [unlink_s, hs] at hj
    split_ifs at hj with hjn hij
    · -- the hole, where `last` moved
      cases hj
      have hkey : lastEnt.key ≠ key := fun hkey => by have := hlastKey hkey; omega
      exact ⟨{ lastEnt with index := ent.index }, by simp, hij, by simp [hkey, hlm]⟩
    · -- a place that kept its pointer, which is neither `last` nor the removed one
      obtain ⟨e, he', rfl, hm⟩ := h.at_index _ q hj
      have hql : q ≠ last := fun hq => by
        have := h.eq_of_getElem? hj (hq ▸ hlast')
        omega
      have hkey : e.key ≠ key := fun hkey => by
        rw [hkey, hk] at hm
        cases hm
        exact hij (h.eq_of_getElem? hidx hj)
      exact ⟨e, by simp [hql, he'], rfl, by simp [hkey, hm]⟩
  · intro k q hk'
    have hkk : k ≠ key := fun hkk => by simp [hkk] at hk'
    have hm : c.m k = some q := by simpa [hkk] using hk'
    obtain ⟨e, he', rfl, hsq⟩ := h.in_slice _ q hm
    by_cases hql : q = last
    · -- the last entry, now at the hole, which is not the last place
      subst hql
      rw [hl] at he'
      cases he'
      have hlt : ent.index < c.s.length - 1 := by
        by_contra hge
        have hpl : p = q := by
          have hi : ent.index = c.s.length - 1 := by omega
          rw [hi, hlast'] at hidx
          exact (Option.some.inj hidx).symm
        exact hkk (h.key_inj hm (hpl ▸ hk))
      exact ⟨{ lastEnt with index := ent.index }, by simp, rfl, by rw [unlink_s, hs]; simp [hlt]⟩
    · -- another entry, at a place that kept its pointer
      have hlt : e.index < c.s.length := (List.getElem?_eq_some_iff.mp hsq).1
      have hne1 : e.index ≠ c.s.length - 1 := fun heq => by
        rw [heq, hlast'] at hsq
        exact hql (Option.some.inj hsq).symm
      have hne2 : ent.index ≠ e.index := fun heq => by
        rw [heq, hsq] at hidx
        exact hkk (h.key_inj hm ((Option.some.inj hidx) ▸ hk))
      refine ⟨e, by simp [hql, he'], rfl, ?_⟩
      rw [unlink_s, hs, if_pos (by omega), if_neg hne2, hsq]
  · intro q (hq : c.next ≤ q)
    have hne : q ≠ last := fun heq => by have := h.lt_next hl; omega
    simp only [unlink_heap, update_of_ne hne]
    exact h.fresh q hq

/-- After `remove`'s writes, `Get` no longer finds the key and reads the
others as before: moving an entry changes its index only. -/
theorem get_unlink {key : K} {last : ℕ} {lastEnt : RandEntry K V} (hl : c.heap last = some lastEnt)
    (i : ℕ) : (c.unlink key i last lastEnt).get = update c.get key none := by
  funext k
  by_cases hkk : k = key
  · subst hkk
    simp [get]
  · rw [update_of_ne hkk]
    cases hm : c.m k with
    | none => simp [get, hkk, hm]
    | some q =>
      by_cases hq : q = last
      · subst hq
        simp [get, hkk, hm, hl]
      · simp [get, hkk, hm, hq]

theorem remove_of_none {key : K} (hk : c.m key = none) : c.remove key = some (c, false) := by
  simp [remove, hk]

/-- `remove` of a key the map holds does not panic: it takes the key out and
shortens the slice by one. -/
theorem remove_of_some (h : c.Holds) {key : K} {p : ℕ} (hk : c.m key = some p) :
    ∃ c', c.remove key = some (c', true) ∧ c'.Holds ∧ c'.get = update c.get key none ∧
      c'.s.length + 1 = c.s.length ∧ c'.limit = c.limit := by
  obtain ⟨ent, he, -, hidx⟩ := h.in_slice key p hk
  have hn : ent.index < c.s.length := (List.getElem?_eq_some_iff.mp hidx).1
  obtain ⟨last, hlast⟩ : ∃ last, c.s.getLast? = some last := by
    rw [List.getLast?_eq_getElem?]
    exact ⟨_, List.getElem?_eq_getElem (by omega)⟩
  obtain ⟨lastEnt, hl, -, -⟩ := h.at_index _ last (by rwa [← List.getLast?_eq_getElem?])
  refine ⟨c.unlink key ent.index last lastEnt, by simp [remove, hk, he, hlast, hl, hn],
    h.unlink hk he hlast hl, get_unlink hl _, by simp; omega, rfl⟩

/-- `randDrop` on a non-empty cache takes out one key the cache holds. -/
theorem randDrop_of_ne_nil (h : c.Holds) (hne : c.s ≠ []) (r : ℕ) :
    ∃ c' k, c.randDrop r = some c' ∧ c.get k ≠ none ∧ c'.Holds ∧ c'.get = update c.get k none ∧
      c'.s.length + 1 = c.s.length ∧ c'.limit = c.limit := by
  have hpos : 0 < c.s.length := List.length_pos_of_ne_nil hne
  have hr : r % c.s.length < c.s.length := Nat.mod_lt _ hpos
  obtain ⟨e, he, -, hm⟩ := h.at_index _ _ (List.getElem?_eq_getElem hr)
  obtain ⟨c', hrem, hc'⟩ := remove_of_some h hm
  refine ⟨c', e.key, ?_, by simp [get_of_some hm he], hc'⟩
  simp [randDrop, hpos.ne', List.getElem?_eq_getElem hr, he, hrem]

end Ops

/-! ## Runs -/

section Runs

/-- `NewRandCache` with a positive limit gives an empty valid cache. -/
theorem new_valid {limit : ℕ} (hl : 1 ≤ limit) :
    ∃ c : RandCache K V, new limit = some c ∧ c.Valid ∧ c.limit = limit ∧ c.get = fun _ => none := by
  refine ⟨⟨fun _ => none, 0, fun _ => none, [], limit⟩, by simp [new, Nat.not_lt.mpr hl], ?_, rfl, rfl⟩
  exact { at_index := by simp, in_slice := by simp, fresh := by simp, limit_pos := hl, len_le := by simp }

variable [DecidableEq K]

/-- One call on a valid cache does not panic, keeps the cache valid, and does
to its contents what `AStep` allows, with the answer `AStep` gives. -/
theorem exec_spec {c : RandCache K V} (h : c.Valid) (o : Op K V) :
    ∃ c' a, c.exec o = some (c', a) ∧ c'.Valid ∧ c'.limit = c.limit ∧
      AStep c.limit c.get o c'.get a := by
  cases o with
  | set key value r =>
    cases hk : c.m key with
    | some p =>
      obtain ⟨c', hset, hh, hget, hs, hl⟩ := set_of_some h.toHolds hk value r
      have hpresent : c.get key ≠ none := mt h.get_eq_none_iff.mp (by simp [hk])
      refine ⟨c', none, by simp [exec, hset], ⟨hh, by rw [hl]; exact h.limit_pos, ?_⟩, hl, ?_⟩
      · rw [hs, hl]
        exact h.len_le
      · rw [hget]
        exact .set_present hpresent
    | none =>
      have hnone : c.get key = none := get_of_none hk
      have hsize : size c.get = c.s.length := h.size_get
      have hh := h.toHolds.insertNew hk value
      have hget : (c.insertNew key value).get = update c.get key (some value) :=
        h.toHolds.get_insertNew value
      have hlen := h.len_le
      by_cases hfull : c.limit < c.s.length + 1
      · -- a full cache: `randDrop` takes out one key that is there, maybe the new one
        obtain ⟨c', k', hdrop, hk', hh', hget', hlen', hl⟩ := randDrop_of_ne_nil hh (by simp) r
        have hset : c.set key value r = some c' := by simp [set, hk, hfull, hdrop]
        simp only [insertNew_s, List.length_append, List.length_singleton, insertNew_limit] at hlen' hl
        refine ⟨c', none, by simp [exec, hset], ⟨hh', by rw [hl]; exact h.limit_pos, by omega⟩, hl, ?_⟩
        rw [hget', hget]
        exact .set_evicts k' hnone (by omega) (by rwa [← hget])
      · have hset : c.set key value r = some (c.insertNew key value) := by simp [set, hk, hfull]
        refine ⟨_, none, by simp [exec, hset], ⟨hh, h.limit_pos, by simp; omega⟩, rfl, ?_⟩
        rw [hget]
        exact .set_fits hnone (by omega)
  | remove key =>
    cases hk : c.m key with
    | none =>
      have hnone : c.get key = none := get_of_none hk
      refine ⟨c, some (.removed false), by simp [exec, remove_of_none hk], h, rfl, ?_⟩
      have hstep : AStep c.limit c.get (.remove key) (update c.get key none)
          (some (.removed (c.get key).isSome)) := .remove
      have hupd : update c.get key none = c.get := update_eq_self_iff.mpr hnone.symm
      rw [hnone, hupd] at hstep
      simpa using hstep
    | some p =>
      obtain ⟨c', hrem, hh, hget, hlen, hl⟩ := remove_of_some h.toHolds hk
      have hsome : (c.get key).isSome = true := by
        obtain ⟨e, he, -, -⟩ := h.in_slice key p hk
        simp [get_of_some hk he]
      have hle := h.len_le
      refine ⟨c', some (.removed true), by simp [exec, hrem], ⟨hh, by rw [hl]; exact h.limit_pos, by omega⟩,
        hl, ?_⟩
      rw [hget, ← hsome]
      exact .remove
  | get key => exact ⟨c, _, rfl, h, rfl, .get⟩
  | pick r =>
    refine ⟨c, some (.picked (c.pick r)), rfl, h, rfl, ?_⟩
    by_cases hn : c.s.length = 0
    · -- an empty slice: the map holds no key either
      rw [show c.pick r = none by simp [pick, hn]]
      refine .pick_empty fun k => h.get_eq_none_iff.mpr ?_
      cases hk : c.m k with
      | none => rfl
      | some p =>
        obtain ⟨e, -, -, hs⟩ := h.in_slice k p hk
        simp [List.length_eq_zero_iff.mp hn] at hs
    · have hr : r % c.s.length < c.s.length := Nat.mod_lt _ (Nat.pos_of_ne_zero hn)
      obtain ⟨e, he, -, hm⟩ := h.at_index _ _ (List.getElem?_eq_getElem hr)
      rw [show c.pick r = some e.toEntry by simp [pick, hn, List.getElem?_eq_getElem hr, he]]
      exact .pick e.toEntry (get_of_some hm he)

/-- A run from a valid cache does not panic, keeps the cache valid, and is a
run of `AStep`. -/
theorem run_spec {c : RandCache K V} (h : c.Valid) (os : List (Op K V)) :
    ∃ c' as, c.run os = some (c', as) ∧ c'.Valid ∧ c'.limit = c.limit ∧
      ARun c.limit c.get os c'.get as := by
  induction os generalizing c with
  | nil => exact ⟨c, [], rfl, h, rfl, .nil⟩
  | cons o os ih =>
    obtain ⟨c₁, a, hexec, h₁, hl₁, hstep⟩ := exec_spec h o
    obtain ⟨c₂, as, hrun, h₂, hl₂, hrest⟩ := ih h₁
    refine ⟨c₂, a.toList ++ as, by simp [run, hexec, hrun], h₂, hl₂.trans hl₁, ?_⟩
    rw [hl₁] at hrest
    exact .cons hstep hrest

/-- Every run from `NewRandCache` with a positive limit: no call panics, the
map and the slice hold the same entries at the places they record, the slice
stays within the limit, the contents change as those of a bounded map with
any key dropped to make room, and so each key holds the value of its last
`Set` unless it was removed or dropped since. -/
theorem new_run_valid (limit : ℕ) (hlimit : 1 ≤ limit) (ops : List (Op K V)) :
    ∃ c₀ c as, new limit = some c₀ ∧ c₀.run ops = some (c, as) ∧ c.Valid ∧ c.limit = limit ∧
      ARun limit (fun _ => none) ops c.get as ∧
      ∀ k, c.get k = none ∨ c.get k = lastWrite k none ops := by
  obtain ⟨c₀, hnew, h₀, hl₀, hg₀⟩ := new_valid (V := V) hlimit
  obtain ⟨c, as, hrun, h, hl, hrunA⟩ := run_spec h₀ ops
  rw [hl₀, hg₀] at hrunA
  exact ⟨c₀, c, as, hnew, hrun, h, hl.trans hl₀, hrunA, hrunA.eq_lastWrite_or_none⟩

theorem new_run_valid_one : 1 ≤ 1 ∧ ∃ (c₀ c : RandCache ℕ ℕ) (as : List (Answer ℕ ℕ)), new 1 = some c₀ ∧
    c₀.run [.set 1 10 0, .set 2 20 0, .remove 2, .pick 0] = some (c, as) ∧ c.Valid ∧ c.limit = 1 ∧
    ARun 1 (fun _ => none) [.set 1 10 0, .set 2 20 0, .remove 2, .pick 0] c.get as ∧
    ∀ k, c.get k = none ∨ c.get k = lastWrite k none [.set 1 10 0, .set 2 20 0, .remove 2, .pick 0] :=
  ⟨le_rfl, new_run_valid 1 le_rfl _⟩

end Runs

end RandCache

end Workshare.Cache
