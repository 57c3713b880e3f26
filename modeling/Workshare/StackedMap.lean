import Workshare.Layered
import Mathlib

/-!
# StackedMap: maps kept in a stack

`stackedmap.StackedMap` is the journal under `state.State` and the EVM's
`StateDB`. Each level holds a key/value map and the journal of the `Put`s made
into it; a `Get` reads the topmost level that holds the key, through the index
`keyRevisionMap`, and falls back to the source getter. The index is a field
of the structure together with the proof that it lists, for every key, exactly
the levels whose map holds it, so every lemma below reads levels, not the
index. The source panics on `Put` and `Pop` over an empty stack; the model
leaves the map unchanged there, and no run in this development reaches it.
-/
namespace Workshare

/-- One level of the stack: its map and the journal of its `Put`s in order. -/
structure Level (K V : Type) where
  kvs : K → Option V
  journal : List (K × V)

/-- `newLevel`. -/
def newLevel {K V : Type} : Level K V := ⟨fun _ => none, []⟩

/-- `MapGetter`: the source of data below every level. -/
abbrev MapGetter (K V ε : Type) := K → Except ε (V × Bool)

/-- The maps of a stack of levels, bottom first. -/
def layersOf {K V : Type} (stack : List (Level K V)) : List (K → Option V) :=
  stack.map (·.kvs)

@[simp] theorem layersOf_append {K V : Type} (s t : List (Level K V)) :
    layersOf (s ++ t) = layersOf s ++ layersOf t := by simp [layersOf]

@[simp] theorem length_layersOf {K V : Type} (s : List (Level K V)) :
    (layersOf s).length = s.length := by simp [layersOf]

@[simp] theorem layersOf_singleton {K V : Type} (l : Level K V) : layersOf [l] = [l.kvs] := rfl

/-- The top level after a `Put`. -/
def Level.put {K V : Type} [DecidableEq K] (top : Level K V) (key : K) (value : V) : Level K V :=
  ⟨Function.update top.kvs key (some value), top.journal ++ [(key, value)]⟩

/-- `StackedMap`, its revision index carrying the proof that it is exact. -/
structure StackedMap (K V ε : Type) where
  src : MapGetter K V ε
  mapStack : List (Level K V)
  keyRevisionMap : K → List ℕ
  revisions : ∀ k, keyRevisionMap k = Layered.holders (layersOf mapStack) k

namespace StackedMap

variable {K V ε : Type}

/-- Two stacked maps over the same source with the same levels are equal. -/
theorem ext' {a b : StackedMap K V ε} (hs : a.src = b.src) (hm : a.mapStack = b.mapStack) :
    a = b := by
  cases a; cases b
  subst hs hm
  congr
  funext k
  simp_all

/-- `New`: one empty level over the source. -/
def new (src : MapGetter K V ε) : StackedMap K V ε where
  src := src
  mapStack := [newLevel]
  keyRevisionMap := fun _ => []
  revisions := fun k => by simp [Layered.holders, layersOf, newLevel]

/-- `Depth`. -/
def depth (sm : StackedMap K V ε) : ℕ := sm.mapStack.length

/-- `Push`: a new empty level; it returns the depth before the push. -/
def push (sm : StackedMap K V ε) : ℕ × StackedMap K V ε :=
  (sm.mapStack.length,
    { src := sm.src
      mapStack := sm.mapStack ++ [newLevel]
      keyRevisionMap := sm.keyRevisionMap
      revisions := fun k => by
        rw [layersOf_append, layersOf_singleton, Layered.holders_append_singleton, sm.revisions k]
        simp [newLevel] })

theorem holders_pop (rest : List (Level K V)) (top : Level K V) (k : K) :
    (if (top.kvs k).isSome then (Layered.holders (layersOf (rest ++ [top])) k).dropLast
      else Layered.holders (layersOf (rest ++ [top])) k) = Layered.holders (layersOf rest) k := by
  rw [layersOf_append, layersOf_singleton, Layered.holders_append_singleton]
  cases top.kvs k <;> simp

/-- The pop of a nonempty stack written as its last level and the rest. -/
def popLast (sm : StackedMap K V ε) (rest : List (Level K V)) (top : Level K V)
    (h : sm.mapStack = rest ++ [top]) : StackedMap K V ε where
  src := sm.src
  mapStack := rest
  keyRevisionMap := fun k =>
    if (top.kvs k).isSome then (sm.keyRevisionMap k).dropLast else sm.keyRevisionMap k
  revisions := fun k => by
    rw [sm.revisions k, h]
    exact holders_pop rest top k

/-- `Pop`: drop the top level and the revisions it recorded. -/
def pop (sm : StackedMap K V ε) : StackedMap K V ε :=
  if h : sm.mapStack = [] then sm
  else sm.popLast sm.mapStack.dropLast (sm.mapStack.getLast h) (List.dropLast_append_getLast h).symm

/-- `PopTo`: pop until the stack is no deeper than `depth`. -/
def popTo (sm : StackedMap K V ε) (depth : ℕ) : StackedMap K V ε :=
  pop^[sm.mapStack.length - depth] sm

/-- `Get`: the value at the topmost level recorded for the key, else the source. -/
def get (sm : StackedMap K V ε) (key : K) : Except ε (V × Bool) :=
  match (sm.keyRevisionMap key).getLast? with
  | some rev =>
    match (sm.mapStack[rev]?).bind (fun lvl => lvl.kvs key) with
    | some v => .ok (v, true)
    | none => sm.src key
  | none => sm.src key

/-- The revision stack of `key` after a `Put` at level `rev`. -/
def pushRevision (revs : List ℕ) (rev : ℕ) : List ℕ :=
  match revs.getLast? with
  | some top => if top = rev then revs else revs ++ [rev]
  | none => [rev]

/-- `Journal`: every `Put` of the surviving levels, bottom level first. -/
def journal (sm : StackedMap K V ε) : List (K × V) :=
  sm.mapStack.flatMap (·.journal)

@[simp] theorem src_new (src : MapGetter K V ε) : (new src).src = src := rfl

@[simp] theorem mapStack_new (src : MapGetter K V ε) : (new src).mapStack = [newLevel] := rfl

@[simp] theorem push_fst (sm : StackedMap K V ε) : sm.push.1 = sm.mapStack.length := rfl

@[simp] theorem src_push (sm : StackedMap K V ε) : sm.push.2.src = sm.src := rfl

@[simp] theorem mapStack_push (sm : StackedMap K V ε) :
    sm.push.2.mapStack = sm.mapStack ++ [newLevel] := rfl

@[simp] theorem src_pop (sm : StackedMap K V ε) : sm.pop.src = sm.src := by
  unfold pop; split <;> rfl

@[simp] theorem mapStack_pop (sm : StackedMap K V ε) : sm.pop.mapStack = sm.mapStack.dropLast := by
  unfold pop
  split
  · simp_all
  · rfl

theorem mapStack_iterate_pop (n : ℕ) (sm : StackedMap K V ε) :
    (pop^[n] sm).mapStack = sm.mapStack.take (sm.mapStack.length - n) := by
  induction n generalizing sm with
  | zero => simp
  | succ n ih =>
    rw [Function.iterate_succ_apply, ih, mapStack_pop, List.dropLast_eq_take, List.take_take,
      List.length_take]
    congr 1
    omega

theorem src_iterate_pop (n : ℕ) (sm : StackedMap K V ε) : (pop^[n] sm).src = sm.src := by
  induction n generalizing sm with
  | zero => rfl
  | succ n ih => rw [Function.iterate_succ_apply, ih, src_pop]

@[simp] theorem src_popTo (sm : StackedMap K V ε) (depth : ℕ) : (sm.popTo depth).src = sm.src :=
  src_iterate_pop _ sm

@[simp] theorem mapStack_popTo (sm : StackedMap K V ε) (depth : ℕ) :
    (sm.popTo depth).mapStack = sm.mapStack.take depth := by
  rw [popTo, mapStack_iterate_pop]
  by_cases h : depth ≤ sm.mapStack.length
  · congr 1
    omega
  · rw [List.take_of_length_le (by omega), List.take_of_length_le (by omega)]

theorem layersOf_getElem? (stack : List (Level K V)) (i : ℕ) (k : K) :
    (layersOf stack)[i]?.bind (· k) = stack[i]?.bind (fun lvl => lvl.kvs k) := by
  simp only [layersOf, List.getElem?_map]
  cases stack[i]? <;> rfl

/-- `Get` reads the topmost level holding the key, else the source: the
revision index is never consulted for anything else. -/
theorem get_eq_lookup (sm : StackedMap K V ε) (key : K) :
    sm.get key = match Layered.lookup (layersOf sm.mapStack) key with
      | some v => .ok (v, true)
      | none => sm.src key := by
  rw [Layered.lookup_eq_last_holder, ← sm.revisions key, get]
  cases (sm.keyRevisionMap key).getLast? with
  | none => rfl
  | some rev =>
    simp only [Option.bind_some, layersOf_getElem?]

/-- A push leaves every level below the new one untouched. -/
theorem take_push (sm : StackedMap K V ε) {d : ℕ} (hd : d ≤ sm.mapStack.length) :
    sm.push.2.mapStack.take d = sm.mapStack.take d := by
  rw [mapStack_push, List.take_append_of_le_length hd]

/-- `sm'` is deeper than `d` and keeps the levels of `sm` below `d`: every run
that never pops below `d + 1` relates its start and end states so. -/
def Keeps (d : ℕ) (sm sm' : StackedMap K V ε) : Prop :=
  sm'.src = sm.src ∧ d < sm'.mapStack.length ∧ sm'.mapStack.take d = sm.mapStack.take d

theorem Keeps.refl {d : ℕ} {sm : StackedMap K V ε} (h : d < sm.mapStack.length) : Keeps d sm sm :=
  ⟨rfl, h, rfl⟩

theorem Keeps.push {d : ℕ} {sm sm' : StackedMap K V ε} (h : Keeps d sm sm') :
    Keeps d sm sm'.push.2 := by
  obtain ⟨hs, hd, ht⟩ := h
  refine ⟨hs, by simp; omega, ?_⟩
  rw [take_push sm' (by omega), ht]

/-- A push keeps every level below it. -/
theorem Keeps.push_self (sm : StackedMap K V ε) : Keeps sm.mapStack.length sm sm.push.2 :=
  ⟨rfl, by simp, take_push sm (le_refl _)⟩

theorem Keeps.popTo {d x : ℕ} {sm sm' : StackedMap K V ε} (h : Keeps d sm sm') (hx : d < x) :
    Keeps d sm (sm'.popTo x) := by
  obtain ⟨hs, hd, ht⟩ := h
  refine ⟨by rw [src_popTo, hs], by simp; omega, ?_⟩
  rw [mapStack_popTo, List.take_take, Nat.min_eq_left (by omega), ht]

/-- Popping back to `d` a state that kept the `d` levels of `sm` gives `sm` back. -/
theorem Keeps.popTo_eq {d : ℕ} {sm sm' : StackedMap K V ε} (h : Keeps d sm sm')
    (hlen : sm.mapStack.length = d) : sm'.popTo d = sm := by
  obtain ⟨hs, -, ht⟩ := h
  apply ext'
  · rw [src_popTo, hs]
  · rw [mapStack_popTo, ht, List.take_of_length_le (by omega)]

variable [DecidableEq K]

theorem holders_put (rest : List (Level K V)) (top : Level K V) (key : K) (value : V) (k : K) :
    Function.update (Layered.holders (layersOf (rest ++ [top])))
        key (pushRevision (Layered.holders (layersOf (rest ++ [top])) key) rest.length) k =
      Layered.holders (layersOf (rest ++ [top.put key value])) k := by
  simp only [layersOf_append, layersOf_singleton, Layered.holders_append_singleton, Level.put]
  by_cases hk : k = key
  · subst hk
    have hlt : ∀ i ∈ Layered.holders (layersOf rest) k, i < rest.length := fun i hi => by
      simpa using Layered.lt_of_mem_holders hi
    cases ht : top.kvs k with
    | some v => simp [pushRevision]
    | none =>
      cases hl : (Layered.holders (layersOf rest) k).getLast? with
      | none => simp_all [pushRevision]
      | some i =>
        have hi := hlt i (List.mem_of_getLast? hl)
        simp [pushRevision, hl, Nat.ne_of_lt hi]
  · simp [Function.update_of_ne hk, Layered.holders_append_singleton]

/-- The put into a nonempty stack written as its last level and the rest. -/
def putLast (sm : StackedMap K V ε) (rest : List (Level K V)) (top : Level K V)
    (h : sm.mapStack = rest ++ [top]) (key : K) (value : V) : StackedMap K V ε where
  src := sm.src
  mapStack := rest ++ [top.put key value]
  keyRevisionMap := Function.update sm.keyRevisionMap key
    (pushRevision (sm.keyRevisionMap key) (sm.mapStack.length - 1))
  revisions := fun k => by
    have hrev : sm.keyRevisionMap = Layered.holders (layersOf sm.mapStack) := funext sm.revisions
    rw [hrev, h, List.length_append, List.length_singleton, Nat.add_sub_cancel]
    exact holders_put rest top key value k

/-- `Put`: write into the top level, journal the write and record its level. -/
def put (sm : StackedMap K V ε) (key : K) (value : V) : StackedMap K V ε :=
  if h : sm.mapStack = [] then sm
  else sm.putLast sm.mapStack.dropLast (sm.mapStack.getLast h)
    (List.dropLast_append_getLast h).symm key value

@[simp] theorem src_put (sm : StackedMap K V ε) (key : K) (value : V) :
    (sm.put key value).src = sm.src := by
  unfold put; split <;> rfl

theorem mapStack_put (sm : StackedMap K V ε) (key : K) (value : V) (h : sm.mapStack ≠ []) :
    (sm.put key value).mapStack = sm.mapStack.dropLast ++ [(sm.mapStack.getLast h).put key value] := by
  simp [put, h, putLast]

theorem length_put (sm : StackedMap K V ε) (key : K) (value : V) :
    (sm.put key value).mapStack.length = sm.mapStack.length := by
  by_cases h : sm.mapStack = []
  · simp [put, h]
  · rw [mapStack_put sm key value h, List.length_append, List.length_dropLast,
      List.length_singleton]
    have := List.length_pos_iff.mpr h
    omega

theorem mapStack_put_ne_nil (sm : StackedMap K V ε) (key : K) (value : V) (h : sm.mapStack ≠ []) :
    (sm.put key value).mapStack ≠ [] := by
  rw [← List.length_pos_iff, length_put, List.length_pos_iff]
  exact h

/-- A `Put` leaves every level below the top untouched. -/
theorem take_put (sm : StackedMap K V ε) (key : K) (value : V) {d : ℕ}
    (hd : d < sm.mapStack.length) : (sm.put key value).mapStack.take d = sm.mapStack.take d := by
  have h : sm.mapStack ≠ [] := List.ne_nil_of_length_pos (by omega)
  have hd' : d ≤ sm.mapStack.dropLast.length := by simp; omega
  conv_rhs => rw [← List.dropLast_append_getLast h]
  rw [mapStack_put sm key value h, List.take_append_of_le_length hd',
    List.take_append_of_le_length hd']

theorem Keeps.put {d : ℕ} {sm sm' : StackedMap K V ε} (h : Keeps d sm sm') (key : K) (value : V) :
    Keeps d sm (sm'.put key value) := by
  obtain ⟨hs, hd, ht⟩ := h
  exact ⟨by rw [src_put, hs], by rw [length_put]; exact hd, by rw [take_put sm' key value hd, ht]⟩

/-- A `Put` of another key is invisible to a `Get`. -/
theorem get_put_ne (sm : StackedMap K V ε) {key k : K} (value : V) (hk : k ≠ key) :
    (sm.put key value).get k = sm.get k := by
  by_cases h : sm.mapStack = []
  · simp [put, h]
  · have hl : Layered.lookup (layersOf (sm.put key value).mapStack) k =
        Layered.lookup (layersOf sm.mapStack) k := by
      conv_rhs => rw [← List.dropLast_append_getLast h]
      rw [mapStack_put sm key value h, layersOf_append, layersOf_append, layersOf_singleton,
        layersOf_singleton, Layered.lookup_append_singleton, Layered.lookup_append_singleton]
      simp [Level.put, Function.update_of_ne hk]
    rw [get_eq_lookup, get_eq_lookup, hl, src_put]

theorem lookup_put_self (sm : StackedMap K V ε) (key : K) (value : V) (h : sm.mapStack ≠ []) :
    Layered.lookup (layersOf (sm.put key value).mapStack) key = some value := by
  rw [mapStack_put sm key value h, layersOf_append, layersOf_singleton,
    Layered.lookup_append_singleton]
  simp [Level.put]

/-- A `Put` is visible to a `Get` of its key. -/
theorem get_put_self (sm : StackedMap K V ε) (key : K) (value : V) (h : sm.mapStack ≠ []) :
    (sm.put key value).get key = .ok (value, true) := by
  rw [get_eq_lookup, lookup_put_self sm key value h]

/-- A `Put` is journaled after everything before it. -/
theorem journal_put (sm : StackedMap K V ε) (key : K) (value : V) (h : sm.mapStack ≠ []) :
    (sm.put key value).journal = sm.journal ++ [(key, value)] := by
  conv_rhs => rw [journal, ← List.dropLast_append_getLast h]
  rw [journal, mapStack_put sm key value h]
  simp [Level.put]

end StackedMap

end Workshare
