import Workshare.StackedMap
import Workshare.Steps

/-!
# A stacked map refines a stack of maps

The reference knows nothing of revision indices: a list of maps, bottom first,
each named by the id it was pushed under, and a log of every `Put` ever made,
with the id of the map it went into. `Push` appends an empty map under a fresh
id, `Pop` and `PopTo` drop maps, `Put` writes into the last map and logs the
write, and a read takes the topmost map that holds the key, else the source.
The journal is the logged puts whose map survives.

A stacked map and the reference run the same calls in lock step: every `Get`
answers what the reference reads, and the two stay related by `Sim`, which
makes the maps equal, the revision index the positions of the maps holding
each key, and the journal the surviving log. What makes the journal come out
in order is the invariant `Sim` carries: ids increase up the stack, and the
surviving log is in order of ids.

The source panics on `Put` and `Pop` over an empty stack, where the model and
the reference both leave the state as it is; the runs the source completes
are among those the theorems cover.
-/
namespace Workshare

namespace StackedMap

/-- The calls a run makes on a stacked map. -/
inductive Op (K V : Type)
  | push
  | pop
  | popTo (depth : ℕ)
  | put (key : K) (value : V)
  | get (key : K)

variable {K V ε : Type}

/-- One call: the stacked map after it, and what a `Get` answers. -/
def exec [DecidableEq K] (sm : StackedMap K V ε) : Op K V → StackedMap K V ε × Option (Except ε (V × Bool))
  | .push => (sm.push.2, none)
  | .pop => (sm.pop, none)
  | .popTo depth => (sm.popTo depth, none)
  | .put key value => (sm.put key value, none)
  | .get key => (sm, some (sm.get key))

/-- A run of calls: the stacked map after them, and the answers of the `Get`s. -/
def run [DecidableEq K] (sm : StackedMap K V ε) (ops : List (Op K V)) :
    StackedMap K V ε × List (Except ε (V × Bool)) :=
  Steps.run exec sm ops

/-- The reference: the surviving maps, bottom first, each with the id it was
pushed under; the next fresh id; and every `Put` made, with the id of its map. -/
structure Reference (K V ε : Type) where
  src : MapGetter K V ε
  levels : List (ℕ × (K → Option V))
  next : ℕ
  log : List (ℕ × K × V)

namespace Reference

/-- One empty map over the source. -/
def new (src : MapGetter K V ε) : Reference K V ε := ⟨src, [(0, fun _ => none)], 1, []⟩

/-- The surviving maps. -/
def maps (r : Reference K V ε) : List (K → Option V) := r.levels.map Prod.snd

/-- The ids of the surviving maps. -/
def ids (r : Reference K V ε) : List ℕ := r.levels.map Prod.fst

/-- The puts made into the map with id `i`, in order. -/
def putsOf (r : Reference K V ε) (i : ℕ) : List (K × V) :=
  (r.log.filter fun e => decide (e.1 = i)).map Prod.snd

/-- The journal: the logged puts whose map survives, in the order they were made. -/
def journal (r : Reference K V ε) : List (K × V) :=
  (r.log.filter fun e => decide (e.1 ∈ r.ids)).map Prod.snd

/-- A read: the topmost map holding the key, else the source. -/
def read (r : Reference K V ε) (key : K) : Except ε (V × Bool) :=
  match Layered.lookup r.maps key with
  | some v => .ok (v, true)
  | none => r.src key

/-- One call on the reference. -/
def step [DecidableEq K] (r : Reference K V ε) : Op K V → Reference K V ε × Option (Except ε (V × Bool))
  | .push => ({ r with levels := r.levels ++ [(r.next, fun _ => none)], next := r.next + 1 }, none)
  | .pop => ({ r with levels := r.levels.dropLast }, none)
  | .popTo depth => ({ r with levels := r.levels.take depth }, none)
  | .put key value =>
    (match r.levels.getLast? with
      | some (i, m) =>
        { r with levels := r.levels.dropLast ++ [(i, Function.update m key (some value))],
                 log := r.log ++ [(i, key, value)] }
      | none => r, none)
  | .get key => (r, some (r.read key))

/-- A run of calls on the reference. -/
def run [DecidableEq K] (r : Reference K V ε) (ops : List (Op K V)) :
    Reference K V ε × List (Except ε (V × Bool)) :=
  Steps.run step r ops

@[simp] theorem maps_take (r : Reference K V ε) (n : ℕ) :
    ({ r with levels := r.levels.take n } : Reference K V ε).maps = r.maps.take n := by
  simp [maps, List.map_take]

@[simp] theorem ids_take (r : Reference K V ε) (n : ℕ) :
    ({ r with levels := r.levels.take n } : Reference K V ε).ids = r.ids.take n := by
  simp [ids, List.map_take]

end Reference

/-- The stacked map and the reference agree: the same source and maps, the
journal of each level the puts logged under its id, ids increasing up the stack
and below the next one, and the surviving log in order of ids. -/
structure Sim (sm : StackedMap K V ε) (r : Reference K V ε) : Prop where
  src : sm.src = r.src
  maps : layersOf sm.mapStack = r.maps
  journals : sm.mapStack.map (·.journal) = r.ids.map r.putsOf
  ids_sorted : r.ids.Pairwise (· < ·)
  ids_lt : ∀ i ∈ r.ids, i < r.next
  log_lt : ∀ e ∈ r.log, e.1 < r.next
  log_sorted : (r.log.filter fun e => decide (e.1 ∈ r.ids)).Pairwise (fun a b => a.1 ≤ b.1)

namespace Sim

variable {sm : StackedMap K V ε} {r : Reference K V ε}

theorem length_eq (h : Sim sm r) : sm.mapStack.length = r.levels.length := by
  have := congrArg List.length h.maps
  simpa [Reference.maps] using this

/-- A `Get` answers what the reference reads. -/
theorem get (h : Sim sm r) (key : K) : sm.get key = r.read key := by
  rw [get_eq_lookup, h.maps, h.src]
  rfl

/-- The revision index lists the positions of the maps holding each key. -/
theorem revisions (h : Sim sm r) (key : K) : sm.keyRevisionMap key = Layered.holders r.maps key := by
  rw [sm.revisions key, h.maps]

/-- The journal is the surviving log. -/
theorem journal (h : Sim sm r) : sm.journal = r.journal := by
  rw [StackedMap.journal, List.flatMap_def, h.journals, Reference.journal,
    Layered.filter_mem_eq_flatMap r.log h.ids_sorted h.log_sorted, List.map_flatMap, List.flatMap_def]
  rfl

theorem new (src : MapGetter K V ε) : Sim (new src) (Reference.new src) where
  src := rfl
  maps := rfl
  journals := rfl
  ids_sorted := by simp [Reference.new, Reference.ids]
  ids_lt := by simp [Reference.new, Reference.ids]
  log_lt := by simp [Reference.new]
  log_sorted := by simp [Reference.new]

/-- Dropping the same top levels on both sides keeps them related: this is
`Pop` and `PopTo`. -/
theorem take (h : Sim sm r) {sm' : StackedMap K V ε} (n : ℕ) (hsrc : sm'.src = sm.src)
    (hstack : sm'.mapStack = sm.mapStack.take n) : Sim sm' { r with levels := r.levels.take n } where
  src := by rw [hsrc, h.src]
  maps := by rw [hstack, Reference.maps_take, ← h.maps, layersOf, layersOf, List.map_take]
  journals := by rw [hstack, List.map_take, h.journals, Reference.ids_take, List.map_take]; rfl
  ids_sorted := by rw [Reference.ids_take]; exact h.ids_sorted.sublist (List.take_sublist _ _)
  ids_lt := fun i hi => by
    rw [Reference.ids_take] at hi
    exact h.ids_lt i (List.mem_of_mem_take hi)
  log_lt := h.log_lt
  log_sorted := by
    rw [Reference.ids_take]
    -- the surviving log only shrinks
    refine h.log_sorted.sublist (List.monotone_filter_right _ fun e he => ?_)
    simp only [decide_eq_true_eq] at he ⊢
    exact List.mem_of_mem_take he

variable [DecidableEq K]

theorem push (h : Sim sm r) : Sim sm.push.2 (r.step .push).1 := by
  have hids : (r.step .push).1.ids = r.ids ++ [r.next] := by simp [Reference.step, Reference.ids]
  have hputs : (r.step .push).1.putsOf = r.putsOf := rfl
  -- nothing is logged under the fresh id
  have hfresh : ∀ e ∈ r.log, e.1 ≠ r.next := fun e he => Nat.ne_of_lt (h.log_lt e he)
  refine ⟨h.src, ?_, ?_, ?_, ?_, ?_, ?_⟩
  · simp only [mapStack_push, layersOf_append, layersOf_singleton, h.maps, Reference.step, Reference.maps,
      List.map_append, List.map_singleton]
    rfl
  · have hnone : r.putsOf r.next = [] := by
      simp only [Reference.putsOf, List.map_eq_nil_iff, List.filter_eq_nil_iff, decide_eq_true_eq]
      exact hfresh
    rw [hids, hputs, mapStack_push, List.map_append, List.map_append, h.journals, List.map_singleton,
      List.map_singleton, hnone]
    rfl
  · rw [hids, List.pairwise_append]
    exact ⟨h.ids_sorted, List.pairwise_singleton _ _, fun i hi j hj => List.mem_singleton.mp hj ▸ h.ids_lt i hi⟩
  · intro i hi
    rw [hids, List.mem_append, List.mem_singleton] at hi
    rcases hi with hi | rfl
    · exact Nat.lt_succ_of_lt (h.ids_lt i hi)
    · exact Nat.lt_succ_self _
  · exact fun e he => Nat.lt_succ_of_lt (h.log_lt e he)
  · -- the surviving log is the same
    have hsame : (r.log.filter fun e => decide (e.1 ∈ r.ids ++ [r.next])) =
        r.log.filter fun e => decide (e.1 ∈ r.ids) :=
      List.filter_congr fun e he => by simp [hfresh e he]
    show (r.log.filter fun e => decide (e.1 ∈ (r.step .push).1.ids)).Pairwise _
    rw [hids, hsame]
    exact h.log_sorted

theorem pop (h : Sim sm r) : Sim sm.pop (r.step .pop).1 := by
  have hsim : Sim sm.pop { r with levels := r.levels.take (r.levels.length - 1) } :=
    h.take (r.levels.length - 1) (src_pop sm)
    (by rw [mapStack_pop, List.dropLast_eq_take, h.length_eq])
  simpa [Reference.step, List.dropLast_eq_take] using hsim

theorem popTo (h : Sim sm r) (depth : ℕ) : Sim (sm.popTo depth) (r.step (.popTo depth)).1 :=
  h.take depth (src_popTo sm depth) (mapStack_popTo sm depth)

/-- A `Put` writes the top map on both sides and logs the write under the top
id, the largest surviving one, so the surviving log stays in order. -/
theorem put (h : Sim sm r) (key : K) (value : V) : Sim (sm.put key value) (r.step (.put key value)).1 := by
  by_cases hne : sm.mapStack = []
  · -- both stacks are empty and stay as they are
    have hlev : r.levels = [] := List.eq_nil_of_length_eq_zero (by rw [← h.length_eq, hne]; rfl)
    have hsm : sm.put key value = sm := by simp [StackedMap.put, hne]
    rw [hsm]
    simpa [Reference.step, hlev] using h
  · have hlne : r.levels ≠ [] := fun hl => hne (List.eq_nil_of_length_eq_zero (by rw [h.length_eq, hl]; rfl))
    obtain ⟨rest, top, hsm⟩ : ∃ rest top, sm.mapStack = rest ++ [top] :=
      ⟨_, _, (List.dropLast_append_getLast hne).symm⟩
    obtain ⟨lrest, ⟨i, m⟩, hlev⟩ : ∃ lrest last, r.levels = lrest ++ [last] :=
      ⟨_, _, (List.dropLast_append_getLast hlne).symm⟩
    have hmaps := h.maps
    have hjournals := h.journals
    simp only [hsm, hlev, layersOf_append, layersOf_singleton, Reference.maps, Reference.ids, List.map_append,
      List.map_singleton] at hmaps hjournals
    obtain ⟨hmrest, htop⟩ := List.append_singleton_inj.mp hmaps
    obtain ⟨hjrest, hjtop⟩ := List.append_singleton_inj.mp hjournals
    have hids : r.ids = lrest.map Prod.fst ++ [i] := by simp [Reference.ids, hlev]
    -- the top id is above every other surviving id
    have hmax : ∀ j ∈ lrest.map Prod.fst, j < i := by
      have := h.ids_sorted
      rw [hids, List.pairwise_append] at this
      exact fun j hj => this.2.2 j hj i (List.mem_singleton_self i)
    have hi : i < r.next := h.ids_lt i (by simp [hids])
    have hput : (sm.put key value).mapStack = rest ++ [top.put key value] := by
      rw [mapStack_put _ _ _ hne]
      simp [hsm]
    have hstep : (r.step (.put key value)).1 =
        { r with levels := lrest ++ [(i, Function.update m key (some value))], log := r.log ++ [(i, key, value)] } := by
      simp [Reference.step, hlev]
    have hids' : (r.step (.put key value)).1.ids = r.ids := by simp [hstep, Reference.ids, hlev]
    have hnext : (r.step (.put key value)).1.next = r.next := by rw [hstep]
    have hlog : (r.step (.put key value)).1.log = r.log ++ [(i, key, value)] := by rw [hstep]
    have hputs : ∀ j, (r.step (.put key value)).1.putsOf j = r.putsOf j ++ if j = i then [(key, value)] else [] := by
      intro j
      by_cases hj : j = i
      · subst hj
        simp [hstep, Reference.putsOf, List.filter_append]
      · simp [hstep, Reference.putsOf, List.filter_append, Ne.symm hj, hj]
    refine ⟨by rw [src_put, h.src, hstep], ?_, ?_, ?_, ?_, ?_, ?_⟩
    · rw [hput, layersOf_append, layersOf_singleton, hstep]
      simp [Reference.maps, hmrest, Level.put, htop]
    · rw [hput, hids', hids, List.map_append, List.map_append, List.map_singleton, List.map_singleton, hjrest]
      congr 1
      · -- the maps below the top logged nothing new
        apply List.map_congr_left
        intro j hj
        rw [hputs, if_neg (Nat.ne_of_lt (hmax j hj)), List.append_nil]
      · rw [hputs, if_pos rfl, Level.put, hjtop]
    · rw [hids']
      exact h.ids_sorted
    · rw [hids', hnext]
      exact h.ids_lt
    · intro e he
      rw [hlog] at he
      rw [hnext]
      rcases List.mem_append.mp he with he | he
      · exact h.log_lt e he
      · rw [List.mem_singleton.mp he]
        exact hi
    · -- the write is logged after every surviving write, all under ids not above the top one
      rw [hids', hlog, List.filter_append, List.pairwise_append]
      refine ⟨h.log_sorted, List.Pairwise.sublist (List.filter_sublist) (List.pairwise_singleton _ _), ?_⟩
      intro a ha b hb
      have hb' : b = (i, key, value) := List.mem_singleton.mp (List.mem_of_mem_filter hb)
      subst hb'
      have ha' := (List.mem_filter.mp ha).2
      rw [decide_eq_true_eq, hids, List.mem_append, List.mem_singleton] at ha'
      rcases ha' with ha' | ha'
      · exact Nat.le_of_lt (hmax _ ha')
      · exact Nat.le_of_eq ha'

/-- Every call keeps the two related, and a `Get` answers what the reference reads. -/
theorem exec (h : Sim sm r) (op : Op K V) : Sim (sm.exec op).1 (r.step op).1 ∧ (sm.exec op).2 = (r.step op).2 := by
  cases op with
  | push => exact ⟨h.push, rfl⟩
  | pop => exact ⟨h.pop, rfl⟩
  | popTo depth => exact ⟨h.popTo depth, rfl⟩
  | put key value => exact ⟨h.put key value, rfl⟩
  | get key => exact ⟨h, by rw [StackedMap.exec, Reference.step, h.get key]⟩

/-- Every run keeps the two related and answers alike. -/
theorem run (h : Sim sm r) (ops : List (Op K V)) :
    Sim (sm.run ops).1 (r.run ops).1 ∧ (sm.run ops).2 = (r.run ops).2 :=
  Steps.run_sim StackedMap.exec Reference.step Sim (fun _ _ op hs => hs.exec op) ops h

end Sim

/-- A stacked map refines a stack of maps: over every run of `Push`, `Pop`,
`PopTo`, `Put` and `Get` from a new stacked map, every `Get` answers as the
reference reads (the topmost surviving map holding the key, else the source),
and at the end the maps are the reference's, the journal is the reference's
surviving log in the order of the puts, and the revision index of each key is
the strictly increasing positions of the maps holding it. -/
theorem run_refines [DecidableEq K] (src : MapGetter K V ε) (ops : List (Op K V)) :
    ((new src).run ops).2 = ((Reference.new src).run ops).2 ∧
      layersOf ((new src).run ops).1.mapStack = ((Reference.new src).run ops).1.maps ∧
      ((new src).run ops).1.journal = ((Reference.new src).run ops).1.journal ∧
      ∀ key, ((new src).run ops).1.keyRevisionMap key = Layered.holders ((Reference.new src).run ops).1.maps key ∧
        (((new src).run ops).1.keyRevisionMap key).Pairwise (· < ·) := by
  obtain ⟨hsim, hout⟩ := (Sim.new src).run ops
  refine ⟨hout, hsim.maps, hsim.journal, fun key => ⟨hsim.revisions key, ?_⟩⟩
  rw [hsim.revisions key]
  exact Layered.holders_sorted _ key

example : ((new (fun _ => .ok (0, false)) : StackedMap ℕ ℕ Unit).run
    [.put 1 5, .push, .put 1 7, .get 1, .pop, .get 1, .get 2]).2 = [.ok (7, true), .ok (5, true), .ok (0, false)] := by
  rfl

end StackedMap

end Workshare
