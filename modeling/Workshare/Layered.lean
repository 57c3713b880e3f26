import Mathlib

/-!
# Stacks of partial maps

A stack of layers, listed bottom first, read through its topmost layer that
holds a key. This is the abstract view of any save-restore map: pushing a
layer, writing into the top layer and dropping the top layer are list
operations, and a read is `lookup`. The positions of the layers that hold a
key, `holders`, are what an index kept beside such a stack has to equal.
-/
namespace Layered

variable {K V : Type*}

/-- The value held for `k` by the topmost layer that holds it. -/
def lookup : List (K → Option V) → K → Option V
  | [], _ => none
  | m :: ms, k => (lookup ms k).or (m k)

/-- The positions of the layers that hold `k`, bottom first. -/
def holders (layers : List (K → Option V)) (k : K) : List ℕ :=
  (List.range layers.length).filter fun i => (layers[i]?.bind (· k)).isSome

@[simp] theorem lookup_nil (k : K) : lookup ([] : List (K → Option V)) k = none := rfl

@[simp] theorem holders_nil (k : K) : holders ([] : List (K → Option V)) k = [] := rfl

/-- A new top layer shadows everything below it. -/
@[simp] theorem lookup_append_singleton (ls : List (K → Option V)) (m : K → Option V) (k : K) :
    lookup (ls ++ [m]) k = (m k).or (lookup ls k) := by
  induction ls with
  | nil => simp [lookup]
  | cons a ls ih => simp [lookup, ih, Option.or_assoc]

theorem holders_append_singleton (ls : List (K → Option V)) (m : K → Option V) (k : K) :
    holders (ls ++ [m]) k = holders ls k ++ if (m k).isSome then [ls.length] else [] := by
  have hlow : ∀ i ∈ List.range ls.length,
      ((ls ++ [m])[i]?.bind (· k)).isSome = (ls[i]?.bind (· k)).isSome := by
    intro i hi
    rw [List.getElem?_append_left (List.mem_range.mp hi)]
  simp only [holders, List.length_append, List.length_singleton, List.range_succ,
    List.filter_append, List.filter_congr hlow]
  cases hm : m k <;> simp [hm]

theorem lt_of_mem_holders {ls : List (K → Option V)} {k : K} {i : ℕ} (h : i ∈ holders ls k) :
    i < ls.length := by
  simp only [holders, List.mem_filter, List.mem_range] at h
  exact h.1

theorem mem_holders {ls : List (K → Option V)} {k : K} {i : ℕ} :
    i ∈ holders ls k ↔ ∃ h : i < ls.length, (ls[i] k).isSome := by
  simp only [holders, List.mem_filter, List.mem_range]
  constructor
  · rintro ⟨hi, hs⟩
    exact ⟨hi, by simpa [List.getElem?_eq_getElem hi] using hs⟩
  · rintro ⟨hi, hs⟩
    exact ⟨hi, by simpa [List.getElem?_eq_getElem hi] using hs⟩

/-- Holder positions are strictly increasing. -/
theorem holders_sorted (ls : List (K → Option V)) (k : K) :
    (holders ls k).Pairwise (· < ·) :=
  (List.pairwise_lt_range).filter _

/-- A read is answered by the last holder: this is how an index of holder
positions beside the stack finds a key's layer without scanning. -/
theorem lookup_eq_last_holder (ls : List (K → Option V)) (k : K) :
    lookup ls k = (holders ls k).getLast?.bind fun i => ls[i]?.bind (· k) := by
  induction ls using List.reverseRecOn with
  | nil => simp
  | append_singleton ls m ih =>
    rw [lookup_append_singleton, holders_append_singleton]
    cases hm : m k with
    | some v => simp [hm]
    | none =>
      simp only [Option.isSome_none, Bool.false_eq_true, if_false, List.append_nil,
        Option.none_or, ih]
      cases hl : (holders ls k).getLast? with
      | none => simp
      | some i =>
        have hi : i < ls.length := lt_of_mem_holders (List.mem_of_getLast? hl)
        simp [List.getElem?_append_left hi]

/-! ### A log grouped by layer

A log of writes, each tagged with the id of the layer it went into, lists the
writes of the surviving layers layer by layer when ids increase up the stack
and the surviving writes are in order of their ids. -/

/-- A list in which nothing failing `p` comes before something passing it is the
part passing `p` followed by the rest. -/
theorem eq_filter_append_filter {α : Type*} (p : α → Bool) :
    ∀ {l : List α}, l.Pairwise (fun a b => p b = true → p a = true) → l = l.filter p ++ l.filter (fun a => !p a)
  | [], _ => rfl
  | x :: l, h => by
    rw [List.pairwise_cons] at h
    cases hx : p x with
    | true =>
      simp only [List.filter_cons, hx, if_true, Bool.not_true, Bool.false_eq_true, if_false, List.cons_append]
      exact congrArg (x :: ·) (eq_filter_append_filter p h.2)
    | false =>
      -- nothing after `x` passes `p`
      have hfalse : ∀ y ∈ l, p y = false := fun y hy => by
        cases hpy : p y
        · rfl
        · simpa [hx] using h.1 y hy hpy
      have hnone : l.filter p = [] := List.filter_eq_nil_iff.mpr fun y hy => by simp [hfalse y hy]
      have hall : l.filter (fun a => !p a) = l := List.filter_eq_self.mpr fun y hy => by simp [hfalse y hy]
      simp only [List.filter_cons, hx, Bool.false_eq_true, if_false, Bool.not_false, if_true, hnone, hall,
        List.nil_append]

/-- The writes of the surviving layers, taken from a log whose surviving writes
are in order of their layer ids, are those of each surviving layer in turn. -/
theorem filter_mem_eq_flatMap {β : Type*} (log : List (ℕ × β)) :
    ∀ {ids : List ℕ}, ids.Pairwise (· < ·) →
      (log.filter fun e => decide (e.1 ∈ ids)).Pairwise (fun a b => a.1 ≤ b.1) →
      log.filter (fun e => decide (e.1 ∈ ids)) = ids.flatMap fun i => log.filter fun e => decide (e.1 = i)
  | [], _, _ => by simp
  | i :: rest, hids, hs => by
    rw [List.pairwise_cons] at hids
    have hi : i ∉ rest := fun h => Nat.lt_irrefl i (hids.1 i h)
    -- the writes of layer `i`, the lowest, come first
    have hsplit := eq_filter_append_filter (fun e : ℕ × β => decide (e.1 = i)) (hs.imp_of_mem fun {a b} ha hb hab hbi => by
      simp only [List.mem_filter, decide_eq_true_eq, List.mem_cons] at ha hb hbi ⊢
      rcases ha.2 with ha' | ha'
      · exact ha'
      · have := hids.1 a.1 ha'
        omega)
    have hfirst : ((log.filter fun e => decide (e.1 ∈ i :: rest)).filter fun e => decide (e.1 = i)) =
        log.filter fun e => decide (e.1 = i) := by
      rw [List.filter_filter]
      exact List.filter_congr fun e _ => by by_cases he : e.1 = i <;> simp [he]
    have hrest : ((log.filter fun e => decide (e.1 ∈ i :: rest)).filter fun e => !decide (e.1 = i)) =
        log.filter fun e => decide (e.1 ∈ rest) := by
      rw [List.filter_filter]
      exact List.filter_congr fun e _ => by by_cases he : e.1 = i <;> simp [he, hi]
    have hs' : (log.filter fun e => decide (e.1 ∈ rest)).Pairwise (fun a b => a.1 ≤ b.1) :=
      hrest ▸ hs.sublist (List.filter_sublist)
    rw [hsplit, hfirst, hrest, List.flatMap_cons, filter_mem_eq_flatMap log hids.2 hs']

end Layered
