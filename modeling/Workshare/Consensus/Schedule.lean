import Workshare.Consensus.Poa

/-!
# Proposer schedules

Both schedulers place blocks on the grid of slots `P + (k + 1) * T` after the
parent time `P`. `SchedulerV2` gives slot `k` to the proposer at `k mod n` of
its shuffled list, and `Schedule` scans the slots from the first one not before
`now`, so it returns the proposer's first slot from there; `Updates` makes
inactive the proposers of the slots a block skipped. `SchedulerV1` gives each
slot to a proposer picked by a hash of the slot time, and its `Schedule`
returns a slot of its proposer whenever it returns.

Times are `uint64` in the source and natural numbers here; for times below
`2 ^ 63` no sum the schedulers form reaches `2 ^ 64`.
-/
namespace Workshare

section Slots

/-- The first slot not before `nowTime` is a slot after the parent, and no
later than any other such slot. -/
theorem firstSlot_spec (P N : ℕ) :
    P + BlockInterval ≤ SchedulerV2.firstSlot P N ∧ N ≤ SchedulerV2.firstSlot P N ∧
      (SchedulerV2.firstSlot P N - P) % BlockInterval = 0 ∧
      ∀ t, P + BlockInterval ≤ t → N ≤ t → (t - P) % BlockInterval = 0 → SchedulerV2.firstSlot P N ≤ t := by
  unfold SchedulerV2.firstSlot BlockInterval
  dsimp only
  split_ifs <;> refine ⟨?_, ?_, ?_, fun t h1 h2 h3 => ?_⟩ <;> omega

/-- A slot after the parent is `P + (k + 1) * T` for its number `k`. -/
theorem eq_slot {P t : ℕ} (ht : P < t) (ha : (t - P) % BlockInterval = 0) :
    t = P + ((t - P) / BlockInterval - 1 + 1) * BlockInterval := by
  unfold BlockInterval at *
  omega

/-- Scanning `n` consecutive indices from any offset meets every index below `n`. -/
theorem exists_add_mod_eq {n j : ℕ} (hj : j < n) (offset : ℕ) : ∃ i < n, (i + offset) % n = j := by
  have hn : 0 < n := by omega
  refine ⟨(j + (n - offset % n)) % n, Nat.mod_lt _ hn, ?_⟩
  have hr := Nat.mod_lt offset hn
  have hdiv := Nat.div_add_mod offset n
  have hsum : j + (n - offset % n) + offset = j + n * (offset / n + 1) := by
    rw [Nat.mul_succ]
    omega
  rw [Nat.mod_add_mod, hsum, Nat.add_mul_mod_self_left, Nat.mod_eq_of_lt hj]

end Slots

namespace SchedulerV2

variable (s : SchedulerV2)

/-- Slot `k` is scheduled to the proposer at `k mod n`. -/
theorem isScheduled_slot (k : ℕ) (p : Address) :
    s.isScheduled (s.parentBlockTime + (k + 1) * BlockInterval) p = (s.shuffled[k % s.shuffled.length]? == some p) := by
  have h1 : ¬ s.parentBlockTime ≥ s.parentBlockTime + (k + 1) * BlockInterval := by
    unfold BlockInterval
    omega
  have h2 : (s.parentBlockTime + (k + 1) * BlockInterval - s.parentBlockTime) % BlockInterval = 0 := by
    unfold BlockInterval
    omega
  have h3 : (s.parentBlockTime + (k + 1) * BlockInterval - s.parentBlockTime - BlockInterval) / BlockInterval = k := by
    unfold BlockInterval
    omega
  simp only [isScheduled, if_neg h1, h2, ne_eq, not_true_eq_false, if_false, h3]

/-- A time the scheduler accepts for the proposer is a slot after the parent. -/
theorem slot_of_isTheTime {t : ℕ} (h : s.isTheTime t = true) :
    s.parentBlockTime < t ∧ (t - s.parentBlockTime) % BlockInterval = 0 := by
  unfold isTheTime isScheduled at h
  split_ifs at h with h1 h2
  exact ⟨by omega, by simpa using h2⟩

/-- Every slot after the parent has exactly one proposer of the shuffled list. -/
theorem isScheduled_unique (hn : s.shuffled ≠ []) {t : ℕ} (ht : s.parentBlockTime < t)
    (ha : (t - s.parentBlockTime) % BlockInterval = 0) : ∃! p, p ∈ s.shuffled ∧ s.isScheduled t p = true := by
  have hlen : 0 < s.shuffled.length := List.length_pos_iff.mpr hn
  have hk : ((t - s.parentBlockTime) / BlockInterval - 1) % s.shuffled.length < s.shuffled.length :=
    Nat.mod_lt _ hlen
  rw [eq_slot ht ha]
  refine ⟨s.shuffled[((t - s.parentBlockTime) / BlockInterval - 1) % s.shuffled.length],
    ⟨List.getElem_mem _, ?_⟩, ?_⟩
  · rw [isScheduled_slot]
    simp
  · rintro p ⟨-, hp⟩
    rw [isScheduled_slot] at hp
    have hp' : s.shuffled[((t - s.parentBlockTime) / BlockInterval - 1) % s.shuffled.length] = p := by
      simpa [List.getElem?_eq_getElem hk] using hp
    exact hp'.symm

/-- `Schedule` returns the proposer's first slot not before `nowTime`: a slot
after the parent that the scheduler accepts, with no accepted slot between the
first possible one and it. -/
theorem schedule_spec (hp : s.proposer.address ∈ s.shuffled) (nowTime : ℕ) :
    ∃ t, s.schedule nowTime = some t ∧ s.parentBlockTime < t ∧ nowTime ≤ t ∧
      (t - s.parentBlockTime) % BlockInterval = 0 ∧ s.isTheTime t = true ∧
      ∀ t', max nowTime (s.parentBlockTime + BlockInterval) ≤ t' → t' < t →
        (t' - s.parentBlockTime) % BlockInterval = 0 → s.isTheTime t' = false := by
  obtain ⟨h1, h2, h3, hmin⟩ := firstSlot_spec s.parentBlockTime nowTime
  generalize hfirst : firstSlot s.parentBlockTime nowTime = first at h1 h2 h3 hmin
  -- the scan's step `i` is the slot `offset + i`
  have hstep : ∀ i, s.isTheTime (first + i * BlockInterval) =
      (s.shuffled[(i + ((first - s.parentBlockTime) / BlockInterval - 1)) % s.shuffled.length]? ==
        some s.proposer.address) := by
    intro i
    have hslot : first + i * BlockInterval =
        s.parentBlockTime + ((i + ((first - s.parentBlockTime) / BlockInterval - 1)) + 1) * BlockInterval := by
      unfold BlockInterval at *
      omega
    rw [isTheTime, hslot, isScheduled_slot]
  -- the scan meets the proposer's index
  obtain ⟨j, hj, hjp⟩ := List.getElem_of_mem hp
  obtain ⟨i₀, hi₀, hi₀j⟩ := exists_add_mod_eq hj ((first - s.parentBlockTime) / BlockInterval - 1)
  obtain ⟨i, hfind⟩ : ∃ i, (List.range s.shuffled.length).find? (fun i =>
      s.shuffled[(i + ((first - s.parentBlockTime) / BlockInterval - 1)) % s.shuffled.length]? ==
        some s.proposer.address) = some i := by
    rw [← Option.isSome_iff_exists, List.find?_isSome]
    exact ⟨i₀, List.mem_range.mpr hi₀, by simp [hi₀j, List.getElem?_eq_getElem hj, hjp]⟩
  have hsched : s.schedule nowTime = some (first + i * BlockInterval) := by
    simp only [schedule, hfirst, hfind, Option.map_some]
  obtain ⟨hpi, -, hbefore⟩ := List.find?_range_eq_some.mp hfind
  refine ⟨_, hsched, ?_, ?_, ?_, by rw [hstep]; exact hpi, fun t' ht'1 ht'2 ht'3 => ?_⟩
  · unfold BlockInterval at *
    omega
  · omega
  · unfold BlockInterval at *
    omega
  · -- an earlier accepted slot would be an earlier step of the scan
    have hle : first ≤ t' := hmin t' (Nat.max_le.mp ht'1).2 (Nat.max_le.mp ht'1).1 ht'3
    have ht' : t' = first + ((t' - first) / BlockInterval) * BlockInterval := by
      unfold BlockInterval at *
      omega
    have hlt : (t' - first) / BlockInterval < i := by
      unfold BlockInterval at *
      omega
    rw [ht', hstep]
    simpa using hbefore _ hlt

/-- `NewSchedulerV2` succeeds for a listed proposer, and its shuffled list holds it. -/
theorem new_spec (blake2b : Bytes → Bytes32) (addr : Address) (proposers : List Proposer) (num : UInt32)
    (P : ℕ) (seed : Bytes) (hmem : addr ∈ proposers.map (·.address)) :
    ∃ s, new blake2b addr proposers num P seed = .ok s ∧ s.proposer.address = addr ∧ addr ∈ s.shuffled ∧
      s.parentBlockTime = P := by
  obtain ⟨p, hp, hpa⟩ := List.mem_map.mp hmem
  obtain ⟨q, hq⟩ : ∃ q, proposers.reverse.find? (·.address == addr) = some q := by
    rw [← Option.isSome_iff_exists, List.find?_isSome]
    exact ⟨p, List.mem_reverse.mpr hp, by simp [hpa]⟩
  have hqa : q.address = addr := by simpa using List.find?_some hq
  simp only [new, hq, Except.ok.injEq, exists_eq_left', and_true]
  refine ⟨hqa, ?_⟩
  -- the sort only permutes the listed proposers
  refine List.mem_map.mpr ⟨(p.address, blake2b (seed ++ uint32BE num ++ p.address.toList)),
    (List.perm_insertionSort _ _).mem_iff.mpr ?_, hpa⟩
  simp only [List.mem_map, List.mem_filter]
  exact ⟨p, ⟨hp, by simp [hpa]⟩, rfl⟩

/-- The loop of `Updates` over slots numbered from `i₀`, with `c` the number of
the first slot not before the block: the proposers of the earlier slots, but
the block's proposer, made inactive. -/
theorem skipped_zipIdx {t c : ℕ}
    (hc : ∀ i, i < c ↔ s.parentBlockTime + BlockInterval + i * BlockInterval < t) :
    ∀ (l : List Address) (i₀ : ℕ), s.skipped t ((l.zipIdx i₀).map fun (a, i) => (i, a)) =
      ((l.take (c - i₀)).filter (· ≠ s.proposer.address)).map fun a => ⟨a, false⟩ := by
  intro l
  induction l with
  | nil => intro i₀; simp [skipped]
  | cons a l ih =>
    intro i₀
    simp only [List.zipIdx_cons, List.map_cons, skipped]
    by_cases hi : i₀ < c
    · have hlt := (hc i₀).mp hi
      have htake : c - i₀ = (c - (i₀ + 1)) + 1 := by omega
      rw [if_neg (by omega), htake, List.take_succ_cons, ih (i₀ + 1)]
      by_cases ha : a = s.proposer.address <;> simp [ha]
    · have hge : ¬ s.parentBlockTime + BlockInterval + i₀ * BlockInterval < t := fun h => hi ((hc i₀).mpr h)
      rw [if_pos (by omega), show c - i₀ = 0 by omega]
      simp

/-- `Updates` at a time the scheduler accepts makes inactive exactly the
proposers of the skipped slots, each once and never the block's proposer, then
activates an inactive block proposer; the score counts the others. -/
theorem updates_deactivate_skipped (t : ℕ) (hnd : s.shuffled.Nodup) (hp : s.proposer.address ∈ s.shuffled)
    (ht : s.isTheTime t = true) :
    s.updates t = ((((s.shuffled.take (min s.shuffled.length ((t - s.parentBlockTime) / BlockInterval - 1))).filter
        (· ≠ s.proposer.address)).map fun a => ⟨a, false⟩) ++
        (if s.proposer.active then [] else [{ s.proposer with active := true }]),
      s.shuffled.length - ((s.shuffled.take (min s.shuffled.length ((t - s.parentBlockTime) / BlockInterval - 1))).filter
        (· ≠ s.proposer.address)).length) ∧
    ((s.shuffled.take (min s.shuffled.length ((t - s.parentBlockTime) / BlockInterval - 1))).filter
      (· ≠ s.proposer.address)).Nodup ∧
    1 ≤ s.shuffled.length - ((s.shuffled.take (min s.shuffled.length ((t - s.parentBlockTime) / BlockInterval - 1))).filter
      (· ≠ s.proposer.address)).length := by
  obtain ⟨hpt, hal⟩ := slot_of_isTheTime s ht
  -- slot `i` is skipped when it ends before the block
  have hc : ∀ i, i < (t - s.parentBlockTime) / BlockInterval - 1 ↔
      s.parentBlockTime + BlockInterval + i * BlockInterval < t := by
    intro i
    unfold BlockInterval at *
    omega
  have htake : s.shuffled.take (min s.shuffled.length ((t - s.parentBlockTime) / BlockInterval - 1)) =
      s.shuffled.take ((t - s.parentBlockTime) / BlockInterval - 1) := by
    rw [List.take_eq_take_iff]
    omega
  have hsk := skipped_zipIdx s hc s.shuffled 0
  rw [Nat.sub_zero] at hsk
  rw [htake]
  -- the skipped proposers are among the others, of which there are fewer than `n`
  have hsub : List.Sublist ((s.shuffled.take ((t - s.parentBlockTime) / BlockInterval - 1)).filter
      (· ≠ s.proposer.address)) (s.shuffled.filter (· ≠ s.proposer.address)) := (List.take_sublist _ _).filter _
  have hlt : (s.shuffled.filter (· ≠ s.proposer.address)).length < s.shuffled.length :=
    List.length_filter_lt_length_iff_exists.mpr ⟨_, hp, by simp⟩
  refine ⟨?_, (hnd.sublist (List.take_sublist _ _)).filter _, by have := hsub.length_le; omega⟩
  cases hact : s.proposer.active <;> simp [updates, hsk, hact]

theorem updates_deactivate_skipped_two :
    let P : Address := Vector.replicate 20 1
    let Q : Address := Vector.replicate 20 2
    let s : SchedulerV2 := ⟨⟨P, false⟩, 0, [Q, P]⟩
    s.shuffled.Nodup ∧ s.proposer.address ∈ s.shuffled ∧ s.isTheTime 20 = true ∧
      s.updates 20 = ([⟨Q, false⟩, ⟨P, true⟩], 1) := by
  intro P Q s
  have hnd : s.shuffled.Nodup := by decide
  have hp : s.proposer.address ∈ s.shuffled := by decide
  have ht : s.isTheTime 20 = true := by decide
  refine ⟨hnd, hp, ht, ?_⟩
  rw [(updates_deactivate_skipped s 20 hnd hp ht).1]
  decide

end SchedulerV2

namespace SchedulerV1

variable (s : SchedulerV1) (blake2b : Bytes → Bytes32)

/-- The loop of `Schedule` stops only at a slot of its proposer, some slots
after the one it started from. -/
theorem scheduleFrom_spec (fuel : ℕ) : ∀ t₀ t, s.scheduleFrom blake2b fuel t₀ = some t →
    ∃ k, t = t₀ + k * BlockInterval ∧ (s.whoseTurn blake2b t).map (·.address) = some s.proposer.address := by
  induction fuel with
  | zero =>
    intro t₀ t h
    simp [scheduleFrom] at h
  | succ fuel ih =>
    intro t₀ t h
    rw [scheduleFrom] at h
    split_ifs at h with hturn
    · cases h
      exact ⟨0, by simp, by simpa using hturn⟩
    · obtain ⟨k, hk, hw⟩ := ih _ _ h
      refine ⟨k + 1, ?_, hw⟩
      rw [hk]
      unfold BlockInterval
      omega

/-- Whenever `Schedule` returns, it returns a slot after the parent, not before
`nowTime`, that the scheduler accepts. -/
theorem schedule_spec {fuel nowTime t : ℕ} (h : s.schedule blake2b fuel nowTime = some t) :
    s.parentBlockTime < t ∧ nowTime ≤ t ∧ (t - s.parentBlockTime) % BlockInterval = 0 ∧
      s.isTheTime blake2b t = true := by
  obtain ⟨h1, h2, h3, -⟩ := firstSlot_spec s.parentBlockTime nowTime
  obtain ⟨k, hk, hw⟩ := s.scheduleFrom_spec blake2b fuel _ _ h
  have hpt : s.parentBlockTime < t := by
    unfold BlockInterval at *
    omega
  have hal : (t - s.parentBlockTime) % BlockInterval = 0 := by
    unfold BlockInterval at *
    omega
  refine ⟨hpt, by omega, hal, ?_⟩
  simp [isTheTime, hw, Nat.not_le.mpr hpt, hal]

theorem parentBlockTime_new {addr : Address} {proposers : List Proposer} {num : UInt32} {P : ℕ}
    {s : SchedulerV1} (h : new addr proposers num P = .ok s) : s.parentBlockTime = P := by
  unfold new at h
  split at h
  · cases h
  · cases h
    rfl

end SchedulerV1

/-- The V2 scheduler of a listed proposer schedules it at its first accepted
slot not before any `now`, and gives every slot after the parent to exactly
one proposer; a V1 scheduler's `Schedule` returns an accepted slot after the
parent, not before `now`, whenever it returns. -/
theorem schedule_isTheTime (blake2b : Bytes → Bytes32) (addr : Address) (proposers : List Proposer)
    (num : UInt32) (P : ℕ) (seed : Bytes) (hmem : addr ∈ proposers.map (·.address)) :
    (∃ s, SchedulerV2.new blake2b addr proposers num P seed = .ok s ∧
      (∀ nowTime, ∃ t, s.schedule nowTime = some t ∧ P < t ∧ nowTime ≤ t ∧ (t - P) % BlockInterval = 0 ∧
        s.isTheTime t = true ∧ ∀ t', max nowTime (P + BlockInterval) ≤ t' → t' < t →
          (t' - P) % BlockInterval = 0 → s.isTheTime t' = false) ∧
      ∀ t', P < t' → (t' - P) % BlockInterval = 0 → ∃! p, p ∈ s.shuffled ∧ s.isScheduled t' p = true) ∧
    ∀ s : SchedulerV1, SchedulerV1.new addr proposers num P = .ok s →
      ∀ fuel nowTime t, s.schedule blake2b fuel nowTime = some t →
        P < t ∧ nowTime ≤ t ∧ (t - P) % BlockInterval = 0 ∧ s.isTheTime blake2b t = true := by
  obtain ⟨s, hs, haddr, hmem', hP⟩ := SchedulerV2.new_spec blake2b addr proposers num P seed hmem
  subst hP
  have hp : s.proposer.address ∈ s.shuffled := haddr ▸ hmem'
  refine ⟨⟨s, hs, fun nowTime => s.schedule_spec hp nowTime, fun t' ht ha => ?_⟩, ?_⟩
  · exact s.isScheduled_unique (List.ne_nil_of_mem hmem') ht ha
  · intro s₁ hs₁ fuel nowTime t h
    rw [← SchedulerV1.parentBlockTime_new hs₁]
    exact s₁.schedule_spec blake2b h

theorem schedule_isTheTime_single :
    let A : Address := Vector.replicate 20 1
    let h : Bytes → Bytes32 := fun _ => Vector.replicate 32 0
    A ∈ [(⟨A, true⟩ : Proposer)].map (·.address) ∧
      (∃ s, SchedulerV2.new h A [⟨A, true⟩] 0 0 [] = .ok s ∧
        (∀ nowTime, ∃ t, s.schedule nowTime = some t ∧ 0 < t ∧ nowTime ≤ t ∧ (t - 0) % BlockInterval = 0 ∧
          s.isTheTime t = true ∧ ∀ t', max nowTime (0 + BlockInterval) ≤ t' → t' < t →
            (t' - 0) % BlockInterval = 0 → s.isTheTime t' = false) ∧
        ∀ t', 0 < t' → (t' - 0) % BlockInterval = 0 → ∃! p, p ∈ s.shuffled ∧ s.isScheduled t' p = true) ∧
      ∀ s : SchedulerV1, SchedulerV1.new A [⟨A, true⟩] 0 0 = .ok s →
        ∀ fuel nowTime t, s.schedule h fuel nowTime = some t →
          0 < t ∧ nowTime ≤ t ∧ (t - 0) % BlockInterval = 0 ∧ s.isTheTime h t = true :=
  ⟨by simp, schedule_isTheTime _ _ _ 0 0 [] (by simp)⟩

end Workshare
