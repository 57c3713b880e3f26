import Workshare.Basic
import Workshare.Search
import Mathlib

/-!
# Chains of the repository

A `Chain` is the branch of the repository's block tree from the genesis to a
head. It reads blocks by number through the head's index, a map from each
number to the id of the branch's block at it, and reads their headers from the
repository's summaries. A block id carries its number in its first four bytes.

`FindBlockHeaderByTimestamp` runs `sort.Search` over the numbers below the
head, up the chain for the lowest block at or after a time and down it for the
highest block at or before it, so that the head and the genesis are reached
only when the search finds nothing. `Exclude` walks down from its head and
stops at the first block the other chain has, the highest block the two have
in common: what it passed, in ascending order, is what only it has.
-/
namespace Workshare

/-- `block.Number`: the big-endian number in the first four bytes of an id. -/
def blockNumber (id : Bytes32) : ℕ := (id.toList.take 4).foldl (fun n b => n * 256 + b.toNat) 0

/-- The errors of a chain's reads: `errNotFound`, and a failure of the store. -/
inductive ChainError
  | notFound
  | db (cause : String)
  deriving DecidableEq, Repr

/-- The part of `block.Header` a chain's reads look at. -/
structure Header where
  parentID : Bytes32
  timestamp : UInt64
  deriving DecidableEq, Repr

/-- `chain.Repository`: the genesis, and the header of each block summary it
keeps, by id. -/
structure Repository where
  genesisID : Bytes32
  summaries : Bytes32 → Option Header

/-- `GetBlockSummary`, for the header it holds. -/
def Repository.getBlockSummary (r : Repository) (id : Bytes32) : Except ChainError Header :=
  match r.summaries id with
  | some header => .ok header
  | none => .error .notFound

/-- `chain.Chain`: the repository, the head, and the head's index of block
ids by number. -/
structure Chain where
  repo : Repository
  headID : Bytes32
  index : List Bytes32

namespace Chain

/-- `GetBlockID`. -/
def getBlockID (c : Chain) (num : ℕ) : Except ChainError Bytes32 :=
  match c.index[num]? with
  | some id => .ok id
  | none => .error .notFound

/-- `GetBlockHeader`. -/
def getBlockHeader (c : Chain) (num : ℕ) : Except ChainError Header :=
  (c.getBlockID num).bind c.repo.getBlockSummary

/-- `HasBlock`: the chain's block at the id's number is the id; a number the
chain has no block at is not an error. -/
def hasBlock (c : Chain) (id : Bytes32) : Except ChainError Bool :=
  match c.getBlockID (blockNumber id) with
  | .ok foundID => .ok (id == foundID)
  | .error .notFound => .ok false
  | .error e => .error e

/-- The loop of `Exclude`, from the block `id` down, collecting the blocks the
other chain does not have; `oHeadID` is the other chain's head. -/
def excludeLoop (c other : Chain) (oHeadID : Bytes32) : ℕ → Bytes32 → List Bytes32 → Except ChainError (List Bytes32)
  | 0, _, ids => .ok ids
  | fuel + 1, id, ids =>
    let n := blockNumber id
    let next (ids : List Bytes32) : Except ChainError (List Bytes32) :=
      (c.getBlockID (n - 1)).bind fun id => excludeLoop c other oHeadID fuel id ids
    if n = 0 then .ok ids
    else if n > blockNumber oHeadID then next (ids ++ [id])
    else if n = blockNumber oHeadID then
      if id = oHeadID then .ok ids else next (ids ++ [id])
    else (other.hasBlock id).bind fun has => if has then .ok ids else next (ids ++ [id])

/-- `Exclude`: the blocks of this chain the other does not have, ascending. The
walk takes a step a block, so the head's number bounds it. -/
def exclude (c other : Chain) : Except ChainError (List Bytes32) :=
  (excludeLoop c other other.headID (blockNumber c.headID + 1) c.headID []).map List.reverse

/-- `FindBlockHeaderByTimestamp`: for a non-negative flag, the lowest block
whose timestamp is at least `ts`, which must be `ts` itself when the flag is
zero; for a negative one, the highest block whose timestamp is at most `ts`. -/
def findBlockHeaderByTimestamp (c : Chain) (ts : UInt64) (flag : ℤ) : Except ChainError Header :=
  let headNum := blockNumber c.headID
  if flag ≥ 0 then
    (Search.search headNum fun i => (c.getBlockHeader i).map fun h => decide (h.timestamp ≥ ts)).bind fun n =>
      (c.getBlockHeader n).bind fun header =>
        if flag = 0 ∧ header.timestamp ≠ ts then .error .notFound else .ok header
  else
    (Search.search headNum fun i =>
      (c.getBlockHeader (headNum - i)).map fun h => decide (h.timestamp ≤ ts)).bind fun i =>
      c.getBlockHeader (headNum - i)

/-- The header of the chain's block at a number. -/
def headerAt (c : Chain) (n : ℕ) : Option Header := c.index[n]?.bind c.repo.summaries

/-- A chain read from its repository: its index holds one block a number from
the genesis to the head, each id carrying its number and named as the parent
of the block above it, and the repository keeps a summary of each block. -/
structure Linked (c : Chain) : Prop where
  length_index : c.index.length = blockNumber c.headID + 1
  genesis : c.index[0]? = some c.repo.genesisID
  head : c.index[blockNumber c.headID]? = some c.headID
  number : ∀ n < c.index.length, ∀ id ∈ c.index[n]?, blockNumber id = n
  parent : ∀ n < c.index.length, ∀ id ∈ c.index[n + 1]?, (c.repo.summaries id).map (·.parentID) = c.index[n]?
  summary : ∀ n < c.index.length, ∀ id ∈ c.index[n]?, (c.repo.summaries id).isSome = true

instance : DecidablePred Linked := fun c =>
  decidable_of_iff (c.index.length = blockNumber c.headID + 1 ∧ c.index[0]? = some c.repo.genesisID ∧
      c.index[blockNumber c.headID]? = some c.headID ∧
      (∀ n < c.index.length, ∀ id ∈ c.index[n]?, blockNumber id = n) ∧
      (∀ n < c.index.length, ∀ id ∈ c.index[n + 1]?, (c.repo.summaries id).map (·.parentID) = c.index[n]?) ∧
      ∀ n < c.index.length, ∀ id ∈ c.index[n]?, (c.repo.summaries id).isSome = true)
    ⟨fun ⟨h₁, h₂, h₃, h₄, h₅, h₆⟩ => ⟨h₁, h₂, h₃, h₄, h₅, h₆⟩, fun h => ⟨h.1, h.2, h.3, h.4, h.5, h.6⟩⟩

/-- Header validation puts every block after its parent in time. -/
def TimestampsIncrease (c : Chain) : Prop :=
  ∀ n < c.index.length, ∀ m < n, ∀ hm ∈ c.headerAt m, ∀ hn ∈ c.headerAt n, hm.timestamp < hn.timestamp

instance : DecidablePred TimestampsIncrease := fun c =>
  inferInstanceAs (Decidable (∀ n < c.index.length, ∀ m < n, ∀ hm ∈ c.headerAt m, ∀ hn ∈ c.headerAt n,
    hm.timestamp < hn.timestamp))

variable {c : Chain}

theorem getBlockHeader_eq (c : Chain) (n : ℕ) :
    c.getBlockHeader n = match c.headerAt n with
      | some h => .ok h
      | none => .error .notFound := by
  unfold getBlockHeader getBlockID headerAt
  cases c.index[n]? <;> rfl

theorem headerAt_of_le (hc : c.Linked) {n : ℕ} (hn : n ≤ blockNumber c.headID) : ∃ h, c.headerAt n = some h := by
  have hlt : n < c.index.length := by
    rw [hc.length_index]
    omega
  obtain ⟨h, hh⟩ := Option.isSome_iff_exists.mp (hc.summary n hlt c.index[n] (List.getElem?_eq_getElem hlt))
  exact ⟨h, by simp [headerAt, List.getElem?_eq_getElem hlt, hh]⟩

theorem headerAt_eq_none (hc : c.Linked) {n : ℕ} (hn : blockNumber c.headID < n) : c.headerAt n = none := by
  simp [headerAt, List.getElem?_eq_none (by rw [hc.length_index]; omega : c.index.length ≤ n)]

theorem headerAt_le (hc : c.Linked) {n : ℕ} {h : Header} (hh : c.headerAt n = some h) : n ≤ blockNumber c.headID := by
  by_contra hn
  rw [headerAt_eq_none hc (by omega)] at hh
  cases hh

theorem TimestampsIncrease.lt (hts : c.TimestampsIncrease) (hc : c.Linked) {m n : ℕ} {hm hn : Header}
    (hmn : m < n) (h₁ : c.headerAt m = some hm) (h₂ : c.headerAt n = some hn) : hm.timestamp < hn.timestamp :=
  hts n (by have := headerAt_le hc h₂; rw [hc.length_index]; omega) m hmn hm h₁ hn h₂

theorem getBlockHeader_of_headerAt {n : ℕ} {h : Header} (hh : c.headerAt n = some h) :
    c.getBlockHeader n = .ok h := by
  rw [getBlockHeader_eq, hh]

theorem headerAt_inj {n : ℕ} {h h' : Header} (hh : c.headerAt n = some h) (hh' : c.headerAt n = some h') :
    h = h' := Option.some.inj (hh.symm.trans hh')

/-- Up the chain the search tests whether a block is at or after `ts`: it
stops at the lowest such block below the head, or at the head. -/
theorem search_up (hc : c.Linked) (hts : c.TimestampsIncrease) (ts : UInt64) :
    ∃ r, Search.search (blockNumber c.headID)
        (fun i => (c.getBlockHeader i).map fun h => decide (h.timestamp ≥ ts)) = .ok r ∧
      r ≤ blockNumber c.headID ∧ (∀ k hk, k < r → c.headerAt k = some hk → hk.timestamp < ts) ∧
      (r < blockNumber c.headID → ∀ h, c.headerAt r = some h → ts ≤ h.timestamp) := by
  let p : ℕ → Bool := fun k => (c.headerAt k).any fun h => decide (h.timestamp ≥ ts)
  have hp : ∀ {k h}, c.headerAt k = some h → (p k = true ↔ ts ≤ h.timestamp) := by
    intro k h hh
    simp [p, hh]
  have hval : ∀ k, k < blockNumber c.headID →
      (c.getBlockHeader k).map (fun h => decide (h.timestamp ≥ ts)) = .ok (p k) := by
    intro k hk
    obtain ⟨h, hh⟩ := headerAt_of_le hc hk.le
    rw [getBlockHeader_of_headerAt hh]
    simp [Except.map, p, hh]
  have hmono : ∀ a b, a ≤ b → b < blockNumber c.headID → p a = true → p b = true := by
    intro a b hab hb hpa
    obtain ⟨ha, hha⟩ := headerAt_of_le hc (hab.trans hb.le)
    obtain ⟨hb', hhb⟩ := headerAt_of_le hc hb.le
    rw [hp hha] at hpa
    rw [hp hhb]
    rcases Nat.eq_or_lt_of_le hab with rfl | hlt
    · rwa [← headerAt_inj hha hhb]
    · exact UInt64.le_of_lt (UInt64.lt_of_le_of_lt hpa (hts.lt hc hlt hha hhb))
  obtain ⟨r, hr, hrn, hlow, hhigh⟩ := Search.search_spec p hval hmono
  refine ⟨r, hr, hrn, fun k hk hkr hh => ?_, fun hrN h hh => (hp hh).mp (hhigh r (Nat.le_refl r) hrN)⟩
  have hpk := hlow k hkr
  rw [← Bool.not_eq_true, hp hh] at hpk
  exact UInt64.not_le.mp hpk

/-- Down the chain the search tests whether the block `i` below the head is
at or before `ts`: it stops at the highest such block above the genesis, or
at the genesis. -/
theorem search_down (hc : c.Linked) (hts : c.TimestampsIncrease) (ts : UInt64) :
    ∃ r, Search.search (blockNumber c.headID)
        (fun i => (c.getBlockHeader (blockNumber c.headID - i)).map fun h => decide (h.timestamp ≤ ts)) = .ok r ∧
      r ≤ blockNumber c.headID ∧
      (∀ k hk, blockNumber c.headID - r < k → c.headerAt k = some hk → ts < hk.timestamp) ∧
      (r < blockNumber c.headID → ∀ h, c.headerAt (blockNumber c.headID - r) = some h → h.timestamp ≤ ts) := by
  set N := blockNumber c.headID
  let p : ℕ → Bool := fun i => (c.headerAt (N - i)).any fun h => decide (h.timestamp ≤ ts)
  have hp : ∀ {i h}, c.headerAt (N - i) = some h → (p i = true ↔ h.timestamp ≤ ts) := by
    intro i h hh
    simp [p, hh]
  have hval : ∀ i, i < N → (c.getBlockHeader (N - i)).map (fun h => decide (h.timestamp ≤ ts)) = .ok (p i) := by
    intro i _
    obtain ⟨h, hh⟩ := headerAt_of_le hc (Nat.sub_le N i)
    rw [getBlockHeader_of_headerAt hh]
    simp [Except.map, p, hh]
  have hmono : ∀ a b, a ≤ b → b < N → p a = true → p b = true := by
    intro a b hab hb hpa
    obtain ⟨ha, hha⟩ := headerAt_of_le hc (Nat.sub_le N a)
    obtain ⟨hb', hhb⟩ := headerAt_of_le hc (Nat.sub_le N b)
    rw [hp hha] at hpa
    rw [hp hhb]
    rcases Nat.eq_or_lt_of_le hab with rfl | hlt
    · rwa [← headerAt_inj hha hhb]
    · exact UInt64.le_of_lt (UInt64.lt_of_lt_of_le (hts.lt hc (by omega) hhb hha) hpa)
  obtain ⟨r, hr, hrn, hlow, hhigh⟩ := Search.search_spec p hval hmono
  refine ⟨r, hr, hrn, fun k hk hrk hh => ?_, fun hrN h hh => (hp hh).mp (hhigh r (Nat.le_refl r) hrN)⟩
  -- the block `k` is the block `N - k` below the head, one the search found after `ts`
  have hkN : k ≤ N := headerAt_le hc hh
  have hpk := hlow (N - k) (by omega)
  rw [← Bool.not_eq_true, hp (by rwa [Nat.sub_sub_self hkN])] at hpk
  exact UInt64.not_le.mp hpk

/-- With a flag that is not negative, `FindBlockHeaderByTimestamp` reads the
block the upward search stops at, which is after `ts` unless it is the head. -/
theorem findBlockHeaderByTimestamp_up (hc : c.Linked) (hts : c.TimestampsIncrease) (ts : UInt64) {flag : ℤ}
    (hf : 0 ≤ flag) :
    ∃ r h, c.headerAt r = some h ∧
      c.findBlockHeaderByTimestamp ts flag = (if flag = 0 ∧ h.timestamp ≠ ts then .error .notFound else .ok h) ∧
      (∀ k hk, k < r → c.headerAt k = some hk → hk.timestamp < ts) ∧
      (r < blockNumber c.headID → ts ≤ h.timestamp) := by
  obtain ⟨r, hr, hrn, hlow, hhigh⟩ := search_up hc hts ts
  obtain ⟨h, hh⟩ := headerAt_of_le hc hrn
  refine ⟨r, h, hh, ?_, hlow, fun hrN => hhigh hrN h hh⟩
  unfold findBlockHeaderByTimestamp
  simp only [ge_iff_le, if_pos hf, hr, Except.bind, getBlockHeader_of_headerAt hh]

/-- With a negative flag, `FindBlockHeaderByTimestamp` reads the block the
downward search stops at, which is before `ts` unless it is the genesis. -/
theorem findBlockHeaderByTimestamp_down (hc : c.Linked) (hts : c.TimestampsIncrease) (ts : UInt64) {flag : ℤ}
    (hf : flag < 0) :
    ∃ m h, c.headerAt m = some h ∧ c.findBlockHeaderByTimestamp ts flag = .ok h ∧
      (∀ k hk, m < k → c.headerAt k = some hk → ts < hk.timestamp) ∧ (0 < m → h.timestamp ≤ ts) := by
  obtain ⟨r, hr, hrn, hhigh, hlow⟩ := search_down hc hts ts
  obtain ⟨h, hh⟩ := headerAt_of_le hc (Nat.sub_le (blockNumber c.headID) r)
  refine ⟨blockNumber c.headID - r, h, hh, ?_, hhigh, fun hm => hlow (by omega) h hh⟩
  unfold findBlockHeaderByTimestamp
  simp only [ge_iff_le, if_neg (Int.not_le.mpr hf), hr, Except.bind, getBlockHeader_of_headerAt hh]

/-- Where some block is at or after `ts`, the upward search's block is one. -/
theorem findBlockHeaderByTimestamp_lowest (hc : c.Linked) (hts : c.TimestampsIncrease) (ts : UInt64)
    {flag : ℤ} (hf : 0 ≤ flag) {n : ℕ} {hn : Header} (hhn : c.headerAt n = some hn) (hle : ts ≤ hn.timestamp) :
    ∃ r h, c.headerAt r = some h ∧
      c.findBlockHeaderByTimestamp ts flag = (if flag = 0 ∧ h.timestamp ≠ ts then .error .notFound else .ok h) ∧
      (∀ k hk, k < r → c.headerAt k = some hk → hk.timestamp < ts) ∧ ts ≤ h.timestamp := by
  obtain ⟨r, h, hh, hfind, hlow, hhigh⟩ := findBlockHeaderByTimestamp_up hc hts ts hf
  refine ⟨r, h, hh, hfind, hlow, ?_⟩
  by_cases hrN : r < blockNumber c.headID
  · exact hhigh hrN
  -- the search found nothing below the head, so the block after `ts` is the head
  have hnr : n = r := by
    have := headerAt_le hc hhn
    have := headerAt_le hc hh
    by_contra hne
    exact absurd (hlow n hn (by omega) hhn) (UInt64.not_lt.mpr hle)
  subst hnr
  rwa [headerAt_inj hh hhn]

/-- Where some block is at or before `ts`, the downward search's block is one. -/
theorem findBlockHeaderByTimestamp_highest (hc : c.Linked) (hts : c.TimestampsIncrease) (ts : UInt64)
    {flag : ℤ} (hf : flag < 0) {n : ℕ} {hn : Header} (hhn : c.headerAt n = some hn) (hle : hn.timestamp ≤ ts) :
    ∃ m h, c.headerAt m = some h ∧ c.findBlockHeaderByTimestamp ts flag = .ok h ∧
      (∀ k hk, m < k → c.headerAt k = some hk → ts < hk.timestamp) ∧ h.timestamp ≤ ts := by
  obtain ⟨m, h, hh, hfind, hhigh, hlow⟩ := findBlockHeaderByTimestamp_down hc hts ts hf
  refine ⟨m, h, hh, hfind, hhigh, ?_⟩
  by_cases hm : 0 < m
  · exact hlow hm
  -- the search found nothing above the genesis, so the block before `ts` is the genesis
  have hnm : n = m := by
    by_contra hne
    exact absurd (hhigh n hn (by omega) hhn) (UInt64.not_lt.mpr hle)
  subst hnm
  rwa [headerAt_inj hh hhn]

/-- The block at exactly `ts` is the lowest at or after it, so a zero flag finds it. -/
theorem findBlockHeaderByTimestamp_exact (hc : c.Linked) (hts : c.TimestampsIncrease) {n : ℕ} {hn : Header}
    (hhn : c.headerAt n = some hn) : c.findBlockHeaderByTimestamp hn.timestamp 0 = .ok hn := by
  obtain ⟨r, h, hh, hfind, hlow, hle⟩ :=
    findBlockHeaderByTimestamp_lowest hc hts hn.timestamp (Int.le_refl 0) hhn (UInt64.le_refl _)
  have hnr : n = r := by
    rcases Nat.lt_trichotomy n r with hlt | heq | hgt
    · exact absurd (hlow n hn hlt hhn) (UInt64.lt_irrefl _)
    · exact heq
    · exact absurd (UInt64.lt_of_le_of_lt hle (hts.lt hc hgt hh hhn)) (UInt64.lt_irrefl _)
  subst hnr
  rw [hfind, headerAt_inj hh hhn, if_neg (fun h => h.2 rfl)]

/-- `FindBlockHeaderByTimestamp` with flag 1 finds the lowest block at or after
`ts`, with flag -1 the highest at or before it, and with flag 0 the block at
exactly `ts`, and nothing when no block is. -/
theorem findBlockHeaderByTimestamp_correct (c : Chain) (hc : c.Linked) (hts : c.TimestampsIncrease) (ts : UInt64) :
    (∀ n hn, c.headerAt n = some hn → ts ≤ hn.timestamp →
      ∃ r h, c.findBlockHeaderByTimestamp ts 1 = .ok h ∧ c.headerAt r = some h ∧ ts ≤ h.timestamp ∧
        ∀ k hk, k < r → c.headerAt k = some hk → hk.timestamp < ts) ∧
    (∀ n hn, c.headerAt n = some hn → hn.timestamp ≤ ts →
      ∃ m h, c.findBlockHeaderByTimestamp ts (-1) = .ok h ∧ c.headerAt m = some h ∧ h.timestamp ≤ ts ∧
        ∀ k hk, m < k → c.headerAt k = some hk → ts < hk.timestamp) ∧
    (∀ n hn, c.headerAt n = some hn → hn.timestamp = ts → c.findBlockHeaderByTimestamp ts 0 = .ok hn) ∧
    ((∀ n hn, c.headerAt n = some hn → hn.timestamp ≠ ts) → c.findBlockHeaderByTimestamp ts 0 = .error .notFound) := by
  refine ⟨fun n hn hhn hle => ?_, fun n hn hhn hle => ?_, fun n hn hhn hts' => ?_, fun hnone => ?_⟩
  · obtain ⟨r, h, hh, hfind, hlow, hle'⟩ := findBlockHeaderByTimestamp_lowest hc hts ts
      (show (0 : ℤ) ≤ 1 by decide) hhn hle
    exact ⟨r, h, by rw [hfind, if_neg (fun h => absurd h.1 (by decide))], hh, hle', hlow⟩
  · obtain ⟨m, h, hh, hfind, hhigh, hle'⟩ := findBlockHeaderByTimestamp_highest hc hts ts
      (show (-1 : ℤ) < 0 by decide) hhn hle
    exact ⟨m, h, hfind, hh, hle', hhigh⟩
  · subst hts'
    exact findBlockHeaderByTimestamp_exact hc hts hhn
  · obtain ⟨r, h, hh, hfind, -, -⟩ := findBlockHeaderByTimestamp_up hc hts ts (Int.le_refl 0)
    rw [hfind, if_pos ⟨rfl, hnone r h hh⟩]

theorem findBlockHeaderByTimestamp_correct_three :
    let b₀ : Bytes32 := Vector.replicate 32 0
    let b₁ : Bytes32 := (Vector.replicate 32 0).set 3 1
    let b₂ : Bytes32 := (Vector.replicate 32 0).set 3 2
    let c : Chain := ⟨⟨b₀, fun id => if id = b₀ then some ⟨b₀, 10⟩ else if id = b₁ then some ⟨b₀, 20⟩
      else if id = b₂ then some ⟨b₁, 30⟩ else none⟩, b₂, [b₀, b₁, b₂]⟩
    c.Linked ∧ c.TimestampsIncrease ∧ c.findBlockHeaderByTimestamp 20 0 = .ok ⟨b₀, 20⟩ := by
  intro b₀ b₁ b₂ c
  have hc : c.Linked := by decide
  have hts : c.TimestampsIncrease := by decide
  exact ⟨hc, hts, (findBlockHeaderByTimestamp_correct c hc hts 20).2.2.1 1 ⟨b₀, 20⟩ (by decide) rfl⟩

/-- `HasBlock` tests the chain's block at the id's number. -/
theorem hasBlock_eq (c : Chain) (id : Bytes32) :
    c.hasBlock id = .ok (decide (c.index[blockNumber id]? = some id)) := by
  unfold hasBlock getBlockID
  cases c.index[blockNumber id]? with
  | none => rfl
  | some found =>
    simp only [Option.some.injEq, Except.ok.injEq]
    rw [Bool.eq_iff_iff, beq_iff_eq, decide_eq_true_eq]
    exact eq_comm

/-- A block of a linked chain sits at its own number. -/
theorem mem_index_iff (hc : c.Linked) {id : Bytes32} : id ∈ c.index ↔ c.index[blockNumber id]? = some id := by
  constructor
  · intro hmem
    obtain ⟨k, hk⟩ := List.mem_iff_getElem?.mp hmem
    rwa [hc.number k (List.getElem?_eq_some_iff.mp hk).1 id hk]
  · exact List.mem_of_getElem?

theorem map_blockNumber_index (hc : c.Linked) : c.index.map blockNumber = List.range c.index.length := by
  apply List.ext_getElem (by simp)
  intro i h₁ h₂
  rw [List.getElem_map, List.getElem_range]
  exact hc.number i (by simpa using h₁) _ (List.getElem?_eq_getElem _)

section Fork

variable {o : Chain}

/-- Chains of one repository share their genesis. -/
theorem common_zero (hc : c.Linked) (ho : o.Linked) (hrepo : c.repo = o.repo) : c.index[0]? = o.index[0]? := by
  rw [hc.genesis, ho.genesis, hrepo]

/-- A block two chains of one repository share names the block below it in
both, since the repository keeps one parent for it. -/
theorem common_pred (hc : c.Linked) (ho : o.Linked) (hrepo : c.repo = o.repo) {n : ℕ}
    (hn : n + 1 < c.index.length) (h : c.index[n + 1]? = o.index[n + 1]?) : c.index[n]? = o.index[n]? := by
  have hid : c.index[n + 1]? = some c.index[n + 1] := List.getElem?_eq_getElem hn
  have hid' : o.index[n + 1]? = some c.index[n + 1] := h ▸ hid
  have hon : n < o.index.length := by
    have := (List.getElem?_eq_some_iff.mp hid').1
    omega
  rw [← hc.parent n (by omega) _ hid, ← ho.parent n hon _ hid', hrepo]

/-- Two chains of one repository that share a block share everything below it. -/
theorem common_of_le (hc : c.Linked) (ho : o.Linked) (hrepo : c.repo = o.repo) {m n : ℕ} (hmn : m ≤ n)
    (hn : n < c.index.length) (h : c.index[n]? = o.index[n]?) : c.index[m]? = o.index[m]? := by
  induction n with
  | zero =>
    rwa [Nat.le_zero.mp hmn]
  | succ n ih =>
    rcases Nat.eq_or_lt_of_le hmn with rfl | hlt
    · exact h
    · exact ih (by omega) (by omega) (common_pred hc ho hrepo hn h)

/-- One step of `Exclude`'s walk: it stops at a block the other chain shares
and otherwise records the block and goes down to its parent. The three
branches of the source, above, at and below the other head, are the one
test whether the other chain's block at the number is this one. -/
theorem excludeLoop_succ (ho : o.Linked) (hP0 : c.index[0]? = o.index[0]?) {fuel n : ℕ} {id : Bytes32}
    {ids : List Bytes32} (hget : c.index[n]? = some id) (hid : blockNumber id = n) :
    excludeLoop c o o.headID (fuel + 1) id ids =
      if c.index[n]? = o.index[n]? then .ok ids
      else (c.getBlockID (n - 1)).bind fun id' => excludeLoop c o o.headID fuel id' (ids ++ [id]) := by
  rw [excludeLoop]
  dsimp only
  rw [hid]
  by_cases hn0 : n = 0
  · subst hn0
    rw [if_pos rfl, if_pos hP0]
  rw [if_neg hn0]
  rcases Nat.lt_trichotomy (blockNumber o.headID) n with hgt | heq | hlt
  · -- above the other head the other chain has no block
    have hnone : o.index[n]? = none := List.getElem?_eq_none (by rw [ho.length_index]; omega)
    rw [if_pos hgt, if_neg (by rw [hget, hnone]; simp)]
  · have hhead : o.index[n]? = some o.headID := heq ▸ ho.head
    rw [if_neg (by omega), if_pos heq.symm, hget, hhead]
    by_cases hh : id = o.headID
    · rw [if_pos hh, if_pos (by rw [hh])]
    · rw [if_neg hh, if_neg (by simpa using hh)]
  · rw [if_neg (by omega), if_neg (by omega), hasBlock_eq, hid, hget]
    by_cases hh : o.index[n]? = some id
    · simp [hh, Except.bind]
    · simp [hh, Ne.symm hh, Except.bind]

theorem take_succ_drop {l : List Bytes32} {a n : ℕ} (han : a ≤ n) (hn : n + 1 < l.length) :
    (l.take (n + 2)).drop (a + 1) = (l.take (n + 1)).drop (a + 1) ++ [l[n + 1]] := by
  rw [List.take_add_one, List.getElem?_eq_getElem hn, Option.toList_some,
    List.drop_append_of_le_length (by simp; omega)]

/-- From a block above the highest block `a` the chains share, the walk
records, from the top, every block down to the one above `a`. -/
theorem excludeLoop_run (hc : c.Linked) (ho : o.Linked) (hrepo : c.repo = o.repo) {a : ℕ}
    (ha : c.index[a]? = o.index[a]?) (hmax : ∀ m, a < m → m < c.index.length → c.index[m]? ≠ o.index[m]?) :
    ∀ n fuel id ids, a ≤ n → n < fuel → c.index[n]? = some id →
      excludeLoop c o o.headID fuel id ids = .ok (ids ++ ((c.index.take (n + 1)).drop (a + 1)).reverse) := by
  intro n
  induction n with
  | zero =>
    intro fuel id ids ha0 hfuel hget
    obtain ⟨fuel, rfl⟩ : ∃ f, fuel = f + 1 := ⟨fuel - 1, by omega⟩
    rw [excludeLoop_succ ho (common_zero hc ho hrepo) hget
      (hc.number 0 (List.getElem?_eq_some_iff.mp hget).1 id hget), if_pos (common_zero hc ho hrepo)]
    simp
  | succ n ih =>
    intro fuel id ids han hfuel hget
    obtain ⟨fuel, rfl⟩ : ∃ f, fuel = f + 1 := ⟨fuel - 1, by omega⟩
    have hlt : n + 1 < c.index.length := (List.getElem?_eq_some_iff.mp hget).1
    rw [excludeLoop_succ ho (common_zero hc ho hrepo) hget (hc.number _ hlt id hget)]
    rcases Nat.eq_or_lt_of_le han with rfl | han
    · -- the walk has reached the highest shared block
      rw [if_pos ha]
      simp
    · -- a block only this chain has: the walk records it and reads its parent
      have hprev : c.index[n]? = some c.index[n] := List.getElem?_eq_getElem (by omega)
      have hid : id = c.index[n + 1] := Option.some.inj (hget.symm.trans (List.getElem?_eq_getElem hlt))
      rw [if_neg (hmax _ han hlt), Nat.add_sub_cancel, getBlockID, hprev]
      simp only [Except.bind]
      rw [ih fuel _ _ (by omega) (by omega) hprev, take_succ_drop (by omega) hlt, hid]
      simp

/-- `Exclude` returns the blocks above the highest block the chains share. -/
theorem exclude_eq (hc : c.Linked) (ho : o.Linked) (hrepo : c.repo = o.repo) :
    ∃ a, a < c.index.length ∧ c.index[a]? = o.index[a]? ∧
      (∀ m, a < m → m < c.index.length → c.index[m]? ≠ o.index[m]?) ∧ c.exclude o = .ok (c.index.drop (a + 1)) := by
  set N := blockNumber c.headID
  let a := Nat.findGreatest (fun m => c.index[m]? = o.index[m]?) N
  have haN : a ≤ N := Nat.findGreatest_le N
  have ha : c.index[a]? = o.index[a]? :=
    Nat.findGreatest_spec (P := fun m => c.index[m]? = o.index[m]?) (Nat.zero_le N) (common_zero hc ho hrepo)
  have hmax : ∀ m, a < m → m < c.index.length → c.index[m]? ≠ o.index[m]? := fun m ham hm =>
    Nat.findGreatest_is_greatest ham (by rw [hc.length_index] at hm; omega)
  refine ⟨a, by rw [hc.length_index]; omega, ha, hmax, ?_⟩
  unfold exclude
  rw [excludeLoop_run hc ho hrepo ha hmax N (N + 1) c.headID [] haN (Nat.lt_succ_self N) hc.head,
    List.take_of_length_le (by rw [hc.length_index])]
  simp [Except.map]

/-- `Exclude` returns the blocks of this chain the other does not have, in
ascending order of number: those above the highest block the two share. -/
theorem exclude_exact (c o : Chain) (hc : c.Linked) (ho : o.Linked) (hrepo : c.repo = o.repo) :
    ∃ ids, c.exclude o = .ok ids ∧ (∀ id, id ∈ ids ↔ id ∈ c.index ∧ id ∉ o.index) ∧
      (ids.map blockNumber).Pairwise (· < ·) ∧
      ∃ a, a < c.index.length ∧ c.index[a]? = o.index[a]? ∧
        (∀ m, a < m → m < c.index.length → c.index[m]? ≠ o.index[m]?) ∧ ids = c.index.drop (a + 1) := by
  obtain ⟨a, hal, ha, hmax, hex⟩ := exclude_eq hc ho hrepo
  refine ⟨_, hex, fun id => ?_, ?_, a, hal, ha, hmax, rfl⟩
  · rw [mem_index_iff hc, mem_index_iff ho, List.mem_iff_getElem?]
    constructor
    · -- a block above `a` is this chain's, and not the other's
      rintro ⟨j, hj⟩
      rw [List.getElem?_drop] at hj
      have hk := hc.number _ (List.getElem?_eq_some_iff.mp hj).1 id hj
      rw [hk]
      refine ⟨hj, fun ho' => hmax (a + 1 + j) (by omega) (List.getElem?_eq_some_iff.mp hj).1 ?_⟩
      rw [hj, ho']
    · -- a block only this chain has lies above every shared block
      rintro ⟨hin, hout⟩
      have hk : blockNumber id < c.index.length := (List.getElem?_eq_some_iff.mp hin).1
      have hak : a < blockNumber id := by
        by_contra hle
        exact hout ((common_of_le hc ho hrepo (Nat.le_of_not_lt hle) hal ha).symm.trans hin)
      refine ⟨blockNumber id - (a + 1), ?_⟩
      rwa [List.getElem?_drop, Nat.add_sub_cancel' hak]
  · rw [List.map_drop, map_blockNumber_index hc]
    exact List.pairwise_lt_range.drop

theorem exclude_exact_fork :
    let b₀ : Bytes32 := Vector.replicate 32 0
    let b₁ : Bytes32 := (Vector.replicate 32 0).set 3 1
    let b₂ : Bytes32 := (Vector.replicate 32 0).set 3 2
    let b₁' : Bytes32 := ((Vector.replicate 32 0).set 3 1).set 4 1
    let r : Repository := ⟨b₀, fun id => if id = b₀ then some ⟨b₀, 10⟩ else if id = b₁ then some ⟨b₀, 20⟩
      else if id = b₂ then some ⟨b₁, 30⟩ else if id = b₁' then some ⟨b₀, 25⟩ else none⟩
    let c : Chain := ⟨r, b₂, [b₀, b₁, b₂]⟩
    let o : Chain := ⟨r, b₁', [b₀, b₁']⟩
    c.Linked ∧ o.Linked ∧ c.exclude o = .ok [b₁, b₂] ∧
      ∃ ids, c.exclude o = .ok ids ∧ ∀ id, id ∈ ids ↔ id ∈ c.index ∧ id ∉ o.index := by
  intro b₀ b₁ b₂ b₁' r c o
  have hc : c.Linked := by decide
  have ho : o.Linked := by decide
  obtain ⟨ids, hex, hmem, -⟩ := exclude_exact c o hc ho rfl
  exact ⟨hc, ho, by decide, ids, hex, hmem⟩

end Fork

end Chain

end Workshare
