import Workshare.Basic
import Mathlib

/-!
# The transaction pool's object map

`txObjectMap` keeps the pool's transaction objects in three Go maps updated
together: by hash, by id, and the number of objects each origin has there,
its quota. `Add` refuses an origin at its limit, `Fill` skips that test, and
`RemoveByHash` takes an object out of all three. A Go map is an `AList` here:
a lookup, an insertion that replaces, and an erasure.

Over every run of the three operations the quotas count the objects of each
origin, with no entry for an origin that has none, `Add` never pushes a quota
past its limit, and what `GetByID` returns is an object of the map with that
id. But the id is not a key of the objects: two transactions that differ only
in their delegator's signature have one id and two hashes, and removing
either erases the id's entry, so that the other, still in the map, is no
longer found by its id.
-/
namespace Workshare

/-- `txObject`, as far as the map reads it: the hash and the id its transaction
caches, and the origin it was resolved to. -/
structure TxObject where
  hash : Bytes32
  id : Bytes32
  origin : Address
  deriving DecidableEq, Repr

/-- `txObjectMap`. -/
structure TxObjectMap where
  mapByHash : AList fun _ : Bytes32 => TxObject
  mapByID : AList fun _ : Bytes32 => TxObject
  quota : AList fun _ : Address => ℤ

namespace TxObjectMap

/-- `newTxObjectMap`. -/
def new : TxObjectMap := ⟨∅, ∅, ∅⟩

/-- `m.quota[origin]`: zero when the origin has no entry. -/
def quotaOf (m : TxObjectMap) (origin : Address) : ℤ := (m.quota.lookup origin).getD 0

/-- `ContainsHash`. -/
def containsHash (m : TxObjectMap) (txHash : Bytes32) : Bool := (m.mapByHash.lookup txHash).isSome

/-- The writes `Add` and `Fill` make for an object not in the map. -/
def insertObj (m : TxObjectMap) (txObj : TxObject) : TxObjectMap where
  quota := m.quota.insert txObj.origin (m.quotaOf txObj.origin + 1)
  mapByHash := m.mapByHash.insert txObj.hash txObj
  mapByID := m.mapByID.insert txObj.id txObj

@[simp] theorem insertObj_mapByHash (m : TxObjectMap) (txObj : TxObject) :
    (m.insertObj txObj).mapByHash = m.mapByHash.insert txObj.hash txObj := rfl

@[simp] theorem insertObj_mapByID (m : TxObjectMap) (txObj : TxObject) :
    (m.insertObj txObj).mapByID = m.mapByID.insert txObj.id txObj := rfl

@[simp] theorem insertObj_quota (m : TxObjectMap) (txObj : TxObject) :
    (m.insertObj txObj).quota = m.quota.insert txObj.origin (m.quotaOf txObj.origin + 1) := rfl

/-- `Add`: nothing for an object already there, and the quota error for an
origin at its limit. -/
def add (m : TxObjectMap) (txObj : TxObject) (limitPerAccount : ℤ) : Except String TxObjectMap :=
  if m.containsHash txObj.hash then .ok m
  else if m.quotaOf txObj.origin ≥ limitPerAccount then .error "account quota exceeded"
  else .ok (m.insertObj txObj)

/-- `GetByID`. -/
def getByID (m : TxObjectMap) (id : Bytes32) : Option TxObject := m.mapByID.lookup id

/-- `RemoveByHash`: the origin's quota drops by one, or its entry goes with
its last object. -/
def removeByHash (m : TxObjectMap) (txHash : Bytes32) : Bool × TxObjectMap :=
  match m.mapByHash.lookup txHash with
  | some txObj =>
    let quota :=
      if m.quotaOf txObj.origin > 1 then m.quota.insert txObj.origin (m.quotaOf txObj.origin - 1)
      else m.quota.erase txObj.origin
    (true, ⟨m.mapByHash.erase txHash, m.mapByID.erase txObj.id, quota⟩)
  | none => (false, m)

/-- `Fill`: the objects not there yet, with no quota test. -/
def fill (m : TxObjectMap) (txObjs : List TxObject) : TxObjectMap :=
  txObjs.foldl (fun m txObj => if m.containsHash txObj.hash then m else m.insertObj txObj) m

/-- The calls the pool makes on its map. -/
inductive Op
  | add (txObj : TxObject) (limitPerAccount : ℤ)
  | fill (txObjs : List TxObject)
  | removeByHash (txHash : Bytes32)

/-- One call: a refused `Add` writes nothing. -/
def apply (m : TxObjectMap) : Op → TxObjectMap
  | .add txObj limit => match m.add txObj limit with
    | .ok m' => m'
    | .error _ => m
  | .fill txObjs => m.fill txObjs
  | .removeByHash txHash => (m.removeByHash txHash).2

/-- Calls one after the other. -/
def run (m : TxObjectMap) (ops : List Op) : TxObjectMap := ops.foldl apply m

/-- The objects of an origin in the map. -/
def countOrigin (m : TxObjectMap) (origin : Address) : ℕ :=
  m.mapByHash.entries.countP fun e => e.2.origin = origin

/-- An object filed under a new hash counts for its origin. -/
theorem countP_insert_of_notMem {s : AList fun _ : Bytes32 => TxObject} {h : Bytes32} {obj : TxObject}
    (p : TxObject → Prop) [DecidablePred p] (hh : h ∉ s) :
    (s.insert h obj).entries.countP (fun e => p e.2) = s.entries.countP (fun e => p e.2) + if p obj then 1 else 0 := by
  rw [AList.entries_insert_of_notMem hh, List.countP_cons]
  simp

/-- An object taken out of the map no longer counts. -/
theorem countP_erase_of_lookup {s : AList fun _ : Bytes32 => TxObject} {h : Bytes32} {obj : TxObject}
    (p : TxObject → Prop) [DecidablePred p] (hl : s.lookup h = some obj) :
    s.entries.countP (fun e => p e.2) = (s.erase h).entries.countP (fun e => p e.2) + if p obj then 1 else 0 := by
  have hmem : h ∈ s.entries.keys := AList.mem_keys.mp (AList.lookup_isSome.mp (by rw [hl]; rfl))
  obtain ⟨b, l₁, l₂, hl₁, hs, herase⟩ := List.exists_of_kerase hmem
  have hb : b = obj := by
    have : s.lookup h = some b := by
      rw [AList.lookup, hs, List.dlookup_append, List.dlookup_eq_none.mpr hl₁, List.dlookup_cons_eq]
      rfl
    rw [hl] at this
    exact (Option.some.inj this).symm
  subst hb
  show _ = (s.entries.kerase h).countP _ + _
  rw [herase, hs, List.countP_append, List.countP_append, List.countP_cons]
  simp
  omega

/-- What every run keeps: each object is filed under its own hash, each
origin's quota is the number of its objects, with no entry for none, and the
id index points at objects of the map with that id. -/
structure Inv (m : TxObjectMap) : Prop where
  hash_key : ∀ h obj, m.mapByHash.lookup h = some obj → obj.hash = h
  quota_count : ∀ a, m.quota.lookup a = if m.countOrigin a = 0 then none else some (m.countOrigin a : ℤ)
  id_sound : ∀ id obj, m.mapByID.lookup id = some obj → obj.id = id ∧ m.mapByHash.lookup obj.hash = some obj

variable {m : TxObjectMap}

theorem Inv.quotaOf_eq (hm : m.Inv) (a : Address) : m.quotaOf a = m.countOrigin a := by
  unfold quotaOf
  rw [hm.quota_count a]
  split_ifs with h <;> simp [h]

theorem inv_new : new.Inv :=
  ⟨fun _ _ h => by simp [new] at h, fun _ => by simp [new, countOrigin], fun _ _ h => by simp [new] at h⟩

theorem notMem_of_containsHash {h : Bytes32} (hc : m.containsHash h = false) : h ∉ m.mapByHash := by
  rw [← AList.lookup_eq_none]
  simpa [containsHash] using hc

theorem inv_insertObj (hm : m.Inv) {obj : TxObject} (hnew : m.containsHash obj.hash = false) :
    (m.insertObj obj).Inv := by
  have hnotMem := notMem_of_containsHash hnew
  refine ⟨fun h o hl => ?_, fun a => ?_, fun id o hl => ?_⟩
  · -- the new object is filed under its own hash
    rw [insertObj_mapByHash] at hl
    by_cases hh : h = obj.hash
    · subst hh
      rw [AList.lookup_insert, Option.some.injEq] at hl
      rw [← hl]
    · rw [AList.lookup_insert_ne hh] at hl
      exact hm.hash_key h o hl
  · -- its origin counts one more object
    have hc : (m.insertObj obj).countOrigin a = m.countOrigin a + if obj.origin = a then 1 else 0 :=
      countP_insert_of_notMem (fun o => o.origin = a) hnotMem
    rw [hc, insertObj_quota]
    by_cases ha : a = obj.origin
    · subst ha
      rw [AList.lookup_insert, hm.quotaOf_eq, if_pos rfl]
      simp
    · rw [AList.lookup_insert_ne ha, hm.quota_count a, if_neg (Ne.symm ha), Nat.add_zero]
  · -- the id now points at the new object; no other object moved
    rw [insertObj_mapByID] at hl
    rw [insertObj_mapByHash]
    by_cases hid : id = obj.id
    · subst hid
      rw [AList.lookup_insert, Option.some.injEq] at hl
      subst hl
      exact ⟨rfl, AList.lookup_insert _⟩
    · rw [AList.lookup_insert_ne hid] at hl
      obtain ⟨hid', hl'⟩ := hm.id_sound id o hl
      have hne : o.hash ≠ obj.hash := fun he => hnotMem (AList.lookup_isSome.mp (by rw [← he, hl']; rfl))
      exact ⟨hid', by rw [AList.lookup_insert_ne hne]; exact hl'⟩

theorem inv_removeByHash (hm : m.Inv) (txHash : Bytes32) : (m.removeByHash txHash).2.Inv := by
  unfold removeByHash
  cases hl : m.mapByHash.lookup txHash with
  | none => exact hm
  | some obj =>
    dsimp only
    refine ⟨fun h o ho => ?_, fun a => ?_, fun id o ho => ?_⟩
    · by_cases hh : h = txHash
      · subst hh
        rw [AList.lookup_erase] at ho
        cases ho
      · rw [AList.lookup_erase_ne hh] at ho
        exact hm.hash_key h o ho
    · -- its origin counts one object less, and loses its entry with its last one
      have hc : m.countOrigin a = countOrigin ⟨m.mapByHash.erase txHash, m.mapByID.erase obj.id, m.quota⟩ a +
          if obj.origin = a then 1 else 0 :=
        countP_erase_of_lookup (fun o => o.origin = a) hl
      unfold countOrigin at hc ⊢
      dsimp only at hc ⊢
      by_cases ha : a = obj.origin
      · subst ha
        have hq := hm.quotaOf_eq obj.origin
        unfold countOrigin at hq
        rw [if_pos rfl] at hc
        split_ifs with hgt h0 h0
        · omega
        · rw [AList.lookup_insert]
          simp only [Option.some.injEq]
          omega
        · rw [AList.lookup_erase]
        · omega
      · rw [if_neg (Ne.symm ha), Nat.add_zero] at hc
        have hq := hm.quota_count a
        unfold countOrigin at hq
        rw [← hc]
        have hlk : (if m.quotaOf obj.origin > 1 then m.quota.insert obj.origin (m.quotaOf obj.origin - 1)
            else m.quota.erase obj.origin).lookup a = m.quota.lookup a := by
          split_ifs
          · exact AList.lookup_insert_ne ha
          · exact AList.lookup_erase_ne ha
        rw [hlk, hq]
    · by_cases hid : id = obj.id
      · subst hid
        rw [AList.lookup_erase] at ho
        cases ho
      · rw [AList.lookup_erase_ne hid] at ho
        obtain ⟨hid', hl'⟩ := hm.id_sound id o ho
        have hne : o.hash ≠ txHash := by
          intro he
          rw [he, hl, Option.some.injEq] at hl'
          exact hid (hid' ▸ hl' ▸ rfl)
        exact ⟨hid', by rw [AList.lookup_erase_ne hne]; exact hl'⟩

theorem inv_fill (hm : m.Inv) (txObjs : List TxObject) : (m.fill txObjs).Inv := by
  unfold fill
  induction txObjs generalizing m with
  | nil => exact hm
  | cons txObj txObjs ih =>
    rw [List.foldl_cons]
    apply ih
    split_ifs with h
    · exact hm
    · exact inv_insertObj hm (by simpa using h)

theorem inv_add (hm : m.Inv) {txObj : TxObject} {limit : ℤ} {m' : TxObjectMap}
    (h : m.add txObj limit = .ok m') : m'.Inv := by
  unfold add at h
  split_ifs at h with hc hq
  · cases h
    exact hm
  · cases h
    exact inv_insertObj hm (by simpa using hc)

theorem inv_apply (hm : m.Inv) (op : Op) : (m.apply op).Inv := by
  cases op with
  | add txObj limit =>
    show (match m.add txObj limit with | .ok m' => m' | .error _ => m).Inv
    cases h : m.add txObj limit with
    | ok m' => exact inv_add hm h
    | error e => exact hm
  | fill txObjs => exact inv_fill hm txObjs
  | removeByHash txHash => exact inv_removeByHash hm txHash

/-- Every run keeps the invariant. -/
theorem inv_run (hm : m.Inv) (ops : List Op) : (m.run ops).Inv := by
  unfold run
  induction ops generalizing m with
  | nil => exact hm
  | cons op ops ih =>
    rw [List.foldl_cons]
    exact ih (inv_apply hm op)

/-- `Add` raises a quota only below the limit, so a quota it leaves above the
limit was there before. -/
theorem add_quota_le {txObj : TxObject} {limit : ℤ} {m' : TxObjectMap}
    (h : m.add txObj limit = .ok m') (a : Address) : m'.quotaOf a ≤ limit ∨ m'.quotaOf a = m.quotaOf a := by
  unfold add at h
  split_ifs at h with hc hq
  · cases h
    exact .inr rfl
  · cases h
    unfold quotaOf
    rw [insertObj_quota]
    by_cases ha : a = txObj.origin
    · subst ha
      rw [AList.lookup_insert]
      exact .inl (by simp only [Option.getD_some]; omega)
    · rw [AList.lookup_insert_ne ha]
      exact .inr rfl

/-- What `GetByID` finds is an object of the map with that id. -/
theorem getByID_sound (hm : m.Inv) {id : Bytes32} {txObj : TxObject} (h : m.getByID id = some txObj) :
    txObj.id = id ∧ m.mapByHash.lookup txObj.hash = some txObj :=
  hm.id_sound id txObj h

/-- Removing one of two objects with the same id loses the other's entry in
the id index: `GetByID` no longer finds it, though it is still in the map. -/
theorem getByID_misses_same_id :
    let tx₁ : TxObject := ⟨Vector.replicate 32 1, Vector.replicate 32 7, Vector.replicate 20 9⟩
    let tx₂ : TxObject := ⟨Vector.replicate 32 2, Vector.replicate 32 7, Vector.replicate 20 9⟩
    let m := new.run [.add tx₁ 16, .add tx₂ 16, .removeByHash tx₁.hash]
    m.mapByHash.lookup tx₂.hash = some tx₂ ∧ tx₂.id = tx₁.id ∧ tx₂.hash ≠ tx₁.hash ∧ m.getByID tx₂.id = none := by
  decide

end TxObjectMap

end Workshare
