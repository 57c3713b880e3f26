import Workshare.RlpValue
import Workshare.State.Frame
import Workshare.Runtime.Energy
import Mathlib

/-!
# The native side of `Params` and `Energy`

The builtin contracts keep their data in the storage of their own address, as
RLP values read with `DecodeStorage` and written with `EncodeStorage`; an empty
slot reads as the zero value. `Params.Get` reads one big integer. `Energy.Sub`
takes an amount from an account's energy, settled at the block time, when the
account holds enough, and `Energy.Add` adds one; both keep the running totals
of what was added and taken in the `total-add-sub` slot of the contract.

`Sub` reads everything it needs before it writes, and its writes cannot fail
once the reads succeeded: a failed `Sub` leaves the state as it was. A
successful one changes the reads of two keys only, the account and the totals.
-/
namespace Workshare

/-- `builtin.Params.Address`. -/
def paramsAddress : Address := bytesToAddress "Params".toUTF8.toList

/-- `workshare.KeyBaseGasPrice`. -/
def KeyBaseGasPrice : Bytes32 := bytesToBytes32 "base-gas-price".toUTF8.toList

/-- `workshare.KeyRewardRatio`. -/
def KeyRewardRatio : Bytes32 := bytesToBytes32 "reward-ratio".toUTF8.toList

namespace State

/-- `DecodeStorage`: the raw slot, decoded; an empty slot is left to `dec`. -/
def decodeStorage {α : Type} (s : State) (addr : Address) (key : Bytes32)
    (dec : Bytes → Except Rlp.Error α) : Except StateError α :=
  (s.getRawStorage addr key).bind fun raw => (dec raw).mapError .rlp

end State

/-- `EncodeStorage`: a failed encoding writes nothing. -/
def encodeStorage (addr : Address) (key : Bytes32) (enc : Except Rlp.Error Bytes) : Method Unit :=
  match enc with
  | .error e => throw (.rlp e)
  | .ok raw => setRawStorage addr key raw

theorem encodeStorage_eq_ok {addr : Address} {key : Bytes32} {enc : Except Rlp.Error Bytes}
    {s s' : State} {u : Unit} :
    encodeStorage addr key enc s = .ok u s' ↔
      ∃ raw, enc = .ok raw ∧ s' = s.put (.storage addr (s.getStorageBarrier addr) key) (.raw raw) := by
  cases enc with
  | error e => simp [encodeStorage]
  | ok raw => simp [encodeStorage, setRawStorage, eq_comm]

theorem encodeStorage_eq_error {addr : Address} {key : Bytes32} {enc : Except Rlp.Error Bytes}
    {s s' : State} {e : StateError} (h : encodeStorage addr key enc s = .error e s') : s' = s := by
  cases enc with
  | error e' =>
    simp only [encodeStorage, EStateM.throw_apply, EStateM.Result.error.injEq] at h
    exact h.2.symm
  | ok raw => simp [encodeStorage, setRawStorage] at h

/-- `Params.Get`: a big integer, zero when the slot is empty. -/
def Params.get (s : State) (key : Bytes32) : Except StateError ℤ :=
  s.decodeStorage paramsAddress key fun raw =>
    if raw.isEmpty then .ok 0 else (Rlp.decodeBytes Rlp.readBigInt raw).map Int.ofNat

/-- A parameter is stored as an unsigned integer. -/
theorem Params.get_nonneg {s : State} {key : Bytes32} {v : ℤ} (h : Params.get s key = .ok v) : 0 ≤ v := by
  simp only [Params.get, State.decodeStorage, Except.bind_eq_ok_iff, Except.mapError_eq_ok_iff] at h
  obtain ⟨raw, -, h⟩ := h
  split at h
  · cases h
    rfl
  · simp only [Except.map_eq_ok_iff] at h
    obtain ⟨n, -, rfl⟩ := h
    simp

/-- Vectors of a finite type are finite, as the functions from their indices:
a sum over every address is a finite sum. -/
instance instFintypeVector {α : Type} [Fintype α] {n : ℕ} : Fintype (Vector α n) :=
  Fintype.ofEquiv (Fin n → α) ⟨Vector.ofFn, fun v i => v[i], fun f => by ext i; simp, fun v => by ext i hi; simp⟩

namespace Energy

variable (blake2b : Bytes → Bytes32) (blockTime : ℕ)

/-- `totalAddSubKey`. -/
def totalAddSubKey : Bytes32 := blake2b "total-add-sub".toUTF8.toList

/-- `totalAddSub`: the energy added and taken so far. -/
structure TotalAddSub where
  totalAdd : ℤ
  totalSub : ℤ
  deriving DecidableEq, Repr

/-- The RLP struct of two big integers. -/
def readTotalAddSub : Rlp.Reader TotalAddSub := Rlp.readList fun b =>
  (Rlp.readPair Rlp.readBigInt Rlp.readBigInt b).map fun ((a, s), rest) => (⟨a, s⟩, rest)

/-- `rlp.EncodeToBytes(&total)`. -/
def encodeTotalAddSub (t : TotalAddSub) : Except Rlp.Error Bytes :=
  (Rlp.encodeBigInt t.totalAdd).bind fun a =>
    (Rlp.encodeBigInt t.totalSub).map fun s => Rlp.encodeList (a ++ s)

/-- `getTotalAddSub`. -/
def getTotalAddSub (s : State) : Except StateError TotalAddSub :=
  s.decodeStorage energyAddress (totalAddSubKey blake2b) fun raw =>
    if raw.isEmpty then .ok ⟨0, 0⟩ else Rlp.decodeBytes readTotalAddSub raw

/-- `setTotalAddSub`. -/
def setTotalAddSub (t : TotalAddSub) : Method Unit :=
  encodeStorage energyAddress (totalAddSubKey blake2b) (encodeTotalAddSub t)

/-- `Energy.Add`. -/
def add (addr : Address) (amount : ℤ) : Method Unit :=
  if amount = 0 then pure ()
  else do
    let eng ← readOnly (·.getEnergy addr blockTime)
    let total ← readOnly (getTotalAddSub blake2b)
    setTotalAddSub blake2b { total with totalAdd := total.totalAdd + amount }
    setEnergy addr (eng + amount) blockTime

/-- `Energy.Sub`: false, and nothing written, when the account holds too little. -/
def sub (addr : Address) (amount : ℤ) : Method Bool :=
  if amount = 0 then pure true
  else do
    let eng ← readOnly (·.getEnergy addr blockTime)
    if eng < amount then pure false
    else do
      let total ← readOnly (getTotalAddSub blake2b)
      setTotalAddSub blake2b { total with totalSub := total.totalSub + amount }
      setEnergy addr (eng - amount) blockTime
      pure true

/-- The keys `Sub` and `Add` write: the account and the contract's totals. -/
def Touched (addr : Address) (k : StateKey) : Prop :=
  k = .account addr ∨ ∃ b, k = .storage energyAddress b (totalAddSubKey blake2b)

/-- `Sub` takes `amount` from `addr`: there is nothing to take, or enough energy. -/
def CanPay (s : State) (addr : Address) (amount : ℤ) : Prop :=
  amount = 0 ∨ ∃ e, s.getEnergy addr blockTime = .ok e ∧ amount ≤ e

/-- `Sub` finds less than `amount` at `addr`. -/
def Short (s : State) (addr : Address) (amount : ℤ) : Prop :=
  amount ≠ 0 ∧ ∃ e, s.getEnergy addr blockTime = .ok e ∧ e < amount

theorem not_canPay_of_short {s : State} {addr : Address} {amount : ℤ}
    (h : Short blockTime s addr amount) : ¬ CanPay blockTime s addr amount := by
  obtain ⟨h0, e, he, hlt⟩ := h
  rintro (h0' | ⟨e', he', hle⟩)
  · exact h0 h0'
  · rw [he] at he'
    cases he'
    omega

/-- `s'` is `s` with `delta` added to the energy of `addr` at `blockTime`, the
rest of the account kept. -/
structure Moved (s s' : State) (addr : Address) (delta : ℤ) : Prop where
  energy : ∀ e, s.getEnergy addr blockTime = .ok e → s'.getEnergy addr blockTime = .ok (e + delta)
  account : ∀ acc, s.getAccount addr = .ok acc → ∃ acc', s'.getAccount addr = .ok acc' ∧
    acc'.balance = acc.balance ∧ acc'.master = acc.master ∧ acc'.codeHash = acc.codeHash ∧
    acc'.storageRoot = acc.storageRoot

theorem Moved.refl (s : State) (addr : Address) : Moved blockTime s s addr 0 :=
  ⟨fun e h => by simpa using h, fun acc h => ⟨acc, h, rfl, rfl, rfl, rfl⟩⟩

variable {blake2b blockTime}

/-- Writes that leave the account unread keep what was moved. -/
theorem Moved.of_sameExcept {s s₁ s₂ : State} {addr : Address} {delta : ℤ} {keys : StateKey → Prop}
    (hm : Moved blockTime s s₁ addr delta) (h : s₁.SameExcept keys s₂) (ha : ¬ keys (.account addr)) :
    Moved blockTime s s₂ addr delta := by
  have hacc := State.getAccount_of_sameExcept h ha
  refine ⟨fun e he => ?_, fun acc hacc' => ?_⟩
  · simpa only [State.getEnergy, hacc] using hm.energy e he
  · rw [hacc]
    exact hm.account acc hacc'

/-- The writes of `Add` and `Sub`: the totals, then the account settled with
its energy moved by `delta`. -/
theorem moved_write {s : State} {addr : Address} {acc : Account} (raw : Bytes) (delta : ℤ)
    (hs : s.sm.mapStack ≠ []) (ha : s.getAccount addr = .ok acc) :
    let s' := (s.put (.storage energyAddress (s.getStorageBarrier energyAddress) (totalAddSubKey blake2b))
        (.raw raw)).updateAccount addr { acc with energy := acc.calcEnergy blockTime + delta, blockTime }
    Moved blockTime s s' addr delta ∧ s.SameExcept (Touched blake2b addr) s' := by
  intro s'
  set s₁ := s.put (.storage energyAddress (s.getStorageBarrier energyAddress) (totalAddSubKey blake2b))
    (.raw raw)
  have hs₁ : s₁.sm.mapStack ≠ [] := State.mapStack_put_ne_nil _ _ hs
  have hread := State.getAccount_updateAccount_self addr
    { acc with energy := acc.calcEnergy blockTime + delta, blockTime } hs₁
  refine ⟨⟨fun e he => ?_, fun acc' ha' => ?_⟩, ?_⟩
  · simp only [State.getEnergy, ha, Except.map, Except.ok.injEq] at he
    subst he
    rw [State.getEnergy, hread]
    simp [Except.map, State.calcEnergy_settled]
  · rw [ha] at ha'
    cases ha'
    exact ⟨_, hread, rfl, rfl, rfl, rfl⟩
  · have h₁ : s.SameExcept (Touched blake2b addr) s₁ :=
      (State.sameExcept_put s _ (.raw raw)).mono fun k hk => .inr ⟨_, hk⟩
    have h₂ : s₁.SameExcept (Touched blake2b addr) s' :=
      (State.sameExcept_put s₁ _ _).mono fun k hk => .inl hk
    exact h₁.trans h₂

/-- What `Sub` can do when it returns: find too little and write nothing, or
take the amount and write the account and the totals. -/
theorem sub_spec {s s' : State} {addr : Address} {amount : ℤ} {r : Bool} (hs : s.sm.mapStack ≠ [])
    (h : sub blake2b blockTime addr amount s = .ok r s') :
    (r = true ∧ CanPay blockTime s addr amount ∧ Moved blockTime s s' addr (-amount) ∧
        s.SameExcept (Touched blake2b addr) s') ∨
      (r = false ∧ Short blockTime s addr amount ∧ s' = s) := by
  unfold sub at h
  split at h
  case isTrue h0 =>
    simp only [EStateM.pure_apply, EStateM.Result.ok.injEq] at h
    obtain ⟨rfl, rfl⟩ := h
    subst h0
    exact .inl ⟨rfl, .inl rfl, by simpa using Moved.refl blockTime s addr, State.SameExcept.refl _ s⟩
  case isFalse h0 =>
    simp only [EStateM.bind_eq_ok_iff, readOnly_eq_ok_iff] at h
    obtain ⟨eng, _, ⟨heng, rfl⟩, h⟩ := h
    split at h
    case isTrue hlt =>
      simp only [EStateM.pure_apply, EStateM.Result.ok.injEq] at h
      obtain ⟨rfl, rfl⟩ := h
      exact .inr ⟨rfl, ⟨h0, eng, heng, hlt⟩, rfl⟩
    case isFalse hge =>
      simp only [EStateM.bind_eq_ok_iff, readOnly_eq_ok_iff, setTotalAddSub, encodeStorage_eq_ok] at h
      obtain ⟨total, _, ⟨-, rfl⟩, _, s₁, ⟨raw, -, rfl⟩, _, s₂, hset, hpure⟩ := h
      simp only [EStateM.pure_apply, EStateM.Result.ok.injEq] at hpure
      obtain ⟨rfl, rfl⟩ := hpure
      obtain ⟨acc, ha, rfl⟩ := State.getEnergy_eq_ok.mp heng
      rw [State.setEnergy_of_getAccount _ _ (by rw [State.getAccount_put_ne s _ (by simp)]; exact ha)] at hset
      simp only [EStateM.Result.ok.injEq] at hset
      obtain ⟨-, rfl⟩ := hset
      obtain ⟨hm, hf⟩ := @moved_write blake2b blockTime s addr acc raw (-amount) hs ha
      refine .inl ⟨rfl, .inr ⟨_, heng, by omega⟩, ?_, ?_⟩
      · simpa [sub_eq_add_neg] using hm
      · simpa [sub_eq_add_neg] using hf

/-- A failed `Sub` leaves the state as it was. -/
theorem sub_error {s s' : State} {addr : Address} {amount : ℤ} {e : StateError}
    (h : sub blake2b blockTime addr amount s = .error e s') : s' = s := by
  unfold sub at h
  split at h
  case isTrue => simp at h
  case isFalse h0 =>
    simp only [EStateM.bind_eq_error_iff, readOnly_eq_ok_iff, readOnly_eq_error_iff] at h
    rcases h with ⟨-, rfl⟩ | ⟨eng, _, ⟨heng, rfl⟩, h⟩
    · rfl
    split at h
    case isTrue => simp at h
    case isFalse =>
      simp only [EStateM.bind_eq_error_iff, readOnly_eq_ok_iff, readOnly_eq_error_iff,
        setTotalAddSub, encodeStorage_eq_ok] at h
      rcases h with ⟨-, rfl⟩ | ⟨total, _, ⟨-, rfl⟩, h⟩
      · rfl
      rcases h with hset | ⟨_, s₁, ⟨raw, -, rfl⟩, h⟩
      · exact encodeStorage_eq_error hset
      -- the account was read before the totals were written, so `SetEnergy` finds it
      obtain ⟨acc, ha, -⟩ := State.getEnergy_eq_ok.mp heng
      rw [State.setEnergy_of_getAccount _ _ (by rw [State.getAccount_put_ne s _ (by simp)]; exact ha)] at h
      simp at h

/-- What `Add` does when it succeeds: the amount is added, and only the account
and the totals are written. -/
theorem add_spec {s s' : State} {addr : Address} {amount : ℤ} {u : Unit} (hs : s.sm.mapStack ≠ [])
    (h : add blake2b blockTime addr amount s = .ok u s') :
    Moved blockTime s s' addr amount ∧ s.SameExcept (Touched blake2b addr) s' ∧ s'.sm.mapStack ≠ [] := by
  unfold add at h
  split at h
  case isTrue h0 =>
    simp only [EStateM.pure_apply, EStateM.Result.ok.injEq] at h
    obtain ⟨-, rfl⟩ := h
    subst h0
    exact ⟨Moved.refl blockTime s addr, State.SameExcept.refl _ s, hs⟩
  case isFalse h0 =>
    simp only [EStateM.bind_eq_ok_iff, readOnly_eq_ok_iff, setTotalAddSub, encodeStorage_eq_ok] at h
    obtain ⟨eng, _, ⟨heng, rfl⟩, total, _, ⟨-, rfl⟩, _, s₁, ⟨raw, -, rfl⟩, hset⟩ := h
    obtain ⟨acc, ha, rfl⟩ := State.getEnergy_eq_ok.mp heng
    rw [State.setEnergy_of_getAccount _ _ (by rw [State.getAccount_put_ne s _ (by simp)]; exact ha)] at hset
    simp only [EStateM.Result.ok.injEq] at hset
    obtain ⟨-, rfl⟩ := hset
    exact ⟨(moved_write raw amount hs ha).1, (moved_write raw amount hs ha).2,
      State.mapStack_put_ne_nil _ _ (State.mapStack_put_ne_nil _ _ hs)⟩

/-! ### Conservation

Every `Add` and `Sub` moves energy between one account and the totals, so the
energy of all accounts at the block time plus what `TotalBurned` reads is kept
by every call, as long as the totals can be written back. -/

/-- The big integers of at most `2 ^ 62` bytes are those below this bound. -/
def fitBound : ℕ := 256 ^ 2 ^ 62

/-- Totals that `EncodeToBytes` writes and `DecodeBytes` reads back: big
integers of at most `2 ^ 62` bytes, so that each string and the list of both
have a size a `uint64` states. -/
def TotalAddSub.Fits (t : TotalAddSub) : Prop :=
  0 ≤ t.totalAdd ∧ 0 ≤ t.totalSub ∧ t.totalAdd < fitBound ∧ t.totalSub < fitBound

theorem TotalAddSub.Fits.mono {t t' : TotalAddSub} (h : t'.Fits) (h0a : 0 ≤ t.totalAdd) (h0s : 0 ≤ t.totalSub)
    (ha : t.totalAdd ≤ t'.totalAdd) (hs : t.totalSub ≤ t'.totalSub) : t.Fits :=
  ⟨h0a, h0s, lt_of_le_of_lt ha h.2.2.1, lt_of_le_of_lt hs h.2.2.2⟩

/-- A big integer of at most `2 ^ 62` bytes is written in at most `2 ^ 62 + 9`. -/
theorem length_writeBigInt_le {i : ℤ} (h0 : 0 ≤ i) (h : i < fitBound) :
    (Rlp.bigBytes i.toNat).length ≤ 2 ^ 62 ∧ (Rlp.writeBigInt i.toNat).length ≤ 2 ^ 62 + 9 := by
  -- the bound is kept folded wherever `omega` looks: it cannot be evaluated
  have hlen : (Rlp.bigBytes i.toNat).length ≤ 2 ^ 62 := by
    have hn : i.toNat < fitBound := by
      rw [← Int.ofNat_lt, Int.toNat_of_nonneg h0]
      exact h
    unfold fitBound at hn
    exact Rlp.length_bigBytes_le_of_lt (Nat.two_pow_pos 62) hn
  exact ⟨hlen, (Rlp.length_encodeString_le (by omega)).trans (by omega)⟩

/-- Totals that fit are written as an RLP list that reads back as them. -/
theorem decode_encodeTotalAddSub {t : TotalAddSub} (ht : t.Fits) :
    ∃ raw, encodeTotalAddSub t = .ok raw ∧ raw.isEmpty = false ∧ Rlp.decodeBytes readTotalAddSub raw = .ok t := by
  obtain ⟨h0a, h0s, ha, hs⟩ := ht
  obtain ⟨hba, hwa⟩ := length_writeBigInt_le h0a ha
  obtain ⟨hbs, hws⟩ := length_writeBigInt_le h0s hs
  have hea : Rlp.encodeBigInt t.totalAdd = .ok (Rlp.writeBigInt t.totalAdd.toNat) := by
    simp [Rlp.encodeBigInt, Int.not_lt.mpr h0a]
  have hes : Rlp.encodeBigInt t.totalSub = .ok (Rlp.writeBigInt t.totalSub.toNat) := by
    simp [Rlp.encodeBigInt, Int.not_lt.mpr h0s]
  refine ⟨Rlp.encodeList (Rlp.writeBigInt t.totalAdd.toNat ++ Rlp.writeBigInt t.totalSub.toNat), ?_,
    List.isEmpty_eq_false_iff.mpr (Rlp.encodeList_ne_nil _), ?_⟩
  · simp [encodeTotalAddSub, hea, hes, Except.bind, Except.map]
  -- each big integer reads back, so the pair does and the list of it
  apply Rlp.decodeBytes_of_read
  apply Rlp.readList_encodeList (by rw [List.length_append]; omega)
  have hpair := Rlp.readPair_append (Rlp.readBigInt_writeBigInt (n := t.totalAdd.toNat) (by omega))
    (Rlp.readBigInt_writeBigInt (n := t.totalSub.toNat) (by omega))
    (Rlp.writeBigInt_ne_nil _) (Rlp.writeBigInt_ne_nil _) []
  rw [List.append_nil] at hpair
  simp [hpair, Except.map, Int.toNat_of_nonneg h0a, Int.toNat_of_nonneg h0s]

/-- The totals, read back after `Add` or `Sub` wrote them and settled an account. -/
theorem getTotalAddSub_write {s : State} (hs : s.sm.mapStack ≠ []) {t : TotalAddSub} {raw : Bytes}
    (hne : raw.isEmpty = false) (hdec : Rlp.decodeBytes readTotalAddSub raw = .ok t) (addr : Address)
    (acc : Account) :
    getTotalAddSub blake2b ((s.put (.storage energyAddress (s.getStorageBarrier energyAddress)
      (totalAddSubKey blake2b)) (.raw raw)).updateAccount addr acc) = .ok t := by
  have hread := State.getRawStorage_setRawStorage_self energyAddress (totalAddSubKey blake2b) raw hs
  unfold getTotalAddSub State.decodeStorage
  rw [State.updateAccount, State.getRawStorage_put_ne _ _ (by simp) (by simp)]
  rw [show resultState (setRawStorage energyAddress (totalAddSubKey blake2b) raw s) =
    s.put (.storage energyAddress (s.getStorageBarrier energyAddress) (totalAddSubKey blake2b)) (.raw raw) from rfl]
    at hread
  simp [hread, hne, hdec, Except.bind, Except.mapError]

/-- The totals as the contract reads them are never negative. -/
theorem getTotalAddSub_nonneg {s : State} {total : TotalAddSub} (h : getTotalAddSub blake2b s = .ok total) :
    0 ≤ total.totalAdd ∧ 0 ≤ total.totalSub := by
  simp only [getTotalAddSub, State.decodeStorage, Except.bind_eq_ok_iff, Except.mapError_eq_ok_iff] at h
  obtain ⟨raw, -, h⟩ := h
  split at h
  · cases h
    exact ⟨le_rfl, le_rfl⟩
  · obtain ⟨content, hc⟩ := Rlp.readList_eq_ok (Rlp.decodeBytes_eq_ok h)
    simp only [Except.map_eq_ok_iff] at hc
    obtain ⟨⟨⟨a, b⟩, rest⟩, -, hv⟩ := hc
    simp only [Prod.mk.injEq] at hv
    rw [← hv.1]
    exact ⟨Int.natCast_nonneg a, Int.natCast_nonneg b⟩

theorem add_zero_eq (addr : Address) (s : State) : add blake2b blockTime addr 0 s = .ok () s := by
  rw [add, if_pos rfl]
  rfl

theorem sub_zero_eq (addr : Address) (s : State) : sub blake2b blockTime addr 0 s = .ok true s := by
  rw [sub, if_pos rfl]
  rfl

/-- `Add` of a nonzero amount whose reads succeed and whose totals encode: the
totals written, then the account settled with the amount added. -/
theorem add_eq_ok_of {s : State} {addr : Address} {amount : ℤ} {acc : Account} {total : TotalAddSub}
    {raw : Bytes} (h0 : amount ≠ 0) (ha : s.getAccount addr = .ok acc) (ht : getTotalAddSub blake2b s = .ok total)
    (henc : encodeTotalAddSub { total with totalAdd := total.totalAdd + amount } = .ok raw) :
    add blake2b blockTime addr amount s = .ok ()
      ((s.put (.storage energyAddress (s.getStorageBarrier energyAddress) (totalAddSubKey blake2b)) (.raw raw)).updateAccount
        addr { acc with energy := acc.calcEnergy blockTime + amount, blockTime }) := by
  unfold add
  rw [if_neg h0]
  simp only [EStateM.bind_eq_ok_iff, readOnly_eq_ok_iff, setTotalAddSub, encodeStorage_eq_ok]
  refine ⟨_, _, ⟨by rw [State.getEnergy, ha]; rfl, rfl⟩, total, _, ⟨ht, rfl⟩, (), _, ⟨raw, henc, rfl⟩, ?_⟩
  exact State.setEnergy_of_getAccount _ _ (by rw [State.getAccount_put_ne s _ (by simp)]; exact ha)

/-- `Sub` of a nonzero amount from an account that holds too little: false. -/
theorem sub_eq_false_of {s : State} {addr : Address} {amount e : ℤ} (h0 : amount ≠ 0)
    (he : s.getEnergy addr blockTime = .ok e) (hlt : e < amount) :
    sub blake2b blockTime addr amount s = .ok false s := by
  unfold sub
  rw [if_neg h0]
  simp only [EStateM.bind_eq_ok_iff, readOnly_eq_ok_iff]
  exact ⟨e, s, ⟨he, rfl⟩, by rw [if_pos hlt]; rfl⟩

/-- `Sub` of a nonzero amount from an account that holds enough, when the
totals read and encode: the totals written, then the account settled with the
amount taken. -/
theorem sub_eq_true_of {s : State} {addr : Address} {amount : ℤ} {acc : Account} {total : TotalAddSub}
    {raw : Bytes} (h0 : amount ≠ 0) (ha : s.getAccount addr = .ok acc) (hge : ¬ acc.calcEnergy blockTime < amount)
    (ht : getTotalAddSub blake2b s = .ok total)
    (henc : encodeTotalAddSub { total with totalSub := total.totalSub + amount } = .ok raw) :
    sub blake2b blockTime addr amount s = .ok true
      ((s.put (.storage energyAddress (s.getStorageBarrier energyAddress) (totalAddSubKey blake2b)) (.raw raw)).updateAccount
        addr { acc with energy := acc.calcEnergy blockTime - amount, blockTime }) := by
  unfold sub
  rw [if_neg h0]
  simp only [EStateM.bind_eq_ok_iff, readOnly_eq_ok_iff]
  refine ⟨_, _, ⟨by rw [State.getEnergy, ha]; rfl, rfl⟩, ?_⟩
  rw [if_neg hge]
  simp only [EStateM.bind_eq_ok_iff, readOnly_eq_ok_iff, setTotalAddSub, encodeStorage_eq_ok]
  refine ⟨total, _, ⟨ht, rfl⟩, (), _, ⟨raw, henc, rfl⟩, (), _, ?_, rfl⟩
  exact State.setEnergy_of_getAccount _ _ (by rw [State.getAccount_put_ne s _ (by simp)]; exact ha)

/-- An account other than the one `Add` or `Sub` settles keeps its energy. -/
theorem getEnergy_of_touched {s s' : State} {addr a : Address} (h : s.SameExcept (Touched blake2b addr) s')
    (ha : a ≠ addr) : s'.getEnergy a blockTime = s.getEnergy a blockTime := by
  have hk : ¬ Touched blake2b addr (.account a) := by
    rintro (hk | ⟨b, hk⟩)
    · exact ha (StateKey.account.inj hk)
    · cases hk
  rw [State.getEnergy, State.getAccount_of_sameExcept h hk, State.getEnergy]

variable (blake2b blockTime) in
/-- What the contract reads at `blockTime`: the energy of every account and
the totals; the journal has a level to write to. -/
structure Ledger (s : State) (energy : Address → ℤ) (total : TotalAddSub) : Prop where
  get : ∀ addr, s.getEnergy addr blockTime = .ok (energy addr)
  totals : getTotalAddSub blake2b s = .ok total
  journal : s.sm.mapStack ≠ []

/-- The reads after a call that moved `delta` into `addr`, and kept every other account. -/
theorem Ledger.moved {s s' : State} {energy : Address → ℤ} {total total' : TotalAddSub} {addr : Address}
    {delta : ℤ} (hl : Ledger blake2b blockTime s energy total) (hm : Moved blockTime s s' addr delta)
    (hsame : s.SameExcept (Touched blake2b addr) s') (ht : getTotalAddSub blake2b s' = .ok total')
    (hs : s'.sm.mapStack ≠ []) :
    Ledger blake2b blockTime s' (fun a => energy a + if a = addr then delta else 0) total' := by
  refine ⟨fun a => ?_, ht, hs⟩
  by_cases hx : a = addr
  · subst hx
    rw [if_pos rfl]
    exact hm.energy _ (hl.get a)
  · rw [if_neg hx, Int.add_zero, getEnergy_of_touched hsame hx]
    exact hl.get a

/-- `Add` of an amount whose totals fit returns, and moves the amount from the
totals' side into the account. -/
theorem Ledger.add {s : State} {energy : Address → ℤ} {total : TotalAddSub}
    (hl : Ledger blake2b blockTime s energy total) (addr : Address) {amount : ℤ}
    (hfit : ({ total with totalAdd := total.totalAdd + amount } : TotalAddSub).Fits) :
    ∃ s', add blake2b blockTime addr amount s = .ok () s' ∧
      Ledger blake2b blockTime s' (fun a => energy a + if a = addr then amount else 0)
        { total with totalAdd := total.totalAdd + amount } := by
  by_cases h0 : amount = 0
  · subst h0
    refine ⟨s, add_zero_eq addr s, ?_⟩
    simpa using hl
  obtain ⟨acc, ha, -⟩ := State.getEnergy_eq_ok.mp (hl.get addr)
  obtain ⟨raw, henc, hne, hdec⟩ := decode_encodeTotalAddSub hfit
  have hadd : Energy.add blake2b blockTime addr amount s = _ := add_eq_ok_of h0 ha hl.totals henc
  obtain ⟨hm, hsame, hs⟩ := add_spec hl.journal hadd
  exact ⟨_, hadd, hl.moved hm hsame (getTotalAddSub_write hl.journal hne hdec addr _) hs⟩

/-- `Sub` of a non-negative amount whose totals fit returns; it returns false
exactly when the amount is positive and more than the account holds, and
writes nothing then, and otherwise moves the amount out of the account. -/
theorem Ledger.sub {s : State} {energy : Address → ℤ} {total : TotalAddSub}
    (hl : Ledger blake2b blockTime s energy total) (addr : Address) {amount : ℤ} (hpos : 0 ≤ amount)
    (hfit : ({ total with totalSub := total.totalSub + amount } : TotalAddSub).Fits) :
    ∃ r s', sub blake2b blockTime addr amount s = .ok r s' ∧ (r = false ↔ 0 < amount ∧ energy addr < amount) ∧
      (r = false → s' = s) ∧
      (r = true → Ledger blake2b blockTime s' (fun a => energy a + if a = addr then -amount else 0)
        { total with totalSub := total.totalSub + amount }) := by
  by_cases h0 : amount = 0
  · subst h0
    refine ⟨true, s, sub_zero_eq addr s, by simp, by simp, fun _ => ?_⟩
    simpa using hl
  by_cases hlt : energy addr < amount
  · -- too little: false, and nothing written
    exact ⟨false, s, sub_eq_false_of h0 (hl.get addr) hlt, by simp; omega, fun _ => rfl, by simp⟩
  obtain ⟨acc, ha, hacc⟩ := State.getEnergy_eq_ok.mp (hl.get addr)
  obtain ⟨raw, henc, hne, hdec⟩ := decode_encodeTotalAddSub hfit
  have hsub : Energy.sub blake2b blockTime addr amount s = _ := sub_eq_true_of h0 ha (by rw [hacc]; exact hlt) hl.totals henc
  refine ⟨true, _, hsub, by simp; omega, by simp, fun _ => ?_⟩
  rcases sub_spec hl.journal hsub with ⟨-, -, hm, hsame⟩ | ⟨h, -⟩
  · exact hl.moved hm hsame (getTotalAddSub_write hl.journal hne hdec addr _)
      (State.mapStack_put_ne_nil _ _ (State.mapStack_put_ne_nil _ _ hl.journal))
  · cases h

/-- A call on the contract: `Add` or `Sub` of an amount at an account. -/
inductive Call
  | add (addr : Address) (amount : ℤ)
  | sub (addr : Address) (amount : ℤ)

namespace Call

def amount : Call → ℤ
  | .add _ amount => amount
  | .sub _ amount => amount

/-- What the call adds to `TotalAdd` when it goes through. -/
def added : Call → ℤ
  | .add _ amount => amount
  | .sub _ _ => 0

/-- What the call adds to `TotalSub` when it goes through. -/
def taken : Call → ℤ
  | .add _ _ => 0
  | .sub _ amount => amount

end Call

variable (blake2b blockTime) in
/-- Calls on the contract one after another at one block time, each `Sub`'s
answer left to its caller. -/
def runCalls : List Call → Method Unit
  | [] => pure ()
  | .add addr amount :: calls => do
    add blake2b blockTime addr amount
    runCalls calls
  | .sub addr amount :: calls => do
    let _ ← sub blake2b blockTime addr amount
    runCalls calls

theorem sum_add_ite (energy : Address → ℤ) (addr : Address) (delta : ℤ) :
    ∑ a, (energy a + if a = addr then delta else 0) = ∑ a, energy a + delta := by
  rw [Finset.sum_add_distrib, Finset.sum_ite_eq' Finset.univ addr (fun _ => delta), if_pos (Finset.mem_univ addr)]

theorem sum_added_nonneg {calls : List Call} (h : ∀ c ∈ calls, 0 ≤ c.amount) : 0 ≤ (calls.map Call.added).sum := by
  apply List.sum_nonneg
  intro x hx
  obtain ⟨c, hc, rfl⟩ := List.mem_map.mp hx
  cases c with
  | add addr amount => exact h _ hc
  | sub addr amount => exact le_rfl

theorem sum_taken_nonneg {calls : List Call} (h : ∀ c ∈ calls, 0 ≤ c.amount) : 0 ≤ (calls.map Call.taken).sum := by
  apply List.sum_nonneg
  intro x hx
  obtain ⟨c, hc, rfl⟩ := List.mem_map.mp hx
  cases c with
  | add addr amount => exact le_rfl
  | sub addr amount => exact h _ hc

/-- A call that moved `delta` into `addr` and as much out of what was burned
keeps the sum, whatever the rest of the run keeps. -/
theorem sum_step {energy energy' : Address → ℤ} {total total₁ total' : TotalAddSub} {addr : Address}
    {delta : ℤ} (hburn : total₁.totalSub - total₁.totalAdd = total.totalSub - total.totalAdd - delta)
    (hsum : ∑ a, energy' a + (total'.totalSub - total'.totalAdd) =
      ∑ a, (energy a + if a = addr then delta else 0) + (total₁.totalSub - total₁.totalAdd)) :
    ∑ a, energy' a + (total'.totalSub - total'.totalAdd) = ∑ a, energy a + (total.totalSub - total.totalAdd) := by
  rw [hsum, sum_add_ite, hburn]
  omega

/-- A call that left `addr` not below zero leaves no account below zero that was not. -/
theorem nonneg_step {energy : Address → ℤ} {addr a : Address} {delta : ℤ}
    (hd : 0 ≤ energy addr → 0 ≤ energy addr + delta) (ha : 0 ≤ energy a) :
    0 ≤ energy a + if a = addr then delta else 0 := by
  by_cases hx : a = addr
  · subst hx
    rw [if_pos rfl]
    exact hd ha
  · rw [if_neg hx, Int.add_zero]
    exact ha

/-- A run of calls of non-negative amounts whose totals fit at the end
returns. It keeps the energy of all accounts plus what was burned, and an
account that was not below zero is not below zero after it. -/
theorem Ledger.run : ∀ (calls : List Call) {s : State} {energy : Address → ℤ} {total : TotalAddSub},
    Ledger blake2b blockTime s energy total → (∀ c ∈ calls, 0 ≤ c.amount) →
    ({ totalAdd := total.totalAdd + (calls.map Call.added).sum,
       totalSub := total.totalSub + (calls.map Call.taken).sum } : TotalAddSub).Fits →
    ∃ s' energy' total', runCalls blake2b blockTime calls s = .ok () s' ∧
      Ledger blake2b blockTime s' energy' total' ∧
      ∑ a, energy' a + (total'.totalSub - total'.totalAdd) = ∑ a, energy a + (total.totalSub - total.totalAdd) ∧
      ∀ a, 0 ≤ energy a → 0 ≤ energy' a
  | [], s, energy, total, hl, _, _ => ⟨s, energy, total, rfl, hl, rfl, fun _ h => h⟩
  | c :: calls, s, energy, total, hl, hamt, hfit => by
    have hpos : 0 ≤ c.amount := hamt c List.mem_cons_self
    have hrest : ∀ c ∈ calls, 0 ≤ c.amount := fun c hc => hamt c (List.mem_cons_of_mem _ hc)
    have htot := getTotalAddSub_nonneg hl.totals
    have hsa := sum_added_nonneg hrest
    have hst := sum_taken_nonneg hrest
    simp only [List.map_cons, List.sum_cons] at hfit
    cases c with
    | add addr amount =>
      simp only [Call.amount] at hpos
      simp only [Call.added, Call.taken, Int.zero_add] at hfit
      obtain ⟨s₁, hadd, hl₁⟩ := hl.add addr
        (TotalAddSub.Fits.mono (t := { total with totalAdd := total.totalAdd + amount }) hfit (by simp; omega)
          htot.2 (by simp; omega) (by simp; omega))
      -- the rest of the run starts from totals whose worst case is the same
      obtain ⟨s', energy', total', hrun, hl', hsum, hnn⟩ := Ledger.run calls hl₁ hrest (by
        simp only [Int.add_assoc]
        exact hfit)
      refine ⟨s', energy', total', ?_, hl', sum_step (by simp; omega) hsum,
        fun a ha => hnn a (nonneg_step (fun _ => by omega) ha)⟩
      simp only [runCalls, EStateM.bind_eq_ok_iff]
      exact ⟨(), s₁, hadd, hrun⟩
    | sub addr amount =>
      simp only [Call.amount] at hpos
      simp only [Call.added, Call.taken, Int.zero_add] at hfit
      obtain ⟨r, s₁, hsub, hiff, hfalse, htrue⟩ :=
        hl.sub addr hpos (TotalAddSub.Fits.mono (t := { total with totalSub := total.totalSub + amount }) hfit
          htot.1 (by simp; omega) (by simp; omega) (by simp; omega))
      cases r with
      | false =>
        -- nothing taken: the rest of the run starts where this one did
        obtain rfl := hfalse rfl
        obtain ⟨s', energy', total', hrun, hl', hsum, hnn⟩ := Ledger.run calls hl hrest
          (TotalAddSub.Fits.mono hfit (by simp; omega) (by simp; omega) (by simp) (by simp; omega))
        refine ⟨s', energy', total', ?_, hl', hsum, hnn⟩
        simp only [runCalls, EStateM.bind_eq_ok_iff]
        exact ⟨false, s₁, hsub, hrun⟩
      | true =>
        have henough : ¬ (0 < amount ∧ energy addr < amount) := fun h => Bool.true_eq_false.mp (hiff.mpr h)
        obtain ⟨s', energy', total', hrun, hl', hsum, hnn⟩ := Ledger.run calls (htrue rfl) hrest (by
          simp only [Int.add_assoc]
          exact hfit)
        refine ⟨s', energy', total', ?_, hl', sum_step (by simp; omega) hsum,
          fun a ha => hnn a (nonneg_step (fun _ => by omega) ha)⟩
        simp only [runCalls, EStateM.bind_eq_ok_iff]
        exact ⟨true, s₁, hsub, hrun⟩

end Energy

end Workshare
