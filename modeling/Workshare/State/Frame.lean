import Workshare.State.State
import Workshare.Outcome

/-!
# What a write leaves unread

A write puts one key of the journal, so every read of another key sees what
it saw before. `SameExcept keys s s'` says that of a whole computation: `s'`
reads as `s` at every key outside `keys`. Reads that only look at the state
are `readOnly` methods, which return the state they were given.

A put over a journal with no level is lost in the model, where the source
panics; the lemmas that read a put back ask for a level.
-/
namespace Workshare

/-- A method that only reads the state. -/
def readOnly {α : Type} (r : State → Except StateError α) : Method α := fun s =>
  match r s with
  | .ok v => .ok v s
  | .error e => .error e s

@[simp] theorem readOnly_eq_ok_iff {α : Type} {r : State → Except StateError α} {s s' : State}
    {v : α} : readOnly r s = .ok v s' ↔ r s = .ok v ∧ s = s' := by
  unfold readOnly
  cases r s <;> simp

@[simp] theorem readOnly_eq_error_iff {α : Type} {r : State → Except StateError α} {s s' : State}
    {e : StateError} : readOnly r s = .error e s' ↔ r s = .error e ∧ s = s' := by
  unfold readOnly
  cases r s <;> simp

namespace State

/-- `s'` reads as `s` at every key outside `keys`. -/
def SameExcept (keys : StateKey → Prop) (s s' : State) : Prop :=
  ∀ k, ¬ keys k → s'.sm.get k = s.sm.get k

theorem SameExcept.refl (keys : StateKey → Prop) (s : State) : SameExcept keys s s :=
  fun _ _ => rfl

theorem SameExcept.trans {keys : StateKey → Prop} {s₁ s₂ s₃ : State} (h₁ : SameExcept keys s₁ s₂)
    (h₂ : SameExcept keys s₂ s₃) : SameExcept keys s₁ s₃ :=
  fun k hk => (h₂ k hk).trans (h₁ k hk)

theorem SameExcept.mono {keys keys' : StateKey → Prop} {s s' : State} (h : SameExcept keys s s')
    (hk : ∀ k, keys k → keys' k) : SameExcept keys' s s' :=
  fun k hk' => h k fun h' => hk' (hk k h')

theorem getAccount_of_sameExcept {keys : StateKey → Prop} {s s' : State} (h : SameExcept keys s s')
    {addr : Address} (ha : ¬ keys (.account addr)) : s'.getAccount addr = s.getAccount addr := by
  simp only [getAccount, h _ ha]

theorem getRawStorage_of_sameExcept {keys : StateKey → Prop} {s s' : State} (h : SameExcept keys s s')
    {addr : Address} {key : Bytes32} (hb : ¬ keys (.storageBarrier addr)) (hk : ∀ b, ¬ keys (.storage addr b key)) :
    s'.getRawStorage addr key = s.getRawStorage addr key := by
  simp only [getRawStorage, getStorageBarrier, h _ hb, h _ (hk _)]

theorem sameExcept_put (s : State) (k : StateKey) (v : StateValue) :
    SameExcept (· = k) s (s.put k v) :=
  fun _ hk => StackedMap.get_put_ne s.sm v hk

@[simp] theorem mapStack_put_ne_nil {s : State} (k : StateKey) (v : StateValue) (h : s.sm.mapStack ≠ []) :
    (s.put k v).sm.mapStack ≠ [] :=
  StackedMap.mapStack_put_ne_nil s.sm k v h

theorem get_put_self {s : State} (k : StateKey) (v : StateValue) (h : s.sm.mapStack ≠ []) :
    (s.put k v).sm.get k = .ok (v, true) :=
  StackedMap.get_put_self s.sm k v h

theorem getAccount_put_ne (s : State) {k : StateKey} (v : StateValue) {addr : Address}
    (hk : StateKey.account addr ≠ k) : (s.put k v).getAccount addr = s.getAccount addr := by
  simp only [getAccount, put, StackedMap.get_put_ne s.sm v hk]

theorem getAccount_updateAccount_self {s : State} (addr : Address) (acc : Account)
    (h : s.sm.mapStack ≠ []) : (s.updateAccount addr acc).getAccount addr = .ok acc := by
  simp [getAccount, updateAccount, get_put_self _ _ h, Except.map, StateValue.toAccount]

theorem getStorageBarrier_put_ne (s : State) {k : StateKey} (v : StateValue) {addr : Address}
    (hk : StateKey.storageBarrier addr ≠ k) : (s.put k v).getStorageBarrier addr = s.getStorageBarrier addr := by
  simp only [getStorageBarrier, put, StackedMap.get_put_ne s.sm v hk]

/-- A put of a key other than the slot and the barrier of `addr` leaves the slot as it reads. -/
theorem getRawStorage_put_ne (s : State) {k : StateKey} (v : StateValue) {addr : Address} {key : Bytes32}
    (hb : StateKey.storageBarrier addr ≠ k) (hk : ∀ b, StateKey.storage addr b key ≠ k) :
    (s.put k v).getRawStorage addr key = s.getRawStorage addr key := by
  unfold getRawStorage
  rw [getStorageBarrier_put_ne s v hb]
  simp only [put, StackedMap.get_put_ne s.sm v (hk _)]

theorem getRawStorage_setRawStorage_self {s : State} (addr : Address) (key : Bytes32) (raw : Bytes)
    (h : s.sm.mapStack ≠ []) :
    (resultState (setRawStorage addr key raw s)).getRawStorage addr key = .ok raw := by
  have hb : (s.put (.storage addr (s.getStorageBarrier addr) key) (.raw raw)).getStorageBarrier addr =
      s.getStorageBarrier addr := getStorageBarrier_put_ne s _ (by simp)
  simp [resultState, setRawStorage, getRawStorage, hb, get_put_self _ _ h, Except.map, StateValue.toBytes]

theorem setEnergy_of_getAccount {s : State} {addr : Address} {acc : Account} (energy : ℤ) (blockTime : ℕ)
    (h : s.getAccount addr = .ok acc) :
    setEnergy addr energy blockTime s = .ok () (s.updateAccount addr { acc with energy, blockTime }) := by
  simp [setEnergy, withAccountCopy, h]

theorem getEnergy_eq_ok {s : State} {addr : Address} {blockTime : ℕ} {e : ℤ} :
    s.getEnergy addr blockTime = .ok e ↔ ∃ acc, s.getAccount addr = .ok acc ∧ acc.calcEnergy blockTime = e :=
  Except.map_eq_ok_iff

/-- An account settled at `blockTime` has the energy it was given there. -/
theorem calcEnergy_settled (acc : Account) (energy : ℤ) (blockTime : ℕ) :
    ({ acc with energy, blockTime } : Account).calcEnergy blockTime = energy := by
  simp [Account.calcEnergy]

end State

end Workshare
