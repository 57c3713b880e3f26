import Workshare.Runtime.StateDB

/-!
# Energy settlement in the runtime's callbacks

The EVM calls back into the runtime to move VET: `Transfer` for a value
transfer, `OnSuicideContract` when a contract self-destructs. Energy grows
lazily with the balance since the account's `BlockTime` (`calcEnergy`), so a
balance write on an account whose energy is not settled at the current block
time re-prices its whole unsettled period with the new balance. `Transfer`
settles both parties first. `OnSuicideContract` settles the receiver only
while moving the contract's energy, and that is skipped when the contract has
none.
-/
namespace Workshare

/-- `builtin.Energy.Address`: the contract's name, right-aligned. -/
def energyAddress : Address := bytesToAddress "Energy".toUTF8.toList

/-- The id of the `Transfer(address,address,uint256)` event of `Energy`. -/
def energyTransferEventID (keccak256 : Bytes → Bytes) : Bytes32 :=
  bytesToBytes32 (keccak256 "Transfer(address,address,uint256)".toUTF8.toList)

/-- The ABI encoding of a `uint256`: 32 big-endian bytes of the value modulo `2^256`. -/
def encodeUint256 (x : ℤ) : Bytes :=
  (List.range 32).reverse.map fun i => ((x % 2 ^ 256).toNat / 256 ^ i % 256).toUInt8

namespace Runtime

/-- The `Transfer` callback at block time `time`: settle the energy of sender
and recipient, then move the amount and record the transfer. -/
def transfer (time : ℕ) (sender recipient : Address) (amount : ℤ) (db : StateDB) :
    Except Panic (Unit × StateDB) :=
  if amount = 0 then .ok ((), db)
  else
    (StateDB.readState (db.state.getEnergy sender time)).bind fun senderEnergy =>
    (StateDB.readState (db.state.getEnergy recipient time)).bind fun recipientEnergy =>
    (StateDB.liftState (setEnergy sender senderEnergy time) db).bind fun (_, db) =>
    (StateDB.liftState (setEnergy recipient recipientEnergy time) db).bind fun (_, db) =>
    (StateDB.subBalance sender amount db).bind fun (_, db) =>
    (StateDB.addBalance recipient amount db).map fun (_, db) =>
      ((), db.addTransfer ⟨sender, recipient, amount⟩)

/-- The energy half of `OnSuicideContract`: a non-zero energy of the contract
is added to the receiver's, settled at `time`, and logged as an `Energy` transfer. -/
def moveEnergy (keccak256 : Bytes → Bytes) (time : ℕ) (contractAddr tokenReceiver : Address)
    (amount : ℤ) (db : StateDB) : Except Panic (Unit × StateDB) :=
  if amount ≠ 0 then
    (StateDB.readState (db.state.getEnergy tokenReceiver time)).bind fun receiverEnergy =>
    (StateDB.liftState (setEnergy tokenReceiver (receiverEnergy + amount) time) db).map
      fun (_, db) => ((), db.addLog ⟨energyAddress,
        [energyTransferEventID keccak256, bytesToBytes32 contractAddr.toList,
          bytesToBytes32 tokenReceiver.toList], encodeUint256 amount⟩)
  else .ok ((), db)

/-- The `OnSuicideContract` callback at block time `time`: the contract's energy,
then its balance, go to the receiver. -/
def onSuicideContract (keccak256 : Bytes → Bytes) (time : ℕ) (contractAddr tokenReceiver : Address)
    (db : StateDB) : Except Panic (Unit × StateDB) :=
  (StateDB.readState (db.state.getEnergy contractAddr time)).bind fun amount =>
  (moveEnergy keccak256 time contractAddr tokenReceiver amount db).bind fun (_, db) =>
  (db.getBalance contractAddr).bind fun amount =>
  if amount ≠ 0 then
    (StateDB.addBalance tokenReceiver amount db).map fun (_, db) =>
      ((), db.addTransfer ⟨contractAddr, tokenReceiver, amount⟩)
  else .ok ((), db)

/-- A contract funded and self-destructed in one block has no energy, so the
receiver's energy is not settled before the contract's balance is added to it:
the receiver, which held no VET since time 1, has 99 seconds of growth on the
VET it receives at time 100. -/
theorem onSuicideContract_unsettled_receiver :
    let contract : Address := Vector.replicate 20 1
    let receiver : Address := Vector.replicate 20 2
    let db := StateDB.new (State.new (.ofAccounts (Function.update
      (Function.update (fun _ => emptyAccount) contract ⟨10 ^ 18, 0, 100, [], [], []⟩)
      receiver ⟨0, 0, 1, [], [], []⟩)))
    db.state.getEnergy contract 100 = .ok 0 ∧ db.state.getEnergy receiver 100 = .ok 0 ∧
      ∃ db', onSuicideContract (fun _ => []) 100 contract receiver db = .ok ((), db') ∧
        db'.state.getBalance receiver = .ok (10 ^ 18) ∧
        db'.state.getEnergy receiver 100 = .ok 495000000000 :=
  ⟨rfl, rfl, _, rfl, rfl, rfl⟩

end Runtime

end Workshare
