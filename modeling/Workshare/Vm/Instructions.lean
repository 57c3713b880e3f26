import Workshare.Vm.Evm

/-!
# The instructions

`instructions.go`: an instruction reads and writes the frame (the program
counter, the stack, the memory and the contract) and the EVM, and returns the
bytes it produces or an error. Those that call or create run a new frame
through the EVM's `Call`, `CallCode`, `DelegateCall`, `StaticCall`, `Create`
and `Create2`, given to them as `Calls`.

Most instructions fall into a few families with one body each: the binary and
ternary operations on words, those that replace the top of the stack, those
that push a value, and the copies into memory; a member is its family applied
to what it computes. Word arithmetic is `uint256`'s: modulo `2 ^ 256`, with
zero for a division or a remainder by zero.
-/
namespace Workshare

namespace Vm

/-- The EVM's calls, each running a new frame: their output, the gas left, the
error, and the EVM after them. -/
structure Calls (σ : Type) where
  call : Evm σ → Contract → Address → Bytes → UInt64 → ℤ → Option (Bytes × UInt64 × Option EvmError × Evm σ)
  callCode : Evm σ → Contract → Address → Bytes → UInt64 → ℤ → Option (Bytes × UInt64 × Option EvmError × Evm σ)
  delegateCall : Evm σ → Contract → Address → Bytes → UInt64 → Option (Bytes × UInt64 × Option EvmError × Evm σ)
  staticCall : Evm σ → Contract → Address → Bytes → UInt64 → Option (Bytes × UInt64 × Option EvmError × Evm σ)
  create : Evm σ → Contract → Bytes → UInt64 → ℤ → Option (Bytes × Address × UInt64 × Option EvmError × Evm σ)
  create2 : Evm σ → Contract → Bytes → UInt64 → ℤ → Word →
    Option (Bytes × Address × UInt64 × Option EvmError × Evm σ)

/-- `executionFunc`. -/
abbrev ExecutionFunc (σ : Type) := Env σ → Calls σ → Frame σ → Option (Except EvmError Bytes × Frame σ)

/-- `params.CallStipend`. -/
def CallStipend : UInt64 := 2300

/-- `big.Int.Uint64`: the low `64` bits of the magnitude. -/
def bigUint64 (b : ℤ) : UInt64 := UInt64.ofNat b.natAbs

/-- The word of a boolean: `SetOne` or `Clear`. -/
def Word.ofBool (b : Bool) : Word := if b then 1 else 0

variable {σ : Type}

/-! ## Families -/

/-- Pop `x`, and replace the new top `y` with `f x y`. -/
def binaryOp (f : Word → Word → Word) : ExecutionFunc σ := fun _ _ fr =>
  match fr.stack with
  | x :: y :: rest => some (.ok [], { fr with stack := f x y :: rest })
  | _ => none

/-- Pop `x` and `y`, and replace the new top `z` with `f x y z`. -/
def ternaryOp (f : Word → Word → Word → Word) : ExecutionFunc σ := fun _ _ fr =>
  match fr.stack with
  | x :: y :: z :: rest => some (.ok [], { fr with stack := f x y z :: rest })
  | _ => none

/-- Replace the top `x` with `f x`, read in the EVM and the frame. -/
def peekOp (f : Env σ → Frame σ → Word → Word) : ExecutionFunc σ := fun env _ fr =>
  match fr.stack with
  | x :: rest => some (.ok [], { fr with stack := f env fr x :: rest })
  | [] => none

/-- Push a value read in the EVM and the frame. -/
def pushOp (f : Env σ → Frame σ → Word) : ExecutionFunc σ := fun env _ fr =>
  some (.ok [], { fr with stack := f env fr :: fr.stack })

/-- Pop a memory offset, a data offset and a length, and copy that many bytes
of `source` from the data offset (the largest `uint64` if it is wider) into
the memory. -/
def copyOp (source : Env σ → Frame σ → Bytes) : ExecutionFunc σ := fun env _ fr =>
  match fr.stack with
  | memOffset :: dataOffset :: length :: rest =>
    let (dataOffset64, overflow) := dataOffset.uint64WithOverflow
    let dataOffset64 := if overflow then 0xffffffffffffffff else dataOffset64
    (getData (source env fr) dataOffset64 length.uint64).bind fun data =>
      (fr.memory.set memOffset.uint64 length.uint64 data).map fun memory =>
        (.ok [], { fr with stack := rest, memory := memory })
  | _ => none

/-! ## Arithmetic, comparison and bitwise operations -/

/-- `Div`. -/
def Word.div (x y : Word) : Word := if y = 0 then 0 else x / y

/-- `Mod`. -/
def Word.mod (x y : Word) : Word := if y = 0 then 0 else x % y

/-- `SMod`: the remainder with the sign of `x`. -/
def Word.smod (x y : Word) : Word := if y = 0 then 0 else x.srem y

/-- `Exp`. -/
def Word.exp (base exponent : Word) : Word := base ^ exponent.toNat

/-- `ExtendSign`: `x` read as a signed number of `byteNum + 1` bytes. -/
def Word.extendSign (x byteNum : Word) : Word :=
  if 31 < byteNum.toNat then x else (x.setWidth (8 * byteNum.toNat + 8)).signExtend 256

/-- `Byte`: byte `n` of the big-endian word, zero past `31`. -/
def Word.byte (z n : Word) : Word :=
  if n.toNat < 32 then (z >>> (8 * (31 - n.toNat))) &&& 0xff else 0

/-- `AddMod`, over the `257` bits of the sum. -/
def Word.addMod (x y m : Word) : Word :=
  if m = 0 then 0 else BitVec.ofNat 256 ((x.toNat + y.toNat) % m.toNat)

/-- `MulMod`, over the `512` bits of the product. -/
def Word.mulMod (x y m : Word) : Word :=
  if m = 0 then 0 else BitVec.ofNat 256 ((x.toNat * y.toNat) % m.toNat)

def opAdd : ExecutionFunc σ := binaryOp fun x y => x + y
def opSub : ExecutionFunc σ := binaryOp fun x y => x - y
def opMul : ExecutionFunc σ := binaryOp fun x y => x * y
def opDiv : ExecutionFunc σ := binaryOp Word.div
def opSdiv : ExecutionFunc σ := binaryOp BitVec.sdiv
def opMod : ExecutionFunc σ := binaryOp Word.mod
def opSmod : ExecutionFunc σ := binaryOp Word.smod
def opExp : ExecutionFunc σ := binaryOp Word.exp
def opSignExtend : ExecutionFunc σ := binaryOp fun back num => num.extendSign back
def opNot : ExecutionFunc σ := peekOp fun _ _ x => ~~~x
def opLt : ExecutionFunc σ := binaryOp fun x y => Word.ofBool (x.ult y)
def opGt : ExecutionFunc σ := binaryOp fun x y => Word.ofBool (y.ult x)
def opSlt : ExecutionFunc σ := binaryOp fun x y => Word.ofBool (x.slt y)
def opSgt : ExecutionFunc σ := binaryOp fun x y => Word.ofBool (y.slt x)
def opEq : ExecutionFunc σ := binaryOp fun x y => Word.ofBool (x == y)
def opIszero : ExecutionFunc σ := peekOp fun _ _ x => Word.ofBool (x == 0)
def opAnd : ExecutionFunc σ := binaryOp fun x y => x &&& y
def opOr : ExecutionFunc σ := binaryOp fun x y => x ||| y
def opXor : ExecutionFunc σ := binaryOp fun x y => x ^^^ y
def opByte : ExecutionFunc σ := binaryOp fun th val => val.byte th
def opAddmod : ExecutionFunc σ := ternaryOp Word.addMod
def opMulmod : ExecutionFunc σ := ternaryOp Word.mulMod

/-- `opSHL`: zero from a shift of `256` on. -/
def opSHL : ExecutionFunc σ := binaryOp fun shift value =>
  if shift.toNat < 256 then value <<< shift.toNat else 0

/-- `opSHR`. -/
def opSHR : ExecutionFunc σ := binaryOp fun shift value =>
  if shift.toNat < 256 then value >>> shift.toNat else 0

/-- `opSAR`: past `256`, the sign in every bit. -/
def opSAR : ExecutionFunc σ := binaryOp fun shift value =>
  if 256 < shift.toNat then (if 0 ≤ value.sign then 0 else BitVec.allOnes 256)
  else value.sshiftRight shift.toNat

/-! ## Hashing, the environment and the block -/

/-- `opSha3`: the hash of the memory from `offset`, with its preimage
recorded if the EVM is so configured. -/
def opSha3 : ExecutionFunc σ := fun env _ fr =>
  match fr.stack with
  | offset :: size :: rest =>
    (fr.memory.getPtr offset.uint64 size.uint64).map fun data =>
      let hash := env.keccak256 data
      let state := if env.vmConfig.enablePreimageRecording then env.stateDB.addPreimage hash data fr.evm.state
        else fr.evm.state
      (.ok [], { fr with stack := Word.ofBytes hash.toList :: rest, evm := { fr.evm with state := state } })
  | _ => none

def opAddress : ExecutionFunc σ := pushOp fun _ fr => Word.ofBytes fr.contract.address.toList
def opBalance : ExecutionFunc σ := peekOp fun env fr slot =>
  Word.ofBig (env.stateDB.getBalance fr.evm.state slot.toAddress)
def opOrigin : ExecutionFunc σ := pushOp fun env _ => Word.ofBytes env.context.origin.toList
def opCaller : ExecutionFunc σ := pushOp fun _ fr => Word.ofBytes fr.contract.callerAddress.toList
def opCallValue : ExecutionFunc σ := pushOp fun _ fr => Word.ofBig fr.contract.value

/-- `opCallDataLoad`: `32` bytes of the input from the offset, zero past it. -/
def opCallDataLoad : ExecutionFunc σ := fun _ _ fr =>
  match fr.stack with
  | x :: rest =>
    let (offset, overflow) := x.uint64WithOverflow
    if overflow then some (.ok [], { fr with stack := 0 :: rest })
    else (getData fr.contract.input offset 32).map fun data => (.ok [], { fr with stack := Word.ofBytes data :: rest })
  | [] => none

def opCallDataSize : ExecutionFunc σ := pushOp fun _ fr => Word.ofUint64 (UInt64.ofNat fr.contract.input.length)
def opCallDataCopy : ExecutionFunc σ := copyOp fun _ fr => fr.contract.input
def opReturnDataSize : ExecutionFunc σ := pushOp fun _ fr => Word.ofUint64 (UInt64.ofNat fr.evm.returnData.length)

/-- `opReturnDataCopy`: an error for bytes past the return data. The end is a
`uint256` sum; where it wraps below the offset the slice panics. -/
def opReturnDataCopy : ExecutionFunc σ := fun _ _ fr =>
  match fr.stack with
  | memOffset :: dataOffset :: length :: rest =>
    let (offset64, overflow) := dataOffset.uint64WithOverflow
    if overflow then some (.error .returnDataOutOfBounds, { fr with stack := rest })
    else
      let (end64, overflow) := (dataOffset + length).uint64WithOverflow
      if overflow ∨ fr.evm.returnData.length < end64.toNat then
        some (.error .returnDataOutOfBounds, { fr with stack := rest })
      else if end64 < offset64 then none
      else
        (fr.memory.set memOffset.uint64 length.uint64
            ((fr.evm.returnData.take end64.toNat).drop offset64.toNat)).map fun memory =>
          (.ok [], { fr with stack := rest, memory := memory })
  | _ => none

def opExtCodeSize : ExecutionFunc σ := peekOp fun env fr slot =>
  Word.ofUint64 (UInt64.ofNat (env.stateDB.getCodeSize fr.evm.state slot.toAddress))
def opCodeSize : ExecutionFunc σ := pushOp fun _ fr => Word.ofUint64 (UInt64.ofNat fr.contract.code.length)
def opCodeCopy : ExecutionFunc σ := copyOp fun _ fr => fr.contract.code

/-- `opExtCodeCopy`: `copyOp` over the code of an address popped first. -/
def opExtCodeCopy : ExecutionFunc σ := fun env calls fr =>
  match fr.stack with
  | a :: rest =>
    copyOp (fun env fr => env.stateDB.getCode fr.evm.state a.toAddress) env calls { fr with stack := rest }
  | [] => none

/-- `opExtCodeHash`: zero for an empty account, the hash of no code for an
account without one. -/
def opExtCodeHash : ExecutionFunc σ := peekOp fun env fr slot =>
  if env.stateDB.empty fr.evm.state slot.toAddress then 0
  else
    let codeHash := env.stateDB.getCodeHash fr.evm.state slot.toAddress
    if codeHash = Vector.replicate 32 0 then Word.ofBytes (env.keccak256 []).toList
    else Word.ofBytes codeHash.toList

def opGasprice : ExecutionFunc σ := pushOp fun env _ => Word.ofBig env.context.gasPrice

/-- `opBlockhash`: the hash of one of the `256` blocks before this one, zero
for any other number. -/
def opBlockhash : ExecutionFunc σ := peekOp fun env _ num =>
  let (num64, overflow) := num.uint64WithOverflow
  if overflow then 0
  else
    let upper := bigUint64 env.context.blockNumber
    let lower : UInt64 := if upper < 257 then 0 else upper - 256
    if lower ≤ num64 ∧ num64 < upper then Word.ofBytes (env.context.getHash num64).toList else 0

def opCoinbase : ExecutionFunc σ := pushOp fun env _ => Word.ofBytes env.context.coinbase.toList
def opTimestamp : ExecutionFunc σ := pushOp fun env _ => Word.ofBig env.context.time
def opNumber : ExecutionFunc σ := pushOp fun env _ => Word.ofBig env.context.blockNumber
def opDifficulty : ExecutionFunc σ := pushOp fun env _ => Word.ofBig env.context.difficulty
def opGasLimit : ExecutionFunc σ := pushOp fun env _ => Word.ofUint64 env.context.gasLimit
def opChainID : ExecutionFunc σ := pushOp fun env _ => Word.ofBig env.chainConfig.chainID
def opSelfBalance : ExecutionFunc σ := pushOp fun env fr =>
  Word.ofBig (env.stateDB.getBalance fr.evm.state fr.contract.address)

/-! ## Stack, memory and storage -/

/-- `opPop`. -/
def opPop : ExecutionFunc σ := fun _ _ fr =>
  match fr.stack with
  | _ :: rest => some (.ok [], { fr with stack := rest })
  | [] => none

/-- `opMload`: the `32` bytes from the offset. -/
def opMload : ExecutionFunc σ := fun _ _ fr =>
  match fr.stack with
  | v :: rest => (fr.memory.getPtr v.uint64 32).map fun data => (.ok [], { fr with stack := Word.ofBytes data :: rest })
  | [] => none

/-- `opMstore`. -/
def opMstore : ExecutionFunc σ := fun _ _ fr =>
  match fr.stack with
  | mStart :: val :: rest =>
    (fr.memory.set32 mStart.uint64 val).map fun memory => (.ok [], { fr with stack := rest, memory := memory })
  | _ => none

/-- `opMstore8`: the low byte of the value, at an index of the store. -/
def opMstore8 : ExecutionFunc σ := fun _ _ fr =>
  match fr.stack with
  | off :: val :: rest =>
    if fr.memory.len ≤ off.uint64.toNat then none
    else
      let store := fr.memory.store.set off.uint64.toNat (UInt8.ofNat val.toNat)
      some (.ok [], { fr with stack := rest, memory := { fr.memory with store := store } })
  | _ => none

def opSload : ExecutionFunc σ := peekOp fun env fr loc =>
  Word.ofBytes (env.stateDB.getState fr.evm.state fr.contract.address loc.toBytes32).toList

/-- `opSstore`. -/
def opSstore : ExecutionFunc σ := fun env _ fr =>
  match fr.stack with
  | loc :: val :: rest =>
    some (.ok [], { fr with stack := rest, evm := { fr.evm with
      state := env.stateDB.setState fr.contract.address loc.toBytes32 val.toBytes32 fr.evm.state } })
  | _ => none

/-! ## Control flow -/

/-- `opJump`: to a valid jump destination, else an error naming the opcode
found there. -/
def opJump : ExecutionFunc σ := fun _ _ fr =>
  match fr.stack with
  | pos :: rest =>
    (fr.contract.validJumpdest fr.evm.bitmapCache pos).map fun (valid, contract, cache) =>
      let fr := { fr with stack := rest, contract := contract, evm := { fr.evm with bitmapCache := cache } }
      if valid then (.ok [], { fr with pc := pos.uint64 })
      else (.error (.invalidJump (contract.getOp pos.uint64) pos), fr)
  | [] => none

/-- `opJumpi`: `opJump` on a non-zero condition, else on to the next opcode. -/
def opJumpi : ExecutionFunc σ := fun _ _ fr =>
  match fr.stack with
  | pos :: cond :: rest =>
    if cond ≠ 0 then
      (fr.contract.validJumpdest fr.evm.bitmapCache pos).map fun (valid, contract, cache) =>
        let fr := { fr with stack := rest, contract := contract, evm := { fr.evm with bitmapCache := cache } }
        if valid then (.ok [], { fr with pc := pos.uint64 })
        else (.error (.invalidJump (contract.getOp pos.uint64) pos), fr)
    else some (.ok [], { fr with stack := rest, pc := fr.pc + 1 })
  | _ => none

/-- `opJumpdest`. -/
def opJumpdest : ExecutionFunc σ := fun _ _ fr => some (.ok [], fr)

def opPc : ExecutionFunc σ := pushOp fun _ fr => Word.ofUint64 fr.pc
def opMsize : ExecutionFunc σ := pushOp fun _ fr => Word.ofUint64 (UInt64.ofNat fr.memory.len)
def opGas : ExecutionFunc σ := pushOp fun _ fr => Word.ofUint64 fr.contract.gas

/-- `opReturn`: the memory from `offset`. -/
def opReturn : ExecutionFunc σ := fun _ _ fr =>
  match fr.stack with
  | offset :: size :: rest =>
    (fr.memory.getPtr offset.uint64 size.uint64).map fun ret => (.ok ret, { fr with stack := rest })
  | _ => none

/-- `opRevert`: the same as `opReturn`; the loop reverts on it. -/
def opRevert : ExecutionFunc σ := opReturn

/-- `opStop`. -/
def opStop : ExecutionFunc σ := fun _ _ fr => some (.ok [], fr)

/-- `opSuicide`: the runtime's hook, then the account marked. -/
def opSuicide : ExecutionFunc σ := fun env _ fr =>
  match fr.stack with
  | receiver :: rest =>
    let state := match env.context.onSuicideContract with
      | some hook => hook fr.contract.address receiver.toAddress fr.evm.state
      | none => fr.evm.state
    some (.ok [], { fr with stack := rest, evm := { fr.evm with
      state := env.stateDB.suicide fr.contract.address state } })
  | [] => none

/-- `makeLog`: a log of the memory from `mStart` under `size` topics. -/
def makeLog (size : ℕ) : ExecutionFunc σ := fun env _ fr =>
  match fr.stack with
  | mStart :: mSize :: rest =>
    if rest.length < size then none
    else
      (fr.memory.getCopy mStart.uint64 mSize.uint64).map fun d =>
        let log : Log := ⟨fr.contract.address, (rest.take size).map Word.toBytes32, d,
          bigUint64 env.context.blockNumber⟩
        (.ok [], { fr with stack := rest.drop size, evm := { fr.evm with
          state := env.stateDB.addLog log fr.evm.state } })
  | _ => none

/-- `opPush1`, `makePush 1 1` written out. -/
def opPush1 : ExecutionFunc σ := fun _ _ fr =>
  let pc := fr.pc + 1
  let integer : Word := if pc.toNat < fr.contract.code.length then Word.ofUint64 (fr.contract.getByte pc).toUInt64 else 0
  some (.ok [], { fr with pc := pc, stack := integer :: fr.stack })

/-- `makePush`: the `pushByteSize` bytes after the opcode, zero past the code. -/
def makePush (size : UInt64) (pushByteSize : ℕ) : ExecutionFunc σ := fun _ _ fr =>
  let codeLen := fr.contract.code.length
  let startMin := min codeLen (fr.pc + 1).toNat
  let endMin := min codeLen (startMin + pushByteSize)
  let integer := Word.ofBytes (rightPadBytes ((fr.contract.code.take endMin).drop startMin) pushByteSize)
  some (.ok [], { fr with stack := integer :: fr.stack, pc := fr.pc + size })

/-- `makeDup`. -/
def makeDup (size : ℕ) : ExecutionFunc σ := fun _ _ fr =>
  (Stack.dup fr.stack size).map fun stack => (.ok [], { fr with stack := stack })

/-- `makeSwap`: item `size + 1` and the top trade places. -/
def makeSwap (size : ℕ) : ExecutionFunc σ := fun _ _ fr =>
  (Stack.swap fr.stack (size + 1)).map fun stack => (.ok [], { fr with stack := stack })

/-! ## Calls and creations -/

/-- The tail of the call instructions: push whether the call succeeded, copy
its output into the memory unless it failed other than by reverting, and take
back the gas it left. -/
def callReturn (fr : Frame σ) (rest : List Word) (retOffset retSize : UInt64)
    (r : Bytes × UInt64 × Option EvmError × Evm σ) : Option (Except EvmError Bytes × Frame σ) :=
  let (ret, returnGas, err, evm) := r
  let stack := (if err.isSome then 0 else 1) :: rest
  let memory := if err = none ∨ err = some .executionReverted then fr.memory.set retOffset retSize ret
    else some fr.memory
  memory.map fun memory =>
    let contract := { fr.contract with gas := fr.contract.gas + returnGas }
    (.ok ret, { fr with stack := stack, memory := memory, evm := evm, contract := contract })

/-- `opCall`: the gas that `gasCall` set aside, and the stipend with a value. -/
def opCall : ExecutionFunc σ := fun _ calls fr =>
  match fr.stack with
  | _ :: addr :: value :: inOffset :: inSize :: retOffset :: retSize :: rest =>
    let gas := fr.evm.callGasTemp
    (fr.memory.getCopy inOffset.uint64 inSize.uint64).bind fun args =>
      let gas := if value ≠ 0 then gas + CallStipend else gas
      (calls.call fr.evm fr.contract addr.toAddress args gas value.toBig).bind
        (callReturn fr rest retOffset.uint64 retSize.uint64)
  | _ => none

/-- `opCallCode`. -/
def opCallCode : ExecutionFunc σ := fun _ calls fr =>
  match fr.stack with
  | _ :: addr :: value :: inOffset :: inSize :: retOffset :: retSize :: rest =>
    let gas := fr.evm.callGasTemp
    (fr.memory.getCopy inOffset.uint64 inSize.uint64).bind fun args =>
      let gas := if value ≠ 0 then gas + CallStipend else gas
      (calls.callCode fr.evm fr.contract addr.toAddress args gas value.toBig).bind
        (callReturn fr rest retOffset.uint64 retSize.uint64)
  | _ => none

/-- `opDelegateCall`: no value. -/
def opDelegateCall : ExecutionFunc σ := fun _ calls fr =>
  match fr.stack with
  | _ :: addr :: inOffset :: inSize :: retOffset :: retSize :: rest =>
    (fr.memory.getCopy inOffset.uint64 inSize.uint64).bind fun args =>
      (calls.delegateCall fr.evm fr.contract addr.toAddress args fr.evm.callGasTemp).bind
        (callReturn fr rest retOffset.uint64 retSize.uint64)
  | _ => none

/-- `opStaticCall`. -/
def opStaticCall : ExecutionFunc σ := fun _ calls fr =>
  match fr.stack with
  | _ :: addr :: inOffset :: inSize :: retOffset :: retSize :: rest =>
    (fr.memory.getCopy inOffset.uint64 inSize.uint64).bind fun args =>
      (calls.staticCall fr.evm fr.contract addr.toAddress args fr.evm.callGasTemp).bind
        (callReturn fr rest retOffset.uint64 retSize.uint64)
  | _ => none

/-- `opCreate`: all the gas but a 64th after EIP-150. A creation that runs out
of gas storing its code counts as one before Homestead. -/
def opCreate : ExecutionFunc σ := fun env calls fr =>
  match fr.stack with
  | value :: offset :: size :: rest =>
    (fr.memory.getCopy offset.uint64 size.uint64).bind fun input =>
      let gas := fr.contract.gas
      let gas := if env.chainConfig.isEIP150 then gas - gas / 64 else gas
      let contract := (fr.contract.useGas gas).2
      (calls.create fr.evm contract input gas value.toBig).map fun (res, addr, returnGas, suberr, evm) =>
        let pushed : Word :=
          if env.chainConfig.isHomestead ∧ suberr = some .codeStoreOutOfGas then 0
          else if suberr.isSome ∧ suberr ≠ some .codeStoreOutOfGas then 0
          else Word.ofBytes addr.toList
        let contract := { contract with gas := contract.gas + returnGas }
        (.ok (if suberr = some .executionReverted then res else []),
          { fr with stack := pushed :: rest, evm := evm, contract := contract })
  | _ => none

/-- `opCreate2`: all the gas but a 64th, and the salt. -/
def opCreate2 : ExecutionFunc σ := fun _ calls fr =>
  match fr.stack with
  | endowment :: offset :: size :: salt :: rest =>
    (fr.memory.getCopy offset.uint64 size.uint64).bind fun input =>
      let gas := fr.contract.gas
      let gas := gas - gas / 64
      let contract := (fr.contract.useGas gas).2
      (calls.create2 fr.evm contract input gas endowment.toBig salt).map fun (res, addr, returnGas, suberr, evm) =>
        let pushed : Word := if suberr.isSome then 0 else Word.ofBytes addr.toList
        let contract := { contract with gas := contract.gas + returnGas }
        (.ok (if suberr = some .executionReverted then res else []),
          { fr with stack := pushed :: rest, evm := evm, contract := contract })
  | _ => none

end Vm

end Workshare
