import Workshare.Vm.Analysis
import Workshare.Vm.Memory

/-!
# The EVM's state, contracts, stack and memory

`vm.EVM` runs contracts over a `StateDB`, an interface the runtime implements;
here it is a record of functions over an arbitrary state `σ`, and so are the
block context's hooks. What an execution writes (the state, the call depth,
`callGasTemp`, the interpreter's `returnData` and `readOnly`, the count of
contracts created, and the package's bitmap cache) is `Evm σ`, threaded through
every step; what stays fixed for an EVM is `Env σ`.

Words are `uint256.Int`, here `BitVec 256`. The stack is a list with its top
first, where Go keeps the top at the end of a slice: `Back(n)` is index `n`.
A Go panic is `none`: an index out of the stack, the memory or the jump
bitmap, which the interpreter's checks are there to rule out.
-/
namespace Workshare

namespace Vm

/-- `uint256.Int`. -/
abbrev Word := BitVec 256

namespace Word

/-- `Uint64WithOverflow`: the low `64` bits, and whether the word is wider. -/
def uint64WithOverflow (w : Word) : UInt64 × Bool := (UInt64.ofNat w.toNat, decide (2 ^ 64 ≤ w.toNat))

/-- `Uint64`: the low `64` bits. -/
def uint64 (w : Word) : UInt64 := UInt64.ofNat w.toNat

/-- `IsUint64`. -/
def isUint64 (w : Word) : Bool := decide (w.toNat < 2 ^ 64)

/-- `NewInt` and `SetUint64`. -/
def ofUint64 (n : UInt64) : Word := BitVec.ofNat 256 n.toNat

/-- `SetBytes`: the bytes as a big-endian number, of the last `32` if there are more. -/
def ofBytes (b : Bytes) : Word := BitVec.ofNat 256 (b.foldl (fun n x => n * 256 + x.toNat) 0)

/-- `Bytes32`: the word's `32` bytes, big-endian. -/
def toBytes32 (w : Word) : Bytes32 := Vector.ofFn fun i => UInt8.ofNat (w.toNat / 256 ^ (31 - i.val))

/-- `Bytes20`: the word's low `20` bytes, big-endian. -/
def toAddress (w : Word) : Address := Vector.ofFn fun i => UInt8.ofNat (w.toNat / 256 ^ (19 - i.val))

/-- `FromBig`: a big integer modulo `2 ^ 256`, in two's complement if negative. -/
def ofBig (b : ℤ) : Word := BitVec.ofInt 256 b

/-- `ToBig`. -/
def toBig (w : Word) : ℤ := w.toNat

/-- `BitLen`. -/
def bitLen (w : Word) : ℕ := if w = 0 then 0 else w.toNat.log2 + 1

/-- `Sign`, of the word read in two's complement. -/
def sign (w : Word) : ℤ := if w = 0 then 0 else if w.msb then -1 else 1

end Word

/-- The errors of the interpreter and of the EVM's calls, with the values their
messages print. -/
inductive EvmError
  | outOfGas
  | codeStoreOutOfGas
  | depth
  | insufficientBalance
  | contractAddressCollision
  | executionReverted
  | gasUintOverflow
  | writeProtection
  | returnDataOutOfBounds
  | maxCodeSizeExceeded
  /-- `stack underflow (%d <=> %d)`. -/
  | stackUnderflow (len pop : ℕ)
  /-- `stack limit reached %d (%d)`. -/
  | stackLimitReached (len limit : ℕ)
  /-- `invalid opcode 0x%x`. -/
  | invalidOpcode (op : UInt8)
  /-- `invalid jump destination (%v) %v`. -/
  | invalidJump (op : UInt8) (pos : Word)
  /-- An error of a precompiled contract or of an intercepted call. -/
  | other (msg : String)
  deriving DecidableEq, Repr

/-- `errGasUintOverflow` of `memoryGasCost`, among the EVM's errors. -/
def VmError.toEvmError : VmError → EvmError
  | .gasUintOverflow => .gasUintOverflow

/-- `types.Log`, as `makeLog` fills it. -/
structure Log where
  address : Address
  topics : List Bytes32
  data : Bytes
  blockNumber : UInt64

/-- `Contract`: the code run with its input and gas, on behalf of a caller. -/
structure Contract where
  callerAddress : Address
  /-- `self.Address()`. -/
  address : Address
  analysis : Option Bitvec
  code : Bytes
  codeHash : Bytes32
  codeAddr : Option Address
  input : Bytes
  gas : UInt64
  value : ℤ
  delegateCall : Bool

/-- The methods of the `StateDB` interface the package calls, over a state `σ`. -/
structure StateDB (σ : Type) where
  createAccount : Address → σ → σ
  getBalance : σ → Address → ℤ
  getNonce : σ → Address → UInt64
  setNonce : Address → UInt64 → σ → σ
  getCodeHash : σ → Address → Bytes32
  getCode : σ → Address → Bytes
  setCode : Address → Bytes → σ → σ
  getCodeSize : σ → Address → ℕ
  addRefund : UInt64 → σ → σ
  getState : σ → Address → Bytes32 → Bytes32
  setState : Address → Bytes32 → Bytes32 → σ → σ
  suicide : Address → σ → σ
  hasSuicided : σ → Address → Bool
  exist : σ → Address → Bool
  empty : σ → Address → Bool
  revertToSnapshot : ℕ → σ → σ
  snapshot : σ → ℕ × σ
  addLog : Log → σ → σ
  addPreimage : Bytes32 → Bytes → σ → σ

/-- `InterceptContractCall`: when it handles a call, its result, the gas it
leaves the contract, and the state after it. -/
abbrev InterceptFunc (σ : Type) := σ → Contract → Bool → Option (Bytes × Option EvmError × UInt64 × σ)

/-- `Context`: the block and the transaction, and the runtime's hooks. -/
structure Context (σ : Type) where
  canTransfer : σ → Address → ℤ → Bool
  transfer : Address → Address → ℤ → σ → σ
  getHash : UInt64 → Bytes32
  newContractAddress : σ → UInt32 → Address
  interceptContractCall : Option (InterceptFunc σ)
  onCreateContract : Option (Address → Address → σ → σ)
  onSuicideContract : Option (Address → Address → σ → σ)
  origin : Address
  gasPrice : ℤ
  coinbase : Address
  gasLimit : UInt64
  blockNumber : ℤ
  time : ℤ
  difficulty : ℤ

/-- `ChainConfig` at the EVM's block: the forks in force, and the chain id. -/
structure ChainConfig where
  chainID : ℤ
  isHomestead : Bool
  isEIP150 : Bool
  isEIP158 : Bool
  isByzantium : Bool
  isConstantinople : Bool
  isIstanbul : Bool

/-- The fields of `Config` the package reads besides its tracer. -/
structure Config where
  noRecursion : Bool
  enablePreimageRecording : Bool

/-- `PrecompiledContract`. -/
structure PrecompiledContract where
  requiredGas : Bytes → UInt64
  run : Bytes → Except EvmError Bytes

/-- What stays fixed for an EVM. -/
structure Env (σ : Type) where
  context : Context σ
  stateDB : StateDB σ
  chainConfig : ChainConfig
  vmConfig : Config
  keccak256 : Bytes → Bytes32
  precompiledContractsHomestead : Address → Option PrecompiledContract
  precompiledContractsByzantium : Address → Option PrecompiledContract
  precompiledContractsIstanbul : Address → Option PrecompiledContract

/-- `bitmapCache`, keyed by code hash. Its eviction is not modelled. -/
abbrev BitmapCache := Bytes32 → Option Bitvec

/-- What an execution writes besides the frame it runs in. -/
structure Evm (σ : Type) where
  state : σ
  depth : ℕ
  callGasTemp : UInt64
  returnData : Bytes
  readOnly : Bool
  contractCreationCount : UInt32
  bitmapCache : BitmapCache

/-- The variables of the interpreter's `Run`, and the EVM. -/
structure Frame (σ : Type) where
  pc : UInt64
  stack : List Word
  memory : Memory
  contract : Contract
  evm : Evm σ

/-! ## The stack -/

namespace Stack

/-- `Back(n)`: a panic past the bottom. -/
def back (s : List Word) (n : ℕ) : Option Word := s[n]?

/-- `swap(n)`: the top and the `n`-th item from the top trade places. -/
def swap (s : List Word) (n : ℕ) : Option (List Word) :=
  match s[0]?, s[n - 1]? with
  | some a, some b => some ((s.set (n - 1) a).set 0 b)
  | _, _ => none

/-- `dup(n)`: push the `n`-th item from the top. -/
def dup (s : List Word) (n : ℕ) : Option (List Word) :=
  s[n - 1]?.map (· :: s)

end Stack

/-! ## The memory -/

/-- `bytes` written over `store` from `offset`. -/
def writeBytes (store : Bytes) (offset : ℕ) (bytes : Bytes) : Bytes :=
  store.take offset ++ bytes ++ store.drop (offset + bytes.length)

namespace Memory

/-- `Set`: `value` copied over `size` bytes from `offset`. The store's length
is checked against `offset + size` in `uint64`; where the sum wraps, the slice
panics instead. -/
def set (m : Memory) (offset size : UInt64) (value : Bytes) : Option Memory :=
  if size > 0 then
    if m.len < offset.toNat + size.toNat then none
    else some { m with store := writeBytes m.store offset.toNat (value.take size.toNat) }
  else some m

/-- `Set32`: the word's `32` bytes from `offset`. -/
def set32 (m : Memory) (offset : UInt64) (val : Word) : Option Memory :=
  if m.len < offset.toNat + 32 then none
  else some { m with store := writeBytes m.store offset.toNat val.toBytes32.toList }

/-- `GetCopy`, at an offset and a size its callers cast from `uint64` to
`int64`: nothing for no bytes or from past the store, else the bytes; the
slice panics where it leaves the store or the offset reads as negative. -/
def getCopy (m : Memory) (offset size : UInt64) : Option Bytes :=
  if size = 0 then some []
  else if offset.toNat < 2 ^ 63 ∧ m.len ≤ offset.toNat then some []
  else if offset.toNat + size.toNat ≤ m.len then some ((m.store.drop offset.toNat).take size.toNat)
  else none

/-- `GetPtr`: the bytes of `GetCopy`, aliased rather than copied. -/
def getPtr (m : Memory) (offset size : UInt64) : Option Bytes := m.getCopy offset size

end Memory

/-- `common.RightPadBytes`: zeros after the slice up to `l` bytes. -/
def rightPadBytes (slice : Bytes) (l : ℤ) : Bytes :=
  if l ≤ slice.length then slice else slice ++ List.replicate (l.toNat - slice.length) 0

/-- `getData`: `size` bytes of `data` from `start`, padded with zeros. The end
`start + size` is `uint64`; where it wraps below `start` the slice panics. -/
def getData (data : Bytes) (start size : UInt64) : Option Bytes :=
  let start := min start.toNat data.length
  if 2 ^ 64 ≤ start + size.toNat then none
  else
    let stop := min (start + size.toNat) data.length
    some (rightPadBytes ((data.take stop).drop start) size.toInt64.toInt)

/-! ## Contracts -/

/-- `JUMPDEST`. -/
def JUMPDEST : UInt8 := 0x5b

namespace Contract

/-- `NewContract`, with no code yet. -/
def new (caller object : Address) (value : ℤ) (gas : UInt64) : Contract :=
  ⟨caller, object, none, [], Vector.replicate 32 0, none, [], gas, value, false⟩

/-- `AsDelegate`: the caller and the value of the calling contract. -/
def asDelegate (c parent : Contract) : Contract :=
  { c with delegateCall := true, callerAddress := parent.callerAddress, value := parent.value }

/-- `SetCallCode`. -/
def setCallCode (c : Contract) (addr : Address) (hash : Bytes32) (code : Bytes) : Contract :=
  { c with code := code, codeHash := hash, codeAddr := some addr }

/-- `UseGas`: whether the gas was there, and the contract with it spent. -/
def useGas (c : Contract) (gas : UInt64) : Bool × Contract :=
  if c.gas < gas then (false, c) else (true, { c with gas := c.gas - gas })

/-- `GetByte`: zero past the code. -/
def getByte (c : Contract) (n : UInt64) : UInt8 := (c.code[n.toNat]?).getD 0

/-- `GetOp`. -/
def getOp (c : Contract) (n : UInt64) : UInt8 := c.getByte n

end Contract

/-- `getCodeBitmapCached`: the cached bitmap of a code hash, or the code's
bitmap, then cached. -/
def getCodeBitmapCached (cache : BitmapCache) (codehash : Bytes32) (code : Bytes) :
    Option (Bitvec × BitmapCache) :=
  match cache codehash with
  | some bitmap => some (bitmap, cache)
  | none => (codeBitmap code).map fun bitmap => (bitmap, Function.update cache codehash (some bitmap))

namespace Contract

/-- `isCode`: the contract's analysis, else the cached bitmap of its code hash,
else the bitmap of its code; what is found is kept as the analysis. -/
def isCode (c : Contract) (cache : BitmapCache) (udest : UInt64) : Option (Bool × Contract × BitmapCache) :=
  match c.analysis with
  | some analysis => (codeSegment analysis udest.toNat).map fun b => (b, c, cache)
  | none =>
    if c.codeHash ≠ Vector.replicate 32 0 then
      (getCodeBitmapCached cache c.codeHash c.code).bind fun (analysis, cache) =>
        (codeSegment analysis udest.toNat).map fun b => (b, { c with analysis := some analysis }, cache)
    else
      (codeBitmap c.code).bind fun analysis =>
        (codeSegment analysis udest.toNat).map fun b => (b, { c with analysis := some analysis }, cache)

/-- `validJumpdest`: inside the code, at a `JUMPDEST`, and not push data. -/
def validJumpdest (c : Contract) (cache : BitmapCache) (dest : Word) : Option (Bool × Contract × BitmapCache) :=
  let (udest, overflow) := dest.uint64WithOverflow
  if overflow ∨ c.code.length ≤ udest.toNat then some (false, c, cache)
  else if c.getOp udest ≠ JUMPDEST then some (false, c, cache)
  else c.isCode cache udest

end Contract

end Vm

end Workshare
