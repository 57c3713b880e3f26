import Workshare.Vm.Instructions

/-!
# Gas and memory sizes

`gas_table.go`, `gas.go` and `memory_table.go`: what an instruction costs, and
how much memory it needs, read off the stack before it runs. A gas function
may also write: the memory's paid fee through `memoryGasCost`, the gas set
aside for a call in `callGasTemp`, and refunds in the state. Sums and products
of `uint64` are checked for overflow as `math.SafeAdd` and `math.SafeMul` do,
except where the source adds small constants unchecked.

The gas functions and the memory sizes come in families: a memory fee plus a
constant, plus a fee per word of a length on the stack; and the memory a
region of the stack's offset and length needs, or the larger of two regions.
-/
namespace Workshare

namespace Vm

/-- `params.GasTable`. -/
structure GasTable where
  extcodeSize : UInt64
  extcodeCopy : UInt64
  extcodeHash : UInt64
  balance : UInt64
  sLoad : UInt64
  calls : UInt64
  suicide : UInt64
  expByte : UInt64
  createBySuicide : UInt64

def GasTableHomestead : GasTable := ⟨20, 20, 0, 20, 50, 40, 0, 10, 0⟩
def GasTableEIP150 : GasTable := ⟨700, 700, 0, 400, 200, 700, 5000, 10, 25000⟩
def GasTableEIP158 : GasTable := ⟨700, 700, 0, 400, 200, 700, 5000, 50, 25000⟩
def GasTableConstantinople : GasTable := ⟨700, 700, 400, 400, 200, 700, 5000, 50, 25000⟩

/-- `ChainConfig.GasTable` at the EVM's block. -/
def ChainConfig.gasTable (c : ChainConfig) : GasTable :=
  if c.isConstantinople then GasTableConstantinople
  else if c.isEIP158 then GasTableEIP158
  else if c.isEIP150 then GasTableEIP150
  else GasTableHomestead

def GasQuickStep : UInt64 := 2
def GasFastestStep : UInt64 := 3
def GasFastStep : UInt64 := 5
def GasMidStep : UInt64 := 8
def GasSlowStep : UInt64 := 10
def GasExtStep : UInt64 := 20

def CallValueTransferGas : UInt64 := 9000
def CallNewAccountGas : UInt64 := 25000
def SstoreSetGas : UInt64 := 20000
def SstoreResetGas : UInt64 := 5000
def SstoreClearGas : UInt64 := 5000
def SstoreRefundGas : UInt64 := 15000
def LogDataGas : UInt64 := 8
def LogGas : UInt64 := 375
def LogTopicGas : UInt64 := 375
def Sha3Gas : UInt64 := 30
def Sha3WordGas : UInt64 := 6
def CopyGas : UInt64 := 3
def JumpdestGas : UInt64 := 1
def CreateGas : UInt64 := 32000
def Create2Gas : UInt64 := 32000
def SuicideRefundGas : UInt64 := 24000

/-- `math.SafeAdd`: the sum, and whether it wrapped. -/
def safeAdd (x y : UInt64) : UInt64 × Bool := (x + y, decide (2 ^ 64 ≤ x.toNat + y.toNat))

/-- `math.SafeMul`: the product, and whether it wrapped. -/
def safeMul (x y : UInt64) : UInt64 × Bool := (x * y, decide (2 ^ 64 ≤ x.toNat * y.toNat))

/-- `gasFunc`: the cost, the frame after it, or an error; `none` for a panic. -/
abbrev GasFunc (σ : Type) := GasTable → Env σ → Frame σ → UInt64 → Option (Except EvmError (UInt64 × Frame σ))

/-- `memorySizeFunc`: the size and whether it overflowed; `none` for a panic. -/
abbrev MemorySizeFunc := List Word → Option (UInt64 × Bool)

variable {σ : Type}

/-- `memoryGasCost` on the frame's memory. -/
def memoryGas (fr : Frame σ) (memorySize : UInt64) : Except EvmError (UInt64 × Frame σ) :=
  match memoryGasCost fr.memory memorySize with
  | .ok (fee, memory) => .ok (fee, { fr with memory := memory })
  | .error e => .error e.toEvmError

/-- `gas + more`, or `errGasUintOverflow`. -/
def addGas (gas more : UInt64) : Except EvmError UInt64 :=
  let (sum, overflow) := safeAdd gas more
  if overflow then .error .gasUintOverflow else .ok sum

/-- A fee per word of a length: the words, rounded up, times `perWord`. -/
def wordGas (length : Word) (perWord : UInt64) : Except EvmError UInt64 :=
  let (words, overflow) := length.uint64WithOverflow
  if overflow then .error .gasUintOverflow
  else
    let (gas, overflow) := safeMul (toWordSize words) perWord
    if overflow then .error .gasUintOverflow else .ok gas

/-! ## Families -/

/-- `constGasFunc`. -/
def constGasFunc (gas : UInt64) : GasFunc σ := fun _ _ fr _ => some (.ok (gas, fr))

/-- A constant of the chain's gas table. -/
def tableGas (f : GasTable → UInt64) : GasFunc σ := fun gt _ fr _ => some (.ok (f gt, fr))

/-- The memory fee plus a constant. -/
def memoryPlusGas (gas : UInt64) : GasFunc σ := fun _ _ fr memorySize =>
  some do
    let (fee, fr) ← memoryGas fr memorySize
    let gas ← addGas fee gas
    return (gas, fr)

/-- The memory fee, a base, and a fee per word of the length at `Back(pos)`. -/
def memoryCopierGas (base : GasTable → UInt64) (pos : ℕ) (perWord : UInt64) : GasFunc σ :=
  fun gt _ fr memorySize =>
    (Stack.back fr.stack pos).map fun length => do
      let (fee, fr) ← memoryGas fr memorySize
      let gas ← addGas fee (base gt)
      let words ← wordGas length perWord
      let gas ← addGas gas words
      return (gas, fr)

/-! ## The gas functions -/

def gasCallDataCopy : GasFunc σ := memoryCopierGas (fun _ => GasFastestStep) 2 CopyGas
def gasReturnDataCopy : GasFunc σ := memoryCopierGas (fun _ => GasFastestStep) 2 CopyGas
def gasCodeCopy : GasFunc σ := memoryCopierGas (fun _ => GasFastestStep) 2 CopyGas
def gasExtCodeCopy : GasFunc σ := memoryCopierGas GasTable.extcodeCopy 3 CopyGas
def gasSha3 : GasFunc σ := memoryCopierGas (fun _ => Sha3Gas) 1 Sha3WordGas
def gasCreate2 : GasFunc σ := memoryCopierGas (fun _ => Create2Gas) 2 Sha3WordGas
def gasMLoad : GasFunc σ := memoryPlusGas GasFastestStep
def gasMStore8 : GasFunc σ := memoryPlusGas GasFastestStep
def gasMStore : GasFunc σ := memoryPlusGas GasFastestStep
def gasCreate : GasFunc σ := memoryPlusGas CreateGas
def gasExtCodeHash : GasFunc σ := tableGas GasTable.extcodeHash
def gasBalance : GasFunc σ := tableGas GasTable.balance
def gasExtCodeSize : GasFunc σ := tableGas GasTable.extcodeSize
def gasSLoad : GasFunc σ := tableGas GasTable.sLoad
def gasPush : GasFunc σ := constGasFunc GasFastestStep
def gasSwap : GasFunc σ := constGasFunc GasFastestStep
def gasDup : GasFunc σ := constGasFunc GasFastestStep

/-- `gasReturn`: the memory fee alone. -/
def gasReturn : GasFunc σ := fun _ _ fr memorySize => some (memoryGas fr memorySize)

/-- `gasRevert`. -/
def gasRevert : GasFunc σ := gasReturn

/-- `gasSStore`: setting a zero slot, clearing a set one with a refund, or
resetting it. -/
def gasSStore : GasFunc σ := fun _ env fr _ =>
  match fr.stack with
  | x :: y :: _ =>
    let val := env.stateDB.getState fr.evm.state fr.contract.address x.toBytes32
    let zero : Bytes32 := Vector.replicate 32 0
    if val = zero ∧ y.sign ≠ 0 then some (.ok (SstoreSetGas, fr))
    else if val ≠ zero ∧ y.sign = 0 then
      some (.ok (SstoreClearGas, { fr with evm := { fr.evm with
        state := env.stateDB.addRefund SstoreRefundGas fr.evm.state } }))
    else some (.ok (SstoreResetGas, fr))
  | _ => none

/-- `makeGasLog`: per topic and per byte of data. -/
def makeGasLog (n : UInt64) : GasFunc σ := fun _ _ fr memorySize =>
  (Stack.back fr.stack 1).map fun size => do
    let (requestedSize, overflow) := size.uint64WithOverflow
    if overflow then throw .gasUintOverflow
    let (fee, fr) ← memoryGas fr memorySize
    let gas ← addGas fee LogGas
    let gas ← addGas gas (n * LogTopicGas)
    let (memorySizeGas, overflow) := safeMul requestedSize LogDataGas
    if overflow then throw .gasUintOverflow
    let gas ← addGas gas memorySizeGas
    return (gas, fr)

/-- `gasExp`: per byte of the exponent. -/
def gasExp : GasFunc σ := fun gt _ fr _ =>
  (Stack.back fr.stack 1).map fun exponent =>
    let expByteLen := UInt64.ofNat ((exponent.bitLen + 7) / 8)
    (addGas (expByteLen * gt.expByte) GasSlowStep).map fun gas => (gas, fr)

/-- `callGas`: after EIP-150 all the gas left but a 64th, if the call asks for
more; else what it asks, which must fit `uint64`. -/
def callGas (gasTable : GasTable) (availableGas base : UInt64) (callCost : Word) : Except EvmError UInt64 :=
  let capped :=
    if 0 < gasTable.createBySuicide then
      let availableGas := availableGas - base
      let gas := availableGas - availableGas / 64
      if !callCost.isUint64 ∨ gas < callCost.uint64 then some gas else none
    else none
  match capped with
  | some gas => .ok gas
  | none => if !callCost.isUint64 then .error .gasUintOverflow else .ok callCost.uint64

/-- The tail of the call gas functions: the memory fee, then the gas set aside
for the call in `callGasTemp` and added to the cost. -/
def callGasCost (gt : GasTable) (fr : Frame σ) (gas : UInt64) (callCost : Word) :
    Except EvmError (UInt64 × Frame σ) := do
  let temp ← callGas gt fr.contract.gas gas callCost
  let fr := { fr with evm := { fr.evm with callGasTemp := temp } }
  let gas ← addGas gas temp
  return (gas, fr)

/-- `gasCall`: more for a new account, and for a value. -/
def gasCall : GasFunc σ := fun gt env fr memorySize =>
  match fr.stack with
  | callCost :: addr :: value :: _ =>
    let transfersValue := value.sign ≠ 0
    let address := addr.toAddress
    let gas := gt.calls
    let gas :=
      if env.chainConfig.isEIP158 then
        if transfersValue ∧ env.stateDB.empty fr.evm.state address then gas + CallNewAccountGas else gas
      else if !env.stateDB.exist fr.evm.state address then gas + CallNewAccountGas
      else gas
    let gas := if transfersValue then gas + CallValueTransferGas else gas
    some do
      let (memoryFee, fr) ← memoryGas fr memorySize
      let gas ← addGas gas memoryFee
      callGasCost gt fr gas callCost
  | _ => none

/-- `gasCallCode`: more for a value. -/
def gasCallCode : GasFunc σ := fun gt _ fr memorySize =>
  match fr.stack with
  | callCost :: _ :: value :: _ =>
    let gas := if value.sign ≠ 0 then gt.calls + CallValueTransferGas else gt.calls
    some do
      let (memoryFee, fr) ← memoryGas fr memorySize
      let gas ← addGas gas memoryFee
      callGasCost gt fr gas callCost
  | _ => none

/-- `gasDelegateCall`. -/
def gasDelegateCall : GasFunc σ := fun gt _ fr memorySize =>
  (Stack.back fr.stack 0).map fun callCost => do
    let (memoryFee, fr) ← memoryGas fr memorySize
    let gas ← addGas memoryFee gt.calls
    callGasCost gt fr gas callCost

/-- `gasStaticCall`: the same as `gasDelegateCall`. -/
def gasStaticCall : GasFunc σ := gasDelegateCall

/-- `gasSuicide`: after EIP-150, more for a new account; a refund the first time. -/
def gasSuicide : GasFunc σ := fun gt env fr _ =>
  let gas : Option UInt64 :=
    if env.chainConfig.isEIP150 then
      (Stack.back fr.stack 0).map fun receiver =>
        let address := receiver.toAddress
        if env.chainConfig.isEIP158 then
          if env.stateDB.empty fr.evm.state address ∧
              (env.stateDB.getBalance fr.evm.state fr.contract.address).sign ≠ 0 then
            gt.suicide + gt.createBySuicide
          else gt.suicide
        else if !env.stateDB.exist fr.evm.state address then gt.suicide + gt.createBySuicide
        else gt.suicide
    else some 0
  gas.map fun gas =>
    let state := if !env.stateDB.hasSuicided fr.evm.state fr.contract.address then
        env.stateDB.addRefund SuicideRefundGas fr.evm.state
      else fr.evm.state
    .ok (gas, { fr with evm := { fr.evm with state := state } })

/-! ## Memory sizes -/

/-- `calcMemSize64WithUint`: no memory for no bytes, else the end of the
region, overflowing past `uint64`. -/
def calcMemSize64WithUint (off : Word) (length64 : UInt64) : UInt64 × Bool :=
  if length64 = 0 then (0, false)
  else
    let (offset64, overflow) := off.uint64WithOverflow
    if overflow then (0, true)
    else (offset64 + length64, decide (offset64 + length64 < offset64))

/-- `calcMemSize64`: a length past `uint64` overflows. -/
def calcMemSize64 (off l : Word) : UInt64 × Bool :=
  if !l.isUint64 then (0, true) else calcMemSize64WithUint off l.uint64

/-- The region of the offset at `Back(a)` and the length at `Back(b)`. -/
def memoryRegion (a b : ℕ) : MemorySizeFunc := fun stack => do
  let off ← Stack.back stack a
  let l ← Stack.back stack b
  return calcMemSize64 off l

/-- The region of `length` bytes from the offset at `Back(a)`. -/
def memoryFixed (a : ℕ) (length : UInt64) : MemorySizeFunc := fun stack =>
  (Stack.back stack a).map fun off => calcMemSize64WithUint off length

/-- The larger of the regions at `Back(a)`, `Back(b)` and at `Back(c)`, `Back(d)`. -/
def memoryMax (a b c d : ℕ) : MemorySizeFunc := fun stack => do
  let (x, overflow) ← memoryRegion a b stack
  if overflow then return (0, true)
  let (y, overflow) ← memoryRegion c d stack
  if overflow then return (0, true)
  return if x > y then (x, false) else (y, false)

def memorySha3 : MemorySizeFunc := memoryRegion 0 1
def memoryCallDataCopy : MemorySizeFunc := memoryRegion 0 2
def memoryReturnDataCopy : MemorySizeFunc := memoryRegion 0 2
def memoryCodeCopy : MemorySizeFunc := memoryRegion 0 2
def memoryExtCodeCopy : MemorySizeFunc := memoryRegion 1 3
def memoryMLoad : MemorySizeFunc := memoryFixed 0 32
def memoryMStore8 : MemorySizeFunc := memoryFixed 0 1
def memoryMStore : MemorySizeFunc := memoryFixed 0 32
def memoryCreate : MemorySizeFunc := memoryRegion 1 2
def memoryCreate2 : MemorySizeFunc := memoryRegion 1 2
def memoryCall : MemorySizeFunc := memoryMax 5 6 3 4
def memoryDelegateCall : MemorySizeFunc := memoryMax 4 5 2 3
def memoryStaticCall : MemorySizeFunc := memoryMax 4 5 2 3
def memoryReturn : MemorySizeFunc := memoryRegion 0 1
def memoryRevert : MemorySizeFunc := memoryRegion 0 1
def memoryLog : MemorySizeFunc := memoryRegion 0 1

end Vm

end Workshare
