import Workshare.Vm.GasTable

/-!
# The jump tables

`jump_table.go` and `stack_table.go`: the operation at each opcode, with its
execution, its gas, the items it takes from the stack and leaves there
(`makeStackFunc(pop, push)`), the memory it needs, and whether it halts,
jumps, writes, reverts or sets the return data. The Frontier set lists the
opcodes; each later fork's set is the one before it with a few opcodes added.
A table is a list of opcodes and their operations, read at the first entry of
an opcode; the `PUSH`, `DUP`, `SWAP` and `LOG` runs are built from their
families.
-/
namespace Workshare

namespace Vm

/-- `params.StackLimit`. -/
def StackLimit : ℕ := 1024

/-- `makeStackFunc`: enough items for the operation, and room for what it leaves. -/
def makeStackFunc (pop push : ℕ) (stack : List Word) : Except EvmError Unit :=
  if stack.length < pop then .error (.stackUnderflow stack.length pop)
  else if StackLimit < stack.length + push - pop then .error (.stackLimitReached stack.length StackLimit)
  else .ok ()

/-- `operation`; `validateStack` is `makeStackFunc pop push`. -/
structure Operation (σ : Type) where
  execute : ExecutionFunc σ
  gasCost : GasFunc σ
  pop : ℕ
  push : ℕ
  memorySize : Option MemorySizeFunc := none
  halts : Bool := false
  jumps : Bool := false
  writes : Bool := false
  reverts : Bool := false
  returns : Bool := false

/-- `JumpTable`: the operations by opcode, the first entry of an opcode counting. -/
abbrev JumpTable (σ : Type) := List (UInt8 × Operation σ)

variable {σ : Type}

/-- `validateStack`. -/
def Operation.validateStack (o : Operation σ) (stack : List Word) : Except EvmError Unit :=
  makeStackFunc o.pop o.push stack

/-- The operation at an opcode, `nil` for none. -/
def JumpTable.get (t : JumpTable σ) (op : UInt8) : Option (Operation σ) :=
  (t.find? fun e => e.1 == op).map Prod.snd

/-! ## The families -/

/-- `PUSHn` for `n` from `2`: `makePush(n, n)`. -/
def pushOperation (n : ℕ) : Operation σ :=
  { execute := makePush n.toUInt64 n, gasCost := gasPush, pop := 0, push := 1 }

/-- `DUPn`: `makeDupStackFunc(n)`, which takes `n` items and leaves `n + 1`. -/
def dupOperation (n : ℕ) : Operation σ :=
  { execute := makeDup n, gasCost := gasDup, pop := n, push := n + 1 }

/-- `SWAPn`: `makeSwapStackFunc(n + 1)`. -/
def swapOperation (n : ℕ) : Operation σ :=
  { execute := makeSwap n, gasCost := gasSwap, pop := n + 1, push := n + 1 }

/-- `LOGn`. -/
def logOperation (n : ℕ) : Operation σ :=
  { execute := makeLog n, gasCost := makeGasLog n.toUInt64, pop := n + 2, push := 0,
    memorySize := some memoryLog, writes := true }

/-- `PUSH2` to `PUSH32`, `DUP1` to `DUP16`, `SWAP1` to `SWAP16` and `LOG0` to `LOG4`. -/
def frontierRuns : JumpTable σ :=
  (List.range 31).map (fun i => ((0x61 + i).toUInt8, pushOperation (i + 2))) ++
  (List.range 16).map (fun i => ((0x80 + i).toUInt8, dupOperation (i + 1))) ++
  (List.range 16).map (fun i => ((0x90 + i).toUInt8, swapOperation (i + 1))) ++
  (List.range 5).map (fun i => ((0xa0 + i).toUInt8, logOperation i))

/-- `NewFrontierInstructionSet`. -/
def newFrontierInstructionSet : JumpTable σ :=
  [ (0x00, { execute := opStop, gasCost := constGasFunc 0, pop := 0, push := 0, halts := true }),
    (0x01, { execute := opAdd, gasCost := constGasFunc GasFastestStep, pop := 2, push := 1 }),
    (0x02, { execute := opMul, gasCost := constGasFunc GasFastStep, pop := 2, push := 1 }),
    (0x03, { execute := opSub, gasCost := constGasFunc GasFastestStep, pop := 2, push := 1 }),
    (0x04, { execute := opDiv, gasCost := constGasFunc GasFastStep, pop := 2, push := 1 }),
    (0x05, { execute := opSdiv, gasCost := constGasFunc GasFastStep, pop := 2, push := 1 }),
    (0x06, { execute := opMod, gasCost := constGasFunc GasFastStep, pop := 2, push := 1 }),
    (0x07, { execute := opSmod, gasCost := constGasFunc GasFastStep, pop := 2, push := 1 }),
    (0x08, { execute := opAddmod, gasCost := constGasFunc GasMidStep, pop := 3, push := 1 }),
    (0x09, { execute := opMulmod, gasCost := constGasFunc GasMidStep, pop := 3, push := 1 }),
    (0x0a, { execute := opExp, gasCost := gasExp, pop := 2, push := 1 }),
    (0x0b, { execute := opSignExtend, gasCost := constGasFunc GasFastStep, pop := 2, push := 1 }),
    (0x10, { execute := opLt, gasCost := constGasFunc GasFastestStep, pop := 2, push := 1 }),
    (0x11, { execute := opGt, gasCost := constGasFunc GasFastestStep, pop := 2, push := 1 }),
    (0x12, { execute := opSlt, gasCost := constGasFunc GasFastestStep, pop := 2, push := 1 }),
    (0x13, { execute := opSgt, gasCost := constGasFunc GasFastestStep, pop := 2, push := 1 }),
    (0x14, { execute := opEq, gasCost := constGasFunc GasFastestStep, pop := 2, push := 1 }),
    (0x15, { execute := opIszero, gasCost := constGasFunc GasFastestStep, pop := 1, push := 1 }),
    (0x16, { execute := opAnd, gasCost := constGasFunc GasFastestStep, pop := 2, push := 1 }),
    (0x18, { execute := opXor, gasCost := constGasFunc GasFastestStep, pop := 2, push := 1 }),
    (0x17, { execute := opOr, gasCost := constGasFunc GasFastestStep, pop := 2, push := 1 }),
    (0x19, { execute := opNot, gasCost := constGasFunc GasFastestStep, pop := 1, push := 1 }),
    (0x1a, { execute := opByte, gasCost := constGasFunc GasFastestStep, pop := 2, push := 1 }),
    (0x20, { execute := opSha3, gasCost := gasSha3, pop := 2, push := 1, memorySize := some memorySha3 }),
    (0x30, { execute := opAddress, gasCost := constGasFunc GasQuickStep, pop := 0, push := 1 }),
    (0x31, { execute := opBalance, gasCost := gasBalance, pop := 1, push := 1 }),
    (0x32, { execute := opOrigin, gasCost := constGasFunc GasQuickStep, pop := 0, push := 1 }),
    (0x33, { execute := opCaller, gasCost := constGasFunc GasQuickStep, pop := 0, push := 1 }),
    (0x34, { execute := opCallValue, gasCost := constGasFunc GasQuickStep, pop := 0, push := 1 }),
    (0x35, { execute := opCallDataLoad, gasCost := constGasFunc GasFastestStep, pop := 1, push := 1 }),
    (0x36, { execute := opCallDataSize, gasCost := constGasFunc GasQuickStep, pop := 0, push := 1 }),
    (0x37, { execute := opCallDataCopy, gasCost := gasCallDataCopy, pop := 3, push := 0,
             memorySize := some memoryCallDataCopy }),
    (0x38, { execute := opCodeSize, gasCost := constGasFunc GasQuickStep, pop := 0, push := 1 }),
    (0x39, { execute := opCodeCopy, gasCost := gasCodeCopy, pop := 3, push := 0,
             memorySize := some memoryCodeCopy }),
    (0x3a, { execute := opGasprice, gasCost := constGasFunc GasQuickStep, pop := 0, push := 1 }),
    (0x3b, { execute := opExtCodeSize, gasCost := gasExtCodeSize, pop := 1, push := 1 }),
    (0x3c, { execute := opExtCodeCopy, gasCost := gasExtCodeCopy, pop := 4, push := 0,
             memorySize := some memoryExtCodeCopy }),
    (0x40, { execute := opBlockhash, gasCost := constGasFunc GasExtStep, pop := 1, push := 1 }),
    (0x41, { execute := opCoinbase, gasCost := constGasFunc GasQuickStep, pop := 0, push := 1 }),
    (0x42, { execute := opTimestamp, gasCost := constGasFunc GasQuickStep, pop := 0, push := 1 }),
    (0x43, { execute := opNumber, gasCost := constGasFunc GasQuickStep, pop := 0, push := 1 }),
    (0x44, { execute := opDifficulty, gasCost := constGasFunc GasQuickStep, pop := 0, push := 1 }),
    (0x45, { execute := opGasLimit, gasCost := constGasFunc GasQuickStep, pop := 0, push := 1 }),
    (0x50, { execute := opPop, gasCost := constGasFunc GasQuickStep, pop := 1, push := 0 }),
    (0x51, { execute := opMload, gasCost := gasMLoad, pop := 1, push := 1, memorySize := some memoryMLoad }),
    (0x52, { execute := opMstore, gasCost := gasMStore, pop := 2, push := 0, memorySize := some memoryMStore }),
    (0x53, { execute := opMstore8, gasCost := gasMStore8, pop := 2, push := 0, memorySize := some memoryMStore8 }),
    (0x54, { execute := opSload, gasCost := gasSLoad, pop := 1, push := 1 }),
    (0x55, { execute := opSstore, gasCost := gasSStore, pop := 2, push := 0, writes := true }),
    (0x56, { execute := opJump, gasCost := constGasFunc GasMidStep, pop := 1, push := 0, jumps := true }),
    (0x57, { execute := opJumpi, gasCost := constGasFunc GasSlowStep, pop := 2, push := 0, jumps := true }),
    (0x58, { execute := opPc, gasCost := constGasFunc GasQuickStep, pop := 0, push := 1 }),
    (0x59, { execute := opMsize, gasCost := constGasFunc GasQuickStep, pop := 0, push := 1 }),
    (0x5a, { execute := opGas, gasCost := constGasFunc GasQuickStep, pop := 0, push := 1 }),
    (0x5b, { execute := opJumpdest, gasCost := constGasFunc JumpdestGas, pop := 0, push := 0 }),
    (0x60, { execute := opPush1, gasCost := gasPush, pop := 0, push := 1 }),
    (0xf0, { execute := opCreate, gasCost := gasCreate, pop := 3, push := 1, memorySize := some memoryCreate,
             writes := true, returns := true }),
    (0xf1, { execute := opCall, gasCost := gasCall, pop := 7, push := 1, memorySize := some memoryCall,
             returns := true }),
    (0xf2, { execute := opCallCode, gasCost := gasCallCode, pop := 7, push := 1, memorySize := some memoryCall,
             returns := true }),
    (0xf3, { execute := opReturn, gasCost := gasReturn, pop := 2, push := 0, memorySize := some memoryReturn,
             halts := true }),
    (0xff, { execute := opSuicide, gasCost := gasSuicide, pop := 1, push := 0, halts := true, writes := true }) ] ++
  frontierRuns

/-- `NewHomesteadInstructionSet`. -/
def newHomesteadInstructionSet : JumpTable σ :=
  (0xf4, { execute := opDelegateCall, gasCost := gasDelegateCall, pop := 6, push := 1,
           memorySize := some memoryDelegateCall, returns := true }) ::
  newFrontierInstructionSet

/-- `NewByzantiumInstructionSet`. -/
def newByzantiumInstructionSet : JumpTable σ :=
  [ (0xfa, { execute := opStaticCall, gasCost := gasStaticCall, pop := 6, push := 1,
             memorySize := some memoryStaticCall, returns := true }),
    (0x3d, { execute := opReturnDataSize, gasCost := constGasFunc GasQuickStep, pop := 0, push := 1 }),
    (0x3e, { execute := opReturnDataCopy, gasCost := gasReturnDataCopy, pop := 3, push := 0,
             memorySize := some memoryReturnDataCopy }),
    (0xfd, { execute := opRevert, gasCost := gasRevert, pop := 2, push := 0, memorySize := some memoryRevert,
             reverts := true, returns := true }) ] ++
  newHomesteadInstructionSet

/-- `NewConstantinopleInstructionSet`. -/
def newConstantinopleInstructionSet : JumpTable σ :=
  [ (0x1b, { execute := opSHL, gasCost := constGasFunc GasFastestStep, pop := 2, push := 1 }),
    (0x1c, { execute := opSHR, gasCost := constGasFunc GasFastestStep, pop := 2, push := 1 }),
    (0x1d, { execute := opSAR, gasCost := constGasFunc GasFastestStep, pop := 2, push := 1 }),
    (0x3f, { execute := opExtCodeHash, gasCost := gasExtCodeHash, pop := 1, push := 1 }),
    (0xf5, { execute := opCreate2, gasCost := gasCreate2, pop := 4, push := 1, memorySize := some memoryCreate2,
             writes := true, returns := true }) ] ++
  newByzantiumInstructionSet

/-- `NewIstanbulInstructionSet`. -/
def newIstanbulInstructionSet : JumpTable σ :=
  [ (0x46, { execute := opChainID, gasCost := constGasFunc GasQuickStep, pop := 0, push := 1 }),
    (0x47, { execute := opSelfBalance, gasCost := constGasFunc GasFastStep, pop := 0, push := 1 }) ] ++
  newConstantinopleInstructionSet

/-- The instruction set `NewInterpreter` picks for the forks in force. -/
def ChainConfig.jumpTable (c : ChainConfig) : JumpTable σ :=
  if c.isIstanbul then newIstanbulInstructionSet
  else if c.isConstantinople then newConstantinopleInstructionSet
  else if c.isByzantium then newByzantiumInstructionSet
  else if c.isHomestead then newHomesteadInstructionSet
  else newFrontierInstructionSet

end Vm

end Workshare
