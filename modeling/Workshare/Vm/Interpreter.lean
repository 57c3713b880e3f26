import Workshare.Vm.JumpTable
import Workshare.Loop

/-!
# The interpreter and the EVM's calls

`interpreter.go`: `Run` executes a contract's code in a loop. Each turn looks
up the operation at the program counter, checks the stack and the static-call
restriction, sizes the memory the operation needs, charges its gas, grows the
memory, executes it, and returns or moves on. The Go loop has no bound; here
it has fuel for as many turns as `Run` can take, which `Vm.Safety` shows is
enough: every turn either spends gas or moves the counter forward through
the code, by at most `33` bytes.

`evm.go`: `Call`, `CallCode`, `DelegateCall`, `StaticCall`, `Create` and
`Create2` set up a contract and run it, through a precompiled contract or the
interpreter, reverting the state on failure and keeping the gas left only
when the failure is a revert. An instruction that calls runs the EVM's calls
one level down; the levels are the call depth, which stops at `1024`, so
`calls` gives the EVM's calls with as many levels as the depth allows.
-/
namespace Workshare

namespace Vm

/-- `params.CallCreateDepth`. -/
def CallCreateDepth : ℕ := 1024

/-- `params.MaxCodeSize`. -/
def MaxCodeSize : ℕ := 24576

/-- `params.CreateDataGas`. -/
def CreateDataGas : UInt64 := 200

/-- `CALL`. -/
def CALL : UInt8 := 0xf1

/-- `Interpreter`: its jump table and gas table. Its `readOnly` and
`returnData` are in `Evm`. -/
structure Interpreter (σ : Type) where
  jumpTable : JumpTable σ
  gasTable : GasTable

variable {σ : Type}

/-- `NewInterpreter`: the configured jump table, else the one of the forks. -/
def newInterpreter (c : ChainConfig) (jumpTable : Option (JumpTable σ)) : Interpreter σ :=
  ⟨jumpTable.getD c.jumpTable, c.gasTable⟩

/-- `enforceRestrictions`: after Byzantium, no write in a static call, a call
with a value counting as one. -/
def enforceRestrictions (env : Env σ) (readOnly : Bool) (op : UInt8) (o : Operation σ) (stack : List Word) :
    Option (Except EvmError Unit) :=
  if env.chainConfig.isByzantium ∧ readOnly then
    if o.writes then some (.error .writeProtection)
    else if op = CALL then
      (Stack.back stack 2).map fun value => if 0 < value.bitLen then .error .writeProtection else .ok ()
    else some (.ok ())
  else some (.ok ())

/-- The memory an operation needs, in whole words, or `errGasUintOverflow`. -/
def requiredMemory (o : Operation σ) (stack : List Word) : Option (Except EvmError UInt64) :=
  match o.memorySize with
  | none => some (.ok 0)
  | some memorySize =>
    (memorySize stack).map fun (memSize, overflow) =>
      if overflow then .error .gasUintOverflow
      else
        let (memorySize, overflow) := safeMul (toWordSize memSize) 32
        if overflow then .error .gasUintOverflow else .ok memorySize

/-- What `Run`'s loop returns: the output, the error, and the frame. -/
abbrev Outcome (σ : Type) := Bytes × Option EvmError × Frame σ

namespace Interpreter

/-- The end of a turn: the output becomes the return data if the operation
sets it; then return on an error, a revert or a halt, else move past the
opcode unless the operation jumps. -/
def finish (o : Operation σ) (r : Except EvmError Bytes) (fr : Frame σ) : Outcome σ ⊕ Frame σ :=
  let res := match r with
    | .ok res => res
    | .error _ => []
  let fr := if o.returns then { fr with evm := { fr.evm with returnData := res } } else fr
  match r with
  | .error e => .inl ([], some e, fr)
  | .ok res =>
    if o.reverts then .inl (res, some .executionReverted, fr)
    else if o.halts then .inl (res, none, fr)
    else if !o.jumps then .inr { fr with pc := fr.pc + 1 }
    else .inr fr

/-- A turn from the gas on: charge it, grow the memory, execute, and finish. -/
def charge (interp : Interpreter σ) (env : Env σ) (calls : Calls σ) (o : Operation σ) (fr : Frame σ)
    (memorySize : UInt64) : Option (Outcome σ ⊕ Frame σ) :=
  (o.gasCost interp.gasTable env fr memorySize).bind fun r =>
    match r with
    | .error _ => some (.inl ([], some .outOfGas, fr))
    | .ok (cost, fr) =>
      let (ok, contract) := fr.contract.useGas cost
      if !ok then some (.inl ([], some .outOfGas, fr))
      else
        let memory := if memorySize > 0 then fr.memory.resize memorySize else fr.memory
        (o.execute env calls { fr with contract := contract, memory := memory }).map fun (r, fr) => finish o r fr

/-- A turn of `Run`'s loop. -/
def step (interp : Interpreter σ) (env : Env σ) (calls : Calls σ) (fr : Frame σ) : Option (Outcome σ ⊕ Frame σ) :=
  let op := fr.contract.getOp fr.pc
  match interp.jumpTable.get op with
  | none => some (.inl ([], some (.invalidOpcode op), fr))
  | some o =>
    match o.validateStack fr.stack with
    | .error e => some (.inl ([], some e, fr))
    | .ok () =>
      (enforceRestrictions env fr.evm.readOnly op o fr.stack).bind fun r =>
        match r with
        | .error e => some (.inl ([], some e, fr))
        | .ok () =>
          (requiredMemory o fr.stack).bind fun r =>
            match r with
            | .error e => some (.inl ([], some e, fr))
            | .ok memorySize => interp.charge env calls o fr memorySize

/-- The turns `Run` may take: each spends gas or moves the counter on by at
most `33` bytes through the code. -/
def turns (contract : Contract) : ℕ := (contract.gas.toNat + 1) * (contract.code.length + 34)

/-- The frame `Run`'s loop starts from: the first opcode, with an empty stack
and memory. -/
def start (contract : Contract) (evm : Evm σ) : Frame σ := ⟨0, [], Memory.new, contract, evm⟩

/-- `Run`, one level deeper: a call to a contract's own code that the runtime
intercepts, nothing for no code, else the loop from the first opcode with an
empty stack and memory. The output, the error, and the contract and the EVM
after it. -/
def run (interp : Interpreter σ) (env : Env σ) (calls : Calls σ) (contract : Contract) (input : Bytes)
    (evm : Evm σ) : Option (Bytes × Option EvmError × Contract × Evm σ) :=
  let evm := { evm with depth := evm.depth + 1, returnData := [] }
  let leave (evm : Evm σ) : Evm σ := { evm with depth := evm.depth - 1 }
  let intercepted : Option (Bytes × Option EvmError × Contract × Evm σ) :=
    match env.context.interceptContractCall, contract.codeAddr with
    | some intercept, some codeAddr =>
      if codeAddr = contract.address then
        let contract := { contract with input := input }
        (intercept evm.state contract evm.readOnly).map fun (out, err, gas, state) =>
          (out, err, { contract with gas := gas }, { evm with state := state })
      else none
    | _, _ => none
  match intercepted with
  | some (out, err, contract, evm) => some (out, err, contract, leave evm)
  | none =>
    if contract.code = [] then some ([], none, contract, leave evm)
    else
      let contract := { contract with input := input }
      (Loop.iterate (interp.step env calls) (turns contract) (start contract evm)).map
        fun (r : Outcome σ) => (r.1, r.2.1, r.2.2.contract, leave r.2.2.evm)

end Interpreter

/-! ## The EVM's calls -/

/-- `RunPrecompiledContract`: its gas, then its output. -/
def runPrecompiledContract (p : PrecompiledContract) (input : Bytes) (contract : Contract) :
    Bytes × Option EvmError × Contract :=
  let (ok, contract) := contract.useGas (p.requiredGas input)
  if ok then
    match p.run input with
    | .ok ret => (ret, none, contract)
    | .error e => ([], some e, contract)
  else ([], some .outOfGas, contract)

/-- The precompiled contracts of the forks in force. -/
def Env.precompiles (env : Env σ) (addr : Address) : Option PrecompiledContract :=
  if env.chainConfig.isIstanbul then env.precompiledContractsIstanbul addr
  else if env.chainConfig.isByzantium then env.precompiledContractsByzantium addr
  else env.precompiledContractsHomestead addr

/-- How `run` runs a contract: the output, the error, the contract and the EVM after. -/
abbrev RunFunc (σ : Type) := Evm σ → Contract → Bytes → Option (Bytes × Option EvmError × Contract × Evm σ)

/-- `run`: the precompiled contract at the code address, else the interpreter. -/
def runContract (interp : Interpreter σ) (env : Env σ) (calls : Calls σ) : RunFunc σ := fun evm contract input =>
  match contract.codeAddr.bind env.precompiles with
  | some p =>
    let (ret, err, contract) := runPrecompiledContract p input contract
    some (ret, err, contract, evm)
  | none => interp.run env calls contract input evm

/-- The end of a call: on an error, the state reverted to the snapshot, and
all the gas spent unless the error is a revert. -/
def callResult (env : Env σ) (snapshot : ℕ) (r : Bytes × Option EvmError × Contract × Evm σ) :
    Bytes × UInt64 × Option EvmError × Evm σ :=
  let (ret, err, contract, evm) := r
  match err with
  | none => (ret, contract.gas, none, evm)
  | some e =>
    let contract := if e ≠ .executionReverted then (contract.useGas contract.gas).2 else contract
    (ret, contract.gas, some e, { evm with state := env.stateDB.revertToSnapshot snapshot evm.state })

/-- `Call`: a value from the caller to `addr`, which is created if it is new
unless, after EIP-158, it would stay empty. -/
def call (env : Env σ) (run : RunFunc σ) (evm : Evm σ) (caller : Contract) (addr : Address) (input : Bytes)
    (gas : UInt64) (value : ℤ) : Option (Bytes × UInt64 × Option EvmError × Evm σ) :=
  if env.vmConfig.noRecursion ∧ 0 < evm.depth then some ([], gas, none, evm)
  else if CallCreateDepth < evm.depth then some ([], gas, some .depth, evm)
  else if !env.context.canTransfer evm.state caller.address value then
    some ([], gas, some .insufficientBalance, evm)
  else
    let (snapshot, state) := env.stateDB.snapshot evm.state
    if !env.stateDB.exist state addr ∧ (env.precompiles addr).isNone ∧ env.chainConfig.isEIP158 ∧ value = 0 then
      some ([], gas, none, { evm with state := state })
    else
      let state := if !env.stateDB.exist state addr then env.stateDB.createAccount addr state else state
      let state := env.context.transfer caller.address addr value state
      let contract := (Contract.new caller.address addr value gas).setCallCode addr
        (env.stateDB.getCodeHash state addr) (env.stateDB.getCode state addr)
      (run { evm with state := state } contract input).map (callResult env snapshot)

/-- `CallCode`: the code of `addr`, run as the caller. -/
def callCode (env : Env σ) (run : RunFunc σ) (evm : Evm σ) (caller : Contract) (addr : Address) (input : Bytes)
    (gas : UInt64) (value : ℤ) : Option (Bytes × UInt64 × Option EvmError × Evm σ) :=
  if env.vmConfig.noRecursion ∧ 0 < evm.depth then some ([], gas, none, evm)
  else if CallCreateDepth < evm.depth then some ([], gas, some .depth, evm)
  else if !env.context.canTransfer evm.state caller.address value then
    some ([], gas, some .insufficientBalance, evm)
  else
    let (snapshot, state) := env.stateDB.snapshot evm.state
    let contract := (Contract.new caller.address caller.address value gas).setCallCode addr
      (env.stateDB.getCodeHash state addr) (env.stateDB.getCode state addr)
    (run { evm with state := state } contract input).map (callResult env snapshot)

/-- `DelegateCall`: the code of `addr`, run as the caller on behalf of its caller. -/
def delegateCall (env : Env σ) (run : RunFunc σ) (evm : Evm σ) (caller : Contract) (addr : Address) (input : Bytes)
    (gas : UInt64) : Option (Bytes × UInt64 × Option EvmError × Evm σ) :=
  if env.vmConfig.noRecursion ∧ 0 < evm.depth then some ([], gas, none, evm)
  else if CallCreateDepth < evm.depth then some ([], gas, some .depth, evm)
  else
    let (snapshot, state) := env.stateDB.snapshot evm.state
    let contract := ((Contract.new caller.address caller.address 0 gas).asDelegate caller).setCallCode addr
      (env.stateDB.getCodeHash state addr) (env.stateDB.getCode state addr)
    (run { evm with state := state } contract input).map (callResult env snapshot)

/-- `StaticCall`: no value, and read-only until the outermost static call returns. -/
def staticCall (env : Env σ) (run : RunFunc σ) (evm : Evm σ) (caller : Contract) (addr : Address) (input : Bytes)
    (gas : UInt64) : Option (Bytes × UInt64 × Option EvmError × Evm σ) :=
  if env.vmConfig.noRecursion ∧ 0 < evm.depth then some ([], gas, none, evm)
  else if CallCreateDepth < evm.depth then some ([], gas, some .depth, evm)
  else
    let (snapshot, state) := env.stateDB.snapshot evm.state
    let contract := (Contract.new caller.address addr 0 gas).setCallCode addr
      (env.stateDB.getCodeHash state addr) (env.stateDB.getCode state addr)
    (run { evm with state := state, readOnly := true } contract input).map fun r =>
      let (ret, gas, err, evm') := callResult env snapshot r
      (ret, gas, err, { evm' with readOnly := if evm.readOnly then evm'.readOnly else false })

/-- `create`: a new account at `contractAddr` running `code`, whose output is
stored as its code if there is gas for it. -/
def create (env : Env σ) (run : RunFunc σ) (evm : Evm σ) (caller : Contract) (code : Bytes) (gas : UInt64)
    (value : ℤ) (contractAddr : Address) : Option (Bytes × Address × UInt64 × Option EvmError × Evm σ) :=
  let zero : Address := Vector.replicate 20 0
  if CallCreateDepth < evm.depth then some ([], zero, gas, some .depth, evm)
  else if !env.context.canTransfer evm.state caller.address value then
    some ([], zero, gas, some .insufficientBalance, evm)
  else
    let nonce := env.stateDB.getNonce evm.state caller.address
    let state := env.stateDB.setNonce caller.address (nonce + 1) evm.state
    let evm := { evm with state := state, contractCreationCount := evm.contractCreationCount + 1 }
    let contractHash := env.stateDB.getCodeHash state contractAddr
    if env.stateDB.getNonce state contractAddr ≠ 0 ∨
        (contractHash ≠ Vector.replicate 32 0 ∧ contractHash ≠ env.keccak256 []) then
      some ([], zero, 0, some .contractAddressCollision, evm)
    else
      let (snapshot, state) := env.stateDB.snapshot state
      let state := env.stateDB.createAccount contractAddr state
      let state := if env.chainConfig.isEIP158 then env.stateDB.setNonce contractAddr 1 state else state
      let state := match env.context.onCreateContract with
        | some hook => hook contractAddr caller.address state
        | none => state
      let state := env.context.transfer caller.address contractAddr value state
      let contract := (Contract.new caller.address contractAddr value gas).setCallCode contractAddr
        (env.keccak256 code) code
      let evm := { evm with state := state }
      if env.vmConfig.noRecursion ∧ 0 < evm.depth then some ([], contractAddr, gas, none, evm)
      else
        (run evm contract []).map fun (ret, err, contract, evm) =>
          let maxCodeSizeExceeded := env.chainConfig.isEIP158 ∧ MaxCodeSize < ret.length
          let (err, contract, state) :=
            if err = none ∧ ¬maxCodeSizeExceeded then
              let (ok, contract) := contract.useGas (UInt64.ofNat ret.length * CreateDataGas)
              if ok then (none, contract, env.stateDB.setCode contractAddr ret evm.state)
              else (some .codeStoreOutOfGas, contract, evm.state)
            else (err, contract, evm.state)
          let (state, contract) :=
            if maxCodeSizeExceeded ∨ (err.isSome ∧ (env.chainConfig.isHomestead ∨ err ≠ some .codeStoreOutOfGas)) then
              (env.stateDB.revertToSnapshot snapshot state,
                if err ≠ some .executionReverted then (contract.useGas contract.gas).2 else contract)
            else (state, contract)
          let err := if maxCodeSizeExceeded ∧ err = none then some .maxCodeSizeExceeded else err
          (ret, contractAddr, contract.gas, err, { evm with state := state })

/-- `CreateAddress2`. -/
def createAddress2 (env : Env σ) (b : Address) (salt : Bytes32) (inithash : Bytes) : Address :=
  bytesToAddress ((env.keccak256 ([0xff] ++ b.toList ++ salt.toList ++ inithash)).toList.drop 12)

/-- The EVM's calls over `run`: `Create` at the runtime's next contract
address, `Create2` at the address of the salt and the code's hash. -/
def Calls.ofRun (env : Env σ) (run : RunFunc σ) : Calls σ where
  call := Vm.call env run
  callCode := Vm.callCode env run
  delegateCall := Vm.delegateCall env run
  staticCall := Vm.staticCall env run
  create evm caller code gas value :=
    Vm.create env run evm caller code gas value (env.context.newContractAddress evm.state evm.contractCreationCount)
  create2 evm caller code gas endowment salt :=
    Vm.create env run evm caller code gas endowment
      (createAddress2 env caller.address salt.toBytes32 (env.keccak256 code).toList)

/-- No calls at all. -/
def Calls.exhausted : Calls σ :=
  ⟨fun _ _ _ _ _ _ => none, fun _ _ _ _ _ _ => none, fun _ _ _ _ _ => none, fun _ _ _ _ _ => none,
    fun _ _ _ _ _ => none, fun _ _ _ _ _ _ => none⟩

/-- The EVM's calls with `n` levels of frames below them. -/
def nestedCalls (interp : Interpreter σ) (env : Env σ) : ℕ → Calls σ
  | 0 => Calls.exhausted
  | n + 1 => Calls.ofRun env (runContract interp env (nestedCalls interp env n))

/-- The EVM's calls from depth `0`: a call at depth `d` runs at `d + 1`, and
none runs past depth `1025`. -/
def Interpreter.calls (interp : Interpreter σ) (env : Env σ) : Calls σ :=
  nestedCalls interp env (CallCreateDepth + 2)

end Vm

end Workshare
