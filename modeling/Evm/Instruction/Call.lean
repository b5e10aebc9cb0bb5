import Evm.Instruction.World

/-!
# Call and create instructions

The instructions that ask for a nested message. All but one 64th of the gas can be given along;
a call that moves value adds a stipend which its sender does not pay.
-/

namespace Evm.Instruction

open FrameM InstructionM

variable {σ : Type}

def fits? (n : Nat) : Option Nat := if n < machineLimit then some n else none

def callMessage (context : Context) (mode : CallMode) (target : Address) (value : Word)
    (data code : Bytes) (gas : Nat) (selfDestruct : AddressSet) : Message :=
  let message := context.message
  let self := context.self
  { caller := if mode = .delegate then message.caller else self
    target := some (if mode = .delegate ∨ mode = .code then self else target)
    codeSource := if mode = .delegate ∨ mode = .code then some target else none
    value := if mode = .delegate then message.value else value
    data, code
    gasLimit := gas
    depth := message.depth + 1
    isStatic := message.isStatic ∨ mode = .static
    salt := none
    selfDestruct }

structure CallOperands where
  gas : Word
  target : Address
  value : Word
  input : Nat × Nat
  /-- Where the output goes. -/
  room : Nat × Nat

def popValue (mode : CallMode) : FrameM Word := if mode.hasValue then pop else pure 0

def popCall (mode : CallMode) : FrameM CallOperands := do
  let gas ← pop
  let target ← popAddress
  let value ← popValue mode
  let inputOffset ← pop
  let inputSize ← pop
  let roomOffset ← pop
  let roomSize ← pop
  let input ← region inputOffset inputSize
  let room ← region roomOffset roomSize
  return { gas, target, value, input, room }

def callPrice (fork : Fork) (mode : CallMode) (target : Address) (value : Word) :
    HostM σ Nat := do
  let access ← Host.accessAddress fork target
  if value = 0 then return fork.fee .call + access
  let creates ← if mode = .call then do pure (← Host.account target).isEmpty else pure false
  return fork.fee .call + access + fork.fee .callValue +
    if creates then fork.fee .newAccount else 0

/-- What the memory of a call costs. The larger of its ranges pays for both. -/
def callExpansion (fork : Fork) (memory : Memory) (operands : CallOperands) : Nat :=
  max (memory.expansionPrice fork operands.input.1 operands.input.2)
    (memory.expansionPrice fork operands.room.1 operands.room.2)

/-- Gas that a nested message gets on top of what its sender pays. -/
def stipend (fork : Fork) (value : Word) : Nat := if value = 0 then 0 else fork.fee .callStipend

/-- Pays for a call and sets its gas aside; gives that gas, stipend included. -/
def payCall (fork : Fork) (operands : CallOperands) (price : Nat) : FrameM Nat := do
  charge (price + callExpansion fork (← get).memory operands)
  grow operands.input.1 operands.input.2
  grow operands.room.1 operands.room.2
  let granted := min operands.gas.toNat (Gas.allButOne64th (← get).gas.remaining)
  charge granted
  modify fun frame => { frame with returnData := #[] }
  assured (fits? (granted + stipend fork operands.value))

/-- A call that is not made gives its gas back and pushes zero. -/
def refuseCall (gas : Nat) : FrameM Unit := do
  modify fun frame => { frame with gas := frame.gas.restore gas }
  push 0

/-- The nested message of a call, or none if the depth or the balance does not allow it. -/
def prepareCall (fork : Fork) (context : Context) (mode : CallMode) :
    InstructionM σ (Option NestedCall) := do
  let operands ← popCall mode
  faultIf (mode = .call ∧ operands.value ≠ 0 ∧ context.message.isStatic)
    .staticStateChangeViolation
  let price ← host (callPrice fork mode operands.target operands.value)
  let gas ← payCall fork operands price
  let account ← host (Host.account context.self)
  if depthLimit < context.message.depth + 1 ∨ account.balance < operands.value then
    refuseCall gas
    return none
  else
    let data ← readMemory operands.input.1 operands.input.2
    let code ← host (Host.code operands.target)
    let checkpoint ← host Host.checkpoint
    let message :=
      callMessage context mode operands.target operands.value data code gas (← get).selfDestruct
    return some ⟨message, .call mode,
      ⟨gas, .call operands.room.1 operands.room.2 checkpoint, none⟩⟩

/-- Moves the value of a call to its target. Only a plain call moves any. -/
def sendValue (mode : CallMode) (message : Message) : HostM σ Unit := do
  if mode = .call then
    let _ ← Host.transfer message.caller message.address message.value

def call (fork : Fork) (context : Context) (mode : CallMode) : InstructionM σ Control := do
  match ← prepareCall fork context mode with
  | none => return .next
  | some nested =>
    host (sendValue mode nested.message)
    return .call nested

def createMessage (context : Context) (value : Word) (salt : Option Word) (code : Bytes)
    (gas : Nat) (selfDestruct : AddressSet) : Message where
  caller := context.self
  target := none
  codeSource := none
  value := value
  data := #[]
  code := code
  gasLimit := gas
  depth := context.message.depth + 1
  isStatic := false
  salt := salt
  selfDestruct := selfDestruct

structure CreateOperands where
  value : Word
  salt : Option Word
  code : Nat × Nat

def popSalt (salted : Bool) : FrameM (Option Word) :=
  if salted then do return some (← pop) else return none

def popCreate (salted : Bool) : FrameM CreateOperands := do
  let value ← pop
  let offset ← pop
  let size ← pop
  let salt ← popSalt salted
  let code ← region offset size
  return { value, salt, code }

def createPrice (fork : Fork) (salted : Bool) (size : Nat) : Nat :=
  fork.fee .create + fork.fee .initCodeWord * wordCount size +
    if salted then fork.fee .keccakWord * wordCount size else 0

def payCreate (fork : Fork) (salted : Bool) (operands : CreateOperands) : FrameM Bytes := do
  faultIf (.shanghai ≤ fork ∧ initCodeLimit < operands.code.2) .initCodeSizeExceeded
  charge (createPrice fork salted operands.code.2)
  expand fork operands.code.1 operands.code.2
  let code ← readMemory operands.code.1 operands.code.2
  modify fun frame => { frame with returnData := #[] }
  return code

/-- A creation that the depth, the balance or the nonce does not allow pushes zero. -/
def create (fork : Fork) (context : Context) (salted : Bool) : InstructionM σ Control := do
  ensureMutable context.message
  let operands ← popCreate salted
  let code ← payCreate fork salted operands
  let account ← host (Host.account context.self)
  if depthLimit < context.message.depth + 1 ∨ account.balance < operands.value ∨
      account.nonce.toNat + 1 = machineLimit then
    push 0
    return .next
  else
    let gas := Gas.allButOne64th (← get).gas.remaining
    charge gas
    let message :=
      createMessage context operands.value operands.salt code gas (← get).selfDestruct
    return .call ⟨message, .create salted, ⟨gas, .create, none⟩⟩

end Evm.Instruction
