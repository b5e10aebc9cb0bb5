import Evm.Step

/-!
# Executions

A message runs in a frame; a frame that asks for a nested message waits until that is done. An
execution is the frame that runs, or the result that was just handed back, with the frames that
wait, innermost first. It advances one instruction at a time.
-/

namespace Evm

variable {σ : Type}

structure Suspended where
  context : Context
  frame : Frame
  resumption : Resumption

inductive Execution where
  | running (context : Context) (frame : Frame) (waiting : List Suspended)
  | returning (result : Result) (waiting : List Suspended)

namespace Execution

def exit (env : Environment σ) (depth : Nat) (result : Result) : HostM σ Result := do
  Host.emit env ⟨depth, .exit result.gasUsed result.outcome⟩
  return result

def haltedResult (frame : Frame) (reason : Halt) : Result where
  gasUsed := frame.gas.used
  gasRefund := frame.refund
  output := frame.output
  outcome := .halted reason
  logs := frame.logs
  selfDestruct := frame.selfDestruct
  created := none

/-- A frame that reverts keeps its unspent gas and its output, and nothing else. -/
def revertedResult (message : Message) (frame : Frame) : Result where
  gasUsed := frame.gas.used
  gasRefund := 0
  output := frame.output
  outcome := .reverted
  logs := #[]
  selfDestruct := message.selfDestruct
  created := none

def deployFault? (fork : Fork) (code : Bytes) (deposit available : Nat) : Option Exception :=
  if codeLimit < code.size then some .codeSizeExceeded
  else if .london ≤ fork ∧ code[0]? = some 0xef then some .reservedCode
  else if available < deposit then some .outOfGas
  else none

def deploy (env : Environment σ) (message : Message) (deployment : Deployment) (result : Result) :
    HostM σ Result := do
  if result.isSuccess then
    let code := result.output
    let deposit := env.fork.fee .codeDeposit * code.size
    if message.gasLimit < result.gasUsed then throw .breach
    match deployFault? env.fork code deposit (message.gasLimit - result.gasUsed) with
    | some cause =>
      Host.rollback deployment.checkpoint
      return .faulted message cause
    | none =>
      let account ← Host.account deployment.address
      Host.putAccount deployment.address { account with codeHash := keccakWord code }
      Host.putCode deployment.address code
      return { result with
        gasUsed := result.gasUsed + deposit
        output := #[]
        created := some deployment.address }
  else
    Host.rollback deployment.checkpoint
    return result

def settle (checkpoint : Nat) (result : Result) : HostM σ Unit :=
  if result.isSuccess then return () else Host.rollback checkpoint

def deployFor (env : Environment σ) (context : Context) (result : Result) : HostM σ Result :=
  match context.deployment with
  | some deployment => deploy env context.message deployment result
  | none => return result

/-- Ends a frame with its result. What a failed frame did is undone. -/
def conclude (env : Environment σ) (context : Context) (result : Result) : HostM σ Result := do
  settle context.checkpoint result
  let result ← deployFor env context result
  exit env context.message.depth result

/-- A message starts a frame, or is done at once. -/
inductive Opening where
  | frame (context : Context) (frame : Frame)
  | result (result : Result)

def answeredResult (message : Message) (answer : PrecompileAnswer) : Result :=
  if answer.success then
    { gasUsed := answer.gasUsed
      gasRefund := 0
      output := answer.output
      outcome := .halted .ret
      logs := #[]
      selfDestruct := message.selfDestruct
      created := none }
  else .faulted message .outOfGas

def runPrecompile (env : Environment σ) (message : Message) (contract : Precompile) :
    HostM σ Result := do
  match contract.run? env.curve ⟨message.data, message.gasLimit, env.fork⟩ with
  | none => throw .breach
  | some answer =>
    Host.emit env ⟨message.depth, .precompile message.codeAddress answer.gasUsed answer.success⟩
    return answeredResult message answer

/-- Runs the contract that stands where the code of a message does. If there were none, the message
would fail. -/
def consult (env : Environment σ) (message : Message) : HostM σ Result :=
  match Precompile.at? env.fork message.codeAddress with
  | some contract => runPrecompile env message contract
  | none => return .faulted message .outOfGas

def newAddress (message : Message) (nonce : Nat) : Address :=
  match message.salt with
  | some salt => message.caller.create2 salt message.code
  | none => message.caller.create nonce

/-- Takes a nonce of the creator for the address of a creation; none if no nonce is left. -/
def claimAddress (env : Environment σ) (message : Message) : HostM σ (Option Address) := do
  let account ← Host.account message.caller
  if account.nonce.toNat + 1 = machineLimit then return none
  else
    let address := newAddress message account.nonce.toNat
    Host.putAccount message.caller { account with nonce := account.nonce + 1 }
    if env.fork.hasAccessLists then
      let _ ← Host.touchAddress address
    return some address

def makeAccount (message : Message) (deployment : Deployment) :
    HostM σ (Option Exception) := do
  let account ← Host.account deployment.address
  if account.nonce ≠ 0 ∨ account.hasCode then return some .createCollision
  else
    Host.putAccount deployment.address { account with nonce := 1 }
    if ← Host.transfer message.caller deployment.address message.value then return none
    else
      Host.rollback deployment.checkpoint
      return some .insufficientBalance

/-- Begins a creation: gives the message for the new account, or the result of a creation that
fails before its code runs. -/
def beginCreate (env : Environment σ) (message : Message) :
    HostM σ (Result ⊕ Message × Deployment) := do
  match ← claimAddress env message with
  | none => return .inl (.faulted message .nonceOverflow)
  | some address =>
    let deployment : Deployment := ⟨address, ← Host.checkpoint⟩
    match ← makeAccount message deployment with
    | none => return .inr ({ message with target := some address }, deployment)
    | some cause => return .inl (.faulted message cause)

def openFrame (env : Environment σ) (message : Message) (deployment : Option Deployment)
    (pc : Nat) : HostM σ Opening := do
  let code := Code.ofBytes message.code
  let context : Context := ⟨message, code, ← Host.checkpoint, deployment⟩
  match code.indexOf? pc with
  | some index => return .frame context (.start message index)
  | none => return .result (← conclude env context (.faulted message .invalidJumpDestination))

def announce (env : Environment σ) (message : Message) (kind : MessageKind) : HostM σ Unit := do
  if env.tracer.enabled (← get).trace then
    Host.emit env ⟨message.depth,
      .call kind message.caller message.target message.value message.gasLimit message.data⟩
  else return ()

def enter (env : Environment σ) (message : Message) (kind : MessageKind) (pc : Nat) :
    HostM σ Opening := do
  announce env message kind
  if message.isCreation then
    match ← beginCreate env message with
    | .inl result => return .result (← exit env message.depth result)
    | .inr (message, deployment) => openFrame env message (some deployment) pc
  else if Precompile.contains env.fork message.codeAddress then
    let result ← consult env message
    return .result (← exit env message.depth result)
  else openFrame env message none pc

def absorb (frame : Frame) (result : Result) : Frame :=
  { frame with
    refund := frame.refund + result.gasRefund
    logs := frame.logs ++ result.logs
    selfDestruct := frame.selfDestruct.union result.selfDestruct }

def pushResult (frame : Frame) (word : Word) : Frame :=
  { frame with stack := frame.stack.push word }

/-- Hands the result of a call to the frame: as much of the output as was asked for goes into its
memory. -/
def receiveCall? (frame : Frame) (offset size : Nat) (result : Result) : Option Frame :=
  let memory := frame.memory
  let frame := { frame with memory := .empty }
  let frame := if result.isSuccess then absorb frame result else frame
  (memory.store? offset (result.output.extract 0 (min size result.output.size))).map fun memory =>
    pushResult { frame with memory, returnData := result.output } (if result.isSuccess then 1 else 0)

def receiveCreation (frame : Frame) (result : Result) : Frame :=
  match result.outcome, result.created with
  | .halted _, some address => pushResult (absorb frame result) address.toWord
  | .reverted, _ => pushResult { frame with returnData := result.output } 0
  | _, _ => pushResult frame 0

def receive (frame : Frame) (receiver : Receiver) (result : Result) : HostM σ Frame :=
  match receiver with
  | .call offset size checkpoint => do
    settle checkpoint result
    match receiveCall? frame offset size result with
    | some frame => return frame
    | none => throw .breach
  | .create => return receiveCreation frame result

def reportPending (env : Environment σ) (depth : Nat) (gas : Meter) :
    Option PendingStep → HostM σ Unit
  | some step => Host.emit env (step.event depth gas)
  | none => return ()

def resume (env : Environment σ) (suspended : Suspended) (result : Result) : HostM σ Frame := do
  let ⟨context, frame, resumption⟩ := suspended
  let unspent := resumption.gas - result.gasUsed
  let frame := { frame with gas := frame.gas.restore unspent }
  let frame ← receive frame resumption.receiver result
  reportPending env context.message.depth frame.gas resumption.step
  return frame

def ofOpening (opening : Opening) (waiting : List Suspended) : Execution :=
  match opening with
  | .frame context frame => .running context frame waiting
  | .result result => .returning result waiting

def follow (env : Environment σ) (context : Context) (frame : Frame) (waiting : List Suspended) :
    Control → HostM σ Execution
  | .next => return .running context { frame with index := frame.index + 1 } waiting
  | .jump index => return .running context { frame with index } waiting
  | .halt reason => return .returning (← conclude env context (haltedResult frame reason)) waiting
  | .revert =>
    return .returning (← conclude env context (revertedResult context.message frame)) waiting
  | .call nested => do
    let suspended := ⟨context, { frame with index := frame.index + 1 }, nested.resumption⟩
    return ofOpening (← enter env nested.message nested.kind 0) (suspended :: waiting)

/-- Runs one instruction, or hands a result to the frame that waits for it. -/
def advance (env : Environment σ) : Execution → HostM σ Execution
  | .running context frame waiting => fun host =>
    match step env context frame host with
    | .ok (control, frame) host => follow env context frame waiting control host
    | .error (.fault cause) host =>
      (do return .returning (← conclude env context (.faulted context.message cause)) waiting :
        HostM σ Execution) host
    | .error (.failure failure) host => .error failure host
  | .returning result (suspended :: waiting) => do
    let frame ← resume env suspended result
    return .running suspended.context frame waiting
  | .returning result [] => return .returning result []

def run (env : Environment σ) : Nat → Execution → HostM σ Result
  | _, .returning result [] => return result
  | 0, _ => throw .unfinished
  | fuel + 1, execution => do
    let execution ← advance env execution
    run env fuel execution

end Execution

def warmFromStart (env : Environment σ) (message : Message) : List Address :=
  if env.fork.hasAccessLists then
    [env.transaction.origin, message.caller, message.address] ++
      Precompile.addresses env.fork ++
      if .shanghai ≤ env.fork then [env.block.coinbase] else []
  else []

def warmUp (addresses : List Address) : HostM σ Unit :=
  modify fun host => { host with warmAddresses := host.warmAddresses.insertMany addresses }

def topLevelKind (message : Message) : MessageKind :=
  if message.isCreation then .create message.salt.isSome else .call .call

/-- More steps than a message with this much gas can take: every instruction that does not end
its frame costs gas, and every frame but the first is opened by such an instruction. -/
def stepBound (gas : Nat) : Nat := 3 * gas + 3

/-- Runs a message from byte `pc` of its code on. Its value was moved before. -/
def runMessage (env : Environment σ) (message : Message) (pc : Nat) : HostM σ Result := do
  warmUp (warmFromStart env message)
  let opening ← Execution.enter env message (topLevelKind message) pc
  Execution.run env (stepBound message.gasLimit) (.ofOpening opening [])

end Evm
