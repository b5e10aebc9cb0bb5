import Evm.Instruction.Call

/-!
# Steps

One instruction of a frame: it is fetched, the stack is checked against what it takes and gives,
it is applied, and the tracer hears of it.
-/

namespace Evm

open FrameM InstructionM Instruction

variable {σ : Type}

def thenNext (action : InstructionM σ Unit) : InstructionM σ Control := do
  action
  return .next

def execute (env : Environment σ) (context : Context) (instruction : Instruction)
    (operation : Operation) : InstructionM σ Control :=
  let fork := env.fork
  match operation with
  | .stop => return .halt .stop
  | .unary op => thenNext (unary fork op)
  | .binary op => thenNext (binary fork op)
  | .ternary op => thenNext (ternary fork op)
  | .keccak => thenNext (keccak fork)
  | .query what => thenNext (query env context instruction.offset what)
  | .lookup what => thenNext (lookup env context what)
  | .inspect what => thenNext (inspect fork what)
  | .selfBalance => thenNext (selfBalance fork context)
  | .copy source => thenNext (copy fork (copySource context source))
  | .externalCodeCopy => thenNext (externalCodeCopy fork)
  | .returnDataCopy => thenNext (returnDataCopy fork)
  | .pop => thenNext do
    charge (fork.fee .base)
    let _ ← pop
  | .memoryLoad => thenNext (memoryLoad fork)
  | .memoryStore => thenNext (memoryStore fork)
  | .memoryStore8 => thenNext (memoryStore8 fork)
  | .memoryCopy => thenNext (memoryCopy fork)
  | .storageLoad => thenNext (storageLoad fork context)
  | .storageStore => thenNext (storageStore fork context)
  | .transientLoad => thenNext (transientLoad fork context)
  | .transientStore => thenNext (transientStore fork context)
  | .jump => jump fork context
  | .jumpIf => jumpIf fork context
  | .jumpDest => thenNext (charge (fork.fee .jumpDest))
  | .push width => thenNext (pushArgument fork width instruction.argument)
  | .dup depth => thenNext (dup fork depth)
  | .swap depth => thenNext (swap fork depth)
  | .log topics => thenNext (log fork context topics)
  | .create salted => create fork context salted
  | .call mode => call fork context mode
  | .ret => finish fork (.halt .ret)
  | .revert => finish fork .revert
  | .invalid => (fault (.invalidOpcode instruction.byte) : FrameM Control)
  | .selfDestruct => do
    selfDestruct fork context
    return .halt .selfDestruct

def checkStack (operation : Operation) : FrameM Unit := do
  let size := (← get).stack.size
  if size < operation.inputs then fault .stackUnderflow
  else if stackLimit < size - operation.inputs + operation.outputs then fault .stackOverflow

def PendingStep.event (step : PendingStep) (depth : Nat) (gas : Meter) : Event :=
  ⟨depth, .step step.pc step.byte step.name (gas.used - step.used) gas.used gas.remaining⟩

/-- Reports a step, or leaves it with the nested message that it waits for. -/
def reportStep (env : Environment σ) (context : Context) (step : PendingStep) :
    Control → InstructionM σ Control
  | .call nested =>
    return .call { nested with resumption := { nested.resumption with step := some step } }
  | control => do
    host (Host.emit env (step.event context.message.depth (← get).gas))
    return control

def report (env : Environment σ) (context : Context) (instruction : Instruction)
    (operation : Operation) (used : Nat) (control : Control) : InstructionM σ Control := do
  if env.tracer.enabled (← getThe (Host σ)).trace then
    reportStep env context ⟨instruction.offset, instruction.byte, operation.name, used⟩ control
  else return control

/-- Runs the next instruction. Past the last one the frame stops. -/
def step (env : Environment σ) (context : Context) : InstructionM σ Control := do
  match context.code.instructions[(← get).index]? with
  | none => return .halt .stop
  | some instruction =>
    match instruction.operation.filter (·.since ≤ env.fork) with
    | none => (fault (.invalidOpcode instruction.byte) : FrameM Control)
    | some operation =>
      checkStack operation
      let used := (← get).gas.used
      let control ← execute env context instruction operation
      report env context instruction operation used control

end Evm
