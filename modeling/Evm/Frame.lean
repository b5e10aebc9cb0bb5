import Evm.Code
import Evm.Memory
import Evm.Result
import Evm.Stack
import Evm.World

/-!
# Frames

The machine state of one message, and the steps that touch nothing else.
-/

namespace Evm

structure Frame where
  stack : Stack
  memory : Memory
  gas : Meter
  index : Nat
  /-- What the last nested message gave back. -/
  returnData : Bytes
  output : Bytes
  refund : Int
  logs : Array Log
  selfDestruct : AddressSet

namespace Frame

def start (message : Message) (index : Nat) : Frame where
  stack := .empty
  memory := .empty
  gas := .ofLimit message.gasLimit
  index := index
  returnData := #[]
  output := #[]
  refund := 0
  logs := #[]
  selfDestruct := message.selfDestruct

end Frame

/-- What stops an instruction half way: a fault of the code, or a failure outside of it. -/
inductive Interrupt where
  | fault (cause : Exception)
  | failure (cause : Failure)
  deriving DecidableEq, Repr

/-- A step on a frame. The frame is lost when the step is stopped. -/
abbrev FrameM := StateT Frame (Except Interrupt)

namespace FrameM

def fault {α : Type} (cause : Exception) : FrameM α := fun _ => .error (.fault cause)

def breach {α : Type} : FrameM α := fun _ => .error (.failure .breach)

def faultIf (condition : Prop) [Decidable condition] (cause : Exception) : FrameM Unit :=
  if condition then fault cause else pure ()

/-- What a partial operation of the machine gives. It is used where it has a result. -/
def assured {α : Type} : Option α → FrameM α
  | some value => pure value
  | none => breach

def push (word : Word) : FrameM Unit := fun frame =>
  if frame.stack.size < stackLimit then .ok ((), { frame with stack := frame.stack.push word })
  else .error (.fault .stackOverflow)

def pop : FrameM Word := fun frame =>
  match frame.stack.pop? with
  | some (word, stack) => .ok (word, { frame with stack })
  | none => .error (.fault .stackUnderflow)

def popAddress : FrameM Address := do
  return Address.ofWord (← pop)

def popMany : Nat → FrameM (List Word)
  | 0 => return []
  | count + 1 => do
    let word ← pop
    return word :: (← popMany count)

/-- Spends gas. No amount that the machine asks for exceeds 64 bits. -/
def charge (amount : Nat) : FrameM Unit := fun frame =>
  if machineLimit ≤ amount then .error (.failure .breach)
  else
    match frame.gas.spend? amount with
    | some gas => .ok ((), { frame with gas })
    | none => .error (.fault .outOfGas)

/-- The byte range that two words name. One that no memory can hold cannot be paid for. -/
def region (offset size : Word) : FrameM (Nat × Nat) :=
  match Memory.region? offset size with
  | some range => pure range
  | none => fault .outOfGas

def grow (offset size : Nat) : FrameM Unit :=
  modify fun frame => { frame with memory := frame.memory.expand offset size }

def expand (fork : Fork) (offset size : Nat) : FrameM Unit := do
  charge ((← get).memory.expansionPrice fork offset size)
  grow offset size

def readMemory (offset size : Nat) : FrameM Bytes := do
  assured ((← get).memory.read? offset size)

/-- Changes the memory, which the frame lets go of for the time. -/
def updateMemory (update : Memory → Option Memory) : FrameM Unit := fun frame =>
  let memory := frame.memory
  let frame := { frame with memory := .empty }
  match update memory with
  | some memory => .ok ((), { frame with memory })
  | none => .error (.failure .breach)

def storeMemory (offset : Nat) (bytes : Bytes) : FrameM Unit :=
  updateMemory fun memory => memory.store? offset bytes

end FrameM

end Evm
