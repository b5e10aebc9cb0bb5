import Evm.Frame
import Evm.Host

/-!
# Contexts

What an instruction finds around its frame, and how it goes on after the instruction.
-/

namespace Evm

/-- A contract whose code is being made, and where to come back to if that fails. -/
structure Deployment where
  address : Address
  checkpoint : Nat
  deriving DecidableEq, Repr

structure Context where
  message : Message
  code : Code
  checkpoint : Nat
  deployment : Option Deployment

namespace Context

def self (context : Context) : Address := context.message.address

end Context

/-- The event of an instruction that waits for a nested message. -/
structure PendingStep where
  pc : Nat
  byte : UInt8
  name : String
  used : Nat
  deriving DecidableEq, Repr

/-- Where the result of a nested message goes. -/
inductive Receiver where
  | call (offset size checkpoint : Nat)
  | create
  deriving DecidableEq, Repr

structure Resumption where
  /-- Gas given along, stipend included. -/
  gas : Nat
  receiver : Receiver
  step : Option PendingStep
  deriving DecidableEq, Repr

structure NestedCall where
  message : Message
  kind : MessageKind
  resumption : Resumption

inductive Control where
  | next
  | jump (index : Nat)
  | halt (reason : Halt)
  | revert
  | call (nested : NestedCall)

abbrev Exec (σ : Type) := EStateM Interrupt (Host σ)

/-- An instruction that reaches beyond its frame. -/
abbrev InstructionM (σ : Type) := StateT Frame (Exec σ)

namespace InstructionM

variable {σ α : Type}

def ofFrame (action : FrameM α) : InstructionM σ α := fun frame host =>
  match action frame with
  | .ok result => .ok result host
  | .error interrupt => .error interrupt host

instance : MonadLift FrameM (InstructionM σ) := ⟨ofFrame⟩

def host (action : HostM σ α) : InstructionM σ α := fun frame host =>
  match action host with
  | .ok value host => .ok (value, frame) host
  | .error failure host => .error (.failure failure) host

end InstructionM

def ensureMutable (message : Message) : FrameM Unit :=
  FrameM.faultIf message.isStatic .staticStateChangeViolation

end Evm
