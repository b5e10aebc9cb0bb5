import Evm.Operation
import Evm.Result

/-!
# Events

What an execution reports while it runs.
-/

namespace Evm

inductive EventData where
  | call (kind : MessageKind) (caller : Address) (target : Option Address) (value : Word)
      (gas : Nat) (data : Bytes)
  /-- An instruction was charged and applied. -/
  | step (pc : Nat) (byte : UInt8) (name : String) (gasCost gasUsed gasRemaining : Nat)
  | precompile (address : Address) (gasUsed : Nat) (success : Bool)
  | exit (gasUsed : Nat) (outcome : Outcome)
  deriving DecidableEq, Repr

structure Event where
  depth : Nat
  data : EventData
  deriving DecidableEq, Repr

/-- What becomes of the events. A tracer that is not enabled is spared those of calls and steps. -/
structure Tracer (σ : Type) where
  /-- This may change with what was recorded. -/
  enabled : σ → Bool
  record : Event → σ → σ

namespace Tracer

def off : Tracer Unit := ⟨fun _ => false, fun _ _ => ()⟩

def log : Tracer (Array Event) := ⟨fun _ => true, fun event events => events.push event⟩

end Tracer

end Evm
