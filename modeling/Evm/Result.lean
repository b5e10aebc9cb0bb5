import Evm.Message
import Evm.Outcome

/-!
# Results

What a frame hands back to the one that sent its message.
-/

namespace Evm

structure Log where
  address : Address
  topics : List Word
  data : Bytes
  deriving DecidableEq, Repr

structure Result where
  gasUsed : Nat
  /-- Refunds of the frame and of its successful children. -/
  gasRefund : Int
  output : Bytes
  outcome : Outcome
  logs : Array Log
  selfDestruct : AddressSet
  created : Option Address
  deriving DecidableEq, Repr

namespace Result

def isSuccess (result : Result) : Bool := result.outcome.isSuccess

/-- A frame that faulted spent all its gas and left nothing behind. -/
def faulted (message : Message) (cause : Exception) : Result where
  gasUsed := message.gasLimit
  gasRefund := 0
  output := #[]
  outcome := .faulted cause
  logs := #[]
  selfDestruct := message.selfDestruct
  created := none

end Result

end Evm
