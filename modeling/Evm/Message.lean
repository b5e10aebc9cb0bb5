import Evm.AddressSet

/-!
# Messages

The request to run code, made by a transaction or by a frame.
-/

namespace Evm

structure Message where
  caller : Address
  /-- The account the code works on; none for a creation. -/
  target : Option Address
  /-- The account the code was taken from, where that is another one. -/
  codeSource : Option Address
  value : Word
  data : Bytes
  code : Bytes
  gasLimit : Nat
  depth : Nat
  isStatic : Bool
  salt : Option Word
  /-- The accounts marked for destruction before. -/
  selfDestruct : AddressSet
  deriving DecidableEq, Repr

namespace Message

def blank : Message where
  caller := 0
  target := some 0
  codeSource := none
  value := 0
  data := #[]
  code := #[]
  gasLimit := 0
  depth := 0
  isStatic := false
  salt := none
  selfDestruct := .empty

instance : Inhabited Message := ⟨blank⟩

def isCreation (message : Message) : Bool := message.target.isNone

/-- The account that runs the code; zero while a creation has none. -/
def address (message : Message) : Address := message.target.getD 0

def codeAddress (message : Message) : Address := message.codeSource.getD message.address

end Message

end Evm
