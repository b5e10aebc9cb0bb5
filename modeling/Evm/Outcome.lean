import Evm.Text

/-!
# Outcomes

How a frame ends.
-/

namespace Evm

inductive Exception where
  | outOfGas
  | invalidOpcode (byte : UInt8)
  | stackUnderflow
  | stackOverflow
  | invalidJumpDestination
  | staticStateChangeViolation
  | returnDataOutOfBounds
  | createCollision
  | codeSizeExceeded
  | reservedCode
  | initCodeSizeExceeded
  | insufficientBalance
  | nonceOverflow
  deriving DecidableEq, Repr

def Exception.message : Exception → String
  | .outOfGas => "Out of gas"
  | .invalidOpcode byte => "Invalid opcode: 0x" ++ Text.hexDigits 2 byte.toNat
  | .stackUnderflow => "Stack underflow"
  | .stackOverflow => "Stack overflow"
  | .invalidJumpDestination => "Invalid jump destination"
  | .staticStateChangeViolation => "State change in static context"
  | .returnDataOutOfBounds => "Return data out of bounds"
  | .createCollision => "Contract address collision"
  | .codeSizeExceeded => "Deployed code size exceeds the limit"
  | .reservedCode => "Deployed code starts with 0xef"
  | .initCodeSizeExceeded => "Init code size exceeds the limit"
  | .insufficientBalance => "Insufficient balance for transfer"
  | .nonceOverflow => "Nonce overflow"

inductive Halt where
  | stop
  | ret
  | selfDestruct
  deriving DecidableEq, Repr

inductive Outcome where
  | halted (reason : Halt)
  | reverted
  | faulted (cause : Exception)
  deriving DecidableEq, Repr

namespace Outcome

def isSuccess : Outcome → Bool
  | .halted _ => true
  | _ => false

def exception? : Outcome → Option Exception
  | .faulted cause => some cause
  | _ => none

end Outcome

end Evm
