import Evm.Proofs.Numerals
import Evm.Proofs.Precompiled
import Mathlib.Logic.Basic

/-!
# Malleable signatures

A signature whose second part is taken from the order, with its point turned, is a signature of the
same key. Of the two forms only the lower one is recovered from, so that both come to one answer.
The order of the curve is odd, and so no part is its own opposite.
-/

namespace Evm

namespace EcRecover

variable {digest r data other : Bytes} {v s : Nat} {odd : Bool}

/-- The greatest number of the lower half of the order. -/
def half : Nat := (Secp256k1.order - 1) / 2

def input (digest : Bytes) (v : Nat) (r : Bytes) (s : Nat) : Bytes :=
  digest ++ (Bytes.ofNat 32 v ++ (r ++ Bytes.ofNat 32 s))

end EcRecover

end Evm
