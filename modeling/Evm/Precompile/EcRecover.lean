import Evm.Curve.Secp256k1

/-!
# Recovery of a signer

The input is a digest, the parity of the signature's point as 27 or 28, and the two parts of the
signature, each in 32 bytes, with zeros past its end.
-/

namespace Evm

namespace EcRecover

def order : Bytes := Bytes.ofNat 32 Secp256k1.order

def halfOrder : Bytes :=
  Bytes.ofNat 32 0x7fffffffffffffffffffffffffffffff5d576e7357a4501ddfe92f46681b20a0

def odd? (v : Bytes) : Option Bool :=
  if v = Bytes.ofNat 32 27 then some false
  else if v = Bytes.ofNat 32 28 then some true
  else none

/-- Brings the second part of a signature into the lower half, and turns its point with it. Parts
of one size are ordered as their bytes are. -/
def lower (signature : Bytes) (odd : Bool) : Bytes × Bool :=
  let s := signature.extract 32 64
  if halfOrder < s ∧ s < order then
    let low := Bytes.minimal (Bytes.toNat order - Bytes.toNat s)
    (signature.extract 0 32 ++ low.padLeft 32, !odd)
  else (signature, odd)

/-- The signer's address in 32 bytes; nothing where there is none. The key is found by `recover`
from the digest, the signature and whether its point is odd. -/
def signer (recover : Bytes → Bytes → Bool → Option Bytes) (data : Bytes) : Bytes :=
  let input := data.window 0 128
  match odd? (input.extract 32 64) with
  | none => #[]
  | some odd =>
    let (signature, odd) := lower (input.extract 64 128) odd
    match recover (input.extract 0 32) signature odd with
    | some key => Bytes.zeros 12 ++ (keccak256 key).extract 12 32
    | none => #[]

def recoverKey (digest signature : Bytes) (odd : Bool) : Option Bytes :=
  let r := Bytes.toNat (signature.extract 0 32)
  let s := Bytes.toNat (signature.extract 32 64)
  (Secp256k1.recover? digest.toNat r s odd).map Secp256k1.encode

end EcRecover

end Evm
