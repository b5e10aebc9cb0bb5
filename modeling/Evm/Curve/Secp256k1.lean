import Evm.Curve.Point
import Evm.Hash.Keccak

/-!
# secp256k1

Recovery of the public key that made a signature.
-/

namespace Evm.Secp256k1

def prime : Nat := 0xfffffffffffffffffffffffffffffffffffffffffffffffffffffffefffffc2f

def order : Nat := 0xfffffffffffffffffffffffffffffffebaaedce6af48a03bbfd25e8cd0364141

instance : @NeZero Nat Zero.ofOfNat0 prime := ⟨by decide⟩

abbrev Fp := Fin prime

def generator : Point Fp :=
  .affine 0x79be667ef9dcbbac55a06295ce870b07029bfcdb2dce28d959f2815b16f81798
    0x483ada7726a3c4655da4fbfc0e1108a8fd17b448a68554199c47d08ffb10d4b8

/-- The point with the given first coordinate whose second one is odd as told. -/
def lift? (x : Nat) (odd : Bool) : Option (Point Fp) :=
  let x : Fp := Fin.ofNat prime x
  let right := x * x * x + 7
  let y := CurveField.pow right ((prime + 1) / 4)
  if y * y = right then
    some (.affine x (if decide (y.val % 2 = 1) = odd then y else -y))
  else none

/-- The key under which `(r, s)` signs `digest`, where `odd` tells the signature's point. -/
def recover? (digest r s : Nat) (odd : Bool) : Option (Point Fp) := do
  if r = 0 ∨ order ≤ r ∨ s = 0 ∨ order ≤ s then none
  else
    let point ← lift? r odd
    let inverse := Modular.inverse order r
    let u1 := (order - digest * inverse % order) % order
    let u2 := s * inverse % order
    let key := ((Jacobian.ofPoint generator).mul u1).add ((Jacobian.ofPoint point).mul u2)
    match key.toPoint with
    | .infinity => none
    | key => some key

def encode : Point Fp → Bytes
  | .infinity => Bytes.zeros 64
  | .affine x y => Bytes.ofNat 32 x.val ++ Bytes.ofNat 32 y.val

end Evm.Secp256k1
