import Evm.Bytes
import Evm.Curve.Point

/-!
# BN254

The two groups of the curve and their encodings. A coordinate is 32 bytes below the modulus; a
point is its coordinates, and all zeros for the point at infinity.
-/

namespace Evm.Bn254

open CurveField

def modulus : Nat := 0x30644e72e131a029b85045b68181585d97816a916871ca8d3c208c16d87cfd47

def order : Nat := 0x30644e72e131a029b85045b68181585d2833e84879b9709143e1f593f0000001

instance : @NeZero Nat Zero.ofOfNat0 modulus := ⟨by decide⟩

abbrev Fq := Fin modulus
abbrev Fq2 := Complex Fq

/-- The sixth power of the element that the twist scales by. -/
def xi : Fq2 := ⟨9, 1⟩

def b1 : Fq := 3

def b2 : Fq2 := (inverse xi).scale 3

def encodeField (x : Fq) : Bytes := Bytes.ofNat 32 x.val

/-- The field element that bytes reduce to, if they are the encoding of it. -/
def decodeField (bytes : Bytes) : Option Fq :=
  let x := Fin.ofNat modulus bytes.toNat
  if encodeField x = bytes then some x else none

def isZero (bytes : Bytes) : Bool := bytes.all (· == 0)

def decodeG1 (bytes : Bytes) : Option (Point Fq) := do
  let x ← decodeField (bytes.extract 0 32)
  let y ← decodeField (bytes.extract 32 64)
  if isZero (bytes.extract 0 64) then some .infinity
  else
    let point := .affine x y
    if point.isOn b1 then some point else none

/-- The point of the second group that 128 bytes encode, imaginary parts first. It must be a
multiple of the group's generator, not only a point of the twisted curve. -/
def decodeG2 (bytes : Bytes) : Option (Point Fq2) := do
  let xRe ← decodeField (bytes.extract 32 64)
  let xIm ← decodeField (bytes.extract 0 32)
  let yRe ← decodeField (bytes.extract 96 128)
  let yIm ← decodeField (bytes.extract 64 96)
  if isZero (bytes.extract 0 128) then some .infinity
  else
    let point := .affine ⟨xRe, xIm⟩ ⟨yRe, yIm⟩
    if point.isOn b2 ∧ point.mul order = .infinity then some point else none

def encodeG1 : Point Fq → Bytes
  | .infinity => Bytes.zeros 64
  | .affine x y => encodeField x ++ encodeField y

end Evm.Bn254
