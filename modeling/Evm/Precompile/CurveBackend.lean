import Evm.Curve.Pairing

/-!
# Curve routines

Addition, multiplication and pairing on byte strings, as the contracts for the pairing-friendly
curve call them.
-/

namespace Evm

/-- The routines of the pairing-friendly curve. An empty output rejects the input. -/
structure CurveBackend where
  /-- Two points of 64 bytes to their sum. -/
  add : Bytes → Bytes
  /-- A point of 64 bytes and a scalar of 32 to their product. -/
  mul : Bytes → Bytes
  /-- Pairs of points, 192 bytes each, to a truth value of 32 bytes. -/
  pairing : Bytes → Bytes

namespace Bn254

/-- The sum of the two points in 128 bytes, with anything that adds points. -/
def addBytesBy (add : Point Fq → Point Fq → Point Fq) (input : Bytes) : Bytes :=
  match decodeG1 (input.extract 0 64), decodeG1 (input.extract 64 128) with
  | some p, some q => encodeG1 (add p q)
  | _, _ => #[]

def mulBytesBy (mul : Point Fq → Nat → Point Fq) (input : Bytes) : Bytes :=
  match decodeG1 (input.extract 0 64) with
  | some p => encodeG1 (mul p (Bytes.toNat (input.extract 64 96) % order))
  | none => #[]

def addBytes : Bytes → Bytes := addBytesBy Point.add

def mulBytes : Bytes → Bytes := mulBytesBy Point.mul

def decodePair (bytes : Bytes) : Option (Point Fq × Point Fq2) := do
  let p ← decodeG1 (bytes.extract 0 64)
  let q ← decodeG2 (bytes.extract 64 192)
  return (p, q)

def pairingBytes (input : Bytes) : Bytes :=
  if input.size % 192 = 0 then
    let chunks := (List.range (input.size / 192)).map fun i =>
      input.extract (192 * i) (192 * (i + 1))
    match chunks.mapM decodePair with
    | some pairs => Bytes.ofNat 32 (if pairingIsOne pairs then 1 else 0)
    | none => #[]
  else #[]

def backend : CurveBackend := ⟨addBytes, mulBytes, pairingBytes⟩

end Bn254

end Evm
