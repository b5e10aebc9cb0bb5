import Evm.Curve.Bn254

/-!
# Pairing

The optimal ate pairing on BN254. The target field is a tower: `v³ = xi` over the quadratic
extension and `w² = v` over that.
-/

namespace Evm.Bn254

open CurveField

/-- `a + b v + c v²`. -/
structure Fq6 where
  a : Fq2
  b : Fq2
  c : Fq2
  deriving DecidableEq

namespace Fq6

def zero : Fq6 := ⟨CurveField.zero, CurveField.zero, CurveField.zero⟩

instance : Add Fq6 := ⟨fun x y => ⟨x.a + y.a, x.b + y.b, x.c + y.c⟩⟩
instance : Sub Fq6 := ⟨fun x y => ⟨x.a - y.a, x.b - y.b, x.c - y.c⟩⟩

instance : Mul Fq6 := ⟨fun x y =>
  let aa := x.a * y.a
  let bb := x.b * y.b
  let cc := x.c * y.c
  ⟨aa + xi * ((x.b + x.c) * (y.b + y.c) - bb - cc),
   (x.a + x.b) * (y.a + y.b) - aa - bb + xi * cc,
   (x.a + x.c) * (y.a + y.c) - aa - cc + bb⟩⟩

def shift (x : Fq6) : Fq6 := ⟨xi * x.c, x.a, x.b⟩

end Fq6

/-- `a + b w`. -/
structure Fq12 where
  a : Fq6
  b : Fq6
  deriving DecidableEq

namespace Fq12

def one : Fq12 := ⟨⟨CurveField.one, CurveField.zero, CurveField.zero⟩, Fq6.zero⟩

def mul (x y : Fq12) : Fq12 :=
  let aa := x.a * y.a
  let bb := x.b * y.b
  ⟨aa + bb.shift, (x.a + x.b) * (y.a + y.b) - aa - bb⟩

def mulPow (acc base : Fq12) (exponent : Nat) : Fq12 :=
  if h : exponent = 0 then acc
  else mulPow (if exponent % 2 = 1 then acc.mul base else acc) (base.mul base) (exponent / 2)
termination_by exponent
decreasing_by omega

def pow (base : Fq12) (exponent : Nat) : Fq12 := mulPow one base exponent

end Fq12

structure Twisted where
  x : Fq2
  y : Fq2

structure Plain where
  x : Fq
  y : Fq

def line (slope : Fq2) (t : Twisted) (p : Plain) : Fq12 :=
  ⟨⟨⟨p.y, zero⟩, zero, zero⟩, ⟨-(slope.scale p.x), slope * t.x - t.y, zero⟩⟩

/-- The third point on a line, negated. -/
def chord (slope : Fq2) (t : Twisted) (x : Fq2) : Twisted :=
  let sum := square slope - t.x - x
  ⟨sum, slope * (t.x - sum) - t.y⟩

def tangentSlope (t : Twisted) : Fq2 := triple (square t.x) * inverse (double t.y)

def secantSlope (t q : Twisted) : Fq2 := (q.y - t.y) * inverse (q.x - t.x)

structure Miller where
  value : Fq12
  point : Twisted

namespace Miller

def double (m : Miller) (p : Plain) : Miller :=
  let slope := tangentSlope m.point
  ⟨(m.value.mul m.value).mul (line slope m.point p), chord slope m.point m.point.x⟩

def add (m : Miller) (q : Twisted) (p : Plain) : Miller :=
  let slope := secantSlope m.point q
  ⟨m.value.mul (line slope m.point p), chord slope m.point q.x⟩

end Miller

def loopCount : Nat := 6 * 4965661367192848881 + 2

/-- The bits of the count below the highest, highest first. -/
def loopBits : List Bool :=
  (List.range loopCount.log2).reverse.map loopCount.testBit

def frobeniusX : Fq2 := pow xi ((modulus - 1) / 3)
def frobeniusY : Fq2 := pow xi ((modulus - 1) / 2)

/-- The map that raises coordinates to the modulus, on the twisted curve. -/
def frobenius (q : Twisted) : Twisted :=
  ⟨q.x.conjugate * frobeniusX, q.y.conjugate * frobeniusY⟩

/-- The pairing of two points before the last power. -/
def millerLoop (p : Plain) (q : Twisted) : Fq12 :=
  let m := loopBits.foldl (fun (m : Miller) bit =>
    if bit then (m.double p).add q p else m.double p) ⟨.one, q⟩
  let q1 := frobenius q
  let q2 := frobenius q1
  ((m.add q1 p).add ⟨q2.x, -q2.y⟩ p).value

def finalExponent : Nat := (Nat.pow modulus 12 - 1) / order

/-- Pairs with infinity contribute nothing. -/
def millerOf : Point Fq × Point Fq2 → Fq12
  | (.affine px py, .affine qx qy) => millerLoop ⟨px, py⟩ ⟨qx, qy⟩
  | _ => .one

def pairingIsOne (pairs : List (Point Fq × Point Fq2)) : Bool :=
  let product := pairs.foldl (fun acc pair => Fq12.mul acc (millerOf pair)) .one
  product.pow finalExponent == .one

end Evm.Bn254
