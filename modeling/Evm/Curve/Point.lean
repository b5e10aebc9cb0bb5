import Evm.Curve.Field

/-!
# Points

Points of a curve `y² = x³ + b`. Sums are formed in Jacobian coordinates, where `(x, y, z)`
stands for `(x / z², y / z³)` and `z = 0` for the point at infinity.
-/

namespace Evm

open CurveField

inductive Point (F : Type) where
  | infinity
  | affine (x y : F)
  deriving DecidableEq, Repr

structure Jacobian (F : Type) where
  x : F
  y : F
  z : F
  deriving DecidableEq, Repr

namespace Jacobian

variable {F : Type} [CurveField F] [DecidableEq F]

def infinity : Jacobian F := ⟨one, one, zero⟩

def ofPoint : Point F → Jacobian F
  | .infinity => infinity
  | .affine x y => ⟨x, y, one⟩

def toPoint (p : Jacobian F) : Point F :=
  if p.z = zero then .infinity
  else
    let inv := inverse p.z
    let inv2 := square inv
    .affine (p.x * inv2) (p.y * (inv2 * inv))

def double (p : Jacobian F) : Jacobian F :=
  let a := square p.x
  let b := square p.y
  let c := square b
  let d := CurveField.double (square (p.x + b) - a - c)
  let e := triple a
  let x := square e - CurveField.double d
  let y := e * (d - x) - CurveField.double (CurveField.double (CurveField.double c))
  ⟨x, y, CurveField.double (p.y * p.z)⟩

def add (p q : Jacobian F) : Jacobian F :=
  if p.z = zero then q
  else if q.z = zero then p
  else
    let pz2 := square p.z
    let qz2 := square q.z
    let u1 := p.x * qz2
    let u2 := q.x * pz2
    let s1 := p.y * (qz2 * q.z)
    let s2 := q.y * (pz2 * p.z)
    if u1 = u2 then
      if s1 = s2 then p.double else infinity
    else
      let h := u2 - u1
      let r := s2 - s1
      let h2 := square h
      let h3 := h2 * h
      let v := u1 * h2
      let x := square r - h3 - CurveField.double v
      ⟨x, r * (v - x) - s1 * h3, h * (p.z * q.z)⟩

def addMul (acc p : Jacobian F) (scalar : Nat) : Jacobian F :=
  if h : scalar = 0 then acc
  else addMul (if scalar % 2 = 1 then acc.add p else acc) p.double (scalar / 2)
termination_by scalar
decreasing_by omega

def mul (p : Jacobian F) (scalar : Nat) : Jacobian F := addMul infinity p scalar

end Jacobian

namespace Point

variable {F : Type} [CurveField F] [DecidableEq F]

def isOn (b : F) : Point F → Bool
  | .infinity => true
  | .affine x y => square y = square x * x + b

def neg : Point F → Point F
  | .infinity => .infinity
  | .affine x y => .affine x (-y)

def add (p q : Point F) : Point F := ((Jacobian.ofPoint p).add (.ofPoint q)).toPoint

def mul (p : Point F) (scalar : Nat) : Point F := ((Jacobian.ofPoint p).mul scalar).toPoint

end Point

end Evm
