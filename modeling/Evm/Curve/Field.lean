import Evm.Modular

/-!
# Fields of curves

The arithmetic that the curves need, for the integers modulo a prime and for their quadratic
extension by a square root of minus one.
-/

namespace Evm

/-- Field operations as data. The inverse of zero is zero. -/
class CurveField (F : Type) extends Add F, Sub F, Mul F, Neg F where
  zero : F
  one : F
  inverse : F → F

namespace CurveField

variable {F : Type} [CurveField F]

def double (a : F) : F := a + a

def triple (a : F) : F := a + a + a

def square (a : F) : F := a * a

def mulPow (acc base : F) (exponent : Nat) : F :=
  if h : exponent = 0 then acc
  else mulPow (if exponent % 2 = 1 then acc * base else acc) (base * base) (exponent / 2)
termination_by exponent
decreasing_by omega

def pow (base : F) (exponent : Nat) : F := mulPow one base exponent

end CurveField

instance (p : Nat) [@NeZero Nat Zero.ofOfNat0 p] : CurveField (Fin p) where
  zero := 0
  one := 1
  inverse a := Fin.ofNat p (Modular.inverse p a.val)

/-- `re + im * i`, where `i * i` is minus one. -/
structure Complex (F : Type) where
  re : F
  im : F
  deriving DecidableEq, Repr

namespace Complex

variable {F : Type} [CurveField F]

def conjugate (a : Complex F) : Complex F := ⟨a.re, -a.im⟩

def scale (a : Complex F) (k : F) : Complex F := ⟨a.re * k, a.im * k⟩

instance : CurveField (Complex F) where
  zero := ⟨CurveField.zero, CurveField.zero⟩
  one := ⟨CurveField.one, CurveField.zero⟩
  add a b := ⟨a.re + b.re, a.im + b.im⟩
  sub a b := ⟨a.re - b.re, a.im - b.im⟩
  neg a := ⟨-a.re, -a.im⟩
  mul a b :=
    let re := a.re * b.re
    let im := a.im * b.im
    ⟨re - im, (a.re + a.im) * (b.re + b.im) - re - im⟩
  inverse a :=
    let norm := CurveField.inverse (a.re * a.re + a.im * a.im)
    ⟨a.re * norm, -(a.im * norm)⟩

end Complex

end Evm
