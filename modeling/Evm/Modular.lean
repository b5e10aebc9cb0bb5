/-!
# Modular exponentiation

Powers are taken by repeated squaring, so that an exponent costs its number of bits.
-/

namespace Evm.Modular

def mulPow (modulus acc base exponent : Nat) : Nat :=
  if h : exponent = 0 then acc % modulus
  else
    mulPow modulus (if exponent % 2 = 1 then acc * base % modulus else acc)
      (base * base % modulus) (exponent / 2)
termination_by exponent
decreasing_by omega

def pow (modulus base exponent : Nat) : Nat :=
  mulPow modulus 1 (base % modulus) exponent

/-- The inverse of `value` modulo a prime; zero has the inverse zero. -/
def inverse (prime value : Nat) : Nat :=
  pow prime value (prime - 2)

end Evm.Modular
