/-!
# Decimal text

Unsigned numbers below a limit, read from decimal digits.
-/

namespace Evm.Decimal

inductive Error where
  | empty
  | badDigit
  | tooLarge
  deriving DecidableEq, Repr

def Error.message : Error → String
  | .empty => "cannot parse integer from empty string"
  | .badDigit => "invalid digit found in string"
  | .tooLarge => "number too large to fit in target type"

/-- Goes on from the value of the digits before. The first fault from the left is the error, and
a bad digit is found before the number is too large by it. -/
def readDigits (limit value : Nat) : List Char → Except Error Nat
  | [] => .ok value
  | c :: rest =>
    if c.isDigit then
      let next := 10 * value + (c.toNat - 48)
      if next < limit then readDigits limit next rest else .error .tooLarge
    else .error .badDigit

def read (limit : Nat) (text : String) : Except Error Nat :=
  match text.toList with
  | [] => .error .empty
  | ['+'] => .error .badDigit
  | '+' :: digits => readDigits limit 0 digits
  | digits => readDigits limit 0 digits

/-- The number that a text without a plus or a leading zero writes. -/
def canonical? (limit : Nat) (text : String) : Option Nat :=
  match text.toList with
  | [] => none
  | '0' :: _ :: _ => none
  | digits => (readDigits limit 0 digits).toOption

end Evm.Decimal
