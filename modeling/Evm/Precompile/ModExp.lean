import Evm.Gas
import Evm.Modular

/-!
# Modular exponentiation of byte strings

The input is three lengths of 32 bytes each and then base, exponent and modulus, with zeros past
its end.
-/

namespace Evm

namespace ModExp

/-- A length in the header, or the largest number of 64 bits. -/
def readLength (data : Bytes) (offset : Nat) : Nat :=
  Gas.saturate (Bytes.toNat (data.window offset 32))

/-- Number of squarings that an exponent of `length` bytes with the given leading part takes. -/
def exponentBits (length head : Nat) : Nat :=
  let bits := head.log2
  if length ≤ 32 then bits else Gas.saturate (Gas.saturate (8 * (length - 32)) + bits)

def saturate128 (n : Nat) : Nat := min n ((1 <<< 128) - 1)

def price (fork : Fork) (baseLength exponentLength modulusLength head : Nat) : Nat :=
  let x := max baseLength modulusLength
  let rounds := max (exponentBits exponentLength head) 1
  if .berlin ≤ fork then
    let words := (x + 7) / 8
    let work := saturate128 (saturate128 (words * words) * rounds)
    Gas.saturate (max (work / fork.fee .modExpDivisor) (fork.fee .modExpMin))
  else
    let work :=
      if x ≤ 64 then x * x
      else if x ≤ 1024 then x * x / 4 + 96 * x - 3072
      else saturate128 (saturate128 (x * x) / 16 + 480 * x) - 199680
    Gas.saturate (saturate128 (work * rounds) / fork.fee .modExpDivisor)

structure Header where
  baseLength : Nat
  exponentLength : Nat
  modulusLength : Nat

def header (data : Bytes) : Header :=
  ⟨readLength data 0, readLength data 32, readLength data 64⟩

def exponentOffset (h : Header) : Nat := Gas.saturate (96 + h.baseLength)

def modulusOffset (h : Header) : Nat := Gas.saturate (exponentOffset h + h.exponentLength)

/-- The price of an input. Only the first 32 bytes of the exponent count in full. -/
def priceOf (fork : Fork) (data : Bytes) : Nat :=
  let h := header data
  let head := Bytes.toNat (data.window (exponentOffset h) (min h.exponentLength 32))
  price fork h.baseLength h.exponentLength h.modulusLength head

/-- The power as wide as the modulus; zero modulo zero. A modulus other than zero lies past the
exponent, so no byte of the exponent is missing there. There is none where an operand is too large
for a buffer. -/
def power? (data : Bytes) : Option Bytes := do
  let h := header data
  if h.baseLength = 0 ∧ h.modulusLength = 0 then return #[]
  else
    let modulus := Bytes.toNat (← data.padded? (modulusOffset h) h.modulusLength)
    let output ← Bytes.buffer? h.modulusLength
    if modulus ≤ 1 then return output
    else
      let base := Bytes.toNat (← data.padded? 96 h.baseLength)
      let exponent := Bytes.toNat (data.present (exponentOffset h) h.exponentLength)
      return Bytes.ofNat h.modulusLength (Modular.pow modulus base exponent)

end ModExp

end Evm
