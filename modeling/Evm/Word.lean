import Evm.Bytes
import Evm.Modular

/-!
# Machine words

Words are 256 bits wide. Arithmetic wraps; a signed operation reads its operands in two's
complement; division by zero gives zero.
-/

namespace Evm

abbrev Word := BitVec 256

/-- Counters, lengths and offsets of the machine fit 64 bits. -/
def machineLimit : Nat := 1 <<< 64

namespace Word

def limit : Nat := 1 <<< 256

def max : Word := BitVec.allOnes 256

def ofBool (flag : Bool) : Word := if flag then 1 else 0

def ofBytes (bytes : Bytes) : Word := BitVec.ofNat 256 bytes.toNat

def ofBytes? (bytes : Bytes) : Option Word :=
  if bytes.size ≤ 32 then some (ofBytes bytes) else none

def toBytes (word : Word) : Bytes := Bytes.ofNat 32 word.toNat

/-- The value, if it fits 64 bits. -/
def narrow? (word : Word) : Option Nat :=
  if word.toNat < machineLimit then some word.toNat else none

def saturate (word : Word) : Nat := min word.toNat (machineLimit - 1)

def isZero (word : Word) : Bool := word == 0

def isNegative (word : Word) : Bool := word.msb

/-- The bit at `index`, counted from the least significant end. -/
def bit (word : Word) (index : Nat) : Bool := index < 256 && word.getLsbD index

def bitLength (word : Word) : Nat :=
  if word.toNat = 0 then 0 else word.toNat.log2 + 1

/-- The byte at `index`, counted from the most significant end; zero from 32 on. -/
def byteAt (word : Word) (index : Nat) : UInt8 :=
  if index < 32 then UInt8.ofNat (word.toNat >>> (8 * (31 - index))) else 0

def shiftLeft (word : Word) (count : Nat) : Word :=
  if count < 256 then word <<< count else 0

def shiftRight (word : Word) (count : Nat) : Word :=
  if count < 256 then word >>> count else 0

def shiftRightSigned (word : Word) (count : Nat) : Word :=
  if count < 256 then word.sshiftRight count else if word.isNegative then max else 0

/-- Division toward zero of two's complement values. The magnitudes are divided, and the quotient
is negated where one operand is negative. -/
def divSigned (a b : Word) : Word :=
  if b = 0 then 0
  else
    let quotient := a.abs / b.abs
    if a.isNegative = b.isNegative then quotient else -quotient

/-- The remainder of division toward zero, with the sign of the dividend. -/
def modSigned (a b : Word) : Word :=
  if b = 0 then 0
  else
    let rest := a.abs % b.abs
    if a.isNegative then -rest else rest

def mod (a b : Word) : Word := if b = 0 then 0 else a % b

def addMod (a b modulus : Word) : Word :=
  if modulus = 0 then 0
  else ((a.setWidth 512 + b.setWidth 512) % modulus.setWidth 512).setWidth 256

def mulMod (a b modulus : Word) : Word :=
  if modulus = 0 then 0
  else ((a.setWidth 512 * b.setWidth 512) % modulus.setWidth 512).setWidth 256

def pow (base exponent : Word) : Word :=
  BitVec.ofNat 256 (Modular.pow limit base.toNat exponent.toNat)

/-- Extends the sign of the byte at `index`, counted from the least significant end. -/
def extendSign (word index : Word) : Word :=
  if 31 ≤ index then word
  else
    let sign := index.saturate * 8 + 7
    let mask := ((1 : Word) <<< (sign + 1)) - 1
    if word.bit sign then word ||| ~~~mask else word &&& mask

def add? (a b : Word) : Option Word :=
  if a.toNat + b.toNat < limit then some (a + b) else none

def sub? (a b : Word) : Option Word :=
  if b ≤ a then some (a - b) else none

def monus (a b : Word) : Word := if b ≤ a then a - b else 0

def addWraps (a b : Word) : Bool := limit ≤ a.toNat + b.toNat
def mulWraps (a b : Word) : Bool := limit ≤ a.toNat * b.toNat
def subWraps (a b : Word) : Bool := a < b

def div? (a b : Word) : Option Word := if b = 0 then none else some (a / b)

def mod? (a b : Word) : Option Word := if b = 0 then none else some (a % b)

end Word

end Evm
