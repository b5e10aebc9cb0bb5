import Evm.Text
import Evm.Word

/-!
# Hexadecimal text

Byte strings and words as base-16 digits of either case. Any number of leading `0x` marks is
dropped before the digits are read; a mark is always written.
-/

namespace Evm

namespace Hex

inductive Error where
  | oddLength
  | badDigit (byte : UInt8) (position : Nat)
  deriving DecidableEq, Repr

def Error.message : Error → String
  | .oddLength => "Odd number of digits"
  | .badDigit byte position =>
    "Invalid character " ++ Text.quoteByte byte ++ " at position " ++ position.repr

def digit? (c : Char) : Option Nat :=
  let n := c.toNat
  if 48 ≤ n ∧ n ≤ 57 then some (n - 48)
  else if 97 ≤ n ∧ n ≤ 102 then some (n - 87)
  else if 65 ≤ n ∧ n ≤ 70 then some (n - 55)
  else none

def dropMarks : List Char → List Char
  | '0' :: 'x' :: rest => dropMarks rest
  | text => text

/-- Reads pairs of digits; `position` counts the digits before the text. -/
def decodePairs (position : Nat) (bytes : Bytes) : List Char → Except Error Bytes
  | [] => .ok bytes
  | [c] =>
    match digit? c with
    | none => .error (.badDigit (Text.leadByte c) position)
    | some _ => .error .oddLength
  | c :: d :: rest =>
    match digit? c, digit? d with
    | none, _ => .error (.badDigit (Text.leadByte c) position)
    | some _, none => .error (.badDigit (Text.leadByte d) (position + 1))
    | some high, some low =>
      decodePairs (position + 2) (bytes.push (UInt8.ofNat (16 * high + low))) rest

/-- Reads digits without marks. An odd length is found before a bad digit. -/
def decode (digits : List Char) : Except Error Bytes :=
  if Text.byteLength digits % 2 = 0 then decodePairs 0 #[] digits else .error .oddLength

def digit (n : Nat) : Char :=
  Char.ofNat (if n < 10 then 48 + n else 87 + n)

def encode (bytes : Bytes) : String :=
  bytes.foldl (fun text byte =>
    (text.push (digit (byte.toNat / 16))).push (digit (byte.toNat % 16))) ""

end Hex

namespace Bytes

/-- The bytes a text denotes, with blanks around it left out. -/
def ofText (text : String) : Except TextError Bytes :=
  match Hex.decode (Hex.dropMarks (Text.trim text.toList)) with
  | .ok bytes => .ok bytes
  | .error _ => .error (.hex text)

def toText (bytes : Bytes) : String := "0x" ++ Hex.encode bytes

end Bytes

namespace Word

/-- The word a text denotes: at most 64 digits, none for zero. -/
def ofText (text : String) : Except TextError Word :=
  let digits := Hex.dropMarks text.toList
  match digits.mapM Hex.digit? with
  | some values =>
    if digits.length ≤ 64 then
      .ok (BitVec.ofNat 256 (values.foldl (fun value digit => 16 * value + digit) 0))
    else .error (.word (String.ofList digits))
  | none => .error (.word (String.ofList digits))

def digits (word : Word) : String := String.ofList (Nat.toDigits 16 word.toNat)

def toText (word : Word) : String := "0x" ++ word.digits

end Word

end Evm
