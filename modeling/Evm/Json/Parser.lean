import Evm.Json.Basic

/-!
# Reading JSON

A value is read from the front of the text, and the rest handed on. Every reader takes off at
least one character or stops, so twice the length of the text bounds the depth of the recursion.
-/

namespace Evm.Json

namespace Parser

def skipBlanks : List Char → List Char
  | c :: rest =>
    if c = ' ' ∨ c = '\n' ∨ c = '\t' ∨ c = '\r' then skipBlanks rest else c :: rest
  | [] => []

def hexDigit? (c : Char) : Option Nat :=
  if '0' ≤ c ∧ c ≤ '9' then some (c.toNat - 48)
  else if 'a' ≤ c ∧ c ≤ 'f' then some (c.toNat - 87)
  else if 'A' ≤ c ∧ c ≤ 'F' then some (c.toNat - 55)
  else none

def codeUnit : List Char → Option (Nat × List Char)
  | a :: b :: c :: d :: rest => do
    let digits ← [a, b, c, d].mapM hexDigit?
    return (digits.foldl (fun n digit => 16 * n + digit) 0, rest)
  | _ => none

/-- The character of a code unit, which takes up a second one if it is the first of a pair. A
unit of a pair does not stand alone. -/
def unicodeEscape (text : List Char) : Option (Char × List Char) := do
  let (unit, rest) ← codeUnit text
  if 0xd800 ≤ unit ∧ unit < 0xdc00 then
    match rest with
    | '\\' :: 'u' :: rest =>
      let (low, rest) ← codeUnit rest
      if 0xdc00 ≤ low ∧ low < 0xe000 then
        some (Char.ofNat (0x10000 + (unit - 0xd800) * 0x400 + (low - 0xdc00)), rest)
      else none
    | _ => none
  else if 0xdc00 ≤ unit ∧ unit < 0xe000 then none
  else some (Char.ofNat unit, rest)

def escape : List Char → Option (Char × List Char)
  | '"' :: rest => some ('"', rest)
  | '\\' :: rest => some ('\\', rest)
  | '/' :: rest => some ('/', rest)
  | 'b' :: rest => some (Char.ofNat 8, rest)
  | 'f' :: rest => some (Char.ofNat 12, rest)
  | 'n' :: rest => some ('\n', rest)
  | 'r' :: rest => some ('\r', rest)
  | 't' :: rest => some ('\t', rest)
  | 'u' :: rest => unicodeEscape rest
  | _ => none

/-- The string up to its closing quote; `found` holds its characters so far, last first. -/
def string : Nat → List Char → List Char → Option (String × List Char)
  | 0, _, _ => none
  | fuel + 1, found, text =>
    match text with
    | '"' :: rest => some (String.ofList found.reverse, rest)
    | '\\' :: rest => do
      let (c, rest) ← escape rest
      string fuel (c :: found) rest
    | c :: rest => if c.toNat < 32 then none else string fuel (c :: found) rest
    | [] => none

def natOfDigits (digits : List Char) : Nat :=
  digits.foldl (fun n c => 10 * n + (c.toNat - 48)) 0

def digits (text : List Char) : Option (List Char × List Char) :=
  match text.span Char.isDigit with
  | ([], _) => none
  | found => some found

def wholePart (text : List Char) : Option (List Char × List Char) :=
  match text with
  | '0' :: rest => if (rest.head?.map Char.isDigit).getD false then none else some (['0'], rest)
  | _ => digits text

def fraction (text : List Char) : Option (List Char × List Char) :=
  match text with
  | '.' :: rest => do
    let (found, rest) ← digits rest
    return ('.' :: found, rest)
  | _ => some ([], text)

def exponent (text : List Char) : Option (List Char × List Char) :=
  match text with
  | c :: rest =>
    if c = 'e' ∨ c = 'E' then
      let (sign, rest) :=
        match rest with
        | '+' :: rest => (['+'], rest)
        | '-' :: rest => (['-'], rest)
        | _ => ([], rest)
      do
        let (found, rest) ← digits rest
        return (c :: sign ++ found, rest)
    else some ([], text)
  | [] => some ([], text)

/-- A number. It is an integer if it has neither fraction nor exponent, fits 64 bits, and is not
the negative zero. -/
def number (negative : Bool) (text : List Char) : Option (Json × List Char) := do
  let (whole, rest) ← wholePart text
  let (frac, rest) ← fraction rest
  let (exp, rest) ← exponent rest
  let n := natOfDigits whole
  let literal := (if negative then ['-'] else []) ++ whole ++ frac ++ exp
  if frac.isEmpty ∧ exp.isEmpty ∧
      (if negative then n ≠ 0 ∧ n ≤ signedLimit else n < 1 <<< 64) then
    return (.int (if negative then -n else n), rest)
  else return (.real (String.ofList literal), rest)

/-- A later value of a name replaces an earlier one. -/
def setField (fields : List (String × Json)) (name : String) (value : Json) :
    List (String × Json) :=
  (name, value) :: fields.filter fun field => field.1 != name

mutual

def value : Nat → List Char → Option (Json × List Char)
  | 0, _ => none
  | fuel + 1, text =>
    match skipBlanks text with
    | 'n' :: 'u' :: 'l' :: 'l' :: rest => some (.null, rest)
    | 't' :: 'r' :: 'u' :: 'e' :: rest => some (.bool true, rest)
    | 'f' :: 'a' :: 'l' :: 's' :: 'e' :: rest => some (.bool false, rest)
    | '"' :: rest => do
      let (s, rest) ← string fuel [] rest
      return (.str s, rest)
    | '[' :: rest =>
      match skipBlanks rest with
      | ']' :: rest => some (.arr [], rest)
      | rest => items fuel [] rest
    | '{' :: rest =>
      match skipBlanks rest with
      | '}' :: rest => some (.obj [], rest)
      | rest => fields fuel [] rest
    | '-' :: rest => number true rest
    | rest => number false rest

/-- The items of an array from the next one on; `found` holds those before it, last first. -/
def items : Nat → List Json → List Char → Option (Json × List Char)
  | 0, _, _ => none
  | fuel + 1, found, text => do
    let (item, rest) ← value fuel text
    match skipBlanks rest with
    | ',' :: rest => items fuel (item :: found) rest
    | ']' :: rest => some (.arr (item :: found).reverse, rest)
    | _ => none

def fields : Nat → List (String × Json) → List Char → Option (Json × List Char)
  | 0, _, _ => none
  | fuel + 1, found, text =>
    match skipBlanks text with
    | '"' :: rest => do
      let (name, rest) ← string fuel [] rest
      match skipBlanks rest with
      | ':' :: rest =>
        let (item, rest) ← value fuel rest
        let found := setField found name item
        match skipBlanks rest with
        | ',' :: rest => fields fuel found rest
        | '}' :: rest => some (.obj found.reverse, rest)
        | _ => none
      | _ => none
    | _ => none

end

end Parser

def parse? (text : String) : Option Json :=
  let chars := text.toList
  match Parser.value (2 * chars.length + 2) chars with
  | some (value, rest) => if (Parser.skipBlanks rest).isEmpty then some value else none
  | none => none

end Evm.Json
