/-!
# Text

Blank characters and the ways in which a text can fail to denote a value.
-/

namespace Evm

inductive TextError where
  | address
  | hex (text : String)
  | fork (text : String)
  | word (digits : String)
  deriving DecidableEq, Repr

def TextError.message : TextError → String
  | .address => "Invalid address"
  | .hex text => "Invalid hex string: '" ++ text ++ "'"
  | .fork text => "Unknown fork: '" ++ text ++ "'"
  | .word digits => "Invalid U256: '" ++ digits ++ "'."

namespace Text

/-- The characters with the property White_Space, by code point. -/
def isBlank (c : Char) : Bool :=
  let n := c.toNat
  (9 ≤ n && n ≤ 13) || n == 0x20 || n == 0x85 || n == 0xa0 || n == 0x1680 ||
    (0x2000 ≤ n && n ≤ 0x200a) || n == 0x2028 || n == 0x2029 || n == 0x202f ||
    n == 0x205f || n == 0x3000

def trim (text : List Char) : List Char :=
  ((text.dropWhile isBlank).reverse.dropWhile isBlank).reverse

def byteLength (text : List Char) : Nat :=
  text.foldl (fun length c => length + c.utf8Size) 0

def leadByte (c : Char) : UInt8 :=
  (String.utf8EncodeChar c).headD 0

/-- A character up to U+00FF between single quotes, with control characters, blanks other than
the space, the soft hyphen, the quote and the backslash escaped. -/
def quoteByte (byte : UInt8) : String :=
  let n := byte.toNat
  let body :=
    if n = 0 then "\\0"
    else if n = 9 then "\\t"
    else if n = 10 then "\\n"
    else if n = 13 then "\\r"
    else if n = 39 then "\\'"
    else if n = 92 then "\\\\"
    else if n < 32 || (127 ≤ n && n ≤ 160) || n = 173 then
      "\\u\x7b" ++ String.ofList (Nat.toDigits 16 n) ++ "\x7d"
    else (Char.ofNat n).toString
  "'" ++ body ++ "'"

def padRight (width : Nat) (text : String) : String :=
  text ++ String.ofList (List.replicate (width - text.length) ' ')

def hexDigits (width value : Nat) : String :=
  let digits := Nat.toDigits 16 value
  String.ofList (List.replicate (width - digits.length) '0' ++ digits)

def lower (text : List Char) : String :=
  String.ofList (text.map Char.toLower)

end Text

end Evm
