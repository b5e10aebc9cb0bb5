import Evm.Json.Basic
import Evm.Text

/-!
# Writing JSON

On one line without blanks, or with a field or item a line and two spaces for each level.
-/

namespace Evm.Json

def escapeChar (c : Char) : String :=
  if c = '"' then "\\\""
  else if c = '\\' then "\\\\"
  else if c.toNat = 8 then "\\b"
  else if c.toNat = 9 then "\\t"
  else if c.toNat = 10 then "\\n"
  else if c.toNat = 12 then "\\f"
  else if c.toNat = 13 then "\\r"
  else if c.toNat < 32 then "\\u" ++ Text.hexDigits 4 c.toNat
  else c.toString

def quote (text : String) : String :=
  "\"" ++ text.foldl (fun out c => out ++ escapeChar c) "" ++ "\""

mutual

def compress : Json → String
  | .null => "null"
  | .bool true => "true"
  | .bool false => "false"
  | .int value => value.repr
  | .real literal => literal
  | .str value => quote value
  | .arr items => "[" ++ ",".intercalate (compressItems items) ++ "]"
  | .obj fields => "\x7b" ++ ",".intercalate (compressFields fields) ++ "\x7d"

def compressItems : List Json → List String
  | [] => []
  | item :: rest => compress item :: compressItems rest

def compressFields : List (String × Json) → List String
  | [] => []
  | (name, value) :: rest => (quote name ++ ":" ++ compress value) :: compressFields rest

end

/-- Lines between brackets, one level deeper than the brackets. -/
def block (indent : String) (opening closing : String) (lines : List String) : String :=
  if lines.isEmpty then opening ++ closing
  else
    opening ++ "\n" ++ ",\n".intercalate (lines.map fun line => indent ++ "  " ++ line) ++
      "\n" ++ indent ++ closing

mutual

def pretty (indent : String) : Json → String
  | .arr items => block indent "[" "]" (prettyItems (indent ++ "  ") items)
  | .obj fields => block indent "\x7b" "\x7d" (prettyFields (indent ++ "  ") fields)
  | .null => "null"
  | .bool true => "true"
  | .bool false => "false"
  | .int value => value.repr
  | .real literal => literal
  | .str value => quote value

def prettyItems (indent : String) : List Json → List String
  | [] => []
  | item :: rest => pretty indent item :: prettyItems indent rest

def prettyFields (indent : String) : List (String × Json) → List String
  | [] => []
  | (name, value) :: rest =>
    (quote name ++ ": " ++ pretty indent value) :: prettyFields indent rest

end

end Evm.Json
