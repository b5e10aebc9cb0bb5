/-!
# JSON values

Integers of 64 bits are kept exactly; every other number is kept as it is written.
-/

namespace Evm

inductive Json where
  | null
  | bool (value : Bool)
  | int (value : Int)
  | real (literal : String)
  | str (value : String)
  | arr (items : List Json)
  | obj (fields : List (String × Json))
  deriving Repr

namespace Json

instance : Inhabited Json := ⟨.null⟩

def ofNat (n : Nat) : Json := .int n

def get? (json : Json) (name : String) : Option Json :=
  match json with
  | .obj fields => fields.lookup name
  | _ => none

def str? : Json → Option String
  | .str value => some value
  | _ => none

def bool? : Json → Option Bool
  | .bool value => some value
  | _ => none

def natBelow? (bound : Nat) : Json → Option Nat
  | .int value => if 0 ≤ value ∧ value < bound then some value.toNat else none
  | _ => none

def nat? (json : Json) : Option Nat := json.natBelow? (1 <<< 64)

/-- Signed integers of 64 bits go from minus this up to below it. -/
def signedLimit : Nat := 1 <<< 63

def int? : Json → Option Int
  | .int value => if -signedLimit ≤ value ∧ value < signedLimit then some value else none
  | _ => none

end Json

end Evm
