import Evm.Text

/-!
# Forks

The versions of the protocol, oldest first.
-/

namespace Evm

inductive Fork where
  | byzantium
  | constantinople
  | petersburg
  | istanbul
  | berlin
  | london
  | shanghai
  | cancun
  deriving DecidableEq, Repr

namespace Fork

instance : Inhabited Fork := ⟨.petersburg⟩

def all : List Fork :=
  [.byzantium, .constantinople, .petersburg, .istanbul, .berlin, .london, .shanghai, .cancun]

def rank : Fork → Nat
  | .byzantium => 0
  | .constantinople => 1
  | .petersburg => 2
  | .istanbul => 3
  | .berlin => 4
  | .london => 5
  | .shanghai => 6
  | .cancun => 7

instance : LE Fork := ⟨fun a b => a.rank ≤ b.rank⟩

instance (a b : Fork) : Decidable (a ≤ b) := inferInstanceAs (Decidable (a.rank ≤ b.rank))

def name : Fork → String
  | .byzantium => "byzantium"
  | .constantinople => "constantinople"
  | .petersburg => "petersburg"
  | .istanbul => "istanbul"
  | .berlin => "berlin"
  | .london => "london"
  | .shanghai => "shanghai"
  | .cancun => "cancun"

def ofName? (name : String) : Option Fork := all.find? fun fork => fork.name == name

/-- The fork a text names, in any case and with blanks around it. -/
def ofText (text : String) : Except TextError Fork :=
  match ofName? (Text.lower (Text.trim text.toList)) with
  | some fork => .ok fork
  | none => .error (.fork text)

/-- Whether a first touch of an account or slot costs more than a later one. -/
def hasAccessLists (fork : Fork) : Bool := berlin ≤ fork

/-- Whether a store is priced by the present value of its slot alone. -/
def hasPlainStores (fork : Fork) : Bool := fork = .byzantium ∨ fork = .petersburg

end Fork

end Evm
