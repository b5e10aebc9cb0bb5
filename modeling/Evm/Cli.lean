import Evm.Decimal
import Evm.Json.Codec
import Evm.Json.Printer
import Evm.Run

/-!
# Command line

Lists the instructions of a bytecode and runs it over an empty world.
-/

namespace Evm.Cli

structure Report where
  exitCode : Nat
  stdout : String
  stderr : String
  deriving DecidableEq, Repr

inductive Error where
  | usage
  | hex (cause : Hex.Error)
  | fork (cause : TextError)
  | gas (cause : Decimal.Error)
  deriving DecidableEq, Repr

def Error.message : Error → String
  | .usage => "Usage: evm-run <bytecode> [calldata]"
  | .hex cause => "Error: " ++ cause.message
  | .fork cause => "Error: " ++ cause.message
  | .gas cause => "Error: " ++ cause.message

def readBytes (text : String) : Except Error Bytes :=
  (Hex.decode (Hex.dropMarks (Text.trim text.toList))).mapError .hex

def readFork (text : Option String) : Except Error Fork :=
  match text with
  | none => .ok default
  | some text => (Fork.ofText text).mapError .fork

def readGas (text : Option String) : Except Error (Option Nat) :=
  match text with
  | none => .ok none
  | some text => ((Decimal.read machineLimit text).map some).mapError .gas

structure Request where
  code : Bytes
  data : Bytes
  fork : Fork
  gasLimit : Option Nat

/-- Reads the arguments, then the variables; the first fault is the error. -/
def readRequest (args : List String) (fork gas : Option String) : Except Error Request := do
  let (code, data) ←
    match args with
    | [code] => .ok (code, none)
    | [code, data] => .ok (code, some data)
    | _ => .error .usage
  let code ← readBytes code
  let data ← (data.map readBytes).getD (.ok #[])
  let fork ← readFork fork
  let gasLimit ← readGas gas
  return { code, data, fork, gasLimit }

def rule (length : Nat) : String := String.ofList (List.replicate length '─')

def offsetText (offset : Nat) : String := "0x" ++ Text.hexDigits 4 offset

def instructionLine (instruction : Instruction) : String :=
  let argument := if instruction.argument.isEmpty then "" else instruction.argument.toText
  Text.padRight 6 (offsetText instruction.offset) ++ " " ++
    Text.padRight 15 instruction.name ++ " " ++ argument

def listing (code : Code) : List String :=
  [Text.padRight 6 "PC" ++ " " ++ Text.padRight 15 "OpCode" ++ " Argument", rule 40] ++
    code.instructions.toList.map instructionLine ++
    ["", "[JUMP TABLE]", "OFFSET -- INDEX", rule 17] ++
    code.jumpTable.toList.map fun (offset, index) => offsetText offset ++ " --- " ++ index.repr

def unlines (lines : List String) : String := String.join (lines.map (· ++ "\n"))

def Request.options (request : Request) : RunOptions :=
  { code := some request.code, data := some request.data, gasLimit := request.gasLimit }

def Request.report (request : Request) : Report :=
  let lines := listing (Code.ofBytes request.code)
  let machine := { Machine.ofWorld .empty with fork := request.fork }
  match (machine.run request.options .off ()).result with
  | .ok result => ⟨0, unlines (lines ++ ["", "RESULT:", result.toJson.pretty ""]), ""⟩
  | .error _ => ⟨1, unlines lines, "Error: execution ended without a result\n"⟩

def run (args : List String) (fork gas : Option String) : Report :=
  match readRequest args fork gas with
  | .ok request => request.report
  | .error error => ⟨1, "", error.message ++ "\n"⟩

end Evm.Cli
