import Evm.Hex
import Evm.Operation

/-!
# Code

A byte string split into instructions. The argument of a push is the bytes after it, with zeros
past the end of the code. Every byte starts an instruction or is part of an argument.
-/

namespace Evm

structure Instruction where
  offset : Nat
  byte : UInt8
  /-- Missing where the byte names nothing under any fork. -/
  operation : Option Operation
  argument : Bytes
  deriving DecidableEq, Repr

namespace Instruction

def read (offset : Nat) (byte : UInt8) (rest : List UInt8) : Instruction :=
  let operation := Operation.ofByte? byte
  let width := (operation.map Operation.argumentWidth).getD 0
  let argument := (rest.take width).toArray
  ⟨offset, byte, operation, argument ++ Bytes.zeros (width - argument.size)⟩

def name (instruction : Instruction) : String :=
  match instruction.operation with
  | some operation => operation.name
  | none => "0x" ++ Text.hexDigits 2 instruction.byte.toNat

def isJumpDest (instruction : Instruction) : Bool :=
  instruction.operation == some .jumpDest

def split (offset : Nat) (bytes : List UInt8) (found : Array Instruction) : Array Instruction :=
  match bytes with
  | [] => found
  | byte :: rest =>
    let instruction := read offset byte rest
    let width := instruction.argument.size
    split (offset + 1 + width) (rest.drop width) (found.push instruction)
termination_by bytes.length
decreasing_by simp only [List.length_drop, List.length_cons]; omega

end Instruction

structure Code where
  bytes : Bytes
  instructions : Array Instruction
  /-- For every byte the index of the instruction that starts there. -/
  starts : Array (Option Nat)
  deriving DecidableEq, Repr

namespace Code

def ofBytes (bytes : Bytes) : Code :=
  let instructions := Instruction.split 0 bytes.toList #[]
  let starts := instructions.zipIdx.flatMap fun (instruction, index) =>
    #[some index] ++ Array.replicate instruction.argument.size none
  ⟨bytes, instructions, starts⟩

/-- The index of the instruction that starts at `offset`. Past the end of the code that is the
number of instructions; inside an argument there is none. -/
def indexOf? (code : Code) (offset : Nat) : Option Nat :=
  if offset < code.bytes.size then (code.starts[offset]?).join else some code.instructions.size

def jump? (code : Code) (offset : Nat) : Option Nat := do
  let index ← (code.starts[offset]?).join
  let instruction ← code.instructions[index]?
  if instruction.isJumpDest then some index else none

def jumpTable (code : Code) : Array (Nat × Nat) :=
  code.instructions.zipIdx.filterMap fun (instruction, index) =>
    if instruction.isJumpDest then some (instruction.offset, index) else none

end Code

end Evm
