import Evm.Context
import Evm.Hash.Keccak
import Evm.Instruction.Arithmetic

/-!
# Local instructions

The instructions that work on the frame alone.
-/

namespace Evm.Instruction

open FrameM

variable {σ : Type}

def unary (fork : Fork) (op : Unary) : FrameM Unit := do
  charge (op.price fork)
  let a ← pop
  push (op.eval a)

def binary (fork : Fork) (op : Binary) : FrameM Unit := do
  let a ← pop
  let b ← pop
  charge (op.price fork b)
  push (op.eval a b)

def ternary (fork : Fork) (op : Ternary) : FrameM Unit := do
  charge (op.price fork)
  let a ← pop
  let b ← pop
  let n ← pop
  push (op.eval a b n)

/-- The answer to a query in a frame that has paid for it; `pc` is the place of the query. -/
def answer (env : Environment σ) (context : Context) (pc : Nat) (frame : Frame) : Query → Word
  | .address => context.self.toWord
  | .origin => env.transaction.origin.toWord
  | .caller => context.message.caller.toWord
  | .callValue => context.message.value
  | .callDataSize => BitVec.ofNat 256 context.message.data.size
  | .codeSize => BitVec.ofNat 256 context.code.bytes.size
  | .gasPrice => env.transaction.gasPrice
  | .returnDataSize => BitVec.ofNat 256 frame.returnData.size
  | .coinbase => env.block.coinbase.toWord
  | .timestamp => BitVec.ofNat 256 env.block.timestamp.toNat
  | .number => BitVec.ofNat 256 env.block.number.toNat
  | .difficulty => env.block.mixHash
  | .gasLimit => BitVec.ofNat 256 env.block.gasLimit.toNat
  | .chainId => BitVec.ofNat 256 env.block.chainId.toNat
  | .baseFee => env.block.baseFee
  | .blobBaseFee => env.block.blobBaseFee
  | .pc => BitVec.ofNat 256 pc
  | .memorySize => BitVec.ofNat 256 frame.memory.size
  | .gas => BitVec.ofNat 256 frame.gas.remaining

def query (env : Environment σ) (context : Context) (pc : Nat) (what : Query) : FrameM Unit := do
  charge (env.fork.fee .base)
  push (answer env context pc (← get) what)

def lookupFee : Lookup → Fee
  | .callData => .veryLow
  | .blockHash => .blockHash
  | .blobHash => .veryLow

def lookup (env : Environment σ) (context : Context) (what : Lookup) : FrameM Unit := do
  charge (env.fork.fee (lookupFee what))
  let index ← pop
  push <|
    match what with
    | .callData => Word.ofBytes (context.message.data.window index.toNat 32)
    | .blockHash => env.block.hashOf index
    | .blobHash => (env.block.blobHashes[index.toNat]?).getD 0

def keccak (fork : Fork) : FrameM Unit := do
  let offset ← pop
  let size ← pop
  let (offset, size) ← region offset size
  charge (fork.fee .keccak + fork.fee .keccakWord * wordCount size)
  expand fork offset size
  push (keccakWord (← readMemory offset size))

def copyPrice (fork : Fork) (fixed : Fee) (size : Nat) : Nat :=
  fork.fee fixed + fork.fee .copy * wordCount size

def copy (fork : Fork) (source : Bytes) : FrameM Unit := do
  let target ← pop
  let start ← pop
  let size ← pop
  let (target, size) ← region target size
  charge (copyPrice fork .veryLow size)
  expand fork target size
  updateMemory fun memory => memory.copyFrom? target source start size

def copySource (context : Context) : CopySource → Bytes
  | .callData => context.message.data
  | .code => context.code.bytes

def slice? (bytes : Bytes) (start stop : Nat) : Option Bytes :=
  if start ≤ stop ∧ stop ≤ bytes.size then some (bytes.extract start stop) else none

/-- Copies what the last nested message gave back. Nothing is read past its end. -/
def returnDataCopy (fork : Fork) : FrameM Unit := do
  let target ← pop
  let start ← pop
  let size ← pop
  let stop := start.toNat + size.toNat
  faultIf ((← get).returnData.size < stop) .returnDataOutOfBounds
  let (target, size) ← region target size
  charge (copyPrice fork .veryLow size)
  expand fork target size
  storeMemory target (← assured (slice? (← get).returnData (stop - size) stop))

def memoryLoad (fork : Fork) : FrameM Unit := do
  charge (fork.fee .veryLow)
  let offset ← pop
  let (offset, _) ← region offset 32
  expand fork offset 32
  push (← assured ((← get).memory.load? offset))

def memoryStore (fork : Fork) : FrameM Unit := do
  charge (fork.fee .veryLow)
  let offset ← pop
  let value ← pop
  let (offset, _) ← region offset 32
  expand fork offset 32
  storeMemory offset value.toBytes

def memoryStore8 (fork : Fork) : FrameM Unit := do
  charge (fork.fee .veryLow)
  let offset ← pop
  let value ← pop
  let (offset, _) ← region offset 1
  expand fork offset 1
  storeMemory offset #[value.byteAt 31]

def memoryCopy (fork : Fork) : FrameM Unit := do
  let target ← pop
  let source ← pop
  let size ← pop
  let (target, length) ← region target size
  let (source, size) ← region source size
  charge (copyPrice fork .veryLow size)
  expand fork (max target source) length
  updateMemory fun memory => memory.copyWithin? source target size

def pushArgument (fork : Fork) (width : Fin 33) (argument : Bytes) : FrameM Unit := do
  charge (fork.fee (if width.val = 0 then .base else .veryLow))
  push (Word.ofBytes argument)

def dup (fork : Fork) (depth : Fin 16) : FrameM Unit := do
  charge (fork.fee .veryLow)
  push (← assured ((← get).stack.get? depth.val))

def swap (fork : Fork) (depth : Fin 16) : FrameM Unit := do
  charge (fork.fee .veryLow)
  let stack ← assured ((← get).stack.swap? depth.val)
  modify fun frame => { frame with stack }

def log (fork : Fork) (context : Context) (count : Fin 5) : FrameM Unit := do
  ensureMutable context.message
  let offset ← pop
  let size ← pop
  let (offset, size) ← region offset size
  let topics ← popMany count.val
  charge (fork.fee .log + fork.fee .logTopic * count.val + fork.fee .logData * size)
  expand fork offset size
  let data ← readMemory offset size
  modify fun frame => { frame with logs := frame.logs.push ⟨context.self, topics, data⟩ }

def jumpTo (context : Context) (target : Word) : FrameM Control :=
  match context.code.jump? target.toNat with
  | some index => pure (.jump index)
  | none => fault .invalidJumpDestination

def jump (fork : Fork) (context : Context) : FrameM Control := do
  charge (fork.fee .mid)
  let target ← pop
  jumpTo context target

def jumpIf (fork : Fork) (context : Context) : FrameM Control := do
  charge (fork.fee .high)
  let target ← pop
  let condition ← pop
  if condition = 0 then return .next else jumpTo context target

def finish (fork : Fork) (control : Control) : FrameM Control := do
  let offset ← pop
  let size ← pop
  let (offset, size) ← region offset size
  expand fork offset size
  let output ← readMemory offset size
  modify fun frame => { frame with output }
  return control

end Evm.Instruction
