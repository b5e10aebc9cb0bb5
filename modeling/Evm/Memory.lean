import Evm.Gas

/-!
# Memory

The byte memory of a frame. It grows by whole words that must be paid for, and an access outside
of what was paid for has no result.
-/

namespace Evm

structure Memory where
  data : Bytes
  deriving DecidableEq, Repr

namespace Memory

def empty : Memory := ⟨#[]⟩

def size (memory : Memory) : Nat := memory.data.size

def price (fork : Fork) (words : Nat) : Nat :=
  fork.fee .memory * words + words * words / fork.fee .quadCoeffDiv

/-- What growing to cover `[offset, offset + size)` costs; nothing where it is covered. -/
def expansionPrice (memory : Memory) (fork : Fork) (offset size : Nat) : Nat :=
  let current := memory.size / 32
  let required := wordCount (offset + size)
  if size = 0 ∨ required ≤ current then 0 else price fork required - price fork current

def expand (memory : Memory) (offset size : Nat) : Memory :=
  if size = 0 then memory
  else ⟨memory.data ++ Bytes.zeros (32 * wordCount (offset + size) - memory.size)⟩

def read? (memory : Memory) (offset size : Nat) : Option Bytes :=
  if size = 0 then some #[]
  else if offset + size ≤ memory.size then some (memory.data.extract offset (offset + size))
  else none

def load? (memory : Memory) (offset : Nat) : Option Word :=
  (memory.read? offset 32).map Word.ofBytes

def store? (memory : Memory) (offset : Nat) (bytes : Bytes) : Option Memory :=
  if offset + bytes.size ≤ memory.size then some ⟨memory.data.overwrite offset bytes⟩ else none

/-- Writes `size` bytes of `source` from `start` on, with zeros past its end. -/
def copyFrom? (memory : Memory) (offset : Nat) (source : Bytes) (start : Word) (size : Nat) :
    Option Memory :=
  if size = 0 then some memory
  else memory.store? offset (source.window start.toNat size)

def copyWithin? (memory : Memory) (source target size : Nat) : Option Memory :=
  if size = 0 then some memory
  else (memory.read? source size).bind fun bytes => memory.store? target bytes

/-- The byte range that two words name, if memory can be that large. An empty range is the same
wherever it starts. -/
def region? (offset size : Word) : Option (Nat × Nat) :=
  if size = 0 then some (0, 0)
  else if offset.toNat + size.toNat ≤ memoryLimit then some (offset.toNat, size.toNat)
  else none

end Memory

end Evm
