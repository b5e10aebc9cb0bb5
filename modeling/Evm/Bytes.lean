/-!
# Byte strings

Byte strings of any length, their big-endian reading, and reads that run past the end.
-/

namespace Evm

abbrev Bytes := Array UInt8

namespace Bytes

/-- The value of a byte string read most significant byte first. -/
def toNat (bytes : Bytes) : Nat :=
  bytes.foldl (fun value byte => value * 256 + byte.toNat) 0

def ofNat (width value : Nat) : Bytes :=
  Array.ofFn fun i : Fin width => UInt8.ofNat (value >>> (8 * (width - 1 - i.val)))

/-- The fewest bytes that hold a number, most significant first; none for zero. -/
def minimal (value : Nat) : Bytes :=
  ofNat (if value = 0 then 0 else value.log2 / 8 + 1) value

def toNatLE (bytes : Bytes) : Nat :=
  bytes.foldr (fun byte value => value * 256 + byte.toNat) 0

def ofNatLE (width value : Nat) : Bytes :=
  Array.ofFn fun i : Fin width => UInt8.ofNat (value >>> (8 * i.val))

def zeros (count : Nat) : Bytes :=
  Array.replicate count 0

/-- No buffer can be this large. -/
def allocationLimit : Nat := 1 <<< 63

def buffer? (size : Nat) : Option Bytes :=
  if size < allocationLimit then some (zeros size) else none

def padLeft (width : Nat) (bytes : Bytes) : Bytes :=
  zeros (width - bytes.size) ++ bytes

def present (bytes : Bytes) (start size : Nat) : Bytes :=
  bytes.extract start (start + size)

/-- The bytes of `[start, start + size)`, with zeros past the end. -/
def window (bytes : Bytes) (start size : Nat) : Bytes :=
  let part := bytes.present start size
  part ++ zeros (size - part.size)

/-- The same in a buffer of its own, where there can be one. -/
def padded? (bytes : Bytes) (start size : Nat) : Option Bytes :=
  if size < allocationLimit then some (bytes.window start size) else none

def overwrite (target : Bytes) (offset : Nat) (source : Bytes) : Bytes :=
  Nat.fold source.size (fun i h bytes => bytes.setIfInBounds (offset + i) source[i]) target

end Bytes

end Evm
