import Evm.Word

/-!
# Keccak-256

The sponge over 25 lanes of 64 bits, in five rows of five, with a rate of 136 bytes and the
padding `1 0* 1`.
-/

namespace Evm.Keccak

structure Row where
  a : UInt64
  b : UInt64
  c : UInt64
  d : UInt64
  e : UInt64
  deriving DecidableEq, Repr

structure Lanes where
  row0 : Row
  row1 : Row
  row2 : Row
  row3 : Row
  row4 : Row
  deriving DecidableEq, Repr

def Row.zero : Row := ⟨0, 0, 0, 0, 0⟩

def Lanes.zero : Lanes := ⟨.zero, .zero, .zero, .zero, .zero⟩

/-- Turns a lane left by `count` bits, fewer than 64. -/
@[inline] def rotate (lane count : UInt64) : UInt64 :=
  (lane <<< count) ||| (lane >>> (64 - count))

def Row.xor (r s : Row) : Row :=
  ⟨r.a ^^^ s.a, r.b ^^^ s.b, r.c ^^^ s.c, r.d ^^^ s.d, r.e ^^^ s.e⟩

def theta (state : Lanes) : Lanes :=
  let ⟨r0, r1, r2, r3, r4⟩ := state
  let parity := (((r0.xor r1).xor r2).xor r3).xor r4
  let effect : Row :=
    ⟨parity.e ^^^ rotate parity.b 1, parity.a ^^^ rotate parity.c 1,
     parity.b ^^^ rotate parity.d 1, parity.c ^^^ rotate parity.e 1,
     parity.d ^^^ rotate parity.a 1⟩
  ⟨r0.xor effect, r1.xor effect, r2.xor effect, r3.xor effect, r4.xor effect⟩

def rhoPi (state : Lanes) : Lanes :=
  let ⟨r0, r1, r2, r3, r4⟩ := state
  ⟨⟨r0.a, rotate r1.b 44, rotate r2.c 43, rotate r3.d 21, rotate r4.e 14⟩,
   ⟨rotate r0.d 28, rotate r1.e 20, rotate r2.a 3, rotate r3.b 45, rotate r4.c 61⟩,
   ⟨rotate r0.b 1, rotate r1.c 6, rotate r2.d 25, rotate r3.e 8, rotate r4.a 18⟩,
   ⟨rotate r0.e 27, rotate r1.a 36, rotate r2.b 10, rotate r3.c 15, rotate r4.d 56⟩,
   ⟨rotate r0.c 62, rotate r1.d 55, rotate r2.e 39, rotate r3.a 41, rotate r4.b 2⟩⟩

def chi (r : Row) : Row :=
  ⟨r.a ^^^ (~~~ r.b &&& r.c), r.b ^^^ (~~~ r.c &&& r.d), r.c ^^^ (~~~ r.d &&& r.e),
   r.d ^^^ (~~~ r.e &&& r.a), r.e ^^^ (~~~ r.a &&& r.b)⟩

def round (state : Lanes) (constant : UInt64) : Lanes :=
  let ⟨r0, r1, r2, r3, r4⟩ := rhoPi (theta state)
  ⟨(chi r0).xor ⟨constant, 0, 0, 0, 0⟩, chi r1, chi r2, chi r3, chi r4⟩

def roundConstants : List UInt64 :=
  [0x0000000000000001, 0x0000000000008082, 0x800000000000808a, 0x8000000080008000,
   0x000000000000808b, 0x0000000080000001, 0x8000000080008081, 0x8000000000008009,
   0x000000000000008a, 0x0000000000000088, 0x0000000080008009, 0x000000008000000a,
   0x000000008000808b, 0x800000000000008b, 0x8000000000008089, 0x8000000000008003,
   0x8000000000008002, 0x8000000000000080, 0x000000000000800a, 0x800000008000000a,
   0x8000000080008081, 0x8000000000008080, 0x0000000080000001, 0x8000000080008008]

def permute (state : Lanes) : Lanes :=
  roundConstants.foldl round state

def rate : Nat := 136

def pad (message : Bytes) : Bytes :=
  let missing := rate - message.size % rate
  if missing = 1 then message.push 0x81
  else (message.push 0x01 ++ Bytes.zeros (missing - 2)).push 0x80

def laneAt (input : Bytes) (offset : Nat) : UInt64 :=
  Nat.fold 8
    (fun i _ lane => lane ||| (input.getD (offset + i) 0).toUInt64 <<< (8 * i).toUInt64) 0

def rowAt (input : Bytes) (offset : Nat) : Row :=
  ⟨laneAt input offset, laneAt input (offset + 8), laneAt input (offset + 16),
   laneAt input (offset + 24), laneAt input (offset + 32)⟩

/-- Adds the block that starts at `offset` into the first 17 lanes. -/
def absorb (state : Lanes) (input : Bytes) (offset : Nat) : Lanes :=
  permute {
    row0 := state.row0.xor (rowAt input offset)
    row1 := state.row1.xor (rowAt input (offset + 40))
    row2 := state.row2.xor (rowAt input (offset + 80))
    row3 := state.row3.xor ⟨laneAt input (offset + 120), laneAt input (offset + 128), 0, 0, 0⟩
    row4 := state.row4 }

def laneBytes (lane : UInt64) : Bytes :=
  Array.ofFn fun i : Fin 8 => (lane >>> (8 * i.val).toUInt64).toUInt8

end Evm.Keccak

namespace Evm

def keccak256 (message : Bytes) : Bytes :=
  let input := Keccak.pad message
  let ⟨r, _, _, _, _⟩ := Nat.fold (input.size / Keccak.rate)
    (fun i _ state => Keccak.absorb state input (Keccak.rate * i)) Keccak.Lanes.zero
  Keccak.laneBytes r.a ++ Keccak.laneBytes r.b ++ Keccak.laneBytes r.c ++ Keccak.laneBytes r.d

def keccakWord (message : Bytes) : Word :=
  Word.ofBytes (keccak256 message)

def emptyHash : Word := keccakWord #[]

end Evm
