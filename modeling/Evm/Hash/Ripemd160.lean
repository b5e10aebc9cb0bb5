import Evm.Bytes

/-!
# RIPEMD-160

Two lines of 80 steps run over each block of 64 bytes and are added crosswise into five words.
-/

namespace Evm.Ripemd160

structure State where
  a : UInt32
  b : UInt32
  c : UInt32
  d : UInt32
  e : UInt32

namespace State

def start : State := ⟨0x67452301, 0xefcdab89, 0x98badcfe, 0x10325476, 0xc3d2e1f0⟩

def toList (s : State) : List UInt32 := [s.a, s.b, s.c, s.d, s.e]

end State

structure Step where
  word : Nat
  rotation : UInt32
  round : Nat

/-- The five mixing functions, in the order of the left line. -/
def mix (index : Nat) (x y z : UInt32) : UInt32 :=
  match index with
  | 0 => x ^^^ y ^^^ z
  | 1 => (x &&& y) ||| (~~~ x &&& z)
  | 2 => (x ||| ~~~ y) ^^^ z
  | 3 => (x &&& z) ||| (y &&& ~~~ z)
  | _ => x ^^^ (y ||| ~~~ z)

def leftConstants : Array UInt32 := #[0x00000000, 0x5a827999, 0x6ed9eba1, 0x8f1bbcdc, 0xa953fd4e]
def rightConstants : Array UInt32 := #[0x50a28be6, 0x5c4dd124, 0x6d703ef3, 0x7a6d76e9, 0x00000000]

def leftWords : List Nat :=
  [0, 1, 2, 3, 4, 5, 6, 7, 8, 9, 10, 11, 12, 13, 14, 15,
   7, 4, 13, 1, 10, 6, 15, 3, 12, 0, 9, 5, 2, 14, 11, 8,
   3, 10, 14, 4, 9, 15, 8, 1, 2, 7, 0, 6, 13, 11, 5, 12,
   1, 9, 11, 10, 0, 8, 12, 4, 13, 3, 7, 15, 14, 5, 6, 2,
   4, 0, 5, 9, 7, 12, 2, 10, 14, 1, 3, 8, 11, 6, 15, 13]

def rightWords : List Nat :=
  [5, 14, 7, 0, 9, 2, 11, 4, 13, 6, 15, 8, 1, 10, 3, 12,
   6, 11, 3, 7, 0, 13, 5, 10, 14, 15, 8, 12, 4, 9, 1, 2,
   15, 5, 1, 3, 7, 14, 6, 9, 11, 8, 12, 2, 10, 0, 4, 13,
   8, 6, 4, 1, 3, 11, 15, 0, 5, 12, 2, 13, 9, 7, 10, 14,
   12, 15, 10, 4, 1, 5, 8, 7, 6, 2, 13, 14, 0, 3, 9, 11]

def leftRotations : List UInt32 :=
  [11, 14, 15, 12, 5, 8, 7, 9, 11, 13, 14, 15, 6, 7, 9, 8,
   7, 6, 8, 13, 11, 9, 7, 15, 7, 12, 15, 9, 11, 7, 13, 12,
   11, 13, 6, 7, 14, 9, 13, 15, 14, 8, 13, 6, 5, 12, 7, 5,
   11, 12, 14, 15, 14, 15, 9, 8, 9, 14, 5, 6, 8, 6, 5, 12,
   9, 15, 5, 11, 6, 8, 13, 12, 5, 12, 13, 14, 11, 8, 5, 6]

def rightRotations : List UInt32 :=
  [8, 9, 9, 11, 13, 15, 15, 5, 7, 7, 8, 11, 14, 14, 12, 6,
   9, 13, 15, 7, 12, 8, 9, 11, 7, 7, 12, 7, 6, 15, 13, 11,
   9, 7, 15, 11, 8, 6, 6, 14, 12, 13, 5, 14, 13, 13, 7, 5,
   15, 5, 8, 11, 14, 14, 6, 14, 6, 9, 12, 9, 12, 5, 15, 8,
   8, 5, 12, 9, 12, 5, 14, 6, 8, 13, 6, 5, 15, 13, 11, 11]

def steps (words : List Nat) (rotations : List UInt32) : List Step :=
  (words.zip rotations).zipIdx.map fun ((word, rotation), i) => ⟨word, rotation, i / 16⟩

def leftSteps : List Step := steps leftWords leftRotations
def rightSteps : List Step := steps rightWords rightRotations

def rotate (x count : UInt32) : UInt32 := (x <<< count) ||| (x >>> (32 - count))

def apply (function : Nat) (constant word : UInt32) (rotation : UInt32) (s : State) : State :=
  let t := rotate (s.a + mix function s.b s.c s.d + word + constant) rotation + s.e
  ⟨s.e, t, s.b, rotate s.c 10, s.d⟩

def compress (s : State) (input : Bytes) (offset : Nat) : State :=
  let words := Array.ofFn fun i : Fin 16 =>
    UInt32.ofNat (Bytes.toNatLE (input.window (offset + 4 * i.val) 4))
  let left := leftSteps.foldl (fun s step =>
    apply step.round (leftConstants.getD step.round 0) (words.getD step.word 0) step.rotation s) s
  let right := rightSteps.foldl (fun s step =>
    apply (4 - step.round) (rightConstants.getD step.round 0) (words.getD step.word 0)
      step.rotation s) s
  ⟨s.b + left.c + right.d, s.c + left.d + right.e, s.d + left.e + right.a,
   s.e + left.a + right.b, s.a + left.b + right.c⟩

/-- A one bit, zeros, and the length in bits as eight bytes, least significant first. -/
def pad (message : Bytes) : Bytes :=
  message.push 0x80 ++ Bytes.zeros ((119 - message.size % 64) % 64)
    ++ Bytes.ofNatLE 8 (8 * message.size)

end Evm.Ripemd160

namespace Evm

def ripemd160 (message : Bytes) : Bytes :=
  let input := Ripemd160.pad message
  let state := Nat.fold (input.size / 64)
    (fun i _ state => Ripemd160.compress state input (64 * i)) Ripemd160.State.start
  (state.toList.toArray).flatMap fun word => Bytes.ofNatLE 4 word.toNat

end Evm
