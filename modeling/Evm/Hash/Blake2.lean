import Evm.Bytes

/-!
# BLAKE2b compression

The compression function with a free number of rounds.
-/

namespace Evm.Blake2

structure Work where
  v0 : UInt64
  v1 : UInt64
  v2 : UInt64
  v3 : UInt64
  v4 : UInt64
  v5 : UInt64
  v6 : UInt64
  v7 : UInt64
  v8 : UInt64
  v9 : UInt64
  v10 : UInt64
  v11 : UInt64
  v12 : UInt64
  v13 : UInt64
  v14 : UInt64
  v15 : UInt64

structure Quad where
  a : UInt64
  b : UInt64
  c : UInt64
  d : UInt64

@[inline] def rotateRight (x : UInt64) (count : UInt64) : UInt64 :=
  (x >>> count) ||| (x <<< (64 - count))

@[inline] def mix (a b c d x y : UInt64) : Quad :=
  let a := a + b + x
  let d := rotateRight (d ^^^ a) 32
  let c := c + d
  let b := rotateRight (b ^^^ c) 24
  let a := a + b + y
  let d := rotateRight (d ^^^ a) 16
  let c := c + d
  let b := rotateRight (b ^^^ c) 63
  ⟨a, b, c, d⟩

def sigma : Array (Array Nat) :=
  #[#[0, 1, 2, 3, 4, 5, 6, 7, 8, 9, 10, 11, 12, 13, 14, 15],
    #[14, 10, 4, 8, 9, 15, 13, 6, 1, 12, 0, 2, 11, 7, 5, 3],
    #[11, 8, 12, 0, 5, 2, 15, 13, 10, 14, 3, 6, 7, 1, 9, 4],
    #[7, 9, 3, 1, 13, 12, 11, 14, 2, 6, 5, 10, 4, 0, 15, 8],
    #[9, 0, 5, 7, 2, 4, 10, 15, 14, 1, 11, 12, 6, 8, 3, 13],
    #[2, 12, 6, 10, 0, 11, 8, 3, 4, 13, 7, 5, 15, 14, 1, 9],
    #[12, 5, 1, 15, 14, 13, 4, 10, 0, 7, 6, 3, 9, 2, 8, 11],
    #[13, 11, 7, 14, 12, 1, 3, 9, 5, 0, 15, 4, 8, 6, 2, 10],
    #[6, 15, 14, 9, 11, 3, 0, 8, 12, 2, 13, 7, 1, 4, 10, 5],
    #[10, 2, 8, 4, 7, 6, 1, 5, 15, 11, 9, 14, 3, 12, 13, 0]]

def round (block : Array UInt64) (index : Nat) (w : Work) : Work :=
  let order := sigma.getD (index % 10) #[]
  let word (i : Nat) : UInt64 := block.getD (order.getD i 0) 0
  let q0 := mix w.v0 w.v4 w.v8 w.v12 (word 0) (word 1)
  let q1 := mix w.v1 w.v5 w.v9 w.v13 (word 2) (word 3)
  let q2 := mix w.v2 w.v6 w.v10 w.v14 (word 4) (word 5)
  let q3 := mix w.v3 w.v7 w.v11 w.v15 (word 6) (word 7)
  let d0 := mix q0.a q1.b q2.c q3.d (word 8) (word 9)
  let d1 := mix q1.a q2.b q3.c q0.d (word 10) (word 11)
  let d2 := mix q2.a q3.b q0.c q1.d (word 12) (word 13)
  let d3 := mix q3.a q0.b q1.c q2.d (word 14) (word 15)
  ⟨d0.a, d1.a, d2.a, d3.a, d3.b, d0.b, d1.b, d2.b,
   d2.c, d3.c, d0.c, d1.c, d1.d, d2.d, d3.d, d0.d⟩

/-- Mixes a block into the eight words of `state`. The two words of `counter` tell how much was
taken in before, and `last` marks the last block. -/
def compress (rounds : Nat) (state block counter : Array UInt64) (last : Bool) : Array UInt64 :=
  let s (i : Nat) : UInt64 := state.getD i 0
  let work : Work :=
    ⟨s 0, s 1, s 2, s 3, s 4, s 5, s 6, s 7,
     0x6a09e667f3bcc908, 0xbb67ae8584caa73b, 0x3c6ef372fe94f82b, 0xa54ff53a5f1d36f1,
     0x510e527fade682d1 ^^^ counter.getD 0 0, 0x9b05688c2b3e6c1f ^^^ counter.getD 1 0,
     if last then ~~~ 0x1f83d9abfb41bd6b else 0x1f83d9abfb41bd6b, 0x5be0cd19137e2179⟩
  let w := Nat.fold rounds (fun i _ w => round block i w) work
  #[s 0 ^^^ w.v0 ^^^ w.v8, s 1 ^^^ w.v1 ^^^ w.v9, s 2 ^^^ w.v2 ^^^ w.v10,
    s 3 ^^^ w.v3 ^^^ w.v11, s 4 ^^^ w.v4 ^^^ w.v12, s 5 ^^^ w.v5 ^^^ w.v13,
    s 6 ^^^ w.v6 ^^^ w.v14, s 7 ^^^ w.v7 ^^^ w.v15]

end Evm.Blake2
