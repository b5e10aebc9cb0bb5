import Evm.Operation
import Evm.Word

/-!
# Arithmetic instructions

The value of an operation on words. The first operand is the topmost. An index or a count is cut
to 64 bits.
-/

namespace Evm

def Unary.eval : Unary → Word → Word
  | .isZero, a => .ofBool (a = 0)
  | .not, a => ~~~ a

def Binary.eval : Binary → Word → Word → Word
  | .add, a, b => a + b
  | .mul, a, b => a * b
  | .sub, a, b => a - b
  | .div, a, b => a / b
  | .sdiv, a, b => a.divSigned b
  | .mod, a, b => Word.mod a b
  | .smod, a, b => a.modSigned b
  | .exp, a, b => a.pow b
  | .signExtend, a, b => b.extendSign a
  | .lt, a, b => .ofBool (a < b)
  | .gt, a, b => .ofBool (b < a)
  | .slt, a, b => .ofBool (a.slt b)
  | .sgt, a, b => .ofBool (b.slt a)
  | .eq, a, b => .ofBool (a = b)
  | .and, a, b => a &&& b
  | .or, a, b => a ||| b
  | .xor, a, b => a ^^^ b
  | .byte, a, b => BitVec.ofNat 256 (b.byteAt a.saturate).toNat
  | .shl, a, b => b.shiftLeft a.saturate
  | .shr, a, b => b.shiftRight a.saturate
  | .sar, a, b => b.shiftRightSigned a.saturate

def Ternary.eval : Ternary → Word → Word → Word → Word
  | .addMod, a, b, n => a.addMod b n
  | .mulMod, a, b, n => a.mulMod b n

def Unary.price (fork : Fork) : Unary → Nat
  | _ => fork.fee .veryLow

/-- An exponent is paid for by its bytes, every other operation has one price. -/
def Binary.price (fork : Fork) (op : Binary) (b : Word) : Nat :=
  match op with
  | .exp => fork.fee .exp + fork.fee .expByte * ((b.bitLength + 7) / 8)
  | .mul | .div | .sdiv | .mod | .smod | .signExtend => fork.fee .low
  | _ => fork.fee .veryLow

def Ternary.price (fork : Fork) : Ternary → Nat
  | _ => fork.fee .mid

end Evm
