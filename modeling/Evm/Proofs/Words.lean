import Evm.Word
import Mathlib.Algebra.Order.Ring.Nat

/-!
# Word arithmetic

The arithmetic of words is built from magnitudes, masks, indices that are cut to 64 bits and a
double width. Each operation is compared here with the one of bit vectors, or with numbers.
-/

namespace Evm.Word

variable {word a b modulus : Word}

theorem saturate_lt_iff {bound : Nat} (small : bound < machineLimit) :
    word.saturate < bound ↔ word.toNat < bound := by
  unfold saturate
  omega

theorem saturate_eq (small : word.toNat < machineLimit) : word.saturate = word.toNat := by
  unfold saturate
  omega

theorem toNat_pos (other : word ≠ 0) : 0 < word.toNat := by
  rw [Nat.pos_iff_ne_zero]
  intro same
  exact other (BitVec.eq_of_toNat_eq same)

theorem divSigned_eq (a b : Word) : a.divSigned b = a.sdiv b := by
  unfold divSigned isNegative
  by_cases zero : b = 0
  · rw [if_pos zero, zero]
    exact BitVec.sdiv_zero.symm
  · rw [if_neg zero, BitVec.sdiv_eq, BitVec.abs, BitVec.abs]
    cases a.msb <;> cases b.msb <;> rfl

theorem modSigned_eq (other : b ≠ 0) : a.modSigned b = a.srem b := by
  unfold modSigned isNegative
  rw [if_neg other, BitVec.srem_eq, BitVec.abs, BitVec.abs]
  cases a.msb <;> cases b.msb <;> rfl

section Widening

variable {wide : Nat}

theorem toNat_widen (word : Word) (enough : 256 ≤ wide) : (word.setWidth wide).toNat = word.toNat :=
  BitVec.toNat_setWidth_of_le enough

theorem double_le {width : Nat} (enough : width + 1 ≤ wide) :
    2 ^ width + 2 ^ width ≤ 2 ^ wide := by
  rw [← Nat.two_pow_succ]
  exact Nat.pow_le_pow_right Nat.two_pos enough

theorem square_le {width : Nat} (enough : width + width ≤ wide) :
    2 ^ width * 2 ^ width ≤ 2 ^ wide := by
  rw [← Nat.pow_add]
  exact Nat.pow_le_pow_right Nat.two_pos enough

theorem toNat_widen_add (a b : Word) (enough : 256 + 1 ≤ wide) :
    (a.setWidth wide + b.setWidth wide).toNat = a.toNat + b.toNat := by
  have fits : a.toNat + b.toNat < 2 ^ wide :=
    Nat.lt_of_lt_of_le (Nat.add_lt_add a.isLt b.isLt) (double_le enough)
  rw [BitVec.toNat_add, toNat_widen a (by omega), toNat_widen b (by omega), Nat.mod_eq_of_lt fits]

theorem toNat_widen_mul (a b : Word) (enough : 256 + 256 ≤ wide) :
    (a.setWidth wide * b.setWidth wide).toNat = a.toNat * b.toNat := by
  have fits : a.toNat * b.toNat < 2 ^ wide :=
    Nat.lt_of_lt_of_le (Nat.mul_lt_mul'' a.isLt b.isLt) (square_le enough)
  rw [BitVec.toNat_mul, toNat_widen a (by omega), toNat_widen b (by omega), Nat.mod_eq_of_lt fits]

theorem toNat_narrow (whole : BitVec wide) (other : modulus ≠ 0) (enough : 256 ≤ wide) :
    ((whole % modulus.setWidth wide).setWidth 256).toNat = whole.toNat % modulus.toNat := by
  have below := Nat.mod_lt whole.toNat (toNat_pos other)
  rw [BitVec.toNat_setWidth, BitVec.toNat_umod, toNat_widen modulus enough, Nat.mod_eq_of_lt]
  exact Nat.lt_trans below modulus.isLt

end Widening

theorem toNat_addMod (a b : Word) (other : modulus ≠ 0) :
    (a.addMod b modulus).toNat = (a.toNat + b.toNat) % modulus.toNat := by
  rw [addMod, if_neg other, toNat_narrow _ other (by decide), toNat_widen_add a b (by decide)]

theorem toNat_mulMod (a b : Word) (other : modulus ≠ 0) :
    (a.mulMod b modulus).toNat = a.toNat * b.toNat % modulus.toNat := by
  rw [mulMod, if_neg other, toNat_narrow _ other (by decide), toNat_widen_mul a b (by decide)]

theorem getLsbD_mask {count : Nat} (small : count < 256) (i : Nat) :
    (((1 : Word) <<< count) - 1).getLsbD i = decide (i < count) := by
  have below : 2 ^ count < 2 ^ 256 := Nat.pow_lt_pow_right (by decide) small
  have shifted : ((1 : Word) <<< count).toNat = 2 ^ count := by
    rw [BitVec.toNat_shiftLeft, show (1 : Word).toNat = 1 from rfl, Nat.shiftLeft_eq, Nat.one_mul,
      Nat.mod_eq_of_lt below]
  have positive : (1 : Word) ≤ (1 : Word) <<< count := by
    rw [BitVec.le_def, shifted]
    exact Nat.one_le_two_pow
  have mask : ((1 : Word) <<< count) - 1 = BitVec.ofNat 256 (2 ^ count - 1) := by
    apply BitVec.eq_of_toNat_eq
    rw [BitVec.toNat_sub_of_le positive, shifted, BitVec.toNat_ofNat, Nat.mod_eq_of_lt (by omega)]
    rfl
  rw [mask, BitVec.getLsbD_ofNat, Nat.testBit_two_pow_sub_one]
  grind

/-- Below the sign the mask keeps the bits of the word, above it puts the sign. -/
theorem extendSign_eq (word : Word) {index : Word} (small : index.toNat < 31) :
    word.extendSign index = (word.setWidth (8 * (index.toNat + 1))).signExtend 256 := by
  have low : ¬ (31 : Word) ≤ index := Nat.not_le.mpr small
  have sign_eq : index.saturate * 8 + 7 + 1 = 8 * (index.toNat + 1) := by
    rw [saturate_eq (Nat.lt_trans small (by decide))]
    omega
  have msb_eq : (word.setWidth (8 * (index.toNat + 1))).msb =
      word.bit (index.saturate * 8 + 7) := by
    rw [BitVec.msb_setWidth, ← sign_eq, bit]
    simp
    omega
  rw [extendSign, if_neg low]
  dsimp only
  apply BitVec.eq_of_getLsbD_eq
  intro i inside
  rw [BitVec.getLsbD_signExtend, BitVec.getLsbD_setWidth, msb_eq]
  -- The mask is complemented and added for a negative word, and taken for the others.
  split
  · rw [BitVec.getLsbD_or, BitVec.getLsbD_not, getLsbD_mask (by omega)]
    grind
  · rw [BitVec.getLsbD_and, getLsbD_mask (by omega)]
    grind

end Evm.Word
