import Evm.Proofs.ByteMaps
import Evm.Proofs.Checks
import Evm.Proofs.Texts
import Mathlib.Data.Nat.ModEq
import Mathlib.Data.Nat.Size
import Mathlib.Tactic.IntervalCases

/-!
# Modular powers

An input is read as if zeros went on behind it for ever: three lengths, and a number of each of
these lengths. What the contract gives back is the power of the first by the second modulo the third,
as wide as the third. It reads its input with offsets that are capped and leaves out bytes that are
not there; neither ever changes the result. Its price is that of a formula over all numbers, but that
one of the caps comes too early.
-/

namespace Evm

namespace Modular

theorem mulPow_eq (modulus acc base exponent : Nat) :
    mulPow modulus acc base exponent = acc * base ^ exponent % modulus := by
  fun_induction mulPow modulus acc base exponent with
  | case1 acc base => rw [Nat.pow_zero, Nat.mul_one]
  | case2 acc base exponent positive ih =>
    simp only [dite_eq_ite] at ih
    rw [ih]
    have halved : (base * base % modulus) ^ (exponent / 2) ≡
        base ^ (2 * (exponent / 2)) [MOD modulus] := by
      rw [Nat.pow_mul, Nat.pow_two]
      exact (Nat.mod_modEq (base * base) modulus).pow (exponent / 2)
    split
    · have whole : exponent = 1 + 2 * (exponent / 2) := by omega
      have squared := (Nat.mod_modEq (acc * base) modulus).mul halved
      rw [Nat.mul_assoc, ← Nat.pow_add_one', Nat.add_comm, ← whole] at squared
      exact squared
    · have whole : exponent = 2 * (exponent / 2) := by omega
      have squared := (Nat.ModEq.refl acc).mul halved
      rw [← whole] at squared
      exact squared

theorem pow_eq (modulus base exponent : Nat) :
    pow modulus base exponent = base ^ exponent % modulus := by
  rw [pow, mulPow_eq, Nat.one_mul]
  exact (Nat.mod_modEq base modulus).pow exponent

end Modular

namespace Gas

theorem saturate_saturate_add (a b : Nat) : saturate (saturate a + b) = saturate (a + b) := by
  unfold saturate
  omega

theorem saturate_max (a b : Nat) : saturate (max a b) = max (saturate a) (saturate b) := by
  unfold saturate
  omega

theorem saturate_of_lt {amount : Nat} (small : amount < machineLimit) :
    saturate amount = amount := by
  unfold saturate
  omega

end Gas

namespace Bytes

variable {data : Bytes} {start size : Nat}

theorem toNat_zeros (count : Nat) : toNat (zeros count) = 0 := by
  induction count with
  | zero => rfl
  | succ count ih =>
    rw [zeros, Array.replicate_succ, toNat, Array.foldl_push, ← toNat, ← zeros, ih]
    rfl

theorem window_past (past : data.size ≤ start) (size : Nat) :
    data.window start size = zeros size := by
  have none : data.present start size = #[] := by
    apply Array.eq_empty_of_size_eq_zero
    rw [present, Array.size_extract]
    omega
  rw [window, none, Array.empty_append, Array.size_empty, Nat.sub_zero]

theorem window_saturate (held : data.size < machineLimit) (start size : Nat) :
    data.window (Gas.saturate start) size = data.window start size := by
  by_cases small : start < machineLimit
  · rw [Gas.saturate_of_lt small]
  · have capped : data.size ≤ Gas.saturate start := by
      unfold Gas.saturate
      omega
    rw [window_past capped, window_past (by omega)]

theorem present_eq_window (inside : start + size ≤ data.size) :
    data.present start size = data.window start size := by
  have whole : (data.present start size).size = size := by
    rw [present, Array.size_extract]
    omega
  rw [window, whole, Nat.sub_self]
  exact Array.append_empty.symm

end Bytes

def ByteMap.number (map : ByteMap) (offset size : Nat) : Nat := Bytes.toNat (map.read offset size)

theorem Bytes.toNat_window (data : Bytes) (start size : Nat) :
    toNat (data.window start size) = (ByteMap.ofBytes data).number start size := by
  rw [ByteMap.window_eq_read, ByteMap.number]

namespace ModExp

section

variable (input : ByteMap)

def lengths : Header := ⟨input.number 0 32, input.number 32 32, input.number 64 32⟩

def base : Nat := input.number 96 (lengths input).baseLength

def exponent : Nat :=
  input.number (96 + (lengths input).baseLength) (lengths input).exponentLength

def modulus : Nat :=
  input.number (96 + (lengths input).baseLength + (lengths input).exponentLength)
    (lengths input).modulusLength

end

structure Header.Short (header : Header) : Prop where
  base : header.baseLength < machineLimit
  exponent : header.exponentLength < machineLimit
  modulus : header.modulusLength < machineLimit

/-- An output is the power that an input asks for, as wide as the modulus, so that it is empty where
there is no modulus. Nothing to the power of nothing is one. -/
structure IsPower (input : ByteMap) (output : Bytes) : Prop where
  size_eq : output.size = (lengths input).modulusLength
  toNat_eq : output.toNat =
    if modulus input = 0 then 0 else base input ^ exponent input % modulus input

variable {data : Bytes}

theorem readLength_eq {offset : Nat}
    (small : (ByteMap.ofBytes data).number offset 32 < machineLimit) :
    readLength data offset = (ByteMap.ofBytes data).number offset 32 := by
  rw [readLength, Bytes.toNat_window, Gas.saturate_of_lt small]

theorem header_eq (short : (lengths (.ofBytes data)).Short) :
    header data = lengths (.ofBytes data) := by
  obtain ⟨base, exponent, modulus⟩ := short
  unfold lengths at base exponent modulus ⊢
  dsimp only at base exponent modulus
  rw [header, readLength_eq base, readLength_eq exponent, readLength_eq modulus]

theorem modulus_eq (held : data.size < machineLimit) (short : (lengths (.ofBytes data)).Short) :
    Bytes.toNat (data.window (modulusOffset (header data)) (header data).modulusLength) =
      modulus (.ofBytes data) := by
  rw [modulusOffset, exponentOffset, Gas.saturate_saturate_add, Bytes.window_saturate held,
    Bytes.toNat_window, header_eq short, modulus]

/-- A modulus that is not zero lies past the exponent, which is there as a whole. -/
theorem exponent_eq (held : data.size < machineLimit) (short : (lengths (.ofBytes data)).Short)
    (some : modulus (.ofBytes data) ≠ 0) :
    Bytes.toNat (data.present (exponentOffset (header data)) (header data).exponentLength) =
      exponent (.ofBytes data) := by
  have inside : 96 + (lengths (.ofBytes data)).baseLength +
      (lengths (.ofBytes data)).exponentLength < data.size := by
    by_contra past
    apply some
    rw [modulus, ← Bytes.toNat_window, Bytes.window_past (Nat.not_lt.mp past), Bytes.toNat_zeros]
  rw [header_eq short, exponentOffset, Gas.saturate_of_lt (by omega),
    Bytes.present_eq_window (Nat.le_of_lt inside), Bytes.toNat_window, exponent]

theorem power_isPower (held : data.size < machineLimit) (short : (lengths (.ofBytes data)).Short) :
    IsPower (.ofBytes data) (power data) := by
  have width := congrArg Header.modulusLength (header_eq short)
  have modulus_lt : modulus (.ofBytes data) < 256 ^ (lengths (.ofBytes data)).modulusLength := by
    have below := Bytes.toNat_lt ((ByteMap.ofBytes data).read
      (96 + (lengths (.ofBytes data)).baseLength + (lengths (.ofBytes data)).exponentLength)
      (lengths (.ofBytes data)).modulusLength)
    rwa [ByteMap.size_read] at below
  unfold power
  dsimp only
  rw [modulus_eq held short]
  by_cases nothing : (header data).baseLength = 0 ∧ (header data).modulusLength = 0
  · have none : modulus (.ofBytes data) = 0 := by
      rw [← width, nothing.2] at modulus_lt
      omega
    rw [if_pos nothing]
    exact ⟨by rw [← width, nothing.2]; rfl, by rw [if_pos none]; rfl⟩
  rw [if_neg nothing]
  by_cases trivial : modulus (.ofBytes data) ≤ 1
  · rw [if_pos trivial]
    refine ⟨by rw [Bytes.zeros, Array.size_replicate, width], ?_⟩
    rw [Bytes.toNat_zeros]
    split
    · rfl
    · have one : modulus (.ofBytes data) = 1 := by omega
      rw [one, Nat.mod_one]
  · have some : modulus (.ofBytes data) ≠ 0 := by omega
    rw [if_neg trivial, exponent_eq held short some, Modular.pow_eq, Bytes.toNat_window,
      header_eq short, ← base]
    refine ⟨Array.size_ofFn, ?_⟩
    have below := Nat.mod_lt (base (.ofBytes data) ^ exponent (.ofBytes data))
      (Nat.pos_of_ne_zero some)
    rw [if_neg some, Bytes.toNat_ofNat, Nat.mod_eq_of_lt (below.trans modulus_lt)]

end ModExp

/-- On every input that a memory can hold, with lengths of 64 bits, a contract that succeeds gives
back the power. -/
theorem modExp_isPower {curve : CurveBackend} {fork : Fork} {data : Bytes} {gasLimit : Nat}
    {answer : PrecompileAnswer} (held : data.size < machineLimit)
    (short : (ModExp.lengths (.ofBytes data)).Short)
    (runs : Precompile.modExp.run? curve ⟨data, gasLimit, fork⟩ = some answer)
    (succeeds : answer.success) : ModExp.IsPower (.ofBytes data) answer.output := by
  obtain ⟨_, computes⟩ := (Precompile.run?_settles runs).of_success succeeds
  have powers : ModExp.power? data = some answer.output := computes
  rw [ModExp.power?_eq_some powers]
  exact ModExp.power_isPower held short

/-- Three squared modulo 256. Of the modulus only the first byte is there. -/
def squareInput : Bytes :=
  Bytes.ofNat 32 1 ++ Bytes.ofNat 32 1 ++ Bytes.ofNat 32 2 ++ #[3, 2, 1]

theorem modExp_isPower_cut : squareInput.size < machineLimit ∧
    (ModExp.lengths (.ofBytes squareInput)).Short ∧ ∃ answer,
      Precompile.modExp.run? (Environment.blank .byzantium).curve ⟨squareInput, 1000, .byzantium⟩ =
        some answer ∧
      answer.success ∧ answer.output.size = 2 ∧ answer.output.toNat = 9 := by
  have held : squareInput.size < machineLimit := by decide +kernel
  have short : (ModExp.lengths (.ofBytes squareInput)).Short :=
    ⟨by decide +kernel, by decide +kernel, by decide +kernel⟩
  have runs : (Precompile.modExp.run? (Environment.blank .byzantium).curve
      ⟨squareInput, 1000, .byzantium⟩).map (·.success) = some true := by decide +kernel
  obtain ⟨answer, runs, succeeds⟩ := Option.map_eq_some_iff.mp runs
  obtain ⟨size, value⟩ := modExp_isPower held short runs succeeds
  exact ⟨held, short, answer, runs, succeeds, size.trans (by decide +kernel),
    value.trans (by decide +kernel)⟩

namespace ModExp

/-- Number of bits below the highest one of an exponent of `length` bytes, by the leading part of it
that counts in full. -/
def squarings (length head : Nat) : Nat :=
  head.size - 1 + if 32 < length then 8 * (length - 32) else 0

/-- What one squaring of operands of `size` bytes counts. -/
def area (fork : Fork) (size : Nat) : Nat :=
  if .berlin ≤ fork then ((size + 7) / 8) ^ 2
  else if size ≤ 64 then size ^ 2
  else if size ≤ 1024 then size ^ 2 / 4 + 96 * size - 3072
  else size ^ 2 / 16 + 480 * size - 199680

def divisor (fork : Fork) : Nat := if .berlin ≤ fork then 3 else 20

def least (fork : Fork) : Nat := if .berlin ≤ fork then 200 else 0

def formula (fork : Fork) (size squarings : Nat) : Nat :=
  max (least fork) (area fork size * max squarings 1 / divisor fork)

/-- Operands up to this size are so cheap that the price of one squaring is less than one. -/
def cheapSize (fork : Fork) : Nat := if .berlin ≤ fork then 8 else 4

/-- The price is that of the formula, but that the number of squarings is cut to 64 bits before. -/
structure PricedByFormula (fork : Fork) (baseLength exponentLength modulusLength head : Nat) :
    Prop where
  price_eq : price fork baseLength exponentLength modulusLength head =
    min (machineLimit - 1) (formula fork (max baseLength modulusLength)
      (min (squarings exponentLength head) (machineLimit - 1)))
  /-- The cap makes no difference unless there are too many squarings of a cheap operand. -/
  exact : (machineLimit ≤ squarings exponentLength head → 0 < max baseLength modulusLength →
      cheapSize fork < max baseLength modulusLength) →
    price fork baseLength exponentLength modulusLength head =
      min (machineLimit - 1) (formula fork (max baseLength modulusLength)
        (squarings exponentLength head))
  /-- For too many squarings of a cheap operand the price is too low. -/
  short : machineLimit + 4 ≤ squarings exponentLength head → 0 < max baseLength modulusLength →
    max baseLength modulusLength ≤ cheapSize fork →
    price fork baseLength exponentLength modulusLength head <
      min (machineLimit - 1) (formula fork (max baseLength modulusLength)
        (squarings exponentLength head))

theorem size_sub_one (n : Nat) : n.size - 1 = n.log2 := by
  by_cases zero : n = 0
  · subst zero
    rfl
  · have le : n.size ≤ n.log2 + 1 := Nat.size_le.mpr Nat.lt_log2_self
    have lt : n.log2 < n.size := Nat.lt_size.mpr (Nat.log2_self_le zero)
    omega

theorem exponentBits_eq {length head : Nat} (small : head < 256 ^ min length 32) :
    exponentBits length head = min (squarings length head) (machineLimit - 1) := by
  have limit_eq : machineLimit = 1 <<< 64 := rfl
  have bits : head.log2 < 256 := by
    by_cases zero : head = 0
    · subst zero
      decide
    · rw [Nat.log2_lt zero]
      calc head < 256 ^ min length 32 := small
        _ ≤ 256 ^ 32 := Nat.pow_le_pow_right (by decide) (Nat.min_le_right length 32)
        _ = 2 ^ 256 := by decide
  unfold exponentBits squarings Gas.saturate
  rw [size_sub_one]
  dsimp only
  split
  · rw [if_neg (by omega)]
    omega
  · rw [if_pos (by omega)]
    omega

theorem saturate_div {divisor a b rounds : Nat} (positive : 0 < divisor) (narrow : divisor ≤ 20)
    (some : 0 < rounds) (alike : a = b ∨ 20 * machineLimit ≤ a ∧ 20 * machineLimit ≤ b) :
    Gas.saturate (saturate128 (a * rounds) / divisor) = Gas.saturate (b * rounds / divisor) := by
  have limit_eq : machineLimit = 1 <<< 64 := rfl
  have full {n : Nat} (large : 20 * machineLimit ≤ n) :
      Gas.saturate (n / divisor) = machineLimit - 1 := by
    have most : machineLimit - 1 ≤ n / divisor := by
      rw [Nat.le_div_iff_mul_le positive]
      calc (machineLimit - 1) * divisor ≤ (machineLimit - 1) * 20 := Nat.mul_le_mul_left _ narrow
        _ ≤ n := by omega
    exact Nat.min_eq_right most
  have capped {n : Nat} : 20 * machineLimit ≤ n → 20 * machineLimit ≤ saturate128 n := by
    unfold saturate128
    omega
  have grows {n : Nat} (large : 20 * machineLimit ≤ n) : 20 * machineLimit ≤ n * rounds :=
    large.trans (Nat.le_mul_of_pos_right n some)
  obtain rfl | ⟨left, right⟩ := alike
  · by_cases small : a * rounds < 1 <<< 128
    · rw [saturate128, Nat.min_eq_left (by omega)]
    · rw [full (capped (by omega)), full (by omega)]
  · rw [full (capped (grows left)), full (grows right)]

theorem modExpDivisor_eq (fork : Fork) : fork.fee .modExpDivisor = divisor fork := by
  cases fork <;> rfl

theorem modExpMin_eq (fork : Fork) : fork.fee .modExpMin = least fork := by
  cases fork <;> rfl

/-- One squaring of operands that are not cheap has a price. -/
theorem divisor_le_area {fork : Fork} {size : Nat} (large : cheapSize fork < size) :
    divisor fork ≤ area fork size := by
  unfold cheapSize at large
  unfold divisor area
  by_cases late : .berlin ≤ fork
  · simp only [if_pos late] at large ⊢
    calc 3 ≤ 2 ^ 2 := by decide
      _ ≤ ((size + 7) / 8) ^ 2 := Nat.pow_le_pow_left (by omega) 2
  · simp only [if_neg late] at large ⊢
    split
    · calc 20 ≤ 5 ^ 2 := by decide
        _ ≤ size ^ 2 := Nat.pow_le_pow_left (by omega) 2
    · split <;> omega

theorem area_zero (fork : Fork) : area fork 0 = 0 := by
  cases fork <;> rfl

/-- The cap on a square changes no price. -/
theorem square_alike (size : Nat) : saturate128 (size * size) = size ^ 2 ∨
    20 * machineLimit ≤ saturate128 (size * size) ∧ 20 * machineLimit ≤ size ^ 2 := by
  have limit_eq : machineLimit = 1 <<< 64 := rfl
  rw [Nat.pow_two]
  unfold saturate128
  omega

theorem work_alike (size : Nat) :
    let capped := saturate128 (saturate128 (size * size) / 16 + 480 * size) - 199680
    let exact := size ^ 2 / 16 + 480 * size - 199680
    capped = exact ∨ 20 * machineLimit ≤ capped ∧ 20 * machineLimit ≤ exact := by
  have limit_eq : machineLimit = 1 <<< 64 := rfl
  dsimp only
  rw [Nat.pow_two]
  unfold saturate128
  omega

theorem price_eq_formula (fork : Fork) (baseLength modulusLength : Nat) {exponentLength head : Nat}
    (small : head < 256 ^ min exponentLength 32) :
    price fork baseLength exponentLength modulusLength head =
      min (machineLimit - 1) (formula fork (max baseLength modulusLength)
        (min (squarings exponentLength head) (machineLimit - 1))) := by
  unfold price formula
  dsimp only
  rw [exponentBits_eq small, modExpDivisor_eq, modExpMin_eq]
  generalize min (squarings exponentLength head) (machineLimit - 1) = count
  generalize max baseLength modulusLength = size
  have some : 0 < max count 1 := by omega
  rw [Nat.min_comm, ← Gas.saturate]
  unfold divisor least area
  by_cases late : .berlin ≤ fork
  · simp only [if_pos late]
    rw [Nat.max_comm, Gas.saturate_max, Gas.saturate_max,
      saturate_div (by decide) (by decide) some (square_alike _)]
  · simp only [if_neg late, Nat.zero_max]
    refine saturate_div (by decide) (by decide) some ?_
    split
    · exact .inl (Nat.pow_two size).symm
    · split
      · exact .inl (by rw [Nat.pow_two])
      · exact work_alike size

/-- Where an operand is not cheap, all squarings that are cut off come after the price is at its
highest. -/
theorem formula_min {fork : Fork} {size count : Nat}
    (dear : machineLimit ≤ count → 0 < size → cheapSize fork < size) :
    min (machineLimit - 1) (formula fork size (min count (machineLimit - 1))) =
      min (machineLimit - 1) (formula fork size count) := by
  have limit_eq : machineLimit = 1 <<< 64 := rfl
  have positive : 0 < divisor fork := by cases fork <;> decide
  by_cases few : count < machineLimit
  · rw [Nat.min_eq_left (by omega : count ≤ machineLimit - 1)]
  by_cases empty : size = 0
  · rw [empty, formula, formula, area_zero, Nat.zero_mul, Nat.zero_mul]
  have area_ge := divisor_le_area (dear (by omega) (by omega))
  have full {rounds : Nat} (many : machineLimit - 1 ≤ rounds) :
      min (machineLimit - 1) (formula fork size rounds) = machineLimit - 1 := by
    refine Nat.min_eq_left (le_max_of_le_right ?_)
    rw [Nat.le_div_iff_mul_le positive, Nat.mul_comm]
    exact Nat.mul_le_mul area_ge (many.trans (Nat.le_max_left rounds 1))
  rw [full (by omega), full (by omega)]

theorem formula_min_lt {fork : Fork} {size count : Nat} (many : machineLimit + 4 ≤ count)
    (some : 0 < size) (cheap : size ≤ cheapSize fork) :
    min (machineLimit - 1) (formula fork size (min count (machineLimit - 1))) <
      min (machineLimit - 1) (formula fork size count) := by
  have limit_eq : machineLimit = 1 <<< 64 := rfl
  unfold cheapSize at cheap
  unfold formula divisor least area
  rw [Nat.min_eq_right (by omega : machineLimit - 1 ≤ count)]
  by_cases late : .berlin ≤ fork
  · simp only [if_pos late] at cheap ⊢
    have word : (size + 7) / 8 = 1 := by omega
    rw [word]
    omega
  · simp only [if_neg late] at cheap ⊢
    rw [if_pos (by omega)]
    interval_cases size <;> omega

end ModExp

/-- For every fork, all lengths and every leading part of the exponent, the price is that of the
formula, cut to 64 bits. It is too low where more squarings than 64 bits can count are asked for of
an operand that is nearly free, and nowhere else. -/
theorem modExp_pricedByFormula (fork : Fork) (baseLength exponentLength modulusLength head : Nat)
    (small : head < 256 ^ min exponentLength 32) :
    ModExp.PricedByFormula fork baseLength exponentLength modulusLength head where
  price_eq := ModExp.price_eq_formula fork baseLength modulusLength small
  exact := fun dear => by
    rw [ModExp.price_eq_formula fork baseLength modulusLength small, ModExp.formula_min dear]
  short := fun many some cheap => by
    rw [ModExp.price_eq_formula fork baseLength modulusLength small]
    exact ModExp.formula_min_lt many some cheap

theorem modExp_pricedByFormula_cut : 0 < 256 ^ min (machineLimit - 1) 32 ∧
    ModExp.price .byzantium 0 (machineLimit - 1) 1 0 = 922337203685477580 ∧
    ModExp.price .byzantium 0 (machineLimit - 1) 1 0 <
      min (machineLimit - 1) (ModExp.formula .byzantium 1 (ModExp.squarings (machineLimit - 1) 0)) ∧
    min (machineLimit - 1) (ModExp.formula .byzantium 1 (ModExp.squarings (machineLimit - 1) 0)) =
      7378697629483820633 := by
  have small : 0 < 256 ^ min (machineLimit - 1) 32 := by decide
  have priced := modExp_pricedByFormula .byzantium 0 (machineLimit - 1) 1 0 small
  exact ⟨small, priced.price_eq.trans (by decide), priced.short (by decide) (by decide) (by decide),
    by decide⟩

end Evm
