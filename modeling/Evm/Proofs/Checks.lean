import Evm.Proofs.Metering
import Evm.Proofs.Routines
import Evm.Proofs.Words
import Mathlib.Algebra.Group.Nat.Defs

/-!
# Checked computations

The computations of the machine with every operation checked: a sum or a product that does not fit
has no result, nor has a difference below zero, a division by zero or a slice out of bounds. Each of
them has the result that the machine goes on with.
-/

namespace Evm

namespace Checked

def add? (limit a b : Nat) : Option Nat := if a + b < limit then some (a + b) else none

def mul? (limit a b : Nat) : Option Nat := if a * b < limit then some (a * b) else none

def sub? (a b : Nat) : Option Nat := if b ≤ a then some (a - b) else none

def div? (a b : Nat) : Option Nat := if b = 0 then none else some (a / b)

def mod? (a b : Nat) : Option Nat := if b = 0 then none else some (a % b)

variable {limit a b : Nat}

theorem add?_of_lt (fits : a + b < limit) : add? limit a b = some (a + b) := if_pos fits

theorem mul?_of_lt (fits : a * b < limit) : mul? limit a b = some (a * b) := if_pos fits

theorem sub?_of_le (enough : b ≤ a) : sub? a b = some (a - b) := if_pos enough

theorem div?_of_pos (positive : 0 < b) : div? a b = some (a / b) := if_neg (by omega)

theorem mod?_of_pos (positive : 0 < b) : mod? a b = some (a % b) := if_neg (by omega)

end Checked

open Checked

namespace Memory

variable {offset size : Nat}

def price? (fork : Fork) (words : Nat) : Option Nat := do
  let linear ← mul? machineLimit (fork.fee .memory) words
  let square ← mul? machineLimit words words
  let quadratic ← div? square (fork.fee .quadCoeffDiv)
  add? machineLimit linear quadratic

def expansionPrice? (memory : Memory) (fork : Fork) (offset size : Nat) : Option Nat :=
  if size = 0 then some 0
  else do
    let stop ← add? machineLimit offset size
    if wordCount stop ≤ memory.size / 32 then some 0
    else do sub? (← price? fork (wordCount stop)) (← price? fork (memory.size / 32))

def expandedSize? (memory : Memory) (offset size : Nat) : Option Nat :=
  if size = 0 then some memory.size
  else do
    let stop ← add? machineLimit offset size
    return max memory.size (← mul? machineLimit 32 (wordCount stop))

theorem price?_eq (fork : Fork) {words : Nat} (bounded : words ≤ 1 <<< 27) :
    price? fork words = some (price fork words) := by
  have square : words * words ≤ (1 <<< 27) * (1 <<< 27) := Nat.mul_le_mul bounded bounded
  have whole := price_le fork bounded
  have fits : (1 <<< 54) < machineLimit := by decide
  unfold price? price
  unfold price at whole
  rw [show fork.fee .memory = 3 from rfl, show fork.fee .quadCoeffDiv = 512 from rfl] at whole ⊢
  rw [mul?_of_lt (by omega), mul?_of_lt (by omega)]
  simp only [Option.bind_eq_bind, Option.bind_some]
  rw [div?_of_pos (by decide), Option.bind_some, add?_of_lt (by omega)]

theorem price_mono (fork : Fork) {less more : Nat} (le : less ≤ more) :
    price fork less ≤ price fork more := by
  have square := Nat.div_le_div_right (Nat.mul_le_mul le le) (c := fork.fee .quadCoeffDiv)
  have linear := Nat.mul_le_mul_left (fork.fee .memory) le
  unfold price
  omega

theorem wordCount_le (within : offset + size ≤ memoryLimit) :
    wordCount (offset + size) ≤ 1 <<< 27 := by
  unfold wordCount
  unfold memoryLimit at within
  omega

theorem expansionPrice?_eq (memory : Memory) (fork : Fork) (within : offset + size ≤ memoryLimit) :
    memory.expansionPrice? fork offset size = some (memory.expansionPrice fork offset size) := by
  have words := wordCount_le within
  have fits : memoryLimit < machineLimit := by decide
  unfold expansionPrice? expansionPrice
  by_cases empty : size = 0
  · rw [if_pos empty]
    exact congrArg some (if_pos (.inl empty)).symm
  rw [if_neg empty, add?_of_lt (by omega)]
  simp only [Option.bind_eq_bind, Option.bind_some]
  by_cases covered : wordCount (offset + size) ≤ memory.size / 32
  · rw [if_pos covered, if_pos (.inr covered)]
  · rw [if_neg covered, if_neg (by simp [empty, covered]), price?_eq fork words,
      price?_eq fork (by omega)]
    exact sub?_of_le (price_mono fork (by omega))

theorem expandedSize?_eq (memory : Memory) (within : offset + size ≤ memoryLimit) :
    memory.expandedSize? offset size = some (memory.expand offset size).size := by
  have words := wordCount_le within
  have fits : memoryLimit < machineLimit := by decide
  have fits' : 32 * (1 <<< 27) < machineLimit := by decide
  rw [size_expand]
  unfold expandedSize?
  by_cases empty : size = 0
  · rw [if_pos empty, if_pos empty]
  · rw [if_neg empty, if_neg empty, add?_of_lt (by omega)]
    simp only [Option.bind_eq_bind, Option.bind_some]
    rw [mul?_of_lt (by omega)]
    rfl

theorem max_end_le {target source size : Word} {written read : Nat × Nat}
    (writes : region? target size = some written) (reads : region? source size = some read) :
    max written.1 read.1 + written.2 ≤ memoryLimit := by
  obtain ⟨⟨writtenEnd, _⟩, writtenSize⟩ := within_of_region? writes
  obtain ⟨⟨readEnd, _⟩, readSize⟩ := within_of_region? reads
  omega

end Memory

namespace Bytes

/-- A window cut out of the bytes that are there, in a buffer of its own. -/
def window? (bytes : Bytes) (start size : Nat) : Option Bytes := do
  let buffer ← buffer? size
  if start < bytes.size then
    let count := min size (← sub? bytes.size start)
    let part ← Instruction.slice? bytes start (start + count)
    return part ++ zeros (← sub? size count)
  else return buffer

theorem window?_eq (bytes : Bytes) (start size : Nat) :
    bytes.window? start size = bytes.padded? start size := by
  unfold window? padded? buffer?
  by_cases held : size < allocationLimit
  swap
  · rw [if_neg held, if_neg held]
    rfl
  rw [if_pos held, if_pos held]
  unfold window present
  simp only [Option.bind_eq_bind, Option.bind_some, Option.pure_def]
  by_cases inside : start < bytes.size
  · rw [if_pos inside, sub?_of_le (Nat.le_of_lt inside)]
    simp only [Option.bind_some]
    rw [Instruction.slice?, if_pos (by omega), Option.bind_some, sub?_of_le (by omega)]
    have same : bytes.extract start (start + min size (bytes.size - start)) =
        bytes.extract start (start + size) := by
      rw [Array.extract_eq_extract_right]
      omega
    have counts : size - (bytes.extract start (start + size)).size =
        size - min size (bytes.size - start) := by
      rw [Array.size_extract]
      omega
    rw [same, counts]
    rfl
  · have none : bytes.extract start (start + size) = #[] := by
      apply Array.eq_empty_of_size_eq_zero
      rw [Array.size_extract]
      omega
    rw [if_neg inside, none]
    simp

theorem toNat_lt (bytes : Bytes) : bytes.toNat < 256 ^ bytes.size := by
  obtain ⟨bytes⟩ := bytes
  have counts : ∀ (bytes : List UInt8) (value : Nat),
      bytes.foldl (fun value byte => value * 256 + byte.toNat) value <
        (value + 1) * 256 ^ bytes.length := by
    intro bytes
    induction bytes with
    | nil => simp
    | cons byte bytes ih =>
      intro value
      have below := byte.toNat_lt
      refine Nat.lt_of_lt_of_le (ih _) ?_
      rw [List.length_cons, Nat.pow_succ, Nat.mul_comm (256 ^ bytes.length), ← Nat.mul_assoc]
      refine Nat.mul_le_mul_right _ ?_
      dsimp only
      omega
  simpa [toNat] using counts bytes 0

end Bytes

namespace Instruction

theorem argument_le (offset : Nat) (byte : UInt8) (rest : List UInt8) :
    (read offset byte rest).argument.size ≤ 32 := by
  have width : ((Operation.ofByte? byte).map Operation.argumentWidth).getD 0 ≤ 32 := by
    cases Operation.ofByte? byte with
    | none => exact Nat.zero_le _
    | some operation =>
      cases operation with
      | push width => exact Nat.le_of_lt_succ width.isLt
      | _ => exact Nat.zero_le _
  simp only [read, Array.size_append, Bytes.zeros, Array.size_replicate, List.size_toArray,
    List.length_take]
  omega

theorem split_within {offset : Nat} {bytes : List UInt8} {found : Array Instruction}
    {instruction : Instruction} (member : instruction ∈ split offset bytes found) :
    instruction ∈ found ∨
      offset ≤ instruction.offset ∧ instruction.offset < offset + bytes.length ∧
        instruction.argument.size ≤ 32 := by
  fun_induction split offset bytes found with
  | case1 => exact .inl member
  | case2 offset found byte rest made width ih =>
    rw [List.length_cons]
    obtain member | ⟨offset_le, offset_lt, short⟩ := ih member
    · obtain member | rfl := Array.mem_push.mp member
      · exact .inl member
      · exact .inr ⟨Nat.le_refl offset, Nat.lt_add_of_pos_right (Nat.succ_pos _),
          argument_le offset byte rest⟩
    -- An argument that runs past the end leaves no byte for another instruction.
    · rw [List.length_drop] at offset_lt
      exact .inr ⟨by omega, by omega, short⟩

end Instruction

theorem Code.offset_lt {bytes : Bytes} {instruction : Instruction}
    (member : instruction ∈ (Code.ofBytes bytes).instructions) :
    instruction.offset < bytes.size ∧ instruction.argument.size ≤ 32 := by
  obtain member | ⟨_, offset_lt, short⟩ := Instruction.split_within member
  · simp at member
  · exact ⟨by simpa using offset_lt, short⟩

/-- The value of an operation that divides magnitudes, and never by zero. -/
def Binary.eval? : Binary → Word → Word → Option Word
  | .div, a, b => if b = 0 then some 0 else a.div? b
  | .mod, a, b => if b = 0 then some 0 else a.mod? b
  | .sdiv, a, b =>
    if b = 0 then some 0
    else (Word.div? a.abs b.abs).map fun quotient =>
      if a.isNegative = b.isNegative then quotient else -quotient
  | .smod, a, b =>
    if b = 0 then some 0
    else (Word.mod? a.abs b.abs).map fun rest => if a.isNegative then -rest else rest
  | op, a, b => some (op.eval a b)

def Ternary.eval? (op : Ternary) (a b n : Word) : Option Word :=
  if n = 0 then some 0
  else do
    let whole ← match op with
      | .addMod => add? (1 <<< 512) a.toNat b.toNat
      | .mulMod => mul? (1 <<< 512) a.toNat b.toNat
    let rest ← mod? whole n.toNat
    if rest < Word.limit then some (BitVec.ofNat 256 rest) else none

theorem Word.abs_ne_zero {word : Word} (other : word ≠ 0) : word.abs ≠ 0 := by
  rw [BitVec.abs]
  split
  · simpa using other
  · exact other

theorem Binary.eval?_eq (op : Binary) (a b : Word) : op.eval? a b = some (op.eval a b) := by
  by_cases zero : b = 0
  · subst zero
    cases op <;> simp [Binary.eval?, Binary.eval, Word.mod, Word.divSigned, Word.modSigned]
  have magnitude := Word.abs_ne_zero zero
  cases op with
  | div => rw [Binary.eval?, if_neg zero, Word.div?, if_neg zero, Binary.eval]
  | mod => rw [Binary.eval?, if_neg zero, Word.mod?, if_neg zero, Binary.eval, Word.mod, if_neg zero]
  | sdiv =>
    rw [Binary.eval?, if_neg zero, Word.div?, if_neg magnitude, Option.map_some, Binary.eval,
      Word.divSigned, if_neg zero]
  | smod =>
    rw [Binary.eval?, if_neg zero, Word.mod?, if_neg magnitude, Option.map_some, Binary.eval,
      Word.modSigned, if_neg zero]
  | _ => rfl

theorem Ternary.eval?_eq (op : Ternary) (a b n : Word) : op.eval? a b n = some (op.eval a b n) := by
  by_cases zero : n = 0
  · subst zero
    cases op <;> simp [Ternary.eval?, Ternary.eval, Word.addMod, Word.mulMod]
  have below : ∀ whole, whole % n.toNat < Word.limit := fun whole =>
    Nat.lt_trans (Nat.mod_lt whole (Word.toNat_pos zero)) n.isLt
  have sum : a.toNat + b.toNat < 1 <<< 512 := by
    have := a.isLt
    have := b.isLt
    omega
  have product : a.toNat * b.toNat < 1 <<< 512 := by
    calc a.toNat * b.toNat < 2 ^ 256 * 2 ^ 256 := Nat.mul_lt_mul'' a.isLt b.isLt
      _ = 1 <<< 512 := by decide
  cases op with
  | addMod =>
    rw [Ternary.eval?, if_neg zero, Ternary.eval]
    simp only [add?_of_lt sum, mod?_of_pos (Word.toNat_pos zero), Option.bind_eq_bind,
      Option.bind_some, if_pos (below _), ← Word.toNat_addMod a b zero, BitVec.ofNat_toNat,
      BitVec.setWidth_eq]
  | mulMod =>
    rw [Ternary.eval?, if_neg zero, Ternary.eval]
    simp only [mul?_of_lt product, mod?_of_pos (Word.toNat_pos zero), Option.bind_eq_bind,
      Option.bind_some, if_pos (below _), ← Word.toNat_mulMod a b zero, BitVec.ofNat_toNat,
      BitVec.setWidth_eq]

def Gas.allButOne64th? (gas : Nat) : Option Nat := do sub? gas (← div? gas 64)

theorem Gas.allButOne64th?_eq (gas : Nat) : allButOne64th? gas = some (allButOne64th gas) := by
  unfold allButOne64th? allButOne64th
  rw [div?_of_pos (by decide)]
  exact sub?_of_le (Nat.div_le_self gas 64)

/-- What comes back when a slot gets its initial value again. -/
def Instruction.restored? (fork : Fork) (initial : Word) : Option Nat :=
  if initial = 0 then sub? (fork.fee .sstoreSet) (fork.fee .sstoreDirty)
  else sub? (fork.fee .sstoreReset) (fork.fee .sstoreDirty)

/-- Under every fork a slot that is changed once more costs no more than one that is set or reset. -/
theorem Instruction.restored?_eq (fork : Fork) (initial : Word) :
    restored? fork initial = some (if initial = 0
      then fork.fee .sstoreSet - fork.fee .sstoreDirty
      else fork.fee .sstoreReset - fork.fee .sstoreDirty) := by
  have cheap : fork.fee .sstoreDirty ≤ fork.fee .sstoreSet ∧
      fork.fee .sstoreDirty ≤ fork.fee .sstoreReset := by cases fork <;> decide
  unfold restored?
  split
  · exact sub?_of_le cheap.1
  · exact sub?_of_le cheap.2

def Execution.depositedGas? (fork : Fork) (message : Message) (ended : Result) : Option Nat := do
  let deposit ← mul? machineLimit (fork.fee .codeDeposit) ended.output.size
  let left ← sub? message.gasLimit ended.gasUsed
  if left < deposit then some message.gasLimit else add? machineLimit ended.gasUsed deposit

theorem Execution.depositedGas?_isSome {fork : Fork} {message : Message} {ended : Result}
    (small : ended.output.size ≤ memoryLimit) (used_le : ended.gasUsed ≤ message.gasLimit)
    (bounded : message.gasLimit < machineLimit) : (depositedGas? fork message ended).isSome := by
  have fits : 200 * memoryLimit < machineLimit := by decide
  unfold depositedGas?
  rw [show fork.fee .codeDeposit = 200 from rfl, mul?_of_lt (by omega), sub?_of_le used_le]
  simp only [Option.bind_eq_bind, Option.bind_some]
  split
  · rfl
  · rw [add?_of_lt (by omega)]
    rfl

namespace ModExp

/-- The work on operands of the given length, before it was counted by the word. -/
def work? (x : Nat) : Option Nat :=
  if x ≤ 64 then mul? (1 <<< 128) x x
  else if x ≤ 1024 then do
    let square ← mul? (1 <<< 128) x x
    let linear ← mul? (1 <<< 128) 96 x
    sub? (← add? (1 <<< 128) (square / 4) linear) 3072
  else do
    let linear ← mul? (1 <<< 128) 480 x
    sub? (saturate128 (saturate128 (x * x) / 16 + linear)) 199680

def price? (fork : Fork) (baseLength exponentLength modulusLength head : Nat) : Option Nat :=
  let x := max baseLength modulusLength
  let rounds := max (exponentBits exponentLength head) 1
  if .berlin ≤ fork then do
    let words := (x + 7) / 8
    let work := saturate128 (saturate128 (words * words) * rounds)
    return Gas.saturate (max (← div? work (fork.fee .modExpDivisor)) (fork.fee .modExpMin))
  else do
    let work := saturate128 ((← work? x) * rounds)
    return Gas.saturate (← div? work (fork.fee .modExpDivisor))

/-- Where the square is too small to pay for what is taken off, its formula is not used. -/
theorem work?_eq {x : Nat} (bounded : x < machineLimit) :
    work? x = some (if x ≤ 64 then x * x
      else if x ≤ 1024 then x * x / 4 + 96 * x - 3072
      else saturate128 (saturate128 (x * x) / 16 + 480 * x) - 199680) := by
  have wide : machineLimit * machineLimit = 1 <<< 128 := by decide
  have limit_eq : machineLimit = 1 <<< 64 := rfl
  have square : x * x < 1 <<< 128 := wide ▸ Nat.mul_lt_mul'' bounded bounded
  unfold work?
  by_cases small : x ≤ 64
  · rw [if_pos small, if_pos small, mul?_of_lt square]
  rw [if_neg small, if_neg small]
  by_cases middling : x ≤ 1024
  · rw [if_pos middling, if_pos middling, mul?_of_lt square]
    simp only [Option.bind_eq_bind, Option.bind_some]
    rw [mul?_of_lt (by omega), Option.bind_some, add?_of_lt (by omega), Option.bind_some]
    exact sub?_of_le (by omega)
  · rw [if_neg middling, if_neg middling, mul?_of_lt (by omega)]
    simp only [Option.bind_eq_bind, Option.bind_some]
    refine sub?_of_le ?_
    unfold saturate128
    omega

theorem price?_eq (fork : Fork) {baseLength modulusLength : Nat} (exponentLength head : Nat)
    (base : baseLength < machineLimit) (modulus : modulusLength < machineLimit) :
    price? fork baseLength exponentLength modulusLength head =
      some (price fork baseLength exponentLength modulusLength head) := by
  have positive : 0 < fork.fee .modExpDivisor := by cases fork <;> decide
  have longest : max baseLength modulusLength < machineLimit := by omega
  unfold price? price
  by_cases late : .berlin ≤ fork
  · simp only [if_pos late, div?_of_pos positive, Option.bind_eq_bind, Option.bind_some,
      Option.pure_def]
  · simp only [if_neg late, work?_eq longest, div?_of_pos positive, Option.bind_eq_bind,
      Option.bind_some, Option.pure_def]

theorem readLength_lt (data : Bytes) (offset : Nat) : readLength data offset < machineLimit := by
  have positive : 0 < machineLimit := by decide
  unfold readLength Gas.saturate
  omega

theorem pow_lt {modulus : Nat} (positive : 0 < modulus) (base exponent : Nat) :
    Modular.pow modulus base exponent < modulus := by
  unfold Modular.pow
  fun_induction Modular.mulPow modulus 1 (base % modulus) exponent with
  | case1 acc base => exact Nat.mod_lt acc positive
  | case2 acc base exponent _ ih => exact ih

theorem pow_lt_width (data : Bytes) (offset width base exponent : Nat)
    (large : 1 < Bytes.toNat (data.window offset width)) :
    Modular.pow (Bytes.toNat (data.window offset width)) base exponent < 256 ^ width := by
  have below := Bytes.toNat_lt (data.window offset width)
  rw [Memory.size_window] at below
  exact Nat.lt_trans (pow_lt (by omega) base exponent) below

end ModExp

namespace Gas

theorem saturate_lt (amount : Nat) : saturate amount < machineLimit := by
  have positive : 0 < machineLimit := by decide
  unfold saturate
  omega

end Gas

theorem Precompile.price_lt (contract : Precompile) (fork : Fork) (data : Bytes) :
    contract.price fork data < machineLimit := by
  cases contract with
  | ecRecover => exact fork.fee_lt .ecRecover
  | ecAdd => exact fork.fee_lt .ecAdd
  | ecMul => exact fork.fee_lt .ecMul
  | sha256 => exact Gas.saturate_lt _
  | ripemd160 => exact Gas.saturate_lt _
  | identity => exact Gas.saturate_lt _
  | ecPairing => exact Gas.saturate_lt _
  | modExp =>
    unfold price ModExp.priceOf ModExp.price
    dsimp only
    split <;> exact Gas.saturate_lt _
  | blake2 =>
    have rounds := Bytes.toNat_lt (data.window 0 4)
    rw [Memory.size_window] at rounds
    have fits : 256 ^ 4 < machineLimit := by decide
    show 1 * Bytes.toNat (data.window 0 4) < machineLimit
    omega

end Evm
