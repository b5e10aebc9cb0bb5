import Evm.Message
import Evm.Precompile

/-!
# Routines of precompiled contracts

The routines check the gas that is offered, the form of the input and what comes out in orders of
their own. In every order there is a price and a verdict that the offer has no part in. One routine
can come to nothing: a power whose operands no buffer can hold, offered as much gas as there can be.
-/

namespace Evm

/-- What an answer must be on an offer, for a price and a verdict. The verdict is the output of a
valid input. -/
structure PrecompileAnswer.Settles (price : Nat) (verdict : Option Bytes) (gasLimit : Nat)
    (answer : PrecompileAnswer) : Prop where
  success_iff : answer.success ↔ verdict.isSome ∧ price ≤ gasLimit
  gasUsed_le : answer.gasUsed ≤ gasLimit
  of_success : answer.success → answer.gasUsed = price ∧ verdict = some answer.output
  of_failure : answer.success = false → answer.gasUsed = gasLimit ∧ answer.output = #[]

namespace PrecompileAnswer

variable {price gasLimit : Nat}

theorem settles_ok (output : Bytes) (offered : price ≤ gasLimit) :
    (ok price output).Settles price (some output) gasLimit :=
  ⟨by simp [ok, offered], offered, fun _ => ⟨rfl, rfl⟩, by simp [ok]⟩

theorem settles_unpaid (verdict : Option Bytes) (short : gasLimit < price) :
    (outOfGas gasLimit).Settles price verdict gasLimit :=
  ⟨by simp [outOfGas, short], Nat.le_refl _, by simp [outOfGas], fun _ => ⟨rfl, rfl⟩⟩

theorem settles_invalid (price gasLimit : Nat) :
    (outOfGas gasLimit).Settles price none gasLimit :=
  ⟨by simp [outOfGas], Nat.le_refl _, by simp [outOfGas], fun _ => ⟨rfl, rfl⟩⟩

end PrecompileAnswer

namespace Bytes

variable {bytes buffer : Bytes} {start size : Nat}

theorem buffer?_eq_some (holds : buffer? size = some buffer) : buffer = zeros size := by
  unfold buffer? at holds
  split at holds <;> cases holds
  rfl

theorem padded?_eq_some (reads : bytes.padded? start size = some buffer) :
    buffer = bytes.window start size := by
  unfold padded? at reads
  split at reads <;> cases reads
  rfl

end Bytes

def Bytes.sized? (size : Nat) (output : Bytes) : Option Bytes :=
  if output.size = size then some output else none

namespace Routine

open PrecompileAnswer

variable (input : PrecompileInput)

theorem ecRecover_settles :
    (ecRecover input).Settles (input.fork.fee .ecRecover)
      (some (EcRecover.signer EcRecover.recoverKey input.data)) input.gasLimit := by
  unfold ecRecover
  dsimp only
  split
  · exact settles_unpaid _ ‹_›
  · exact settles_ok _ (Nat.not_lt.mp ‹_›)

theorem byWord_settles (fixed word : Fee) (compute : Bytes → Bytes) :
    (byWord fixed word compute input).Settles (Gas.perWord input.fork fixed word input.data.size)
      (some (compute input.data)) input.gasLimit := by
  unfold byWord chargeWords
  dsimp only
  by_cases offered : Gas.perWord input.fork fixed word input.data.size ≤ input.gasLimit
  · rw [if_pos offered]
    exact settles_ok _ offered
  · rw [if_neg offered]
    exact settles_unpaid _ (Nat.not_le.mp offered)

theorem expect_settles {price size gasLimit : Nat} (output : Bytes) :
    (if gasLimit < price then outOfGas gasLimit
      else if output.size ≠ size then outOfGas gasLimit else ok price output).Settles
      price (output.sized? size) gasLimit := by
  by_cases short : gasLimit < price
  · rw [if_pos short]
    exact settles_unpaid _ short
  · rw [if_neg short]
    by_cases sized : output.size = size
    · rw [if_neg (by simp [sized]), Bytes.sized?, if_pos sized]
      exact settles_ok _ (Nat.not_lt.mp short)
    · rw [if_pos sized, Bytes.sized?, if_neg sized]
      exact settles_invalid ..

theorem onPoints_settles (fee : Fee) (width : Nat) (compute : Bytes → Bytes) :
    (onPoints fee width compute input).Settles (input.fork.fee fee)
      ((compute (input.data.window 0 width)).sized? 64) input.gasLimit :=
  expect_settles _

theorem ecPairing_settles (curve : CurveBackend) :
    (ecPairing curve input).Settles
      (Gas.saturate (input.fork.fee .ecPairing +
        Gas.saturate (input.fork.fee .ecPairingPair * (input.data.size / 192))))
      (if input.data.size % 192 = 0 then (curve.pairing input.data).sized? 32 else none)
      input.gasLimit := by
  unfold ecPairing
  by_cases whole : input.data.size % 192 = 0
  · simp only [whole, if_true, ne_eq, not_true_eq_false, or_false]
    exact expect_settles _
  · simp only [whole, if_false, ne_eq, not_false_eq_true, or_true, if_true]
    exact settles_invalid ..

/-- A power that is computed is computed after the price is paid. -/
theorem modExp?_settles {answer : PrecompileAnswer} (runs : modExp? input = some answer) :
    answer.Settles (ModExp.priceOf input.fork input.data) (ModExp.power? input.data)
      input.gasLimit := by
  unfold modExp? at runs
  dsimp only at runs
  split at runs
  · cases runs
    exact settles_unpaid _ ‹_›
  · obtain ⟨output, computes, runs⟩ := Option.bind_eq_some_iff.mp runs
    cases runs
    rw [computes]
    exact settles_ok _ (Nat.not_lt.mp ‹_›)

theorem modExp?_eq_none : modExp? input = none ↔
    ModExp.priceOf input.fork input.data ≤ input.gasLimit ∧ ModExp.power? input.data = none := by
  unfold modExp?
  dsimp only
  split
  · simp [Nat.not_le.mpr ‹_›]
  · cases ModExp.power? input.data <;> simp [Nat.not_lt.mp ‹_›]

/-- The size of the input is looked at first, and its last byte after the price is paid. -/
theorem blake2_settles :
    (blake2 input).Settles (input.fork.fee .blake2Round * Blake2.rounds input.data)
      (if input.data.size = 213 then
        (Blake2.isLast? input.data).map (Blake2.compressed input.data) else none)
      input.gasLimit := by
  unfold blake2
  by_cases sized : input.data.size = 213
  · simp only [sized, ne_eq, not_true_eq_false, if_false, if_true]
    by_cases short : input.gasLimit < input.fork.fee .blake2Round * Blake2.rounds input.data
    · rw [if_pos short]
      exact settles_unpaid _ short
    · rw [if_neg short]
      cases Blake2.isLast? input.data with
      | none => exact settles_invalid ..
      | some isLast => exact settles_ok _ (Nat.not_lt.mp short)
  · rw [if_pos sized, if_neg sized]
    exact settles_invalid ..

end Routine

namespace Precompile

variable {contract : Precompile} {curve : CurveBackend} {input : PrecompileInput}

def price (contract : Precompile) (fork : Fork) (data : Bytes) : Nat :=
  match contract with
  | .ecRecover => fork.fee .ecRecover
  | .sha256 => Gas.perWord fork .sha256 .sha256Word data.size
  | .ripemd160 => Gas.perWord fork .ripemd160 .ripemd160Word data.size
  | .identity => Gas.perWord fork .identity .identityWord data.size
  | .modExp => ModExp.priceOf fork data
  | .ecAdd => fork.fee .ecAdd
  | .ecMul => fork.fee .ecMul
  | .ecPairing =>
    Gas.saturate (fork.fee .ecPairing + Gas.saturate (fork.fee .ecPairingPair * (data.size / 192)))
  | .blake2 => fork.fee .blake2Round * Blake2.rounds data

def verdict (contract : Precompile) (curve : CurveBackend) (data : Bytes) : Option Bytes :=
  match contract with
  | .ecRecover => some (EcRecover.signer EcRecover.recoverKey data)
  | .sha256 => some (Evm.sha256 data)
  | .ripemd160 => some (Bytes.zeros 12 ++ Evm.ripemd160 data)
  | .identity => some data
  | .modExp => ModExp.power? data
  | .ecAdd => (curve.add (data.window 0 128)).sized? 64
  | .ecMul => (curve.mul (data.window 0 96)).sized? 64
  | .ecPairing => if data.size % 192 = 0 then (curve.pairing data).sized? 32 else none
  | .blake2 =>
    if data.size = 213 then (Blake2.isLast? data).map (Blake2.compressed data) else none

theorem run?_settles {answer : PrecompileAnswer} (runs : contract.run? curve input = some answer) :
    answer.Settles (contract.price input.fork input.data) (contract.verdict curve input.data)
      input.gasLimit := by
  cases contract <;> simp only [run?, Option.some.injEq] at runs
  case modExp => exact Routine.modExp?_settles input runs
  all_goals subst runs
  case ecRecover => exact Routine.ecRecover_settles input
  case sha256 => exact Routine.byWord_settles input .sha256 .sha256Word Evm.sha256
  case ripemd160 =>
    exact Routine.byWord_settles input .ripemd160 .ripemd160Word fun data =>
      Bytes.zeros 12 ++ Evm.ripemd160 data
  case identity => exact Routine.byWord_settles input .identity .identityWord id
  case ecAdd => exact Routine.onPoints_settles input .ecAdd 128 curve.add
  case ecMul => exact Routine.onPoints_settles input .ecMul 96 curve.mul
  case ecPairing => exact Routine.ecPairing_settles input curve
  case blake2 => exact Routine.blake2_settles input

theorem run?_eq_none : contract.run? curve input = none ↔
    contract = .modExp ∧ ModExp.priceOf input.fork input.data ≤ input.gasLimit ∧
      ModExp.power? input.data = none := by
  cases contract
  case modExp => simpa [run?] using Routine.modExp?_eq_none input
  all_goals simp [run?]

end Precompile

namespace ModExp

open Bytes

variable {data : Bytes}

/-- An operand that has to be read is too large for a buffer. -/
def Overflows (data : Bytes) : Prop :=
  let h := header data
  allocationLimit ≤ h.modulusLength ∨
    1 < toNat (data.window (modulusOffset h) h.modulusLength) ∧ allocationLimit ≤ h.baseLength

def power (data : Bytes) : Bytes :=
  let h := header data
  let modulus := toNat (data.window (modulusOffset h) h.modulusLength)
  if h.baseLength = 0 ∧ h.modulusLength = 0 then #[]
  else if modulus ≤ 1 then zeros h.modulusLength
  else
    let base := toNat (data.window 96 h.baseLength)
    let exponent := toNat (data.present (exponentOffset h) h.exponentLength)
    ofNat h.modulusLength (Modular.pow modulus base exponent)

theorem power?_eq_some {output : Bytes} (computes : power? data = some output) :
    output = power data := by
  unfold power? at computes
  unfold power
  dsimp only at computes ⊢
  by_cases nothing : (header data).baseLength = 0 ∧ (header data).modulusLength = 0
  · rw [if_pos nothing] at computes ⊢
    exact (Option.some.inj computes).symm
  rw [if_neg nothing] at computes ⊢
  obtain ⟨_, reads, computes⟩ := Option.bind_eq_some_iff.mp computes
  obtain ⟨_, holds, computes⟩ := Option.bind_eq_some_iff.mp computes
  rw [padded?_eq_some reads, buffer?_eq_some holds] at computes
  split at computes
  · rw [if_pos ‹_›]
    exact (Option.some.inj computes).symm
  · rw [if_neg ‹_›]
    obtain ⟨_, reads', computes⟩ := Option.bind_eq_some_iff.mp computes
    rw [padded?_eq_some reads'] at computes
    exact (Option.some.inj computes).symm

theorem power?_eq_none : power? data = none ↔ Overflows data := by
  have positive : 0 < allocationLimit := by decide
  unfold power? Overflows padded? buffer?
  dsimp only
  by_cases wide : allocationLimit ≤ (header data).modulusLength
  · have some : ¬((header data).baseLength = 0 ∧ (header data).modulusLength = 0) := by omega
    simp [some, wide, Nat.not_lt.mpr wide]
  · have held : (header data).modulusLength < allocationLimit := Nat.not_le.mp wide
    by_cases deep : allocationLimit ≤ (header data).baseLength
    · have some : ¬((header data).baseLength = 0 ∧ (header data).modulusLength = 0) := by omega
      simp [some, wide, held, deep, Nat.not_lt.mpr deep]
    · simp only [if_pos held, if_pos (Nat.not_le.mp deep), wide, deep, and_false, or_false,
        iff_false, Option.bind_eq_bind, Option.bind_some]
      split
      · simp
      · split <;> simp

theorem saturate_div_of_large {divisor work : Nat} (positive : 0 < divisor) (narrow : divisor ≤ 20)
    (large : 20 * machineLimit ≤ work) : Gas.saturate (work / divisor) = machineLimit - 1 := by
  refine Nat.min_eq_right ?_
  rw [Nat.le_div_iff_mul_le positive]
  calc (machineLimit - 1) * divisor ≤ (machineLimit - 1) * 20 := Nat.mul_le_mul_left _ narrow
    _ ≤ work := by omega

theorem le_saturate128 {work : Nat} (large : 20 * machineLimit ≤ work) :
    20 * machineLimit ≤ saturate128 work := by
  have limit_eq : machineLimit = 1 <<< 64 := rfl
  unfold saturate128
  omega

theorem price_of_large (fork : Fork) {baseLength modulusLength : Nat} (exponentLength head : Nat)
    (large : allocationLimit ≤ max baseLength modulusLength) :
    price fork baseLength exponentLength modulusLength head = machineLimit - 1 := by
  have limit_eq : machineLimit = 1 <<< 64 := rfl
  have allocation_eq : allocationLimit = 1 <<< 63 := rfl
  have positive : 0 < fork.fee .modExpDivisor := by cases fork <;> decide
  have narrow : fork.fee .modExpDivisor ≤ 20 := by cases fork <;> decide
  have some : 0 < max (exponentBits exponentLength head) 1 := by omega
  unfold price
  dsimp only
  generalize max baseLength modulusLength = x at large ⊢
  generalize max (exponentBits exponentLength head) 1 = rounds at some ⊢
  have grows {work : Nat} (large : 20 * machineLimit ≤ work) : 20 * machineLimit ≤ work * rounds :=
    Nat.le_trans large (Nat.le_mul_of_pos_right work some)
  split
  · have square : (1 <<< 60) * (1 <<< 60) ≤ (x + 7) / 8 * ((x + 7) / 8) :=
      Nat.mul_le_mul (by omega) (by omega)
    have full := saturate_div_of_large positive narrow
      (le_saturate128 (grows (le_saturate128 (Nat.le_trans (by decide) square))))
    unfold Gas.saturate at full ⊢
    omega
  · rw [if_neg (by omega), if_neg (by omega)]
    have square : (1 <<< 63) * (1 <<< 63) ≤ x * x := Nat.mul_le_mul (by omega) (by omega)
    refine saturate_div_of_large positive narrow (le_saturate128 (grows ?_))
    unfold saturate128
    omega

theorem priceOf_of_overflows (fork : Fork) (overflows : Overflows data) :
    priceOf fork data = machineLimit - 1 := by
  refine price_of_large fork _ _ ?_
  obtain wide | ⟨_, deep⟩ := overflows
  · exact Nat.le_trans wide (Nat.le_max_right ..)
  · exact Nat.le_trans deep (Nat.le_max_left ..)

end ModExp

/-- The message is for a power that no buffer can hold, and has as much gas as there can be. -/
def Message.Overflows (fork : Fork) (message : Message) : Prop :=
  message.isCreation = false ∧ Precompile.at? fork message.codeAddress = some .modExp ∧
    machineLimit ≤ message.gasLimit + 1 ∧ ModExp.Overflows message.data

namespace Message

variable {fork : Fork} {message : Message} {contract : Precompile}

theorem not_overflows_of_gasLimit (bounded : message.gasLimit + 1 < machineLimit) :
    ¬message.Overflows fork :=
  fun overflows => Nat.not_le.mpr bounded overflows.2.2.1

/-- A contract comes to nothing for the messages that overflow, and only for them. -/
theorem overflows_iff (curve : CurveBackend) (isCall : message.isCreation = false)
    (found : Precompile.at? fork message.codeAddress = some contract) :
    message.Overflows fork ↔ contract.run? curve ⟨message.data, message.gasLimit, fork⟩ = none := by
  rw [Precompile.run?_eq_none, ModExp.power?_eq_none]
  constructor
  · rintro ⟨_, there, most, overflows⟩
    cases found.symm.trans there
    refine ⟨rfl, ?_, overflows⟩
    dsimp only
    rw [ModExp.priceOf_of_overflows fork overflows]
    omega
  · rintro ⟨rfl, paid, overflows⟩
    dsimp only at paid
    rw [ModExp.priceOf_of_overflows fork overflows] at paid
    exact ⟨isCall, found, by omega, overflows⟩

theorem run?_of_not_overflows (curve : CurveBackend) (fits : ¬message.Overflows fork)
    (isCall : message.isCreation = false)
    (found : Precompile.at? fork message.codeAddress = some contract) :
    ∃ answer, contract.run? curve ⟨message.data, message.gasLimit, fork⟩ = some answer := by
  rw [overflows_iff curve isCall found] at fits
  exact Option.ne_none_iff_exists'.mp fits

end Message

end Evm
