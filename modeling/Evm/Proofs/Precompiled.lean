import Evm.Proofs.Boundary
import Evm.Proofs.Numerals

/-!
# Precompiled contracts

What a contract asks and what it gives depend on its input alone. Only whether the price is offered
depends on the offer: one that is too low, or an input that is not valid, loses all of it. A message
for a contract comes to its answer and leaves the world as it was.
-/

namespace Evm

def PrecompileAnswer.result (answer : PrecompileAnswer) (message : Message) : Result where
  gasUsed := answer.gasUsed
  gasRefund := 0
  output := answer.output
  outcome := if answer.success then .halted .ret else .faulted .outOfGas
  logs := #[]
  selfDestruct := message.selfDestruct
  created := none

namespace Precompile

variable {fork : Fork} {address : Address} {contract : Precompile} {curve : CurveBackend}
  {data : Bytes} {gasLimit : Nat}

theorem toNat_eq (address : Address) :
    address.toNat = Bytes.toNat (address.toBytes.extract 0 19) * 256 + number address := by
  have size : address.toBytes.size = 20 := Bytes.size_ofNat ..
  have last : address.toBytes.extract 19 20 = #[address.toBytes[19]] := by
    apply Array.ext
    · simp [size]
    · intro i _ alone
      obtain rfl : i = 0 := Nat.lt_one_iff.mp alone
      simp
  have whole : address.toBytes.extract 0 19 ++ #[address.toBytes[19]] = address.toBytes := by
    rw [← last, Array.extract_append_extract]
    simp [size]
  calc address.toNat = Bytes.toNat address.toBytes := by
        rw [Address.toBytes, Bytes.toNat_ofNat]
        exact (Nat.mod_eq_of_lt address.isLt).symm
    _ = _ := by
        rw [← whole, Bytes.toNat_append, whole]
        simp [number, size, Bytes.toNat]

theorem contains_iff : contains fork address ↔
    0 < address.toNat ∧ address.toNat ≤ count fork := by
  have few := count_le fork
  have value := toNat_eq address
  unfold contains
  rw [decide_eq_true_iff]
  constructor
  · rintro ⟨zeros, least, most⟩
    rw [zeros, Bytes.toNat_zeros] at value
    omega
  · rintro ⟨positive, below⟩
    have none : Bytes.toNat (address.toBytes.extract 0 19) = 0 := by omega
    refine ⟨Bytes.toNat_inj ?_ ?_, by omega, by omega⟩
    · simp [Address.toBytes, Bytes.zeros]
    · rw [none, Bytes.toNat_zeros]

theorem mem_addresses : address ∈ addresses fork ↔
    0 < address.toNat ∧ address.toNat ≤ count fork := by
  have few := count_le fork
  simp only [addresses, List.mem_map, List.mem_range]
  constructor
  · rintro ⟨i, below, rfl⟩
    rw [BitVec.toNat_ofNat, Nat.mod_eq_of_lt (by omega)]
    omega
  · rintro ⟨positive, below⟩
    refine ⟨address.toNat - 1, by omega, ?_⟩
    rw [Nat.sub_add_cancel positive, BitVec.ofNat_toNat, BitVec.setWidth_eq]

theorem isSome_at?_iff : (at? fork address).isSome ↔ address ∈ addresses fork := by
  rw [← contains_iff_isSome, contains_iff, mem_addresses]

def runAt? (curve : CurveBackend) (fork : Fork) (address : Address) (data : Bytes)
    (gasLimit : Nat) : Option (Option PrecompileAnswer) :=
  (at? fork address).map fun contract => contract.run? curve ⟨data, gasLimit, fork⟩

theorem runAt?_eq_some {answer : Option PrecompileAnswer} :
    runAt? curve fork address data gasLimit = some answer ↔
      ∃ contract, at? fork address = some contract ∧
        contract.run? curve ⟨data, gasLimit, fork⟩ = answer :=
  Option.map_eq_some_iff

end Precompile

/-- The modulus of a base that no buffer can hold would start behind the end of the input. -/
theorem ModExp.overflows_iff {data : Bytes} (held : data.size < Bytes.allocationLimit) :
    Overflows data ↔ Bytes.allocationLimit ≤ (header data).modulusLength := by
  have limit_eq : machineLimit = 2 * Bytes.allocationLimit := by decide
  unfold Overflows
  dsimp only
  refine or_iff_left_of_imp fun ⟨nonzero, deep⟩ => absurd nonzero ?_
  have past : data.size ≤ modulusOffset (header data) := by
    unfold modulusOffset exponentOffset Gas.saturate
    omega
  rw [Bytes.window_past past, Bytes.toNat_zeros]
  decide

namespace Execution

variable {σ : Type} {env : Environment σ} {message : Message} {contract : Precompile}

theorem answeredResult_eq {price : Nat} {verdict : Option Bytes} {answer : PrecompileAnswer}
    (settles : answer.Settles price verdict message.gasLimit) :
    answeredResult message answer = answer.result message := by
  unfold answeredResult PrecompileAnswer.result
  cases succeeds : answer.success with
  | true => rfl
  | false =>
    obtain ⟨spent, silent⟩ := settles.of_failure succeeds
    rw [spent, silent]
    rfl

theorem enter_result {answer : PrecompileAnswer} (kind : MessageKind) (pc : Nat) (host : Host σ)
    (isCall : message.isCreation = false)
    (found : Precompile.at? env.fork message.codeAddress = some contract)
    (answers : contract.run? env.curve ⟨message.data, message.gasLimit, env.fork⟩ = some answer) :
    ∃ trace, enter env message kind pc host =
      .ok (.result (answer.result message)) { host with trace } := by
  obtain ⟨told, announces⟩ := announce_trace env message kind host
  have runs : runPrecompile env message contract { host with trace := told } =
      .ok (answeredResult message answer) _ :=
    runPrecompile_eq_ok.mpr ⟨answer, answers, rfl, rfl⟩
  have there : Precompile.contains env.fork message.codeAddress :=
    Precompile.contains_iff_isSome.mpr (by rw [found]; rfl)
  unfold enter
  rw [bind_of_ok announces, if_neg (by simp [isCall]), if_pos there, consult_of_at? found,
    bind_of_ok runs, answeredResult_eq (Precompile.run?_settles answers)]
  exact ⟨_, rfl⟩

theorem runMessage_contract {answer : PrecompileAnswer} (pc : Nat) (host : Host σ)
    (isCall : message.isCreation = false)
    (found : Precompile.at? env.fork message.codeAddress = some contract)
    (answers : contract.run? env.curve ⟨message.data, message.gasLimit, env.fork⟩ = some answer) :
    ∃ after, runMessage env message pc host = .ok (answer.result message) after ∧
      after.store = host.store ∧ after.transient = host.transient := by
  let warmed : Host σ :=
    { host with
      warmAddresses := host.warmAddresses.insertMany (warmFromStart env message) }
  have warms : warmUp (warmFromStart env message) host = .ok () warmed := rfl
  obtain ⟨trace, enters⟩ := enter_result (topLevelKind message) pc warmed isCall found answers
  unfold runMessage
  rw [bind_of_ok warms, bind_of_ok enters]
  exact ⟨_, run_returned _ _ _, rfl, rfl⟩

end Execution

/-- A message for the contract at an address, in an environment that runs it. -/
structure Message.IsFor (message : Message) (address : Address) (data : Bytes) : Prop where
  isCall : message.isCreation = false
  codeAddress_eq : message.codeAddress = address
  data_eq : message.data = data

/-- What holds of an address and an input, whatever is offered for it. -/
structure Precompile.Lawful (curve : CurveBackend) (fork : Fork) (address : Address)
    (data : Bytes) : Prop where
  isSome_iff : ∀ gasLimit, (runAt? curve fork address data gasLimit).isSome ↔
    address ∈ addresses fork
  settles : ∃ price verdict, ∀ gasLimit answer,
    runAt? curve fork address data gasLimit = some (some answer) →
      answer.Settles price verdict gasLimit
  /-- Only for as much gas as there can be does the contract come to nothing, where it is asked for
  a power that no buffer can hold. -/
  nothing_iff : ∀ gasLimit, runAt? curve fork address data gasLimit = some none ↔
    at? fork address = some .modExp ∧ machineLimit ≤ gasLimit + 1 ∧ ModExp.Overflows data
  /-- A message comes to the answer and leaves the world and the transient storage as they were. -/
  answers : ∀ {σ : Type} {env : Environment σ} {message : Message} {answer : PrecompileAnswer}
    (pc : Nat) (host : Host σ), env.curve = curve → env.fork = fork → message.IsFor address data →
    runAt? curve fork address data message.gasLimit = some (some answer) →
    ∃ after, runMessage env message pc host = .ok (answer.result message) after ∧
      after.store = host.store ∧ after.transient = host.transient
  /-- Where there is none, the message breaks the machine. -/
  breaks : ∀ {σ : Type} {env : Environment σ} {message : Message} (pc : Nat) (host : Host σ),
    env.curve = curve → env.fork = fork → message.IsFor address data →
    runAt? curve fork address data message.gasLimit = some none →
    ∃ after, runMessage env message pc host = .error .breach after ∧
      after.store = host.store ∧ after.transient = host.transient

theorem precompile_lawful (curve : CurveBackend) (fork : Fork) (address : Address) (data : Bytes) :
    Precompile.Lawful curve fork address data where
  isSome_iff gasLimit := by
    rw [Precompile.runAt?, Option.isSome_map]
    exact Precompile.isSome_at?_iff
  settles := by
    cases found : Precompile.at? fork address with
    | some contract =>
      refine ⟨contract.price fork data, contract.verdict curve data, fun gasLimit answer runs => ?_⟩
      obtain ⟨_, found', runs⟩ := Precompile.runAt?_eq_some.mp runs
      cases found.symm.trans found'
      exact Precompile.run?_settles runs
    | none =>
      refine ⟨0, none, fun gasLimit answer runs => ?_⟩
      obtain ⟨_, found', _⟩ := Precompile.runAt?_eq_some.mp runs
      cases found.symm.trans found'
  nothing_iff gasLimit := by
    rw [Precompile.runAt?_eq_some]
    constructor
    · rintro ⟨contract, found, runs⟩
      obtain ⟨rfl, offered, overflows⟩ := Precompile.run?_eq_none.mp runs
      have overflows := ModExp.power?_eq_none.mp overflows
      rw [ModExp.priceOf_of_overflows fork overflows] at offered
      dsimp only at offered
      exact ⟨found, by omega, overflows⟩
    · rintro ⟨found, most, overflows⟩
      refine ⟨_, found, Precompile.run?_eq_none.mpr
        ⟨rfl, ?_, ModExp.power?_eq_none.mpr overflows⟩⟩
      dsimp only
      rw [ModExp.priceOf_of_overflows fork overflows]
      omega
  answers := by
    rintro σ env message answer pc host rfl rfl ⟨isCall, rfl, rfl⟩ runs
    obtain ⟨contract, found, answers⟩ := Precompile.runAt?_eq_some.mp runs
    exact Execution.runMessage_contract pc host isCall found answers
  breaks := by
    rintro σ env message pc host rfl rfl ⟨isCall, rfl, rfl⟩ runs
    obtain ⟨contract, found, nothing⟩ := Precompile.runAt?_eq_some.mp runs
    exact Execution.runMessage_breach env pc host
      ((Message.overflows_iff env.curve isCall found).mpr nothing)

end Evm
