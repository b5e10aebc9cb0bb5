import Evm.Proofs.Evaluation
import Evm.Proofs.Recording
import Evm.Proofs.Routines

/-!
# Where messages begin and end

What starting a message and ending a frame do to the host, and what a result may look like. A
message that fails leaves the host as it was, but that a creation has taken a nonce of its sender
and touched the address that it was to make.
-/

namespace Evm

open HostM

variable {σ : Type}

theorem Precompile.isSome_numbered? :
    ∀ number ≤ 9, 1 ≤ number → (numbered? number).isSome := by
  decide

theorem Precompile.count_le (fork : Fork) : count fork ≤ 9 := by
  unfold count
  split <;> decide

theorem Precompile.contains_iff_isSome {fork : Fork} {address : Address} :
    contains fork address ↔ (at? fork address).isSome := by
  constructor
  · intro there
    have few := count_le fork
    obtain ⟨_, least, most⟩ := of_decide_eq_true there
    rw [at?, if_pos there]
    exact isSome_numbered? _ (by omega) least
  · intro found
    by_contra missing
    rw [at?, if_neg missing] at found
    cases found

/-- A result stays within the gas of its message. A fault spends all of it and leaves nothing
behind. -/
structure Result.Fair (message : Message) (result : Result) : Prop where
  gasUsed_le : result.gasUsed ≤ message.gasLimit
  eq_faulted : ∀ cause, result.outcome = .faulted cause → result = .faulted message cause

theorem Result.fair_faulted (message : Message) (cause : Exception) :
    (Result.faulted message cause).Fair message := by
  refine ⟨Nat.le_refl _, ?_⟩
  rintro other ⟨⟩
  rfl

theorem Result.Fair.of_target {message : Message} {target : Option Address} {result : Result}
    (fair : result.Fair { message with target }) : result.Fair message :=
  ⟨fair.gasUsed_le, fair.eq_faulted⟩

theorem Result.not_isSuccess_of_faulted {result : Result} {cause : Exception}
    (faults : result.outcome = .faulted cause) : ¬ result.isSuccess := by
  simp [Result.isSuccess, faults, Outcome.isSuccess]

/-! ## Failed messages -/

namespace View

variable (view : View) (message : Message)

def HasNonce : Prop :=
  message.isCreation ∧ (view.account message.caller).nonce.toNat + 1 ≠ machineLimit

instance : Decidable (view.HasNonce message) := inferInstanceAs (Decidable (_ ∧ _))

def nextAddress : Address :=
  Execution.newAddress message (view.account message.caller).nonce.toNat

def nonceTaken : View :=
  let account := view.account message.caller
  view.setAccount message.caller { account with nonce := account.nonce + 1 }

/-- What a failed message leaves to see. -/
def afterFailure (fork : Fork) : View :=
  if view.HasNonce message then
    if fork.hasAccessLists then (view.nonceTaken message).setWarm (view.nextAddress message) true
    else view.nonceTaken message
  else view

def failureNotes (fork : Fork) : List Change :=
  if view.HasNonce message then
    .account message.caller (view.account message.caller) ::
      if fork.hasAccessLists ∧ view.isWarm (view.nextAddress message) = false then
        [.warmAddress (view.nextAddress message)]
      else []
  else []

theorem revert_failureNotes (fork : Fork) :
    (view.failureNotes message fork).foldr Change.revert (view.afterFailure message fork) = view := by
  unfold failureNotes afterFailure
  split
  · by_cases lists : fork.hasAccessLists
    · by_cases warm : view.isWarm (view.nextAddress message)
      · simp [lists, warm, Change.revert, nonceTaken, View.setWarm_self, View.setAccount]
      · have cold : (view.nonceTaken message).isWarm (view.nextAddress message) = false := by
          simpa [nonceTaken, View.setAccount] using warm
        simp [lists, warm, Change.revert, View.setWarm_self, cold]
        simp [nonceTaken]
    · simp [lists, Change.revert, nonceTaken]
  · rfl

end View

namespace Host

variable {base host after : Host σ} {fork : Fork} {message : Message}

theorem emit_run (env : Environment σ) (event : Event) (host : Host σ) :
    ∃ after, Host.emit env event host = .ok () after ∧ host.Move host.view [] after :=
  ⟨_, rfl, rfl, by simp, rfl⟩

theorem Move.trans_same {view : View} {noted : List Change} {last : Host σ}
    (first : host.Move view noted after) (second : after.Move after.view [] last) :
    host.Move view noted last := by
  have whole := first.trans second
  rw [first.view_eq, List.append_nil] at whole
  exact whole

/-- All that is left of a message is what it leaves if it fails. -/
def Spends (fork : Fork) (message : Message) (host after : Host σ) : Prop :=
  host.Move (host.view.afterFailure message fork) (host.view.failureNotes message fork) after

theorem spends_call (calls : message.isCreation = false) :
    host.Spends fork message after ↔ host.Move host.view [] after := by
  simp [Spends, View.afterFailure, View.failureNotes, View.HasNonce, calls]

theorem Spends.of_same {told : Host σ} (quiet : host.Move host.view [] told)
    (spends : told.Spends fork message after) : host.Spends fork message after := by
  have whole := quiet.trans spends
  rw [quiet.view_eq, List.nil_append] at whole
  exact whole

theorem Spends.extends (spends : host.Spends fork message after) : host.Extends after :=
  Move.extends spends (host.view.revert_failureNotes message fork)

end Host

namespace Execution

variable {env : Environment σ} {host : Host σ} {message : Message}

theorem exit_run (env : Environment σ) (depth : Nat) (result : Result) (host : Host σ) :
    ∃ after, exit env depth result host = .ok result after ∧ host.Move host.view [] after := by
  obtain ⟨after, emits, move⟩ := Host.emit_run env ⟨depth, .exit result.gasUsed result.outcome⟩ host
  refine ⟨after, ?_, move⟩
  rw [exit, bind_of_ok emits]
  rfl

/-! ## Creations -/

theorem claimAddress_takes (env : Environment σ) (inOrder : host.InOrder)
    (has : host.view.HasNonce message) :
    ∃ after, claimAddress env message host = .ok (some (host.view.nextAddress message)) after ∧
      host.Spends env.fork message after := by
  unfold claimAddress
  rw [bind_of_ok (Host.account_run inOrder message.caller), if_neg has.2]
  obtain ⟨taken, puts, move⟩ := Host.putAccount_run inOrder message.caller
    { host.view.account message.caller with
      nonce := (host.view.account message.caller).nonce + 1 }
  rw [bind_of_ok puts]
  by_cases lists : env.fork.hasAccessLists
  · obtain ⟨after, touches, move'⟩ := Host.touchAddress_run taken (host.view.nextAddress message)
    refine ⟨after, ?_, ?_⟩
    · simp only [lists, if_true]
      rw [show newAddress message _ = host.view.nextAddress message from rfl, bind_of_ok touches]
      rfl
    · have warm : taken.view.isWarm = host.view.isWarm := by rw [move.view_eq]; rfl
      have whole := move.trans move'
      rw [warm, move.view_eq] at whole
      rw [Host.Spends, View.afterFailure, View.failureNotes, if_pos has, if_pos has, if_pos lists]
      cases known : host.view.isWarm (host.view.nextAddress message) <;>
        simpa [lists, known, View.nonceTaken] using whole
  · refine ⟨taken, ?_, ?_⟩
    · simp only [lists]
      rfl
    · rw [Host.Spends, View.afterFailure, View.failureNotes, if_pos has, if_pos has]
      simpa [lists, View.nonceTaken] using move

theorem claimAddress_run (env : Environment σ) (creates : message.isCreation = true)
    (inOrder : host.InOrder) :
    ∃ claimed after, claimAddress env message host = .ok claimed after ∧
      host.Spends env.fork message after := by
  by_cases has : host.view.HasNonce message
  · obtain ⟨after, claims, spends⟩ := claimAddress_takes env inOrder has
    exact ⟨_, after, claims, spends⟩
  · have full : (host.view.account message.caller).nonce.toNat + 1 = machineLimit :=
      not_not.mp fun left => has ⟨creates, left⟩
    unfold claimAddress
    rw [bind_of_ok (Host.account_run inOrder message.caller), if_pos full]
    refine ⟨none, host, rfl, ?_⟩
    rw [Host.Spends, View.afterFailure, View.failureNotes, if_neg has, if_neg has]
    exact .refl host

theorem makeAccount_run (message : Message) (deployment : Deployment) (inOrder : host.InOrder)
    (anchored : deployment.checkpoint = host.journal.size) :
    ∃ cause after, makeAccount message deployment host = .ok cause after ∧ host.Extends after ∧
      (cause.isSome → host.Move host.view [] after) := by
  unfold makeAccount
  rw [bind_of_ok (Host.account_run inOrder deployment.address)]
  split
  · exact ⟨_, host, rfl, .refl host, fun _ => .refl host⟩
  · obtain ⟨_, made, puts, extend, _⟩ :=
      Host.putAccount_serves deployment.address
        { host.view.account deployment.address with nonce := 1 } host inOrder
    obtain ⟨sent, paid, transfers, extend', _⟩ :=
      Host.transfer_serves message.caller deployment.address message.value made
        (extend.inOrder inOrder)
    have whole := extend.trans extend'
    rw [bind_of_ok puts, bind_of_ok transfers]
    cases sent with
    | true => exact ⟨none, paid, rfl, whole, by simp⟩
    | false =>
      obtain ⟨after, undoes, back⟩ := Host.rollback_run whole (whole.inOrder inOrder)
      refine ⟨some .insufficientBalance, after, ?_, back.extends_of_same, fun _ => back⟩
      rw [if_neg (by simp), anchored, bind_of_ok undoes]
      rfl

theorem beginCreate_run (env : Environment σ) (creates : message.isCreation = true)
    (inOrder : host.InOrder) :
    ∃ begun after, beginCreate env message host = .ok begun after ∧
      match begun with
      | .inl result =>
        host.Spends env.fork message after ∧ ∃ cause, result = .faulted message cause
      | .inr (created, deployment) => ∃ start,
        host.Spends env.fork message start ∧ deployment.checkpoint = start.journal.size ∧
          start.Extends after ∧ created = { message with target := some deployment.address } := by
  obtain ⟨claimed, start, claims, spends⟩ := claimAddress_run env creates inOrder
  have startInOrder := spends.inOrder inOrder
  unfold beginCreate
  rw [bind_of_ok claims]
  cases claimed with
  | none => exact ⟨_, start, rfl, spends, .nonceOverflow, rfl⟩
  | some address =>
    let deployment : Deployment := ⟨address, start.journal.size⟩
    have marks : (Host.checkpoint : HostM σ Nat) start = .ok start.journal.size start := rfl
    obtain ⟨cause, after, makes, extend, undone⟩ :=
      makeAccount_run message deployment startInOrder rfl
    dsimp only
    rw [bind_of_ok marks, bind_of_ok makes]
    cases cause with
    | none => exact ⟨_, after, rfl, start, spends, rfl, extend, rfl⟩
    | some cause => exact ⟨_, after, rfl, Host.Move.trans_same spends (undone rfl), cause, rfl⟩

/-- How a creation begins: its creator has no nonce left, or its account is not made, or is. -/
inductive CreateBegun (env : Environment σ) (message : Message) (host : Host σ) :
    Result ⊕ Message × Deployment → Host σ → Prop where
  | exhausted {after} : claimAddress env message host = .ok none after →
    CreateBegun env message host (.inl (.faulted message .nonceOverflow)) after
  | failed {address start cause after} : claimAddress env message host = .ok (some address) start →
    makeAccount message ⟨address, start.journal.size⟩ start = .ok (some cause) after →
    CreateBegun env message host (.inl (.faulted message cause)) after
  | made {address start after} : claimAddress env message host = .ok (some address) start →
    makeAccount message ⟨address, start.journal.size⟩ start = .ok none after →
    CreateBegun env message host
      (.inr ({ message with target := some address }, ⟨address, start.journal.size⟩)) after

theorem beginCreate_ok {begun : Result ⊕ Message × Deployment} {after : Host σ}
    (begins : beginCreate env message host = .ok begun after) :
    CreateBegun env message host begun after := by
  obtain ⟨claimed, start, claims, begins⟩ := bind_eq_ok.mp begins
  cases claimed with
  | none =>
    cases begins
    exact .exhausted claims
  | some address =>
    dsimp only at begins
    obtain ⟨_, _, ⟨⟩, begins⟩ := bind_eq_ok.mp begins
    obtain ⟨cause, _, makes, begins⟩ := bind_eq_ok.mp begins
    cases cause with
    | none =>
      cases begins
      exact .made claims makes
    | some cause =>
      cases begins
      exact .failed claims makes

/-! ## Ending a frame -/

/-- The hosts that a failed frame comes back to: to the one it was opened on, and if it makes an
account, to the one before that was begun. -/
structure Anchors (context : Context) (start opened : Host σ) : Prop where
  checkpoint_eq : context.checkpoint = opened.journal.size
  extend : start.Extends opened
  start_eq : match context.deployment with
    | none => start = opened
    | some deployment => deployment.checkpoint = start.journal.size

def Deploys (context : Context) (ended : Result) : Prop :=
  context.deployment.isSome → ended.isSuccess → ended.gasUsed ≤ context.message.gasLimit

theorem deposit_le_of_deployFault? {fork : Fork} {code : Bytes} {deposit available : Nat}
    (fits : deployFault? fork code deposit available = none) : deposit ≤ available := by
  unfold deployFault? at fits
  split at fits
  · cases fits
  split at fits
  · cases fits
  split at fits
  · cases fits
  · omega

theorem deploy_run (env : Environment σ) {deployment : Deployment}
    {ended : Result} {start between : Host σ} (anchored : deployment.checkpoint = start.journal.size)
    (extend : start.Extends between) (inOrder : between.InOrder)
    (within : ended.isSuccess → ended.gasUsed ≤ message.gasLimit) :
    ∃ result after, deploy env message deployment ended between = .ok result after ∧
      start.Extends after ∧ (result.isSuccess = false → start.Move start.view [] after) ∧
      (ended.Fair message → result.Fair message ∧ ended.gasUsed ≤ result.gasUsed) := by
  obtain ⟨undone, undoes, back⟩ := Host.rollback_run extend inOrder
  rw [← anchored] at undoes
  unfold deploy
  cases success : ended.isSuccess with
  | false =>
    refine ⟨ended, undone, ?_, back.extends_of_same, fun _ => back,
      fun fair => ⟨fair, Nat.le_refl _⟩⟩
    rw [if_neg (by simp), bind_of_ok undoes]
    rfl
  | true =>
    have enough := Nat.not_lt.mpr (within success)
    rw [if_pos rfl]
    simp only [if_neg enough]
    cases fault : deployFault? env.fork ended.output
        (env.fork.fee .codeDeposit * ended.output.size) (message.gasLimit - ended.gasUsed) with
    | some cause =>
      refine ⟨.faulted message cause, undone, ?_, back.extends_of_same, fun _ => back,
        fun fair => ⟨Result.fair_faulted message cause, fair.gasUsed_le⟩⟩
      dsimp only
      rw [bind_of_ok undoes]
      rfl
    | none =>
      obtain ⟨_, hashed, puts, extend', _⟩ :=
        Host.putAccount_serves deployment.address
          { between.view.account deployment.address with codeHash := keccakWord ended.output }
          between inOrder
      obtain ⟨_, after, stores, extend'', _⟩ :=
        Host.putCode_serves deployment.address ended.output hashed (extend'.inOrder inOrder)
      dsimp only
      rw [bind_of_ok (Host.account_run inOrder deployment.address), bind_of_ok puts,
        bind_of_ok stores]
      refine ⟨_, after, rfl, (extend.trans extend').trans extend'', ?_, ?_⟩
      · intro fails
        exact absurd (success.symm.trans fails) (by decide)
      · intro fair
        have pays := deposit_le_of_deployFault? fault
        refine ⟨⟨?_, ?_⟩, Nat.le_add_right ..⟩
        · have spent := fair.gasUsed_le
          show ended.gasUsed + _ ≤ message.gasLimit
          omega
        · intro cause faults
          exact absurd success (Result.not_isSuccess_of_faulted faults)

/-- How a deployment ends: the code had failed, or may not be stored, or is stored. -/
inductive Deployed (env : Environment σ) (message : Message) (deployment : Deployment)
    (ended : Result) (host : Host σ) : Result → Host σ → Prop where
  | failed {after} : ended.isSuccess = false →
    Host.rollback deployment.checkpoint host = .ok () after →
    Deployed env message deployment ended host ended after
  | refused {cause after} : ended.isSuccess → ended.gasUsed ≤ message.gasLimit →
    deployFault? env.fork ended.output (env.fork.fee .codeDeposit * ended.output.size)
      (message.gasLimit - ended.gasUsed) = some cause →
    Host.rollback deployment.checkpoint host = .ok () after →
    Deployed env message deployment ended host (.faulted message cause) after
  | stored {account read hashed after} : ended.isSuccess → ended.gasUsed ≤ message.gasLimit →
    deployFault? env.fork ended.output (env.fork.fee .codeDeposit * ended.output.size)
      (message.gasLimit - ended.gasUsed) = none →
    Host.account deployment.address host = .ok account read →
    Host.putAccount deployment.address { account with codeHash := keccakWord ended.output } read =
      .ok () hashed →
    Host.putCode deployment.address ended.output hashed = .ok () after →
    Deployed env message deployment ended host
      { ended with
        gasUsed := ended.gasUsed + env.fork.fee .codeDeposit * ended.output.size
        output := #[]
        created := some deployment.address } after

theorem deploy_ok {deployment : Deployment} {ended result : Result} {after : Host σ}
    (deploys : deploy env message deployment ended host = .ok result after) :
    Deployed env message deployment ended host result after := by
  unfold deploy at deploys
  split at deploys
  · dsimp only at deploys
    split at deploys
    · cases deploys
    have within := Nat.not_lt.mp ‹_›
    cases fault : deployFault? env.fork ended.output
        (env.fork.fee .codeDeposit * ended.output.size) (message.gasLimit - ended.gasUsed) with
    | some cause =>
      simp only [fault] at deploys
      obtain ⟨_, _, undoes, deploys⟩ := bind_eq_ok.mp deploys
      cases deploys
      exact .refused ‹_› within fault undoes
    | none =>
      simp only [fault] at deploys
      obtain ⟨_, _, reads, deploys⟩ := bind_eq_ok.mp deploys
      obtain ⟨_, _, hashes, deploys⟩ := bind_eq_ok.mp deploys
      obtain ⟨_, _, puts, deploys⟩ := bind_eq_ok.mp deploys
      cases deploys
      exact .stored ‹_› within fault reads hashes puts
  · obtain ⟨_, _, undoes, deploys⟩ := bind_eq_ok.mp deploys
    cases deploys
    exact .failed (eq_false_of_ne_true ‹_›) undoes

theorem deployFor_ok {context : Context} {ended result : Result} {after : Host σ}
    (deploys : deployFor env context ended host = .ok result after) :
    (context.deployment = none ∧ result = ended ∧ after = host) ∨
      ∃ deployment, context.deployment = some deployment ∧
        deploy env context.message deployment ended host = .ok result after := by
  unfold deployFor at deploys
  cases found : context.deployment with
  | none =>
    simp only [found] at deploys
    cases deploys
    exact .inl ⟨rfl, rfl, rfl⟩
  | some deployment =>
    simp only [found] at deploys
    exact .inr ⟨deployment, rfl, deploys⟩

theorem settle_run {base between : Host σ} (result : Result) (extend : base.Extends between)
    (inOrder : base.InOrder) :
    ∃ settled, settle base.journal.size result between = .ok () settled ∧ base.Extends settled ∧
      (result.isSuccess → settled = between) ∧
      (result.isSuccess = false → base.Move base.view [] settled) := by
  unfold settle
  cases success : result.isSuccess with
  | true => exact ⟨between, rfl, extend, fun _ => rfl, by simp⟩
  | false =>
    obtain ⟨settled, undoes, back⟩ := Host.rollback_run extend (extend.inOrder inOrder)
    exact ⟨settled, undoes, back.extends_of_same, by simp, fun _ => back⟩

theorem deployFor_run (env : Environment σ) {context : Context} {ended : Result}
    {start opened settled : Host σ} (anchors : Anchors context start opened)
    (extend : opened.Extends settled) (inOrder : opened.InOrder) (within : Deploys context ended)
    (undone : ended.isSuccess = false → opened.Move opened.view [] settled) :
    ∃ result after, deployFor env context ended settled = .ok result after ∧
      start.Extends after ∧ (result.isSuccess = false → start.Move start.view [] after) ∧
      (ended.Fair context.message →
        result.Fair context.message ∧ ended.gasUsed ≤ result.gasUsed) := by
  have anchored := anchors.start_eq
  unfold deployFor
  cases deploys : context.deployment with
  | none =>
    rw [deploys] at anchored
    subst anchored
    exact ⟨ended, settled, rfl, extend, undone, fun fair => ⟨fair, Nat.le_refl _⟩⟩
  | some deployment =>
    rw [deploys] at anchored
    exact deploy_run env anchored (anchors.extend.trans extend) (extend.inOrder inOrder)
      (within (by simp [deploys]))

/-- A frame that fails leaves nothing of what was done since its message started. -/
theorem conclude_run (env : Environment σ) {context : Context} {ended : Result}
    {start opened between : Host σ} (anchors : Anchors context start opened)
    (extend : opened.Extends between) (inOrder : opened.InOrder) (within : Deploys context ended) :
    ∃ result after, conclude env context ended between = .ok result after ∧
      start.Extends after ∧ (result.isSuccess = false → start.Move start.view [] after) ∧
      (ended.Fair context.message →
        result.Fair context.message ∧ ended.gasUsed ≤ result.gasUsed) := by
  obtain ⟨settled, settles, extend', _, undone⟩ := settle_run ended extend inOrder
  rw [← anchors.checkpoint_eq] at settles
  obtain ⟨result, answered, answers, extend'', restored, fair⟩ :=
    deployFor_run env anchors extend' inOrder within undone
  obtain ⟨after, exits, move⟩ := exit_run env context.message.depth result answered
  refine ⟨result, after, ?_, extend''.trans move.extends_of_same, ?_, fair⟩
  · unfold conclude
    rw [bind_of_ok settles, bind_of_ok answers, exits]
  · intro fails
    exact (restored fails).trans_same move

theorem deploys_of_conclude {context : Context} {ended result : Result} {between after : Host σ}
    (concludes : conclude env context ended between = .ok result after) :
    Deploys context ended := by
  intro deploys success
  obtain ⟨_, settled, _, concludes⟩ := bind_eq_ok.mp concludes
  obtain ⟨result, _, stores, _⟩ := bind_eq_ok.mp concludes
  obtain ⟨plain, _⟩ | ⟨deployment, _, stores⟩ := deployFor_ok stores
  · rw [plain] at deploys
    cases deploys
  · cases deploy_ok stores with
    | failed fails => cases fails.symm.trans success
    | refused _ within | stored _ within => exact within

/-! ## Starting a message -/

theorem announce_trace (env : Environment σ) (message : Message) (kind : MessageKind)
    (host : Host σ) : ∃ trace, announce env message kind host = .ok () { host with trace } := by
  rw [announce_eq]
  split
  · exact ⟨_, rfl⟩
  · exact ⟨host.trace, rfl⟩

theorem announce_run (env : Environment σ) (message : Message) (kind : MessageKind)
    (host : Host σ) :
    ∃ after, announce env message kind host = .ok () after ∧ host.Move host.view [] after := by
  obtain ⟨trace, announces⟩ := announce_trace env message kind host
  exact ⟨_, announces, rfl, by simp, rfl⟩

theorem answeredResult_fair {contract : Precompile} {curve : CurveBackend} {fork : Fork}
    {message : Message} {answer : PrecompileAnswer}
    (answers : contract.run? curve ⟨message.data, message.gasLimit, fork⟩ = some answer) :
    (answeredResult message answer).Fair message := by
  unfold answeredResult
  split
  · refine ⟨(Precompile.run?_settles answers).gasUsed_le, ?_⟩
    rintro cause ⟨⟩
  · exact Result.fair_faulted message .outOfGas

def answerEvent (message : Message) (answer : PrecompileAnswer) : Event :=
  ⟨message.depth, .precompile message.codeAddress answer.gasUsed answer.success⟩

theorem runPrecompile_eq_ok {contract : Precompile} {result : Result} :
    runPrecompile env message contract host = .ok result after ↔
      ∃ answer, contract.run? env.curve ⟨message.data, message.gasLimit, env.fork⟩ = some answer ∧
        result = answeredResult message answer ∧
        after = { host with trace := env.tracer.record (answerEvent message answer) host.trace } := by
  unfold runPrecompile
  cases contract.run? env.curve ⟨message.data, message.gasLimit, env.fork⟩ with
  | none =>
    constructor
    · rintro ⟨⟩
    · rintro ⟨_, ⟨⟩, _⟩
  | some answer =>
    constructor
    · rintro ⟨⟩
      exact ⟨answer, rfl, rfl, rfl⟩
    · rintro ⟨_, ⟨⟩, rfl, rfl⟩
      rfl

theorem runPrecompile_breach {contract : Precompile}
    (none : contract.run? env.curve ⟨message.data, message.gasLimit, env.fork⟩ = none) :
    runPrecompile env message contract host = .error .breach host := by
  unfold runPrecompile
  rw [none]
  rfl

theorem runPrecompile_moves {contract : Precompile} {result : Result}
    (runs : runPrecompile env message contract host = .ok result after) :
    host.Move host.view [] after ∧ result.Fair message := by
  obtain ⟨answer, answers, rfl, rfl⟩ := runPrecompile_eq_ok.mp runs
  exact ⟨⟨rfl, by simp, rfl⟩, answeredResult_fair answers⟩

theorem consult_of_at? {contract : Precompile}
    (found : Precompile.at? env.fork message.codeAddress = some contract) :
    consult env message = runPrecompile env message contract := by
  unfold consult
  rw [found]

def Started (fork : Fork) (message : Message) (host : Host σ) : Opening → Host σ → Prop
  | .frame context frame, opened => ∃ start index,
    host.Spends fork message start ∧ Anchors context start opened ∧
      context.message = { message with target := context.message.target } ∧
      frame = .start context.message index
  | .result result, after =>
    host.Extends after ∧ (result.isSuccess = false → host.Spends fork message after) ∧
      result.Fair message

theorem openFrame_run (env : Environment σ) {created : Message} {deployment : Option Deployment}
    {start opened : Host σ} (pc : Nat) (spends : host.Spends env.fork message start)
    (extend : start.Extends opened) (inOrder : opened.InOrder)
    (anchored : match deployment with
      | none => start = opened
      | some deployment => deployment.checkpoint = start.journal.size)
    (same : created = { message with target := created.target }) :
    ∃ opening after, openFrame env created deployment pc opened = .ok opening after ∧
      Started env.fork message host opening after := by
  have marks : (Host.checkpoint : HostM σ Nat) opened = .ok opened.journal.size opened := rfl
  let context : Context :=
    ⟨created, Code.ofBytes created.code, opened.journal.size, deployment⟩
  have anchors : Anchors context start opened := ⟨rfl, extend, anchored⟩
  unfold openFrame
  rw [bind_of_ok marks]
  cases found : (Code.ofBytes created.code).indexOf? pc with
  | some index => exact ⟨_, opened, rfl, start, index, spends, anchors, same, rfl⟩
  | none =>
    have ends : Deploys context (.faulted created .invalidJumpDestination) := by
      rintro _ ⟨⟩
    obtain ⟨result, after, concludes, extend', undone, fair⟩ :=
      conclude_run env anchors (.refl opened) inOrder ends
    refine ⟨.result result, after, ?_, spends.extends.trans extend', ?_, ?_⟩
    · dsimp only
      rw [bind_of_ok concludes]
      rfl
    · intro fails
      exact Host.Move.trans_same spends (undone fails)
    · have fair' := (fair (Result.fair_faulted created .invalidJumpDestination)).1
      rw [show context.message = created from rfl, same] at fair'
      exact fair'.of_target

/-- Every message can be started that does not ask for more than a buffer can hold. -/
theorem enter_run (env : Environment σ) (message : Message) (kind : MessageKind) (pc : Nat)
    (inOrder : host.InOrder) (fits : ¬message.Overflows env.fork) :
    ∃ opening after, enter env message kind pc host = .ok opening after ∧
      Started env.fork message host opening after := by
  obtain ⟨told, announces, quiet⟩ := announce_run env message kind host
  have toldInOrder := quiet.inOrder inOrder
  unfold enter
  rw [bind_of_ok announces]
  cases creates : message.isCreation with
  | true =>
    obtain ⟨begun, between, begins, started⟩ := beginCreate_run env creates toldInOrder
    rw [if_pos rfl, bind_of_ok begins]
    cases begun with
    | inl result =>
      obtain ⟨spends, cause, rfl⟩ := started
      obtain ⟨after, exits, move⟩ := exit_run env message.depth (.faulted message cause) between
      refine ⟨.result (.faulted message cause), after, ?_, ?_, ?_, ?_⟩
      · dsimp only
        rw [bind_of_ok exits]
        rfl
      · exact (quiet.extends_of_same.trans spends.extends).trans move.extends_of_same
      · intro _
        exact .of_same quiet (Host.Move.trans_same spends move)
      · exact Result.fair_faulted message cause
    | inr begun =>
      obtain ⟨created, deployment⟩ := begun
      obtain ⟨start, spends, anchored, extend, rfl⟩ := started
      have startInOrder := spends.inOrder toldInOrder
      exact openFrame_run env pc (.of_same quiet spends) extend (extend.inOrder startInOrder)
        anchored rfl
  | false =>
    rw [if_neg (by simp)]
    have spends : host.Spends env.fork message told := (Host.spends_call creates).mpr quiet
    by_cases there : Precompile.contains env.fork message.codeAddress
    · obtain ⟨contract, found⟩ :=
        Option.isSome_iff_exists.mp (Precompile.contains_iff_isSome.mp there)
      obtain ⟨answer, answers⟩ := Message.run?_of_not_overflows env.curve fits creates found
      have runs : runPrecompile env message contract told =
          .ok (answeredResult message answer) _ :=
        runPrecompile_eq_ok.mpr ⟨answer, answers, rfl, rfl⟩
      obtain ⟨move, fair⟩ := runPrecompile_moves runs
      obtain ⟨after, exits, move'⟩ := exit_run env message.depth (answeredResult message answer) _
      have spends' := Host.Move.trans_same (Host.Move.trans_same spends move) move'
      refine ⟨.result (answeredResult message answer), after, ?_, Host.Spends.extends spends',
        fun _ => spends', fair⟩
      rw [if_pos there, consult_of_at? found, bind_of_ok runs, bind_of_ok exits]
      rfl
    · rw [if_neg there]
      exact openFrame_run env pc spends (.refl told) toldInOrder rfl rfl

theorem enter_breach (env : Environment σ) {message : Message} (kind : MessageKind) (pc : Nat)
    (host : Host σ) (overflows : message.Overflows env.fork) :
    ∃ trace, enter env message kind pc host = .error .breach { host with trace } := by
  obtain ⟨trace, announces⟩ := announce_trace env message kind host
  have ⟨isCall, found, _⟩ := overflows
  have there : Precompile.contains env.fork message.codeAddress :=
    Precompile.contains_iff_isSome.mpr (by rw [found]; rfl)
  have fails : runPrecompile env message .modExp { host with trace } =
      .error .breach { host with trace } :=
    runPrecompile_breach ((Message.overflows_iff env.curve isCall found).mp overflows)
  refine ⟨trace, ?_⟩
  unfold enter
  rw [bind_of_ok announces, if_neg (by simp [isCall]), if_pos there, consult_of_at? found]
  simp only [bind, EStateM.bind, fails]

theorem not_overflows_of_enter {kind : MessageKind} {pc : Nat} {opening : Opening}
    (enters : enter env message kind pc host = .ok opening after) :
    ¬message.Overflows env.fork := by
  intro overflows
  obtain ⟨_, fails⟩ := enter_breach env kind pc host overflows
  cases enters.symm.trans fails

theorem started_of_enter {kind : MessageKind} {pc : Nat} {opening : Opening} {opened : Host σ}
    (inOrder : host.InOrder) (enters : enter env message kind pc host = .ok opening opened) :
    Started env.fork message host opening opened := by
  have fits := not_overflows_of_enter enters
  obtain ⟨_, _, enters', started⟩ := enter_run env message kind pc inOrder fits
  rw [enters] at enters'
  cases enters'
  exact started

theorem openFrame_ok {deployment : Option Deployment} {pc : Nat} {opening : Opening}
    {after : Host σ} (opens : openFrame env message deployment pc host = .ok opening after) :
    let context := ⟨message, Code.ofBytes message.code, host.journal.size, deployment⟩
    (∃ index, opening = .frame context (.start message index) ∧ after = host) ∨
      ∃ result, conclude env context (.faulted message .invalidJumpDestination) host =
        .ok result after ∧ opening = .result result := by
  obtain ⟨_, _, ⟨⟩, opens⟩ := bind_eq_ok.mp opens
  cases starts : (Code.ofBytes message.code).indexOf? pc with
  | some index =>
    simp only [starts] at opens
    cases opens
    exact .inl ⟨index, rfl, rfl⟩
  | none =>
    simp only [starts] at opens
    obtain ⟨result, _, concludes, opens⟩ := bind_eq_ok.mp opens
    cases opens
    exact .inr ⟨result, concludes, rfl⟩

theorem openFrame_of_starts {code : Code} {pc index : Nat} (known : Code.ofBytes message.code = code)
    (starts : code.indexOf? pc = some index) (deployment : Option Deployment) (host : Host σ) :
    openFrame env message deployment pc host =
      .ok (.frame ⟨message, code, host.journal.size, deployment⟩ (.start message index)) host := by
  have marks : (Host.checkpoint : HostM σ Nat) host = .ok host.journal.size host := rfl
  subst known
  unfold openFrame
  dsimp only
  rw [bind_of_ok marks, starts]
  rfl

/-- A call is started by a precompiled contract or in a frame that makes no contract. -/
theorem enter_call_ok {kind : MessageKind} {pc : Nat} {opening : Opening} {after : Host σ}
    (isCall : message.isCreation = false)
    (enters : enter env message kind pc host = .ok opening after) :
    ∃ told, announce env message kind host = .ok () told ∧
      ((∃ contract result ran, runPrecompile env message contract told = .ok result ran ∧
          exit env message.depth result ran = .ok result after ∧ opening = .result result) ∨
        openFrame env message none pc told = .ok opening after) := by
  obtain ⟨_, told, announces, enters⟩ := bind_eq_ok.mp enters
  rw [if_neg (by simp [isCall])] at enters
  refine ⟨told, announces, ?_⟩
  by_cases there : Precompile.contains env.fork message.codeAddress
  · obtain ⟨contract, found⟩ :=
      Option.isSome_iff_exists.mp (Precompile.contains_iff_isSome.mp there)
    rw [if_pos there, consult_of_at? found] at enters
    obtain ⟨result, ran, runs, enters⟩ := bind_eq_ok.mp enters
    obtain ⟨_, _, exits, enters⟩ := bind_eq_ok.mp enters
    cases enters
    obtain ⟨_, exits', _⟩ := exit_run env message.depth result ran
    rw [exits] at exits'
    cases exits'
    exact .inl ⟨contract, result, ran, runs, exits, rfl⟩
  · rw [if_neg there] at enters
    exact .inr enters

/-- A creation that ends at once does so before its code runs, or where it was to start. -/
theorem enter_creation_ok {kind : MessageKind} {pc : Nat} {opening : Opening} {after : Host σ}
    (creates : message.isCreation = true)
    (enters : enter env message kind pc host = .ok opening after) :
    ∃ told, announce env message kind host = .ok () told ∧
      ((∃ result between, beginCreate env message told = .ok (.inl result) between ∧
          exit env message.depth result between = .ok result after ∧ opening = .result result) ∨
        ∃ created deployment between,
          beginCreate env message told = .ok (.inr (created, deployment)) between ∧
          openFrame env created (some deployment) pc between = .ok opening after) := by
  obtain ⟨_, told, announces, enters⟩ := bind_eq_ok.mp enters
  rw [if_pos creates] at enters
  obtain ⟨begun, between, begins, enters⟩ := bind_eq_ok.mp enters
  refine ⟨told, announces, ?_⟩
  cases begun with
  | inl result =>
    obtain ⟨given, _, exits, enters⟩ := bind_eq_ok.mp enters
    cases enters
    obtain ⟨rfl, _⟩ := of_run_value exits (exit_run env message.depth result between)
    exact .inl ⟨given, between, begins, exits, rfl⟩
  | inr begun => exact .inr ⟨begun.1, begun.2, between, begins, enters⟩

theorem warmUp_run (addresses : List Address) (inOrder : host.InOrder) :
    ∃ warmed, warmUp addresses host = .ok () warmed ∧ warmed.InOrder :=
  ⟨_, rfl, inOrder⟩

/-! ## Going on after a nested message -/

theorem reportPending_run (env : Environment σ) (depth : Nat) (gas : Meter)
    (step : Option PendingStep) (host : Host σ) :
    ∃ after, reportPending env depth gas step host = .ok () after ∧
      host.Move host.view [] after := by
  cases step with
  | some step => exact Host.emit_run env _ host
  | none => exact ⟨host, rfl, .refl host⟩

theorem receiveCall?_gas {frame next : Frame} {offset size : Nat} {result : Result}
    (receives : receiveCall? frame offset size result = some next) : next.gas = frame.gas := by
  obtain ⟨memory, _, same⟩ := Option.map_eq_some_iff.mp receives
  rw [← same]
  cases result.isSuccess <;> rfl

theorem receiveCreation_gas (frame : Frame) (result : Result) :
    (receiveCreation frame result).gas = frame.gas := by
  unfold receiveCreation
  split <;> rfl

def Marks (receiver : Receiver) (before : Host σ) : Prop :=
  match receiver with
  | .call _ _ checkpoint => checkpoint = before.journal.size
  | .create => True

/-- The memory of a frame has room for as much of a result as the frame asked for. -/
def Fits (receiver : Receiver) (frame : Frame) (result : Result) : Prop :=
  match receiver with
  | .call offset size _ => offset + min size result.output.size ≤ frame.memory.size
  | .create => True

theorem receiveCall?_isSome (frame : Frame) (offset size : Nat) (result : Result) :
    (receiveCall? frame offset size result).isSome ↔
      offset + min size result.output.size ≤ frame.memory.size := by
  unfold receiveCall? Memory.store?
  rw [Option.isSome_map, Array.size_extract, Nat.min_eq_left (Nat.min_le_right ..), Nat.sub_zero]
  split
  · simp [*]
  · simp [*]

/-- A frame takes a result without a trace on the host, but that a failed call is undone. -/
theorem receive_run {frame : Frame} {receiver : Receiver} {before answered : Host σ}
    (result : Result) (marks : Marks receiver before) (fits : Fits receiver frame result)
    (extend : before.Extends answered) (inOrder : before.InOrder) :
    ∃ next after, receive frame receiver result answered = .ok next after ∧
      (result.isSuccess ∨ receiver = .create → after = answered) ∧
      (result.isSuccess = false → receiver ≠ .create → before.Move before.view [] after) := by
  cases receiver with
  | call offset size checkpoint =>
    obtain rfl : checkpoint = before.journal.size := marks
    obtain ⟨settled, settles, _, kept, undone⟩ := settle_run result extend inOrder
    obtain ⟨next, fills⟩ :=
      Option.isSome_iff_exists.mp ((receiveCall?_isSome frame offset size result).mpr fits)
    refine ⟨next, settled, ?_, ?_, fun fails _ => undone fails⟩
    · rw [receive, bind_of_ok settles, fills]
      rfl
    · rintro (success | creates)
      · exact kept success
      · cases creates
  | create =>
    exact ⟨_, answered, rfl, fun _ => rfl, fun _ other => absurd rfl other⟩

/-- A frame can go on where it has room for the result, and the host is as its receiver leaves
it. -/
theorem resume_run (env : Environment σ) {suspended : Suspended} {before answered : Host σ}
    (result : Result) (marks : Marks suspended.resumption.receiver before)
    (fits : Fits suspended.resumption.receiver suspended.frame result)
    (extend : before.Extends answered) (inOrder : before.InOrder) :
    ∃ next after, resume env suspended result answered = .ok next after ∧
      (result.isSuccess ∨ suspended.resumption.receiver = .create →
        answered.Move answered.view [] after) ∧
      (result.isSuccess = false → suspended.resumption.receiver ≠ .create →
        before.Move before.view [] after) := by
  obtain ⟨context, frame, resumption⟩ := suspended
  let refunded := { frame with gas := frame.gas.restore (resumption.gas - result.gasUsed) }
  have fits' : Fits resumption.receiver refunded result := fits
  obtain ⟨next, received, receives, kept, undone⟩ :=
    receive_run result marks fits' extend inOrder
  obtain ⟨after, reports, move⟩ :=
    reportPending_run env context.message.depth next.gas resumption.step received
  refine ⟨next, after, ?_, ?_, ?_⟩
  · unfold resume
    dsimp only
    rw [bind_of_ok receives, bind_of_ok reports]
    rfl
  · intro keeps
    rw [kept keeps] at move
    exact move
  · intro fails calls
    exact (undone fails calls).trans_same move

theorem receive_call_ok {frame next : Frame} {offset size checkpoint : Nat} {result : Result}
    {answered after : Host σ}
    (receives : receive frame (.call offset size checkpoint) result answered = .ok next after) :
    settle checkpoint result answered = .ok () after ∧
      receiveCall? frame offset size result = some next := by
  obtain ⟨_, settled, settles, receives⟩ := bind_eq_ok.mp receives
  cases fills : receiveCall? frame offset size result with
  | some filled =>
    rw [fills] at receives
    cases receives
    exact ⟨settles, rfl⟩
  | none =>
    rw [fills] at receives
    cases receives

theorem receive_gas {frame next : Frame} {receiver : Receiver} {result : Result}
    {answered after : Host σ} (receives : receive frame receiver result answered = .ok next after) :
    next.gas = frame.gas := by
  cases receiver with
  | call offset size checkpoint => exact receiveCall?_gas (receive_call_ok receives).2
  | create =>
    cases receives
    exact receiveCreation_gas frame result

theorem resume_ok {suspended : Suspended} {result : Result} {next : Frame}
    {answered after : Host σ} (resumes : resume env suspended result answered = .ok next after) :
    let unspent := suspended.resumption.gas - result.gasUsed
    let frame := { suspended.frame with gas := suspended.frame.gas.restore unspent }
    ∃ received, receive frame suspended.resumption.receiver result answered = .ok next received ∧
      reportPending env suspended.context.message.depth next.gas suspended.resumption.step received =
        .ok () after := by
  obtain ⟨filled, received, receives, resumes⟩ := bind_eq_ok.mp resumes
  obtain ⟨_, reported, reports, resumes⟩ := bind_eq_ok.mp resumes
  cases resumes
  exact ⟨received, receives, reports⟩

theorem resume_gas {suspended : Suspended} {result : Result} {next : Frame}
    {answered after : Host σ} (resumes : resume env suspended result answered = .ok next after) :
    next.gas = suspended.frame.gas.restore (suspended.resumption.gas - result.gasUsed) := by
  obtain ⟨_, receives, _⟩ := resume_ok resumes
  exact receive_gas receives

theorem fits_of_resume {suspended : Suspended} {result : Result} {next : Frame}
    {answered after : Host σ} (resumes : resume env suspended result answered = .ok next after) :
    Fits suspended.resumption.receiver suspended.frame result := by
  obtain ⟨_, receives, _⟩ := resume_ok resumes
  cases taker : suspended.resumption.receiver with
  | create => trivial
  | call offset size checkpoint =>
    rw [taker] at receives
    obtain ⟨_, fills⟩ := receive_call_ok receives
    have room := (receiveCall?_isSome ..).mp (Option.isSome_iff_exists.mpr ⟨_, fills⟩)
    exact room

end Execution

end Evm
