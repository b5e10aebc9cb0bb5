import Evm.Proofs.Induction
import Evm.Proofs.Laws
import Evm.Proofs.Repair

/-!
# What the tracer is told

Only the ends of instructions, and the starts and ends of messages, are told to the tracer. Nothing
is told by what an instruction does, by a fault, or by undoing what a failed frame did.
-/

namespace Evm

variable {σ α : Type}

theorem HostM.Mirrors.silent {action : HostM σ α}
    (mirrors : ∀ trace, Mirrors Eq (· = trace) action) {host after : Host σ} {value : α}
    (runs : action host = .ok value after) : after.trace = host.trace := by
  obtain ⟨_, _, twins⟩ := mirrors host.trace ⟨rfl, rfl, rfl⟩ runs
  exact twins.trace

namespace InstructionM.Mirrors

variable {action : InstructionM σ α} {frame : Frame} {host last : Host σ}

theorem silent (mirrors : ∀ trace, Mirrors Eq (· = trace) action) {given : α × Frame}
    (runs : action frame host = .ok given last) : last.trace = host.trace := by
  have found := mirrors host.trace frame ⟨rfl, rfl, rfl⟩
  rw [runs] at found
  obtain ⟨_, _, twins⟩ := found
  exact twins.trace

theorem silent_fault (mirrors : ∀ trace, Mirrors Eq (· = trace) action) {cause : Exception}
    (faults : action frame host = .error (.fault cause) last) : last.trace = host.trace := by
  have found := mirrors host.trace frame ⟨rfl, rfl, rfl⟩
  rw [faults] at found
  obtain ⟨_, _, twins⟩ := found
  exact twins.trace

end InstructionM.Mirrors

section Steps

open InstructionM

variable {env : Environment σ} {context : Context} {frame left : Frame} {host last : Host σ}

theorem bind_error {β : Type} {action : InstructionM σ β} {next : β → InstructionM σ α}
    {interrupt : Interrupt} :
    (action >>= next) frame host = .error interrupt last ↔
      action frame host = .error interrupt last ∨
      ∃ value between passed, action frame host = .ok (value, between) passed ∧
        next value between passed = .error interrupt last := by
  rw [bind_run]
  cases action frame host with
  | ok given passed =>
    obtain ⟨value, between⟩ := given
    simp [and_assoc]
  | error found passed => simp

theorem step_past (past : context.code.instructions[frame.index]? = none) :
    step env context frame host = .ok (.halt .stop, frame) host := by
  have starts : (get : InstructionM σ Frame) frame host = .ok (frame, frame) host := rfl
  unfold step
  rw [InstructionM.bind_run, starts]
  simp only [past]
  rfl

/-- A step is told at its end, or left with the nested message that it waits for. -/
def Control.Tells (env : Environment σ) (context : Context) (pending : PendingStep) (left : Frame)
    (host last : Host σ) : Control → Prop
  | .call nested => nested.resumption.step = some pending ∧ last.trace = host.trace
  | _ => last.trace = env.tracer.record (pending.event context.message.depth left.gas) host.trace

theorem report_told (enabled : ∀ trace, env.tracer.enabled trace = true) {instruction : Instruction}
    {operation : Operation} {used : Nat} {made control : Control}
    (runs : report env context instruction operation used made frame host =
      .ok (control, left) last) :
    ∃ pending : PendingStep, pending.used = used ∧
      control.Tells env context pending left host last := by
  rw [report_run, if_pos (enabled _)] at runs
  refine ⟨⟨instruction.offset, instruction.byte, operation.name, used⟩, rfl, ?_⟩
  cases made with
  | call nested =>
    cases runs
    exact ⟨rfl, rfl⟩
  | _ =>
    obtain ⟨_, _, _, reads, runs⟩ := InstructionM.bind_ok.mp runs
    obtain ⟨rfl, rfl, rfl⟩ := current_ok.mp reads
    obtain ⟨_, _, _, emits, runs⟩ := InstructionM.bind_ok.mp runs
    obtain ⟨emitted, rfl⟩ := host_ok.mp emits
    cases emitted
    cases runs
    rfl

theorem report_ne_error {instruction : Instruction} {operation : Operation} {used : Nat}
    {made : Control} {interrupt : Interrupt} :
    report env context instruction operation used made frame host ≠ .error interrupt last := by
  rw [report_run]
  split
  · cases made <;> rintro ⟨⟩
  · rintro ⟨⟩

theorem step_fault_silent {cause : Exception}
    (faults : step env context frame host = .error (.fault cause) last) :
    last.trace = host.trace := by
  obtain faults | ⟨_, _, _, reads, faults⟩ := bind_error.mp faults
  · cases faults
  obtain ⟨rfl, rfl, rfl⟩ := current_ok.mp reads
  cases fetched : context.code.instructions[frame.index]? with
  | none =>
    simp only [fetched] at faults
    cases faults
  | some instruction =>
    simp only [fetched] at faults
    cases enabled : instruction.operation.filter (·.since ≤ env.fork) with
    | none =>
      simp only [enabled] at faults
      exact Mirrors.silent_fault (fun _ => .lift _) faults
    | some operation =>
      simp only [enabled] at faults
      obtain faults | ⟨_, _, _, checks, faults⟩ := bind_error.mp faults
      · exact Mirrors.silent_fault (fun _ => .lift _) faults
      obtain ⟨_, rfl⟩ := lift_ok.mp checks
      obtain faults | ⟨_, _, _, reads, faults⟩ := bind_error.mp faults
      · cases faults
      obtain ⟨rfl, rfl, rfl⟩ := current_ok.mp reads
      obtain faults | ⟨_, _, _, _, faults⟩ := bind_error.mp faults
      · exact Mirrors.silent_fault
          (fun _ => execute_mirrors (Store.matching_eq False) env context _ _) faults
      · exact absurd faults report_ne_error

theorem step_told (enabled : ∀ trace, env.tracer.enabled trace = true) {control : Control}
    (steps : step env context frame host = .ok (control, left) last) :
    control = .halt .stop ∧ left = frame ∧ last = host ∨
    ∃ pending : PendingStep, pending.used = frame.gas.used ∧
      control.Tells env context pending left host last := by
  obtain ⟨past, _⟩ | ⟨_, _, _, between, _, executes, reports⟩ := step_ok steps
  · rw [step_past past] at steps
    cases steps
    exact .inl ⟨rfl, rfl, rfl⟩
  · have silent := InstructionM.Mirrors.silent
      (fun _ => execute_mirrors (Store.matching_eq False) env context _ _) executes
    obtain ⟨pending, used, told⟩ := report_told enabled reports
    refine .inr ⟨pending, used, ?_⟩
    cases control <;> simpa only [Control.Tells, silent] using told

end Steps

namespace Execution

variable {env : Environment σ} {context : Context} {frame : Frame} {host after : Host σ}

def Turn.Tells (env : Environment σ) (context : Context) (frame : Frame) (host after : Host σ) :
    Turn → Prop
  | .goOn next => ∃ pending : PendingStep, pending.used = frame.gas.used ∧
    after.trace = env.tracer.record (pending.event context.message.depth next.gas) host.trace
  | .finish ended => ended.created = none ∧
    (after.trace = host.trace ∧
        ((∃ cause, ended.outcome = .faulted cause) ∨ ended.gasUsed = frame.gas.used) ∨
      ∃ (pending : PendingStep) (gas : Meter), pending.used = frame.gas.used ∧
        frame.gas.Spends 0 gas ∧ ended.gasUsed = gas.used ∧
        after.trace = env.tracer.record (pending.event context.message.depth gas) host.trace)
  | .ask nested _ => after.trace = host.trace ∧ ∃ pending : PendingStep,
    nested.resumption.step = some pending ∧ pending.used = frame.gas.used

theorem turn_tells (enabled : ∀ trace, env.tracer.enabled trace = true) (ready : Ready context frame host)
    {made : Turn} (turns : turn env context frame host = .ok made after) :
    made.Tells env context frame host after := by
  unfold turn at turns
  cases steps : step env context frame host with
  | error interrupt last =>
    simp only [steps] at turns
    cases interrupt with
    | fault cause =>
      cases turns
      exact ⟨rfl, .inl ⟨step_fault_silent steps, .inl ⟨cause, rfl⟩⟩⟩
    | failure failure => cases turns
  | ok stepped last =>
    obtain ⟨control, left⟩ := stepped
    simp only [steps] at turns
    have costs := step_costs ready.sound ready.inOrder steps
    have told := step_told enabled steps
    cases control with
    | next =>
      cases turns
      obtain ⟨ends, _⟩ | told := told
      · cases ends
      · exact told
    | jump index =>
      cases turns
      obtain ⟨ends, _⟩ | told := told
      · cases ends
      · exact told
    | halt reason =>
      cases turns
      refine ⟨rfl, ?_⟩
      obtain ⟨_, rfl, rfl⟩ | ⟨pending, used, told⟩ := told
      · exact .inl ⟨rfl, .inr rfl⟩
      · exact .inr ⟨pending, left.gas, used, costs, rfl, told⟩
    | revert =>
      cases turns
      refine ⟨rfl, ?_⟩
      obtain ⟨ends, _⟩ | ⟨pending, used, told⟩ := told
      · cases ends
      · exact .inr ⟨pending, left.gas, used, costs, rfl, told⟩
    | call nested =>
      cases turns
      obtain ⟨ends, _⟩ | ⟨pending, used, waits, silent⟩ := told
      · cases ends
      · exact ⟨silent, pending, waits, used⟩

theorem exit_tells {depth : Nat} {result given : Result}
    (exits : exit env depth result host = .ok given after) :
    given = result ∧
      after.trace = env.tracer.record ⟨depth, .exit result.gasUsed result.outcome⟩ host.trace := by
  cases exits
  exact ⟨rfl, rfl⟩

theorem conclude_tells {ended result : Result}
    (concludes : conclude env context ended host = .ok result after) :
    after.trace = env.tracer.record
      ⟨context.message.depth, .exit result.gasUsed result.outcome⟩ host.trace := by
  obtain ⟨_, settled, settles, concludes⟩ := bind_eq_ok.mp concludes
  obtain ⟨given, deployed, deploys, exits⟩ := bind_eq_ok.mp concludes
  obtain ⟨rfl, told⟩ := exit_tells exits
  have silent := HostM.Mirrors.silent
    (fun _ => settle_mirrors (Store.matching_eq False) context.checkpoint ended) settles
  have silent' := HostM.Mirrors.silent
    (fun _ => deployFor_mirrors (Store.matching_eq False) env context ended) deploys
  rw [told, silent', silent]

theorem resume_tells {suspended : Suspended} {answer : Result} {next : Frame}
    {pending : PendingStep} (waits : suspended.resumption.step = some pending)
    (resumes : resume env suspended answer host = .ok next after) :
    after.trace =
      env.tracer.record (pending.event suspended.context.message.depth next.gas) host.trace := by
  obtain ⟨_, receives, reports⟩ := resume_ok resumes
  have silent := HostM.Mirrors.silent
    (fun _ => receive_mirrors (Store.matching_eq False) _ suspended.resumption.receiver answer) receives
  rw [waits] at reports
  cases reports
  rw [← silent]

/-- What ending a frame makes of its result: the same, or a fault of the deployment, or a contract
whose code was paid for. -/
inductive Concludes (fork : Fork) (context : Context) (ended : Result) (after : Host σ) :
    Result → Prop where
  | same : (context.deployment.isSome → ended.isSuccess = false) →
    Concludes fork context ended after ended
  | refused {deployment cause} : context.deployment = some deployment → ended.isSuccess →
    Concludes fork context ended after (.faulted context.message cause)
  | deployed {deployment} : context.deployment = some deployment → ended.isSuccess →
    after.view.code deployment.address = ended.output →
    Concludes fork context ended after
      { ended with
        gasUsed := ended.gasUsed + fork.fee .codeDeposit * ended.output.size
        output := #[]
        created := some deployment.address }

theorem deploy_concludes {ended result : Result} {deployment : Deployment}
    (inOrder : host.InOrder) (found : context.deployment = some deployment)
    (deploys : deploy env context.message deployment ended host = .ok result after) :
    Concludes env.fork context ended after result := by
  cases deploy_ok deploys with
  | failed fails => exact .same fun _ => fails
  | refused success => exact .refused found success
  | stored success =>
    obtain ⟨_, _, _, shows⟩ := Law.deploy_view inOrder deploys success
    exact .deployed found success (by simp [shows, View.deploy, View.setCode])

theorem conclude_failed {ended result : Result} (fails : ended.isSuccess = false)
    (concludes : conclude env context ended host = .ok result after) : result = ended := by
  obtain ⟨_, settled, _, concludes⟩ := bind_eq_ok.mp concludes
  obtain ⟨given, deployed, deploys, exits⟩ := bind_eq_ok.mp concludes
  obtain ⟨rfl, _⟩ := exit_tells exits
  obtain ⟨_, rfl, _⟩ | ⟨deployment, _, deploys⟩ := deployFor_ok deploys
  · rfl
  · cases deploy_ok deploys with
    | failed => rfl
    | refused success | stored success => cases fails.symm.trans success

theorem conclude_concludes {ended result : Result}
    (concludes : conclude env context ended host = .ok result after) :
    Concludes env.fork context ended after result := by
  obtain ⟨_, settled, _, concludes⟩ := bind_eq_ok.mp concludes
  obtain ⟨given, between, deploys, exits⟩ := bind_eq_ok.mp concludes
  obtain ⟨rfl, move⟩ := of_run_value exits (exit_run env context.message.depth given between)
  obtain ⟨found, rfl, _⟩ | ⟨deployment, found, deploys⟩ := deployFor_ok deploys
  · exact .same (by simp [found])
  · have deploys := (deploy_mirrors Store.matching_repairs env context.message deployment
      ended).repaired deploys
    cases deploy_concludes settled.repaired_inOrder found deploys with
    | same fails => exact .same fails
    | refused found success => exact .refused found success
    | deployed found success shows =>
      rw [Host.view_repaired, ← move.view_eq] at shows
      exact .deployed found success shows

def callEvent (message : Message) (kind : MessageKind) : Event :=
  ⟨message.depth,
    .call kind message.caller message.target message.value message.gasLimit message.data⟩

/-- What starting a message adds to the trace. One that is done at once has faulted or was answered
by a precompiled contract. -/
def Opening.Tells (env : Environment σ) (message : Message) (kind : MessageKind)
    (host after : Host σ) : Opening → Prop
  | .frame context _ => (context.deployment.isSome → message.isCreation) ∧
    after.trace = env.tracer.record (callEvent message kind) host.trace
  | .result given =>
    let told := env.tracer.record (callEvent message kind) host.trace
    let exit : Event := ⟨message.depth, .exit given.gasUsed given.outcome⟩
    given.created = none ∧
      ((∃ cause, given.outcome = .faulted cause) ∧ after.trace = env.tracer.record exit told ∨
        ∃ address, after.trace = env.tracer.record exit (env.tracer.record
          ⟨message.depth, .precompile address given.gasUsed given.isSuccess⟩ told))

theorem announce_tells {message : Message} {kind : MessageKind}
    (enabled : ∀ trace, env.tracer.enabled trace = true)
    (announces : announce env message kind host = .ok () after) :
    after.trace = env.tracer.record (callEvent message kind) host.trace := by
  rw [announce_eq, if_pos (enabled _)] at announces
  cases announces
  rfl

theorem runPrecompile_tells {message : Message} {contract : Precompile} {result : Result}
    (runs : runPrecompile env message contract host = .ok result after) :
    result.created = none ∧ after.trace = env.tracer.record
      ⟨message.depth, .precompile message.codeAddress result.gasUsed result.isSuccess⟩
      host.trace := by
  obtain ⟨answer, answers, rfl, rfl⟩ := runPrecompile_eq_ok.mp runs
  have settles := Precompile.run?_settles answers
  unfold answeredResult answerEvent
  cases success : answer.success with
  | true => exact ⟨rfl, rfl⟩
  | false =>
    -- A contract that fails has spent all that it was offered.
    obtain ⟨spent, _⟩ := settles.of_failure success
    rw [spent]
    exact ⟨rfl, rfl⟩

theorem openFrame_tells {message opened : Message} {kind : MessageKind}
    {deployment : Option Deployment} {pc : Nat} {opening : Opening} {told : Host σ}
    (depth : opened.depth = message.depth)
    (announced : told.trace = env.tracer.record (callEvent message kind) host.trace)
    (creates : deployment.isSome → message.isCreation)
    (opens : openFrame env opened deployment pc told = .ok opening after) :
    opening.Tells env message kind host after := by
  obtain ⟨index, rfl, rfl⟩ | ⟨result, concludes, rfl⟩ := openFrame_ok opens
  · exact ⟨creates, announced⟩
  · have exits := conclude_tells concludes
    obtain rfl := conclude_failed rfl concludes
    refine ⟨rfl, .inl ⟨⟨_, rfl⟩, ?_⟩⟩
    rw [exits, announced, ← depth]

theorem beginCreate_silent {message : Message} {begun : Result ⊕ Message × Deployment}
    (begins : beginCreate env message host = .ok begun after) : after.trace = host.trace :=
  HostM.Mirrors.silent
    (fun _ => beginCreate_mirrors (Store.matching_eq False) env message) begins

theorem enter_tells {message : Message} {kind : MessageKind} {pc : Nat} {opening : Opening}
    (enabled : ∀ trace, env.tracer.enabled trace = true) (inOrder : host.InOrder)
    (enters : enter env message kind pc host = .ok opening after) :
    opening.Tells env message kind host after := by
  cases creates : message.isCreation with
  | true =>
    obtain ⟨told, announces, runs | opens⟩ := enter_creation_ok creates enters
    all_goals
      have announced := announce_tells enabled announces
      obtain ⟨_, quiet⟩ := of_run_value announces (announce_run env message kind host)
    · obtain ⟨result, between, begins, exits, rfl⟩ := runs
      obtain ⟨_, cause, rfl⟩ :=
        of_run begins (beginCreate_run env creates (quiet.inOrder inOrder))
      obtain ⟨_, exited⟩ := exit_tells exits
      refine ⟨rfl, .inl ⟨⟨cause, rfl⟩, ?_⟩⟩
      rw [exited, beginCreate_silent begins, announced]
    · obtain ⟨created, deployment, between, begins, opens⟩ := opens
      obtain ⟨_, _, _, _, rfl⟩ :=
        of_run begins (beginCreate_run env creates (quiet.inOrder inOrder))
      have depth : { message with target := some deployment.address }.depth = message.depth := rfl
      rw [← beginCreate_silent begins] at announced
      exact openFrame_tells depth announced (fun _ => creates) opens
  | false =>
    obtain ⟨told, announces, runs | opens⟩ := enter_call_ok creates enters
    · obtain ⟨contract, result, ran, runs, exits, rfl⟩ := runs
      obtain ⟨created, told'⟩ := runPrecompile_tells runs
      obtain ⟨_, exited⟩ := exit_tells exits
      refine ⟨created, .inr ⟨message.codeAddress, ?_⟩⟩
      rw [exited, told', announce_tells enabled announces]
    · exact openFrame_tells rfl (announce_tells enabled announces) (by simp) opens

end Execution

end Evm
