import Evm.Proofs.Deeds
import Evm.Proofs.Reporting
import Evm.Proofs.StaticCalls

/-!
# What turns and boundaries leave

An instruction changes slots, and what is warm, by its operation alone. Where a message begins and
where it succeeds nothing of that changes, but that the address of a creation is touched.
-/

namespace Evm

variable {σ : Type} {env : Environment σ} {context : Context} {frame left next asking : Frame}
  {host after before asked : Host σ}

theorem report_view {instruction : Instruction} {operation : Operation} {used : Nat}
    {made control : Control}
    (runs : report env context instruction operation used made frame host =
      .ok (control, left) after) : after.view = host.view := by
  rw [report_run] at runs
  split at runs
  · cases made with
    | call nested =>
      cases runs
      rfl
    | _ =>
      obtain ⟨_, _, _, reads, runs⟩ := InstructionM.bind_ok.mp runs
      obtain ⟨rfl, rfl, rfl⟩ := InstructionM.current_ok.mp reads
      obtain ⟨_, _, emits, runs⟩ := InstructionM.host_bind_ok.mp runs
      cases emits
      cases runs
      rfl
  · cases runs
    rfl

def Context.deed (context : Context) (fork : Fork) (frame : Frame) (view : View) : View :=
  match context.operation? fork frame with
  | some operation => operation.deed fork context frame view
  | none => view

/-- What a frame has gathered for the one that waits for it: its logs, its refund, its marks. -/
def Frame.gathered (frame : Frame) : Array Log × Int × AddressSet :=
  (frame.logs, frame.refund, frame.selfDestruct)

/-- Whether what an answer brings along is taken over: it succeeded, and where a contract was asked
for there is one. -/
def Receiver.takes (receiver : Receiver) (answer : Result) : Bool :=
  answer.isSuccess && (receiver != .create || answer.created.isSome)

namespace Execution

/-- What a step has done that went through: nothing past the end of the code, or its operation. -/
inductive Applies (env : Environment σ) (context : Context) (frame : Frame) (host : Host σ) :
    Frame → Host σ → Prop where
  | past : context.operation? env.fork frame = none → Applies env context frame host frame host
  | operation {instruction operation made left passed after} :
    context.operation? env.fork frame = some operation →
    execute env context instruction operation frame host = .ok (made, left) passed →
    after.view = passed.view → Applies env context frame host left after

theorem step_applies {control : Control}
    (steps : step env context frame host = .ok (control, left) after) :
    Applies env context frame host left after := by
  obtain ⟨past, _⟩ | ⟨_, _, _, _, next, executes, reports⟩ := step_ok steps
  · rw [step_past past] at steps
    cases steps
    exact .past (by simp [Context.operation?, past])
  · exact .operation next executes (report_view reports)

theorem Applies.deed (applies : Applies env context frame host left after)
    (inOrder : host.InOrder) : (context.deed env.fork frame host.view).Alike after.view := by
  unfold Context.deed
  cases applies with
  | past ends =>
    rw [ends]
    exact .refl _
  | operation next executes same =>
    simp only [next]
    rw [same]
    exact execute_deed inOrder executes

theorem turn_goOn (turns : turn env context frame host = .ok (.goOn next) after) :
    ∃ left index, Applies env context frame host left after ∧ next = { left with index } := by
  unfold turn at turns
  cases steps : step env context frame host with
  | error interrupt between =>
    simp only [steps] at turns
    cases interrupt <;> cases turns
  | ok stepped between =>
    obtain ⟨control, left⟩ := stepped
    simp only [steps] at turns
    cases control <;> cases turns <;> exact ⟨left, _, step_applies steps, rfl⟩

theorem turn_finish {ended : Result}
    (turns : turn env context frame host = .ok (.finish ended) after) :
    (∃ left reason, Applies env context frame host left after ∧ ended = haltedResult left reason) ∨
      (∃ left, ended = revertedResult context.message left) ∨
      ∃ cause, ended = .faulted context.message cause := by
  unfold turn at turns
  cases steps : step env context frame host with
  | error interrupt between =>
    simp only [steps] at turns
    cases interrupt <;> cases turns
    exact .inr (.inr ⟨_, rfl⟩)
  | ok stepped between =>
    obtain ⟨control, left⟩ := stepped
    simp only [steps] at turns
    cases control <;> cases turns
    · exact .inl ⟨left, _, step_applies steps, rfl⟩
    · exact .inr (.inl ⟨left, rfl⟩)

theorem turn_ask {nested : NestedCall}
    (turns : turn env context frame host = .ok (.ask nested asking) after) :
    ∃ left index, Applies env context frame host left after ∧ asking = { left with index } := by
  obtain ⟨left, steps, rfl⟩ := asks_of_turn turns
  exact ⟨left, _, step_applies steps, rfl⟩

theorem turn_goOn_deed (inOrder : host.InOrder)
    (turns : turn env context frame host = .ok (.goOn next) after) :
    (context.deed env.fork frame host.view).Alike after.view := by
  obtain ⟨_, _, applies, _⟩ := turn_goOn turns
  exact applies.deed inOrder

theorem turn_ask_deed {nested : NestedCall} (inOrder : host.InOrder)
    (turns : turn env context frame host = .ok (.ask nested asking) after) :
    (context.deed env.fork frame host.view).Alike after.view := by
  obtain ⟨_, _, applies, _⟩ := turn_ask turns
  exact applies.deed inOrder

theorem turn_finish_deed {ended : Result} (inOrder : host.InOrder) (success : ended.isSuccess)
    (turns : turn env context frame host = .ok (.finish ended) after) :
    (context.deed env.fork frame host.view).Alike after.view := by
  obtain ⟨_, _, applies, rfl⟩ | ⟨_, rfl⟩ | ⟨_, rfl⟩ := turn_finish turns
  · exact applies.deed inOrder
  · cases success
  · cases success

theorem turn_ask_touched {nested : NestedCall} (inOrder : host.InOrder)
    (turns : turn env context frame host = .ok (.ask nested asking) asked)
    (marks : Marks nested.resumption.receiver before) (sent : before.Extends asked)
    (calls : nested.resumption.receiver ≠ .create) :
    (∃ mode, context.operation? env.fork frame = some (.call mode)) ∧
      before.view = host.view.touch env.fork (frame.address 1) := by
  obtain ⟨made, left, same, _, call | creation⟩ := turn_asks turns
  · obtain ⟨mode, next, runs⟩ := call
    obtain ⟨marked, prepares, sends⟩ := Instruction.call_ok runs
    obtain ⟨_, _, offset, size, receiver⟩ := Instruction.prepareCall_ok prepares
    have shows := Instruction.prepareCall_shows inOrder prepares
    have sent' := (Instruction.sendValue_serves mode made.message).extends_of_run
      (shows.inOrder inOrder) sends
    have size_eq : marked.journal.size = before.journal.size := by
      rw [same] at marks
      simpa [receiver, Marks] using marks
    exact ⟨⟨mode, next⟩, by rw [← sent'.view_eq sent size_eq, shows.view_eq]⟩
  · obtain ⟨salted, _, creates⟩ := creation
    obtain ⟨_, _, receiver, _⟩ := Instruction.create_ok inOrder creates
    rw [same] at calls
    exact absurd receiver calls

/-- The host that a failed call comes back to is as its operation has left it. -/
theorem turn_ask_marked {nested : NestedCall} (inOrder : host.InOrder)
    (turns : turn env context frame host = .ok (.ask nested asking) asked)
    (marks : Marks nested.resumption.receiver before) (sent : before.Extends asked)
    (calls : nested.resumption.receiver ≠ .create) :
    (context.deed env.fork frame host.view).Alike before.view := by
  obtain ⟨⟨mode, next⟩, touched⟩ := turn_ask_touched inOrder turns marks sent calls
  rw [touched]
  simp only [Context.deed, next, Operation.deed]
  exact .refl _

theorem turn_ask_receiver {nested : NestedCall}
    (turns : turn env context frame host = .ok (.ask nested asking) after) :
    nested.resumption.receiver = .create ↔ nested.message.isCreation = true := by
  obtain ⟨made, left, same, _, ⟨mode, _, calls⟩ | ⟨salted, _, creates⟩⟩ :=
    turn_asks (turn_repaired turns)
  · obtain ⟨before, prepares, _⟩ := Instruction.call_ok calls
    obtain ⟨_, isCall, _, _, receiver⟩ := Instruction.prepareCall_ok prepares
    rw [same]
    simp [receiver, isCall]
  · obtain ⟨_, creation, receiver, _⟩ := Instruction.create_ok host.repaired_inOrder creates
    rw [same]
    simp [receiver, creation]

theorem resume_gathered {suspended : Suspended} {answer : Result}
    (resumes : resume env suspended answer host = .ok next after) :
    next.gathered =
      if suspended.resumption.receiver.takes answer then (absorb suspended.frame answer).gathered
      else suspended.frame.gathered := by
  obtain ⟨_, receives, _⟩ := resume_ok resumes
  cases taker : suspended.resumption.receiver with
  | call offset size checkpoint =>
    rw [taker] at receives
    obtain ⟨_, fills⟩ := receive_call_ok receives
    obtain ⟨memory, _, rfl⟩ := Option.map_eq_some_iff.mp fills
    cases success : answer.isSuccess <;>
      simp [success, Receiver.takes, Frame.gathered, absorb, pushResult]
  | create =>
    rw [taker] at receives
    cases receives
    unfold receiveCreation Receiver.takes Result.isSuccess
    cases answer.outcome <;> cases answer.created <;>
      simp [Outcome.isSuccess, Frame.gathered, absorb, pushResult]

theorem makeAccount_alike {message : Message} {deployment : Deployment}
    (inOrder : host.InOrder) (makes : makeAccount message deployment host = .ok none after) :
    host.view.Alike after.view := by
  unfold makeAccount at makes
  rw [bind_of_ok (Host.account_run inOrder deployment.address)] at makes
  split at makes
  · cases makes
  · obtain ⟨made, puts, move⟩ := Host.putAccount_run inOrder deployment.address
      { host.view.account deployment.address with nonce := 1 }
    rw [bind_of_ok puts] at makes
    obtain ⟨sent, paid, transfers, makes⟩ := bind_eq_ok.mp makes
    have sends := (Host.transfer_alike (move.inOrder inOrder) transfers).1
    rw [move.view_eq] at sends
    cases sent with
    | true =>
      cases makes
      exact (View.Alike.setAccount _ _).trans sends
    | false =>
      obtain ⟨_, _, _, makes⟩ := bind_eq_ok.mp makes
      cases makes

theorem silent_faulted (message : Message) (cause : Exception) :
    (Result.faulted message cause).Silent message.selfDestruct :=
  ⟨rfl, rfl, rfl⟩

theorem runPrecompile_silent {message : Message} {contract : Precompile} {result : Result}
    (runs : runPrecompile env message contract host = .ok result after) :
    result.Silent message.selfDestruct := by
  obtain ⟨answer, _, rfl, _⟩ := runPrecompile_eq_ok.mp runs
  unfold answeredResult
  split
  · exact ⟨rfl, rfl, rfl⟩
  · exact silent_faulted message .outOfGas

/-- A message that was started runs in a frame, before which only the address of a creation was
touched, or it is done with that. A creation is never done at once. -/
def Opens (fork : Fork) (message : Message) (host : Host σ) : Opening → Host σ → Prop
  | .frame context _, opened => context.deployment.isSome = message.isCreation ∧
    ∃ start, host.Spends fork message start ∧ Anchors context start opened ∧
      start.view.Alike opened.view
  | .result result, after => after.view = host.view.afterFailure message fork ∧
    result.Silent message.selfDestruct ∧ (message.isCreation → result.isSuccess = false)

theorem openFrame_opens {message created : Message} {deployment : Option Deployment} {pc : Nat}
    {opening : Opening} {start opened : Host σ} (spends : host.Spends env.fork message start)
    (same : created.selfDestruct = message.selfDestruct)
    (creates : deployment.isSome = message.isCreation)
    (anchors : Anchors ⟨created, Code.ofBytes created.code, opened.journal.size, deployment⟩ start
      opened) (alike : start.view.Alike opened.view) (inOrder : opened.InOrder)
    (opens : openFrame env created deployment pc opened = .ok opening after) :
    Opens env.fork message host opening after := by
  obtain ⟨index, rfl, rfl⟩ | ⟨result, concludes, rfl⟩ := openFrame_ok opens
  · exact ⟨creates, start, spends, anchors, alike⟩
  · obtain rfl := conclude_failed rfl concludes
    obtain ⟨_, undone, _⟩ := of_run concludes
      (conclude_run env anchors (.refl opened) inOrder (deploys_of_conclude concludes))
    refine ⟨by rw [(undone rfl).view_eq, spends.view_eq], ?_, fun _ => rfl⟩
    rw [← same]
    exact silent_faulted created .invalidJumpDestination

theorem beginCreate_opens {message : Message} {begun : Result ⊕ Message × Deployment}
    {opened : Host σ} (creates : message.isCreation = true) (inOrder : host.InOrder)
    (begins : beginCreate env message host = .ok begun opened) :
    match begun with
    | .inl result => host.Spends env.fork message opened ∧ ∃ cause, result = .faulted message cause
    | .inr (created, deployment) => created.selfDestruct = message.selfDestruct ∧
      ∃ start, host.Spends env.fork message start ∧ opened.InOrder ∧ Anchors
        ⟨created, Code.ofBytes created.code, opened.journal.size, some deployment⟩ start opened ∧
        start.view.Alike opened.view := by
  cases beginCreate_ok begins with
  | exhausted claims =>
    have spends := of_run claims (claimAddress_run env creates inOrder)
    exact ⟨spends, .nonceOverflow, rfl⟩
  | @failed _ _ cause _ claims makes =>
    have spends := of_run claims (claimAddress_run env creates inOrder)
    obtain ⟨_, undone⟩ := of_run makes (makeAccount_run message _ (spends.inOrder inOrder) rfl)
    exact ⟨Host.Move.trans_same spends (undone rfl), cause, rfl⟩
  | @made _ start _ claims makes =>
    have spends := of_run claims (claimAddress_run env creates inOrder)
    have startInOrder := spends.inOrder inOrder
    obtain ⟨extend, _⟩ := of_run makes (makeAccount_run message _ startInOrder rfl)
    exact ⟨rfl, start, spends, extend.inOrder startInOrder, ⟨rfl, extend, rfl⟩,
      makeAccount_alike startInOrder makes⟩

theorem enter_opens {message : Message} {kind : MessageKind} {pc : Nat} {opening : Opening}
    (inOrder : host.InOrder) (enters : enter env message kind pc host = .ok opening after) :
    Opens env.fork message host opening after := by
  cases creates : message.isCreation with
  | true =>
    obtain ⟨told, announces, runs | opens⟩ := enter_creation_ok creates enters
    all_goals
      obtain ⟨_, quiet⟩ := of_run_value announces (announce_run env message kind host)
    · obtain ⟨result, between, begins, exits, rfl⟩ := runs
      obtain ⟨spends, cause, rfl⟩ := beginCreate_opens creates (quiet.inOrder inOrder) begins
      obtain ⟨_, move⟩ := of_run_value exits
        (exit_run env message.depth (.faulted message cause) between)
      refine ⟨?_, silent_faulted message cause, fun _ => rfl⟩
      rw [move.view_eq, (Host.Spends.of_same quiet spends).view_eq]
    · obtain ⟨created, deployment, between, begins, opens⟩ := opens
      obtain ⟨same, start, spends, openedInOrder, anchors, alike⟩ :=
        beginCreate_opens creates (quiet.inOrder inOrder) begins
      exact openFrame_opens (.of_same quiet spends) same (by simp [creates]) anchors alike
        openedInOrder opens
  | false =>
    obtain ⟨told, announces, runs | opens⟩ := enter_call_ok creates enters
    all_goals
      obtain ⟨_, quiet⟩ := of_run_value announces (announce_run env message kind host)
      have spends : host.Spends env.fork message told := (Host.spends_call creates).mpr quiet
    · obtain ⟨contract, result, ran, runs, exits, rfl⟩ := runs
      obtain ⟨move, _⟩ := runPrecompile_moves runs
      obtain ⟨_, move'⟩ := of_run_value exits (exit_run env message.depth result ran)
      refine ⟨by rw [move'.view_eq, move.view_eq, spends.view_eq], runPrecompile_silent runs, ?_⟩
      simp [creates]
    · exact openFrame_opens spends rfl (by simp [creates]) ⟨rfl, .refl told, rfl⟩ (.refl _)
        (quiet.inOrder inOrder) opens

/-- A frame that succeeds leaves what it has done, and the code of the contract that it makes. -/
theorem conclude_view {ended result : Result} {start opened : Host σ}
    (anchors : Anchors context start opened) (extend : opened.Extends host)
    (inOrder : opened.InOrder) (success : result.isSuccess)
    (concludes : conclude env context ended host = .ok result after) :
    ended.isSuccess ∧ after.view =
      match context.deployment with
      | none => host.view
      | some deployment => host.view.deploy deployment.address ended.output := by
  obtain ⟨settled, settles, extend', kept, _⟩ := settle_run ended extend inOrder
  rw [← anchors.checkpoint_eq] at settles
  unfold conclude at concludes
  rw [bind_of_ok settles] at concludes
  obtain ⟨given, answered, answers, exits⟩ := bind_eq_ok.mp concludes
  obtain ⟨rfl, move⟩ := of_run_value exits (exit_run env context.message.depth given answered)
  rw [move.view_eq]
  obtain ⟨found, rfl, rfl⟩ | ⟨deployment, found, answers⟩ := deployFor_ok answers
  · rw [found, kept success]
    exact ⟨success, rfl⟩
  · obtain ⟨succeeded, _, _, stored⟩ := Law.deploy_view (extend'.inOrder inOrder) answers success
    rw [found, stored, kept succeeded]
    exact ⟨succeeded, rfl⟩

theorem conclude_alike {ended result : Result} {start opened : Host σ}
    (anchors : Anchors context start opened) (extend : opened.Extends host)
    (inOrder : opened.InOrder) (success : result.isSuccess)
    (concludes : conclude env context ended host = .ok result after) :
    ended.isSuccess ∧ host.view.Alike after.view := by
  obtain ⟨succeeded, left⟩ := conclude_view anchors extend inOrder success concludes
  rw [left]
  refine ⟨succeeded, ?_⟩
  cases context.deployment with
  | none => exact .refl _
  | some deployment => exact ⟨rfl, rfl, rfl⟩

end Execution

end Evm
