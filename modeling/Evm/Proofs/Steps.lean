import Evm.Proofs.Evaluation
import Evm.Proofs.Recording

/-!
# Steps that went through

What was done by a step that ended without a fault: which operation it was, and where the nested
message comes from if the step asks for one.
-/

namespace Evm

open HostM

variable {σ α β : Type}

namespace InstructionM

variable {frame after : Frame} {host last : Host σ} {value : α}

theorem bind_ok {action : InstructionM σ β} {next : β → InstructionM σ α} :
    (action >>= next) frame host = .ok (value, after) last ↔
      ∃ middle between passed, action frame host = .ok (middle, between) passed ∧
        next middle between passed = .ok (value, after) last := by
  rw [bind_run]
  cases action frame host with
  | ok result passed =>
    constructor
    · intro runs
      exact ⟨result.1, result.2, passed, rfl, runs⟩
    · rintro ⟨_, _, _, ⟨⟩, runs⟩
      exact runs
  | error interrupt passed => simp

theorem lift_ok {action : FrameM α} :
    (liftM action : InstructionM σ α) frame host = .ok (value, after) last ↔
      action frame = .ok (value, after) ∧ host = last := by
  rw [lift_run]
  cases action frame <;> simp

theorem host_ok {action : HostM σ α} :
    InstructionM.host action frame host = .ok (value, after) last ↔
      action host = .ok value last ∧ frame = after := by
  simp only [InstructionM.host]
  cases action host with
  | ok found passed =>
    simp only [EStateM.Result.ok.injEq, Prod.mk.injEq]
    exact and_right_comm
  | error failure passed => simp

theorem done_ok {found : α} :
    (pure found : InstructionM σ α) frame host = .ok (value, after) last ↔
      found = value ∧ frame = after ∧ host = last := by
  show EStateM.Result.ok (found, frame) host = .ok (value, after) last ↔ _
  simp [and_assoc]

theorem current_ok {found : Frame} :
    (get : InstructionM σ Frame) frame host = .ok (found, after) last ↔
      frame = found ∧ frame = after ∧ host = last := by
  show EStateM.Result.ok (frame, frame) host = .ok (found, after) last ↔ _
  simp [and_assoc]

end InstructionM

namespace Instruction

open FrameM InstructionM

theorem jumpTo_ok {context : Context} {target : Word} {frame after : Frame} {control : Control}
    (runs : jumpTo context target frame = .ok (control, after)) :
    ∃ index, control = .jump index := by
  cases found : context.code.jump? target.toNat with
  | some index =>
    simp only [jumpTo, found] at runs
    cases runs
    exact ⟨index, rfl⟩
  | none =>
    simp only [jumpTo, found] at runs
    cases runs

theorem jump_ok {fork : Fork} {context : Context} {frame after : Frame} {control : Control}
    (runs : jump fork context frame = .ok (control, after)) : ∃ index, control = .jump index := by
  obtain ⟨_, _, _, runs⟩ := FrameM.bind_ok.mp runs
  obtain ⟨target, _, _, runs⟩ := FrameM.bind_ok.mp runs
  exact jumpTo_ok runs

theorem jumpIf_ok {fork : Fork} {context : Context} {frame after : Frame} {control : Control}
    (runs : jumpIf fork context frame = .ok (control, after)) :
    control = .next ∨ ∃ index, control = .jump index := by
  obtain ⟨_, _, _, runs⟩ := FrameM.bind_ok.mp runs
  obtain ⟨target, _, _, runs⟩ := FrameM.bind_ok.mp runs
  obtain ⟨condition, _, _, runs⟩ := FrameM.bind_ok.mp runs
  split at runs
  · cases runs
    exact .inl rfl
  · exact .inr (jumpTo_ok runs)

theorem finish_ok {fork : Fork} {control found : Control} {frame after : Frame}
    (runs : finish fork control frame = .ok (found, after)) : found = control := by
  obtain ⟨offset, _, _, runs⟩ := FrameM.bind_ok.mp runs
  obtain ⟨size, _, _, runs⟩ := FrameM.bind_ok.mp runs
  obtain ⟨range, _, _, runs⟩ := FrameM.bind_ok.mp runs
  obtain ⟨_, _, _, runs⟩ := FrameM.bind_ok.mp runs
  obtain ⟨output, _, _, runs⟩ := FrameM.bind_ok.mp runs
  obtain ⟨_, _, _, runs⟩ := FrameM.bind_ok.mp runs
  cases runs
  rfl

theorem call_ok {fork : Fork} {context : Context} {mode : CallMode} {frame after : Frame}
    {host last : Host σ} {nested : NestedCall}
    (runs : call fork context mode frame host = .ok (.call nested, after) last) :
    ∃ before, prepareCall fork context mode frame host = .ok (some nested, after) before ∧
      sendValue mode nested.message before = .ok () last := by
  obtain ⟨prepared, between, before, prepares, runs⟩ := InstructionM.bind_ok.mp runs
  cases prepared with
  | none => cases runs
  | some prepared =>
    obtain ⟨_, _, _, sends, runs⟩ := InstructionM.bind_ok.mp runs
    obtain ⟨sent, rfl⟩ := host_ok.mp sends
    obtain ⟨⟨⟩, rfl, rfl⟩ := done_ok.mp runs
    exact ⟨before, prepares, sent⟩

theorem faultIf_ok {condition : Prop} [Decidable condition] {cause : Exception}
    {frame after : Frame} (runs : faultIf condition cause frame = .ok ((), after)) :
    ¬ condition ∧ frame = after := by
  unfold faultIf at runs
  split at runs
  · cases runs
  · cases runs
    exact ⟨‹_›, rfl⟩

theorem readMemory_ok {offset size : Nat} {frame after : Frame} {bytes : Bytes}
    (runs : readMemory offset size frame = .ok (bytes, after)) : frame = after := by
  obtain ⟨_, _, ⟨⟩, runs⟩ := FrameM.bind_ok.mp runs
  cases found : frame.memory.read? offset size with
  | some read =>
    simp only [found, assured] at runs
    cases runs
    rfl
  | none =>
    simp only [found, assured] at runs
    cases runs

/-- The parts that a call is made of: its operands, its price, what was paid, and the message. Its
checkpoint is that of the host it was prepared on. -/
theorem prepareCall_made {fork : Fork} {context : Context} {mode : CallMode} {frame after : Frame}
    {host last : Host σ} {nested : NestedCall}
    (runs : prepareCall fork context mode frame host = .ok (some nested, after) last) :
    ∃ operands popped price priced gas data code,
      popCall mode frame = .ok (operands, popped) ∧
      ¬ (mode = .call ∧ operands.value ≠ 0 ∧ context.message.isStatic) ∧
      callPrice fork mode operands.target operands.value host = .ok price priced ∧
      payCall fork operands price popped = .ok (gas, after) ∧
      nested = ⟨callMessage context mode operands.target operands.value data code gas
          after.selfDestruct, .call mode,
        ⟨gas, .call operands.room.1 operands.room.2 last.journal.size, none⟩⟩ := by
  obtain ⟨operands, popped, _, pops, runs⟩ := InstructionM.bind_ok.mp runs
  obtain ⟨_, _, _, checks, runs⟩ := InstructionM.bind_ok.mp runs
  obtain ⟨price, _, priced, prices, runs⟩ := InstructionM.bind_ok.mp runs
  obtain ⟨gas, paid, _, pays, runs⟩ := InstructionM.bind_ok.mp runs
  obtain ⟨account, _, _, reads, runs⟩ := InstructionM.bind_ok.mp runs
  rw [lift_ok] at pops checks pays
  rw [host_ok] at prices reads
  obtain ⟨pops, rfl⟩ := pops
  obtain ⟨checks, rfl⟩ := checks
  obtain ⟨mutable, rfl⟩ := faultIf_ok checks
  obtain ⟨prices, rfl⟩ := prices
  obtain ⟨pays, rfl⟩ := pays
  obtain ⟨reads, rfl⟩ := reads
  split at runs
  · obtain ⟨_, _, _, _, runs⟩ := InstructionM.bind_ok.mp runs
    cases runs
  · obtain ⟨data, _, _, loads, runs⟩ := InstructionM.bind_ok.mp runs
    obtain ⟨code, _, _, fetches, runs⟩ := InstructionM.bind_ok.mp runs
    obtain ⟨checkpoint, _, _, takes, runs⟩ := InstructionM.bind_ok.mp runs
    obtain ⟨_, _, _, looks, runs⟩ := InstructionM.bind_ok.mp runs
    rw [lift_ok] at loads
    rw [host_ok] at fetches takes
    obtain ⟨loads, rfl⟩ := loads
    obtain rfl := readMemory_ok loads
    obtain ⟨fetches, rfl⟩ := fetches
    obtain ⟨takes, rfl⟩ := takes
    obtain ⟨rfl, rfl, rfl⟩ := current_ok.mp looks
    cases takes
    cases runs
    exact ⟨operands, popped, price, priced, gas, data, code, pops, mutable, prices, pays, rfl⟩

theorem prepareCall_ok {fork : Fork} {context : Context} {mode : CallMode} {frame after : Frame}
    {host last : Host σ} {nested : NestedCall}
    (runs : prepareCall fork context mode frame host = .ok (some nested, after) last) :
    nested.kind = .call mode ∧ nested.message.isCreation = false ∧
      ∃ offset size, nested.resumption.receiver = .call offset size last.journal.size := by
  obtain ⟨_, _, _, _, _, _, _, _, _, _, _, rfl⟩ := prepareCall_made runs
  exact ⟨rfl, rfl, _, _, rfl⟩

theorem create_ok {fork : Fork} {context : Context} {salted : Bool} {frame after : Frame}
    {host last : Host σ} {nested : NestedCall} (inOrder : host.InOrder)
    (runs : create fork context salted frame host = .ok (.call nested, after) last) :
    nested.kind = .create salted ∧ nested.message.isCreation = true ∧
      nested.resumption.receiver = .create ∧ last = host := by
  obtain ⟨_, _, _, checks, runs⟩ := InstructionM.bind_ok.mp runs
  obtain ⟨operands, _, _, pops, runs⟩ := InstructionM.bind_ok.mp runs
  obtain ⟨code, _, _, pays, runs⟩ := InstructionM.bind_ok.mp runs
  obtain ⟨account, _, _, reads, runs⟩ := InstructionM.bind_ok.mp runs
  obtain ⟨_, rfl⟩ := lift_ok.mp checks
  obtain ⟨_, rfl⟩ := lift_ok.mp pops
  obtain ⟨_, rfl⟩ := lift_ok.mp pays
  obtain ⟨reads, _⟩ := host_ok.mp reads
  rw [Host.account_run inOrder] at reads
  cases reads
  split at runs
  · obtain ⟨_, _, _, _, runs⟩ := InstructionM.bind_ok.mp runs
    cases runs
  · obtain ⟨_, _, _, reads, runs⟩ := InstructionM.bind_ok.mp runs
    obtain ⟨_, _, rfl⟩ := current_ok.mp reads
    obtain ⟨_, _, _, pays, runs⟩ := InstructionM.bind_ok.mp runs
    obtain ⟨_, rfl⟩ := lift_ok.mp pays
    obtain ⟨_, _, _, reads, runs⟩ := InstructionM.bind_ok.mp runs
    obtain ⟨_, _, rfl⟩ := current_ok.mp reads
    cases runs
    exact ⟨rfl, rfl, rfl, rfl⟩

end Instruction

open InstructionM Instruction

theorem thenNext_ok {action : InstructionM σ Unit} {frame after : Frame} {host last : Host σ}
    {control : Control} (runs : thenNext action frame host = .ok (control, after) last) :
    control = .next := by
  obtain ⟨_, _, _, _, runs⟩ := InstructionM.bind_ok.mp runs
  cases runs
  rfl

theorem execute_asks {env : Environment σ} {context : Context} {instruction : Instruction}
    {operation : Operation} {frame after : Frame} {host last : Host σ} {nested : NestedCall}
    (runs : execute env context instruction operation frame host = .ok (.call nested, after) last) :
    (∃ mode, operation = .call mode ∧
      call env.fork context mode frame host = .ok (.call nested, after) last) ∨
    ∃ salted, operation = .create salted ∧
      create env.fork context salted frame host = .ok (.call nested, after) last := by
  cases operation with
  | call mode => exact .inl ⟨mode, rfl, runs⟩
  | create salted => exact .inr ⟨salted, rfl, runs⟩
  | stop => cases runs
  | jump =>
    obtain ⟨_, asks⟩ := jump_ok (lift_ok.mp runs).1
    cases asks
  | jumpIf =>
    obtain asks | ⟨_, asks⟩ := jumpIf_ok (lift_ok.mp runs).1
    · cases asks
    · cases asks
  | ret => cases finish_ok (lift_ok.mp runs).1
  | revert => cases finish_ok (lift_ok.mp runs).1
  | invalid => cases (lift_ok.mp runs).1
  | selfDestruct =>
    obtain ⟨_, _, _, _, runs⟩ := InstructionM.bind_ok.mp runs
    cases runs
  | _ => cases thenNext_ok runs

def Context.operation? (context : Context) (fork : Fork) (frame : Frame) : Option Operation :=
  (context.code.instructions[frame.index]?).bind fun instruction =>
    instruction.operation.filter (·.since ≤ fork)

theorem report_run (env : Environment σ) (context : Context) (instruction : Instruction)
    (operation : Operation) (used : Nat) (made : Control) (frame : Frame) (host : Host σ) :
    report env context instruction operation used made frame host =
      if env.tracer.enabled host.trace then
        reportStep env context ⟨instruction.offset, instruction.byte, operation.name, used⟩ made
          frame host
      else .ok (made, frame) host := by
  have looks : (getThe (Host σ) : InstructionM σ (Host σ)) frame host = .ok (host, frame) host := rfl
  unfold report
  rw [InstructionM.bind_run, looks]
  dsimp only
  by_cases enabled : env.tracer.enabled host.trace = true
  · rw [if_pos enabled, if_pos enabled]
  · rw [if_neg enabled, if_neg enabled]
    rfl

/-- Only the event of a nested call that the tracer waits for is left with the call. -/
theorem report_ok {env : Environment σ} {context : Context} {instruction : Instruction}
    {operation : Operation} {used : Nat} {made control : Control} {frame after : Frame}
    {host last : Host σ}
    (runs : report env context instruction operation used made frame host =
      .ok (control, after) last) :
    frame = after ∧
      ((∀ nested, made ≠ .call nested) ∧ control = made ∨
        ∃ nested step, made = .call nested ∧ last = host ∧
          control = .call { nested with resumption := { nested.resumption with step } }) := by
  rw [report_run] at runs
  split at runs
  · cases made with
    | call nested =>
      cases runs
      exact ⟨rfl, .inr ⟨nested, _, rfl, rfl, rfl⟩⟩
    | _ =>
      obtain ⟨_, _, _, reads, runs⟩ := InstructionM.bind_ok.mp runs
      obtain ⟨_, rfl, _⟩ := current_ok.mp reads
      obtain ⟨_, _, _, emits, runs⟩ := InstructionM.bind_ok.mp runs
      obtain ⟨_, rfl⟩ := host_ok.mp emits
      cases runs
      exact ⟨rfl, .inl ⟨by simp, rfl⟩⟩
  · cases runs
    cases made with
    | call nested => exact ⟨rfl, .inr ⟨nested, nested.resumption.step, rfl, rfl, rfl⟩⟩
    | _ => exact ⟨rfl, .inl ⟨by simp, rfl⟩⟩

theorem checkStack_ok {operation : Operation} {frame after : Frame}
    (runs : checkStack operation frame = .ok ((), after)) :
    frame = after ∧ operation.inputs ≤ frame.stack.size ∧
      frame.stack.size - operation.inputs + operation.outputs ≤ stackLimit := by
  obtain ⟨_, _, ⟨⟩, runs⟩ := FrameM.bind_ok.mp runs
  split at runs
  · cases runs
  · split at runs
    · cases runs
    · cases runs
      exact ⟨rfl, by omega, by omega⟩

/-- A step past the end of the code stops; any other applies the operation that is next. -/
theorem step_ok {env : Environment σ} {context : Context} {frame after : Frame}
    {host last : Host σ} {control : Control}
    (runs : step env context frame host = .ok (control, after) last) :
    context.code.instructions[frame.index]? = none ∧ control = .halt .stop ∨
    ∃ instruction operation made between,
      context.operation? env.fork frame = some operation ∧
      execute env context instruction operation frame host = .ok (made, after) between ∧
      report env context instruction operation frame.gas.used made after between =
        .ok (control, after) last := by
  obtain ⟨_, _, _, reads, fetches⟩ := InstructionM.bind_ok.mp runs
  obtain ⟨rfl, rfl, rfl⟩ := current_ok.mp reads
  cases fetched : context.code.instructions[frame.index]? with
  | none =>
    simp only [fetched] at fetches
    cases fetches
    exact .inl ⟨rfl, rfl⟩
  | some instruction =>
    simp only [fetched] at fetches
    cases enabled : instruction.operation.filter (·.since ≤ env.fork) with
    | none =>
      simp only [enabled] at fetches
      cases (lift_ok.mp fetches).1
    | some operation =>
      simp only [enabled] at fetches
      obtain ⟨_, _, _, checks, measures⟩ := InstructionM.bind_ok.mp fetches
      obtain ⟨checked, rfl⟩ := lift_ok.mp checks
      obtain ⟨rfl, _⟩ := checkStack_ok checked
      obtain ⟨_, _, _, reads', rest⟩ := InstructionM.bind_ok.mp measures
      obtain ⟨rfl, rfl, rfl⟩ := current_ok.mp reads'
      obtain ⟨made, between, passed, executes, reports⟩ := InstructionM.bind_ok.mp rest
      obtain ⟨rfl, _⟩ := report_ok reports
      refine .inr ⟨instruction, operation, made, passed, ?_, executes, reports⟩
      simp [Context.operation?, fetched, enabled]

namespace Execution

theorem turn_keeps {env : Environment σ} {context : Context} {frame : Frame} {host after : Host σ}
    {made : Turn} {kept : Frame → Prop} {order : Host σ → Host σ → Prop}
    (keeps : (step env context).Keeps kept order) (holds : kept frame)
    (turns : turn env context frame host = .ok made after) : order host after := by
  have found := keeps frame holds host
  unfold turn at turns
  cases steps : step env context frame host with
  | ok stepped last =>
    simp only [steps] at found turns
    obtain ⟨control, next⟩ := stepped
    cases control <;> cases turns <;> exact found.2
  | error interrupt last =>
    simp only [steps] at found turns
    cases interrupt <;> cases turns
    exact found

theorem turn_extends {env : Environment σ} {context : Context} {frame : Frame}
    {host after : Host σ} {made : Turn} (inOrder : host.InOrder)
    (turns : turn env context frame host = .ok made after) : host.Extends after :=
  turn_keeps (step_notes env context) trivial turns inOrder

theorem turn_asks {env : Environment σ} {context : Context} {frame asking : Frame}
    {host last : Host σ} {nested : NestedCall}
    (turns : turn env context frame host = .ok (.ask nested asking) last) :
    ∃ made after,
      nested = { made with resumption := { made.resumption with step := nested.resumption.step } } ∧
      asking = { after with index := after.index + 1 } ∧
      ((∃ mode, context.operation? env.fork frame = some (.call mode) ∧
          call env.fork context mode frame host = .ok (.call made, after) last) ∨
        ∃ salted, context.operation? env.fork frame = some (.create salted) ∧
          create env.fork context salted frame host = .ok (.call made, after) last) := by
  unfold turn at turns
  cases steps : step env context frame host with
  | error interrupt between =>
    simp only [steps] at turns
    cases interrupt <;> cases turns
  | ok stepped between =>
    obtain ⟨control, after⟩ := stepped
    simp only [steps] at turns
    cases control with
    | call asked =>
      cases turns
      obtain ⟨_, ends⟩ | ⟨instruction, operation, made, passed, next, executes, reports⟩ :=
        step_ok steps
      · cases ends
      obtain ⟨_, ⟨other, same⟩ | ⟨prepared, pending, rfl, rfl, same⟩⟩ := report_ok reports
      · exact absurd same.symm (other nested)
      cases same
      refine ⟨prepared, after, rfl, rfl, ?_⟩
      obtain ⟨mode, rfl, calls⟩ | ⟨salted, rfl, creates⟩ := execute_asks executes
      · exact .inl ⟨mode, next, calls⟩
      · exact .inr ⟨salted, next, creates⟩
    | _ => cases turns

end Execution

end Evm
