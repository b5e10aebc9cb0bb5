import Evm.Proofs.Calls

/-!
# Turns of a frame

What one instruction does to the gas of its frame, whichever instruction it is. A frame that goes
on has spent gas; one that asks for a nested message has spent more than it gave along; one that
ends stays within its limit.
-/

namespace Evm

open InstructionM Instruction
open FrameM.Meets (charge fault)

variable {σ : Type} {env : Environment σ} {context : Context} {frame : Frame} {host : Host σ}

/-- What a frame has spent when it asks for a nested message. -/
structure Asks (frame : Frame) (nested : NestedCall) (after : Frame) : Prop where
  limit_eq : after.gas.limit = frame.gas.limit
  sound : after.gas.Sound
  given_lt : frame.gas.used + nested.message.gasLimit < after.gas.used
  gas_eq : nested.resumption.gas = nested.message.gasLimit
  fits : ∀ result, Execution.Fits nested.resumption.receiver after result

theorem Asks.not_overflows {nested : NestedCall} {after : Frame} (asks : Asks frame nested after)
    (fork : Fork) : ¬nested.message.Overflows fork := by
  have given_lt := asks.given_lt
  have limit_lt := asks.sound.limit_lt
  have used_le := asks.sound.used_le
  exact Message.not_overflows_of_gasLimit (by omega)

def Control.Costs (frame after : Frame) : Control → Prop
  | .next | .jump _ => frame.gas.Spends 1 after.gas
  | .halt _ | .revert => frame.gas.Spends 0 after.gas
  | .call nested => Asks frame nested after

/-- What an instruction has set aside for the message that it asks for. -/
def Control.given : Control → Nat
  | .call nested => nested.message.gasLimit
  | .next | .jump _ | .halt _ | .revert => 0

theorem Control.Costs.limit_eq {control : Control} {after : Frame}
    (costs : control.Costs frame after) : after.gas.limit = frame.gas.limit := by
  cases control with
  | call nested => exact Asks.limit_eq costs
  | next => exact Meter.Spends.limit_eq costs
  | jump index => exact Meter.Spends.limit_eq costs
  | halt reason => exact Meter.Spends.limit_eq costs
  | revert => exact Meter.Spends.limit_eq costs

theorem thenNext_meets {action : InstructionM σ Unit} (costs : action.Costs 1 frame host) :
    (thenNext action).Meets frame host fun control after _ => control.Costs frame after :=
  .bind (.mono costs fun _ _ _ spends => .done spends)

theorem thenNext_lift {action : FrameM Unit} (costs : action.Costs 1 frame) :
    (thenNext (liftM action)).Meets frame host fun control after _ => control.Costs frame after :=
  thenNext_meets (.lift costs)

namespace Instruction

variable {fork : Fork}

theorem CallPaid.costs {mode : CallMode} {operands : CallOperands} {price : Nat} {after : Frame}
    {control : Control} (bill : CallBill fork mode frame host operands price)
    (paid : CallPaid fork frame operands price after control) : control.Costs frame after := by
  have stipend_lt := bill.bounded.stipend_lt
  obtain rfl | ⟨nested, rfl⟩ := paid.next_or_call
  · obtain ⟨limit_eq, sound, used_eq⟩ := paid
    exact ⟨limit_eq, by omega, sound⟩
  · obtain ⟨granted, checkpoint, pays, given, gas_eq, receiver⟩ := paid
    have used_eq := pays.pays.used_eq
    refine ⟨pays.pays.limit_eq, pays.pays.sound, by omega, gas_eq, ?_⟩
    intro result
    have room_le := pays.room_le
    rw [receiver]
    unfold Execution.Fits
    omega

theorem CreatePaid.costs {salted : Bool} {operands : CreateOperands} {after : Frame}
    {control : Control} (within : Memory.Within operands.code.1 operands.code.2)
    (paid : CreatePaid fork salted frame operands after control) : control.Costs frame after := by
  obtain ⟨least, _⟩ := createPrice_bounds fork salted within
  obtain rfl | ⟨nested, rfl⟩ := paid.next_or_call
  · have pays : frame.gas.Pays _ after.gas := paid
    exact pays.spends (by omega)
  · obtain ⟨pays, gas_eq, receiver⟩ := paid
    have used_eq := pays.used_eq
    refine ⟨pays.limit_eq, pays.sound, by omega, gas_eq, ?_⟩
    intro result
    rw [receiver]
    trivial

end Instruction

theorem execute_meets (env : Environment σ) (context : Context) (instruction : Instruction)
    {operation : Operation} (sound : frame.gas.Sound) (inOrder : host.InOrder)
    (deep : operation.inputs ≤ frame.stack.size) :
    (execute env context instruction operation).Meets frame host fun control after _ =>
      control.Costs frame after := by
  have stage := Stage.begin sound
  cases operation with
  | stop => exact .done (stage.spends (Nat.zero_le _))
  | unary op => exact thenNext_lift (unary_costs op sound)
  | binary op => exact thenNext_lift (binary_costs op sound)
  | ternary op => exact thenNext_lift (ternary_costs op sound)
  | keccak => exact thenNext_lift (keccak_costs sound)
  | query what => exact thenNext_lift (query_costs env context _ what sound)
  | lookup what => exact thenNext_lift (lookup_costs env context what sound)
  | inspect what => exact thenNext_meets (inspect_costs what sound inOrder)
  | selfBalance => exact thenNext_meets (selfBalance_costs context sound inOrder)
  | copy source => exact thenNext_lift (copy_costs _ sound)
  | externalCodeCopy => exact thenNext_meets (externalCodeCopy_costs sound inOrder)
  | returnDataCopy => exact thenNext_lift (returnDataCopy_costs sound)
  | pop =>
    refine thenNext_meets (.bind (.lift (charge stage (env.fork.fee_lt .base) fun _ stage => ?_)))
    refine .bind (.lift (.pop stage fun _ _ stage => ?_))
    exact .done (stage.spends (Nat.succ_pos _))
  | memoryLoad => exact thenNext_lift (memoryLoad_costs sound)
  | memoryStore => exact thenNext_lift (memoryStore_costs sound)
  | memoryStore8 => exact thenNext_lift (memoryStore8_costs sound)
  | memoryCopy => exact thenNext_lift (memoryCopy_costs sound)
  | storageLoad => exact thenNext_meets (storageLoad_costs context sound inOrder)
  | storageStore => exact thenNext_meets (storageStore_costs context sound inOrder)
  | transientLoad => exact thenNext_meets (transientLoad_costs context sound inOrder)
  | transientStore => exact thenNext_meets (transientStore_costs context sound inOrder)
  | jump =>
    refine .lift (.mono (jump_meets context sound) ?_)
    rintro control after ⟨⟨index, rfl⟩, spends⟩
    exact spends
  | jumpIf =>
    refine .lift (.mono (jumpIf_meets context sound) ?_)
    rintro control after ⟨rfl | ⟨index, rfl⟩, spends⟩ <;> exact spends
  | jumpDest =>
    refine thenNext_lift (charge stage (env.fork.fee_lt .jumpDest) fun _ stage => ?_)
    exact stage.spends (Nat.succ_pos _)
  | push width => exact thenNext_lift (pushArgument_costs width _ sound)
  | dup depth => exact thenNext_lift (dup_costs deep sound)
  | swap depth => exact thenNext_lift (swap_costs deep sound)
  | log topics => exact thenNext_lift (log_costs context topics sound)
  | create salted =>
    refine .mono (create_meets context salted sound inOrder) ?_
    rintro control after _ ⟨operands, within, _, paid⟩
    exact paid.costs within
  | call mode =>
    refine .mono (call_meets context mode sound inOrder) ?_
    rintro control after _ ⟨operands, price, bill, paid⟩
    exact paid.costs bill
  | ret =>
    refine .lift (.mono (finish_meets _ sound) ?_)
    rintro control after ⟨rfl, spends⟩
    exact spends
  | revert =>
    refine .lift (.mono (finish_meets _ sound) ?_)
    rintro control after ⟨rfl, spends⟩
    exact spends
  | invalid => exact .lift (fault _)
  | selfDestruct =>
    exact .bind (.mono (selfDestruct_costs context sound inOrder) fun _ _ _ spends => .done spends)

theorem checkStack_meets (operation : Operation) {post : Unit → Frame → Prop}
    (holds : operation.inputs ≤ frame.stack.size → post () frame) :
    (checkStack operation).Meets frame post := by
  refine .bind (.current ?_)
  dsimp only
  split
  · exact fault .stackUnderflow
  · split
    · exact fault .stackOverflow
    · exact .done (holds (Nat.not_lt.mp ‹_›))

theorem report_meets (env : Environment σ) (context : Context) (instruction : Instruction)
    (operation : Operation) (used : Nat) {control : Control} {start : Frame}
    (costs : control.Costs start frame) :
    (report env context instruction operation used control).Meets frame host
      fun found after _ => found.Costs start after := by
  refine .bind (.around ?_)
  split
  · cases control with
    | call nested =>
      exact .done ⟨costs.limit_eq, costs.sound, costs.given_lt, costs.gas_eq, costs.fits⟩
    | next => exact .bind (.current (.bind (.emit fun _ => .done costs)))
    | jump index => exact .bind (.current (.bind (.emit fun _ => .done costs)))
    | halt reason => exact .bind (.current (.bind (.emit fun _ => .done costs)))
    | revert => exact .bind (.current (.bind (.emit fun _ => .done costs)))
  · exact .done costs

theorem step_meets (env : Environment σ) (context : Context) (sound : frame.gas.Sound)
    (inOrder : host.InOrder) :
    (step env context).Meets frame host fun control after _ => control.Costs frame after := by
  refine .bind (.current ?_)
  split
  · exact .done ((Stage.begin sound).spends (Nat.zero_le _))
  split
  · exact .lift (fault _)
  · refine .bind (.lift (checkStack_meets _ fun deep => ?_))
    refine .bind (.current (.bind (.mono (execute_meets env context _ sound inOrder deep) ?_)))
    intro control after last costs
    exact report_meets env context _ _ _ costs

theorem step_costs {control : Control} {after : Frame} {last : Host σ} (sound : frame.gas.Sound)
    (inOrder : host.InOrder) (steps : step env context frame host = .ok (control, after) last) :
    control.Costs frame after :=
  (step_meets env context sound inOrder).of_ok steps

namespace Execution

def Turn.Costs (context : Context) (frame : Frame) : Turn → Prop
  | .goOn next => frame.gas.Spends 1 next.gas
  | .finish ended => frame.gas.used ≤ ended.gasUsed ∧ ended.Fair context.message
  | .ask nested asking => Asks frame nested asking

theorem fair_halted {after : Frame} (limit_eq : frame.gas.limit = context.message.gasLimit)
    (reason : Halt) (spends : frame.gas.Spends 0 after.gas) :
    (haltedResult after reason).Fair context.message := by
  have used_le := spends.sound.used_le
  have same := spends.limit_eq
  refine ⟨?_, ?_⟩
  · show after.gas.used ≤ _
    omega
  · rintro cause ⟨⟩

theorem fair_reverted {after : Frame} (limit_eq : frame.gas.limit = context.message.gasLimit)
    (spends : frame.gas.Spends 0 after.gas) :
    (revertedResult context.message after).Fair context.message := by
  have used_le := spends.sound.used_le
  have same := spends.limit_eq
  refine ⟨?_, ?_⟩
  · show after.gas.used ≤ _
    omega
  · rintro cause ⟨⟩

/-- Every frame can take its turn. -/
theorem turn_run (env : Environment σ) (sound : frame.gas.Sound)
    (limit_eq : frame.gas.limit = context.message.gasLimit) (inOrder : host.InOrder) :
    ∃ made after, turn env context frame host = .ok made after ∧ made.Costs context frame := by
  obtain ⟨control, after, last, steps, costs⟩ | ⟨cause, last, steps⟩ :=
    (step_meets env context sound inOrder).result
  · cases control with
    | next =>
      let next := { after with index := after.index + 1 }
      exact ⟨.goOn next, last, by simp only [turn, steps, next], costs⟩
    | jump index =>
      let next := { after with index }
      exact ⟨.goOn next, last, by simp only [turn, steps, next], costs⟩
    | halt reason =>
      refine ⟨.finish _, last, by simp only [turn, steps], ?_, fair_halted limit_eq reason costs⟩
      exact costs.used_ge
    | revert =>
      refine ⟨.finish _, last, by simp only [turn, steps], ?_, fair_reverted limit_eq costs⟩
      exact costs.used_ge
    | call nested =>
      refine ⟨.ask nested { after with index := after.index + 1 }, last,
        by simp only [turn, steps], ?_⟩
      exact ⟨costs.limit_eq, costs.sound, costs.given_lt, costs.gas_eq, costs.fits⟩
  · refine ⟨.finish _, last, by simp only [turn, steps], ?_, Result.fair_faulted _ cause⟩
    have used_le := sound.used_le
    show frame.gas.used ≤ context.message.gasLimit
    omega

end Execution

end Evm
