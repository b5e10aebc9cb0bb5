import Evm.Proofs.Passages
import Evm.Proofs.Recall

/-!
# Touches

What is warm after an instruction is what was warm before it, and what the instruction touches. An
access costs what it costs by whether it finds the address or the slot warm.
-/

namespace Evm

variable {σ : Type}

inductive Touch where
  | address (address : Address)
  | slot (place : Address × Word)
  deriving DecidableEq

/-- What an access touches; without access lists nothing is touched. -/
def Fork.touched (fork : Fork) (touch : Touch) : List Touch :=
  if fork.hasAccessLists then [touch] else []

namespace View

variable {first second third : View} {early late touches : List Touch}

def warm (view : View) : Touch → Bool
  | .address address => view.isWarm address
  | .slot place => view.isWarmSlot place

/-- What is warm later is what was warm before, and what was touched in between. -/
def Adds (view : View) (touches : List Touch) (after : View) : Prop :=
  ∀ touch, after.warm touch ↔ view.warm touch ∨ touch ∈ touches

namespace Adds

theorem refl (view : View) : view.Adds [] view := fun touch => by simp

theorem trans (one : first.Adds early second) (two : second.Adds late third) :
    first.Adds (early ++ late) third := by
  intro touch
  rw [two touch, one touch, List.mem_append, or_assoc]

theorem of_alike (alike : first.Alike second) : first.Adds [] second := by
  intro touch
  cases touch with
  | address address => simp [warm, alike.isWarm_eq]
  | slot place => simp [warm, alike.isWarmSlot_eq]

theorem alike (adds : first.Adds touches second) (alike : second.Alike third) :
    first.Adds touches third := by
  have whole := adds.trans (of_alike alike)
  rwa [List.append_nil] at whole

end Adds

theorem touch_adds (view : View) (fork : Fork) (address : Address) :
    view.Adds (fork.touched (.address address)) (view.touch fork address) := by
  unfold touch Fork.touched
  split
  · intro touch
    cases touch with
    | address other => by_cases same : other = address <;> simp [warm, setWarm, same]
    | slot place => simp [warm, setWarm]
  · exact .refl view

theorem touchSlot_adds (view : View) (fork : Fork) (place : Address × Word) :
    view.Adds (fork.touched (.slot place)) (view.touchSlot fork place) := by
  unfold touchSlot Fork.touched
  split
  · intro touch
    cases touch with
    | address address => simp [warm, setWarmSlot]
    | slot other => by_cases same : other = place <;> simp [warm, setWarmSlot, same]
  · exact .refl view

def claimed (view : View) (message : Message) (fork : Fork) : List Touch :=
  if view.HasNonce message then fork.touched (.address (view.nextAddress message)) else []

theorem claimed_adds (view : View) (message : Message) (fork : Fork) :
    view.Adds (view.claimed message fork) (view.afterFailure message fork) := by
  unfold claimed afterFailure
  split
  · have taken : view.Adds [] (view.nonceTaken message) := .of_alike (.setAccount _ _)
    exact taken.trans (touch_adds _ fork _)
  · exact .refl view

end View

def Operation.touches (operation : Operation) (fork : Fork) (context : Context) (frame : Frame) :
    List Touch :=
  match operation with
  | .inspect _ | .externalCodeCopy | .selfDestruct => fork.touched (.address (frame.address 0))
  | .call _ => fork.touched (.address (frame.address 1))
  | .storageLoad | .storageStore => fork.touched (.slot (frame.place context))
  | _ => []

def Context.touches (context : Context) (fork : Fork) (frame : Frame) : List Touch :=
  match context.operation? fork frame with
  | some operation => operation.touches fork context frame
  | none => []

theorem Operation.deed_adds (operation : Operation) (fork : Fork) (context : Context)
    (frame : Frame) (view : View) :
    view.Adds (operation.touches fork context frame) (operation.deed fork context frame view) := by
  cases operation with
  | inspect what => exact view.touch_adds fork _
  | externalCodeCopy => exact view.touch_adds fork _
  | selfDestruct => exact view.touch_adds fork _
  | call mode => exact view.touch_adds fork _
  | storageLoad => exact view.touchSlot_adds fork _
  | storageStore =>
    intro touch
    have touched := view.touchSlot_adds fork (frame.place context) touch
    cases touch <;> exact touched
  | _ => exact .refl view

theorem Context.deed_adds (context : Context) (fork : Fork) (frame : Frame) (view : View) :
    view.Adds (context.touches fork frame) (context.deed fork frame view) := by
  cases found : context.operation? fork frame with
  | some operation =>
    simp only [touches, deed, found]
    exact operation.deed_adds fork context frame view
  | none =>
    simp only [touches, deed, found]
    exact .refl view

namespace Operation

open Instruction

def coldFee (fork : Fork) : Operation → Nat
  | .inspect _ | .externalCodeCopy | .selfDestruct | .call _ => fork.fee .coldAccountAccess
  | .storageLoad | .storageStore => fork.fee .coldSload
  | _ => 0

def warmFee (fork : Fork) : Operation → Nat
  | .inspect _ | .externalCodeCopy | .call _ | .storageLoad => fork.fee .warmAccess
  | _ => 0

/-- What an operation was charged, by the part that is for its access. A call has also set aside what
the nested message is given, less the stipend. -/
def Charged (fork : Fork) (context : Context) (frame left : Frame) (host : Host σ)
    (given access : Nat) : Operation → Prop
  | .inspect what => left.gas.used = frame.gas.used + (fork.fee (inspectionFee what) + access)
  | .externalCodeCopy => ∃ range,
    Memory.region? (frame.operand 1) (frame.operand 3) = some range ∧
      left.gas.used = frame.gas.used + (copyPrice fork .extCodeCopy range.2 + access +
        frame.memory.expansionPrice fork range.1 range.2)
  | .storageLoad => left.gas.used = frame.gas.used + (fork.fee .sload + access)
  | .storageStore =>
    let place := frame.place context
    left.gas.used = frame.gas.used +
      ((storePrice fork (host.store.first place) (host.view.slot place) (frame.operand 1)).gas +
        access)
  | .selfDestruct =>
    left.gas.used = frame.gas.used + (fork.fee .selfDestruct +
      (if (host.view.account context.self).balance ≠ 0 ∧
          (host.view.account (frame.address 0)).isEmpty then fork.fee .newAccount else 0) + access)
  | .call mode => ∃ operands popped, popCall mode frame = .ok (operands, popped) ∧
    left.gas.used + stipend fork operands.value = frame.gas.used +
      (fork.fee .call + access +
        valuePrice fork mode operands.value (host.view.account (frame.address 1))) +
      callExpansion fork frame.memory operands + given
  | _ => True

variable {fork : Fork} {context : Context} {frame : Frame} {operation : Operation} {touch : Touch}

theorem coldFee_ne_warmFee (lists : fork.hasAccessLists)
    (touches : touch ∈ operation.touches fork context frame) :
    operation.coldFee fork ≠ operation.warmFee fork := by
  have late : .berlin ≤ fork := by simpa [Fork.hasAccessLists] using lists
  cases operation <;>
    simp_all [Operation.touches, coldFee, warmFee, Fork.fee, Fork.change]

end Operation

theorem Fork.surcharge_listed {fork : Fork} (lists : fork.hasAccessLists) (isWarm : Bool)
    (cold : Fee) (warm : Nat) :
    fork.surcharge isWarm cold warm = if isWarm then warm else fork.fee cold := if_pos lists

section Charges

open Instruction

variable {env : Environment σ} {context : Context} {frame left : Frame} {host last : Host σ}
  {operation : Operation} {touch : Touch}

theorem Instruction.CallPaid.used_eq {fork : Fork} {operands : CallOperands} {price : Nat}
    {control : Control} (paid : CallPaid fork frame operands price left control) :
    left.gas.used + stipend fork operands.value = frame.gas.used + price +
      callExpansion fork frame.memory operands + control.given := by
  obtain rfl | ⟨nested, rfl⟩ := paid.next_or_call
  · exact paid.2.2
  · obtain ⟨granted, _, pays, given, _, _⟩ := paid
    rw [pays.pays.used_eq, Control.given, given]
    omega

theorem execute_charged {instruction : Instruction} {control : Control}
    (lists : env.fork.hasAccessLists) (inOrder : host.InOrder) (sound : frame.gas.Sound)
    (touches : touch ∈ operation.touches env.fork context frame)
    (runs : execute env context instruction operation frame host = .ok (control, left) last) :
    operation.Charged env.fork context frame left host control.given
      (if host.view.warm touch then operation.warmFee env.fork else operation.coldFee env.fork) := by
  have listed := fun isWarm cold warm => Fork.surcharge_listed lists isWarm cold warm
  cases operation with
  | inspect what =>
    obtain rfl : touch = _ := by simpa [Operation.touches, Fork.touched, lists] using touches
    have access := inspect_ok inOrder (thenNext_done runs)
    rw [listed] at access
    exact access.used_eq
  | externalCodeCopy =>
    obtain rfl : touch = _ := by simpa [Operation.touches, Fork.touched, lists] using touches
    obtain ⟨range, names, access⟩ := externalCodeCopy_ok inOrder (thenNext_done runs)
    rw [listed] at access
    exact ⟨range, names, access.used_eq⟩
  | storageLoad =>
    obtain rfl : touch = _ := by simpa [Operation.touches, Fork.touched, lists] using touches
    have access := storageLoad_ok inOrder (thenNext_done runs)
    rw [listed] at access
    exact access.used_eq
  | storageStore =>
    obtain rfl : touch = _ := by simpa [Operation.touches, Fork.touched, lists] using touches
    obtain ⟨_, read, _, reads, remembers, stored⟩ :=
      storageStore_ok inOrder (thenNext_done runs)
    have recalls := Host.recalls_of_run
      (HostM.Mirrors.slot Store.matching_recalls context.self (frame.operand 0)) rfl reads
    obtain rfl := Host.initialSlot_recalls recalls remembers
    have used := stored.used_eq
    rw [listed] at used
    exact used
  | selfDestruct =>
    obtain rfl : touch = _ := by simpa [Operation.touches, Fork.touched, lists] using touches
    obtain ⟨_, _, _, destroys, runs⟩ := InstructionM.bind_ok.mp runs
    cases runs
    have used := (selfDestruct_ok inOrder destroys).used_eq
    rw [listed] at used
    exact used
  | call mode =>
    obtain rfl : touch = _ := by simpa [Operation.touches, Fork.touched, lists] using touches
    obtain ⟨operands, price, bill, paid⟩ := (call_meets context mode sound inOrder).of_ok runs
    obtain ⟨popped, pops⟩ := bill.pops
    obtain ⟨_, prices⟩ := bill.prices
    obtain ⟨rfl, _⟩ := callPrice_shows inOrder prices
    have used := paid.used_eq
    rw [popCall_target pops, listed] at used
    exact ⟨operands, popped, pops, used⟩
  | _ => simp [Operation.touches] at touches

/-- What a step is charged for an access depends on whether it finds what it touches warm. -/
theorem step_charged {control : Control} (lists : env.fork.hasAccessLists)
    (inOrder : host.InOrder) (sound : frame.gas.Sound)
    (next : context.operation? env.fork frame = some operation)
    (touches : touch ∈ operation.touches env.fork context frame)
    (steps : step env context frame host = .ok (control, left) last) :
    operation.Charged env.fork context frame left host control.given
      (if host.view.warm touch then operation.warmFee env.fork else operation.coldFee env.fork) := by
  obtain ⟨past, _⟩ | ⟨instruction, _, made, between, next', executes, reports⟩ := step_ok steps
  · simp [Context.operation?, past] at next
  rw [next] at next'
  cases next'
  have charged := execute_charged lists inOrder sound touches executes
  obtain ⟨_, ⟨_, rfl⟩ | ⟨nested, step, rfl, _, rfl⟩⟩ := report_ok reports
  · exact charged
  · exact charged

end Charges

end Evm
