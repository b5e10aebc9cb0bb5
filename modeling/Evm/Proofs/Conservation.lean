import Evm.Proofs.Recursion

/-!
# Gas is conserved

No frame spends more than it was given, and a nested message hands back exactly what it did not
spend. What a call or a creation costs its frame is its price, the growth of memory and what the
nested message spent, less the stipend.
-/

namespace Evm

open Instruction

variable {σ : Type} {env : Environment σ} {context : Context} {frame left : Frame} {host : Host σ}

theorem execute_of_step {operation : Operation} {control : Control} {after : Host σ}
    (runs : context.operation? env.fork frame = some operation)
    (steps : step env context frame host = .ok (control, left) after) :
    ∃ instruction made between,
      execute env context instruction operation frame host = .ok (made, left) between ∧
      (control = made ∨ ∃ nested step, made = .call nested ∧
        control = .call { nested with resumption := { nested.resumption with step } }) := by
  obtain ⟨missing, _⟩ | ⟨instruction, found, made, between, same, executes, reports⟩ :=
    step_ok steps
  · simp [Context.operation?, missing] at runs
  rw [runs] at same
  cases same
  refine ⟨instruction, made, between, executes, ?_⟩
  obtain ⟨_, ⟨_, same⟩ | ⟨nested, step, asks, _, same⟩⟩ := report_ok reports
  · exact .inl same
  · exact .inr ⟨nested, step, asks, same⟩

theorem step_call {mode : CallMode} {control : Control} {after : Host σ} (sound : frame.gas.Sound)
    (inOrder : host.InOrder) (calls : context.operation? env.fork frame = some (.call mode))
    (steps : step env context frame host = .ok (control, left) after) :
    ∃ operands price, CallBill env.fork mode frame host operands price ∧
      CallPaid env.fork frame operands price left control := by
  obtain ⟨instruction, made, between, executes, same⟩ := execute_of_step calls steps
  obtain ⟨operands, price, bill, paid⟩ := (call_meets context mode sound inOrder).of_ok executes
  refine ⟨operands, price, bill, ?_⟩
  obtain rfl | ⟨nested, step, rfl, rfl⟩ := same
  · exact paid
  · exact paid

theorem step_create {salted : Bool} {control : Control} {after : Host σ} (sound : frame.gas.Sound)
    (inOrder : host.InOrder) (creates : context.operation? env.fork frame = some (.create salted))
    (steps : step env context frame host = .ok (control, left) after) :
    ∃ operands, (∃ popped, popCreate salted frame = .ok (operands, popped)) ∧
      CreatePaid env.fork salted frame operands left control := by
  obtain ⟨instruction, made, between, executes, same⟩ := execute_of_step creates steps
  obtain ⟨operands, _, pops, paid⟩ := (create_meets context salted sound inOrder).of_ok executes
  refine ⟨operands, pops, ?_⟩
  obtain rfl | ⟨nested, step, rfl, rfl⟩ := same
  · exact paid
  · exact paid

namespace Execution

/-- A frame goes on after an instruction: at once, or with the answer to the message that it
asked for, which has spent `spent`. -/
inductive GoesOn (env : Environment σ) (context : Context) (frame : Frame)
    (waiting : List Suspended) (host : Host σ) : Frame → Nat → Prop where
  | atOnce {left after} :
    step env context frame host = .ok (.next, left) after →
    GoesOn env context frame waiting host left 0
  | answered {nested left asked answer answered next resumed} :
    Interlude env context frame waiting host nested left asked answer answered next resumed →
    GoesOn env context frame waiting host next answer.gasUsed

section Answers

variable {ground : Ground σ} {waiting : List Suspended} {nested : NestedCall}
  {asked answered resumed : Host σ} {answer : Result} {next : Frame}

theorem Interlude.fair (holds : ground.Holds (.running context frame waiting) host)
    (interlude : Interlude env context frame waiting host nested left asked answer answered next
      resumed) :
    answer.Fair nested.message := by
  have costs : Asks frame nested left := step_costs holds.sound holds.inOrder interlude.asks
  have bounded := (backs_of_asks holds.limit_eq costs).gas_lt
  have extend := turn_extends holds.inOrder (turn_of_asks interlude.asks)
  obtain ⟨opening, opened, enters, passes⟩ := interlude.answers
  apply fair_of_passes (extend.inOrder holds.inOrder) bounded _ enters passes
  rintro _ ⟨⟩
  exact costs.gas_eq

/-- What comes back was set aside before, so nothing of it is cut off. -/
theorem Interlude.used_eq (holds : ground.Holds (.running context frame waiting) host)
    (interlude : Interlude env context frame waiting host nested left asked answer answered next
      resumed) :
    next.gas.used + nested.message.gasLimit = left.gas.used + answer.gasUsed := by
  have costs : Asks frame nested left := step_costs holds.sound holds.inOrder interlude.asks
  have gasUsed_le := (interlude.fair holds).gasUsed_le
  have given_lt := costs.given_lt
  have gas := resume_gas interlude.resumes
  have used : next.gas.used = left.gas.used - (nested.message.gasLimit - answer.gasUsed) := by
    rw [gas, ← costs.gas_eq]
    rfl
  omega

end Answers

theorem stipend_eq (fork : Fork) (value : Word) :
    stipend fork value = if value = 0 then 0 else 2300 := rfl

namespace GoesOn

variable {ground : Ground σ} {waiting : List Suspended} {next : Frame} {spent : Nat}

theorem call_used {mode : CallMode} (holds : ground.Holds (.running context frame waiting) host)
    (calls : context.operation? env.fork frame = some (.call mode))
    (goesOn : GoesOn env context frame waiting host next spent) :
    ∃ operands price, CallBill env.fork mode frame host operands price ∧
      next.gas.used + (if operands.value = 0 then 0 else 2300) =
        frame.gas.used + price + callExpansion env.fork frame.memory operands + spent := by
  cases goesOn with
  | atOnce steps =>
    obtain ⟨operands, price, bill, _, _, used_eq⟩ := step_call holds.sound holds.inOrder calls steps
    rw [stipend_eq] at used_eq
    exact ⟨operands, price, bill, used_eq⟩
  | answered interlude =>
    obtain ⟨operands, price, bill, granted, checkpoint, paid, given_eq, _⟩ :=
      step_call holds.sound holds.inOrder calls interlude.asks
    have paid_eq := paid.pays.used_eq
    have back_eq := interlude.used_eq holds
    rw [stipend_eq] at given_eq
    exact ⟨operands, price, bill, by omega⟩

theorem create_used {salted : Bool} (holds : ground.Holds (.running context frame waiting) host)
    (creates : context.operation? env.fork frame = some (.create salted))
    (goesOn : GoesOn env context frame waiting host next spent) :
    ∃ operands, (∃ popped, popCreate salted frame = .ok (operands, popped)) ∧
      next.gas.used = frame.gas.used + createPrice env.fork salted operands.code.2 +
        frame.memory.expansionPrice env.fork operands.code.1 operands.code.2 + spent := by
  cases goesOn with
  | atOnce steps =>
    obtain ⟨operands, pops, paid⟩ := step_create holds.sound holds.inOrder creates steps
    have paid_eq := Meter.Pays.used_eq paid
    exact ⟨operands, pops, by omega⟩
  | answered interlude =>
    obtain ⟨operands, pops, paid, _, _⟩ := step_create holds.sound holds.inOrder creates interlude.asks
    have paid_eq := Meter.Pays.used_eq paid
    have back_eq := interlude.used_eq holds
    exact ⟨operands, pops, by omega⟩

end GoesOn

/-- A frame that was not ended by a call or a creation goes on after it. -/
theorem Ground.Holds.goesOn {ground : Ground σ} {waiting : List Suspended} {control : Control}
    {after : Host σ} {operation : Operation}
    (holds : ground.Holds (.running context frame waiting) host)
    (runs : context.operation? env.fork frame = some operation)
    (asks : (∃ mode, operation = .call mode) ∨ ∃ salted, operation = .create salted)
    (steps : step env context frame host = .ok (control, left) after) :
    ∃ next spent, GoesOn env context frame waiting host next spent := by
  have settled : control = .next ∨ ∃ nested, control = .call nested := by
    obtain ⟨mode, rfl⟩ | ⟨salted, rfl⟩ := asks
    · obtain ⟨_, _, _, paid⟩ := step_call holds.sound holds.inOrder runs steps
      exact paid.next_or_call
    · obtain ⟨_, _, paid⟩ := step_create holds.sound holds.inOrder runs steps
      exact paid.next_or_call
  obtain rfl | ⟨nested, rfl⟩ := settled
  · exact ⟨left, 0, .atOnce steps⟩
  · obtain ⟨answer, answered, next, resumed, interlude⟩ := holds.interlude steps
    exact ⟨next, answer.gasUsed, .answered interlude⟩

/-- The gas of a message from outside, and of all the messages that it asks for. -/
structure Conserves (env : Environment σ) (message : Message) (pc : Nat) (host : Host σ) : Prop where
  /-- The frame that runs has spent no more than the gas of its message. -/
  frame : ∀ {context frame waiting reached},
    Reaches env message pc host (.running context frame waiting) reached →
    frame.gas.used ≤ frame.gas.limit ∧ frame.gas.limit = context.message.gasLimit
  waiting : ∀ {execution reached suspended},
    Reaches env message pc host execution reached → suspended ∈ execution.waitingFrames →
    suspended.frame.gas.used ≤ suspended.frame.gas.limit
  /-- The result is within the gas of the message, and a fault has spent all of it. -/
  result : ¬message.Overflows env.fork →
    ∃ result after, runMessage env message pc host = .ok result after ∧ result.Fair message
  answer : ∀ {context frame waiting reached nested left asked answer answered next resumed},
    Reaches env message pc host (.running context frame waiting) reached →
    Interlude env context frame waiting reached nested left asked answer answered next resumed →
    answer.Fair nested.message
  /-- A frame goes on after a call or a creation that does not fault. -/
  goesOn : ∀ {context frame waiting reached operation control left after},
    Reaches env message pc host (.running context frame waiting) reached →
    context.operation? env.fork frame = some operation →
    ((∃ mode, operation = .call mode) ∨ ∃ salted, operation = .create salted) →
    step env context frame reached = .ok (control, left) after →
    ∃ next spent, GoesOn env context frame waiting reached next spent
  call : ∀ {context frame waiting reached mode next spent},
    Reaches env message pc host (.running context frame waiting) reached →
    context.operation? env.fork frame = some (.call mode) →
    GoesOn env context frame waiting reached next spent →
    ∃ operands price, CallBill env.fork mode frame reached operands price ∧
      next.gas.used + (if operands.value = 0 then 0 else 2300) =
        frame.gas.used + price + callExpansion env.fork frame.memory operands + spent
  create : ∀ {context frame waiting reached salted next spent},
    Reaches env message pc host (.running context frame waiting) reached →
    context.operation? env.fork frame = some (.create salted) →
    GoesOn env context frame waiting reached next spent →
    ∃ operands, (∃ popped, popCreate salted frame = .ok (operands, popped)) ∧
      next.gas.used = frame.gas.used + createPrice env.fork salted operands.code.2 +
        frame.memory.expansionPrice env.fork operands.code.1 operands.code.2 + spent
  /-- What a nested message hands back is not cut off at zero, neither what it did not spend nor
  what its frame has spent without it. -/
  uncut : ∀ {result suspended waiting reached},
    Reaches env message pc host (.returning result (suspended :: waiting)) reached →
    result.gasUsed ≤ suspended.resumption.gas ∧
      suspended.resumption.gas - result.gasUsed ≤ suspended.frame.gas.used

theorem Reaches.sound_of_mem {message : Message} {pc : Nat} {execution : Execution}
    {reached : Host σ} {suspended : Suspended} (inOrder : host.InOrder)
    (bounded : message.gasLimit < machineLimit)
    (reaches : Reaches env message pc host execution reached)
    (waits : suspended ∈ execution.waitingFrames) : suspended.frame.gas.Sound := by
  obtain above | ⟨result, rfl⟩ := above_or_returned execution
  · obtain ⟨ground, outermost, holds⟩ := reaches.holds inOrder bounded above
    cases execution with
    | running context frame waiting => exact holds.metered.2.2.sound_of_mem outermost waits
    | returning result waiting =>
      obtain ⟨_, _, backed⟩ := holds.metered
      exact backed.sound_of_mem outermost waits
  · cases waits

theorem Reaches.uncut {message : Message} {pc : Nat} {result : Result} {suspended : Suspended}
    {waiting : List Suspended} {reached : Host σ} (inOrder : host.InOrder)
    (bounded : message.gasLimit < machineLimit)
    (reaches : Reaches env message pc host (.returning result (suspended :: waiting)) reached) :
    result.gasUsed ≤ suspended.resumption.gas ∧
      suspended.resumption.gas - result.gasUsed ≤ suspended.frame.gas.used := by
  obtain ⟨ground, outermost, holds⟩ :=
    reaches.holds inOrder bounded ⟨suspended, waiting, rfl, List.nil_suffix⟩
  obtain ⟨nested, fair, backed⟩ := holds.metered
  obtain ⟨backs, _⟩ := backed.uncons (outermost ▸ List.nil_suffix)
  have gasUsed_le := fair.gasUsed_le
  have gas_eq := backs.gas_eq
  have gas_le := backs.gas_le
  omega

end Execution

open Execution

/-- No gas is made or lost between the frames of a run, but for the stipend. -/
theorem runMessage_conserves (env : Environment σ) (message : Message) (pc : Nat) (host : Host σ)
    (inOrder : host.InOrder) (bounded : message.gasLimit < machineLimit) :
    Conserves env message pc host where
  frame reaches := by
    obtain ⟨ground, _, holds⟩ := reaches.holds inOrder bounded List.nil_suffix
    exact ⟨holds.sound.used_le, holds.limit_eq⟩
  waiting reaches waits := (reaches.sound_of_mem inOrder bounded waits).used_le
  result fits := by
    obtain ⟨result, after, runs⟩ := runMessage_run env message pc host inOrder bounded fits
    exact ⟨result, after, runs, (reaches_of_run runs).fair inOrder bounded⟩
  answer reaches interlude := by
    obtain ⟨ground, _, holds⟩ := reaches.holds inOrder bounded List.nil_suffix
    exact interlude.fair holds
  goesOn reaches runs asks steps := by
    obtain ⟨ground, _, holds⟩ := reaches.holds inOrder bounded List.nil_suffix
    exact holds.goesOn runs asks steps
  call reaches calls goesOn := by
    obtain ⟨ground, _, holds⟩ := reaches.holds inOrder bounded List.nil_suffix
    exact goesOn.call_used holds calls
  create reaches creates goesOn := by
    obtain ⟨ground, _, holds⟩ := reaches.holds inOrder bounded List.nil_suffix
    exact goesOn.create_used holds creates
  uncut reaches := reaches.uncut inOrder bounded

/-- The call of the contract costs its price, the memory for the copy, and what the contract has
spent. -/
theorem runMessage_conserves_copying : ∃ context frame waiting reached next spent,
    Reaches (.blank .byzantium) copyingMessage 0 (Host.start .empty ())
      (.running context frame waiting) reached ∧
      GoesOn (.blank .byzantium) context frame waiting reached next spent ∧
      frame.gas.used = 30 ∧ next.gas.used = 30 + 700 + 3 + spent := by
  have conserves := runMessage_conserves (.blank .byzantium) copyingMessage 0
    (Host.start .empty ()) World.empty_inOrder (by decide)
  -- After nine pushes and stores the frame comes to the call.
  have sees : seenAfter (.blank .byzantium) copyingMessage 0 9
      (fun context frame reached => (context.operation? .byzantium frame, frame.gas.used,
        ((step (.blank .byzantium) context frame).run' reached).isSome,
        (popCall .static frame).toOption.map fun popped =>
          (popped.1.value, callExpansion .byzantium frame.memory popped.1)))
      (Host.start .empty ()) = some (some (.call .static), 30, true, some (0, 3)) := by
    decide +kernel
  obtain ⟨context, frame, waiting, reached, reaches, seen⟩ := reaches_of_seenAfter 9 sees
  simp only [Prod.mk.injEq] at seen
  obtain ⟨calls, used, steps, operands⟩ := seen
  obtain ⟨⟨control, left⟩, steps⟩ := Option.isSome_iff_exists.mp steps
  obtain ⟨after, steps⟩ := run'_eq_some.mp steps
  obtain ⟨next, spent, goesOn⟩ := conserves.goesOn reaches calls (.inl ⟨_, rfl⟩) steps
  obtain ⟨taken, price, bill, paid⟩ := conserves.call reaches calls goesOn
  refine ⟨context, frame, waiting, reached, next, spent, reaches, goesOn, used, ?_⟩
  obtain ⟨popped, pops⟩ := bill.pops
  obtain ⟨priced, prices⟩ := bill.prices
  simp only [pops, Except.toOption, Option.map_some, Option.some.injEq, Prod.mk.injEq] at operands
  obtain ⟨free, grown⟩ := operands
  rw [free] at prices
  cases prices
  change callExpansion (Environment.blank .byzantium).fork frame.memory taken = 3 at grown
  rw [if_pos free, grown, used] at paid
  exact paid

end Evm
