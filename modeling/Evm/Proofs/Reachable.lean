import Evm.Proofs.Progress

/-!
# Reachable states

The states that an execution passes through from the start of a message from outside. In each of
them every frame is within its gas, and the execution goes on from it to the result.
-/

namespace Evm

namespace Execution

variable {σ : Type} {env : Environment σ} {message : Message} {host : Host σ}

theorem holds_of_enter {kind : MessageKind} {pc : Nat} {context : Context} {frame : Frame}
    {opened : Host σ} (waiting : List Suspended) (inOrder : host.InOrder)
    (bounded : message.gasLimit < machineLimit)
    (hands : ∀ suspended ∈ waiting.head?, suspended.resumption.gas = message.gasLimit)
    (enters : enter env message kind pc host = .ok (.frame context frame) opened) :
    ∃ ground : Ground σ, ground.waiting = waiting ∧
      ground.context.message = { message with target := ground.context.message.target } ∧
      frame.gas = .ofLimit message.gasLimit ∧
      ground.Holds (.running context frame waiting) opened := by
  have started := started_of_enter inOrder enters
  obtain ⟨start, index, spends, anchors, same, rfl⟩ := started
  let ground : Ground σ := ⟨context, waiting, start, opened, anchors⟩
  have given_eq : context.message.gasLimit = message.gasLimit := by rw [same]
  have openedInOrder := anchors.extend.inOrder (spends.extends.inOrder inOrder)
  have backed : ground.Backed context.message waiting := by
    apply Ground.Backed.bottom
    intro suspended first
    rw [hands suspended first, given_eq]
  refine ⟨ground, rfl, same, ?_, ?_⟩
  · rw [← given_eq]
    rfl
  · rw [← given_eq] at bounded
    exact ⟨.running (.bottom (.refl opened)), openedInOrder, Meter.sound_ofLimit bounded, rfl,
      backed⟩

theorem fair_of_passes {kind : MessageKind} {pc : Nat} {opening : Opening} {answer : Result}
    {opened after : Host σ} {waiting : List Suspended} (inOrder : host.InOrder)
    (bounded : message.gasLimit < machineLimit)
    (hands : ∀ suspended ∈ waiting.head?, suspended.resumption.gas = message.gasLimit)
    (enters : enter env message kind pc host = .ok opening opened)
    (passes : Passes env waiting (ofOpening opening waiting) opened (.returning answer waiting) after) :
    answer.Fair message := by
  cases opening with
  | result result =>
    have started := started_of_enter inOrder enters
    obtain ⟨_, _, fair⟩ := started
    obtain ⟨same, _⟩ := passes.eq_of_returned
    cases same
    exact fair
  | frame context frame =>
    obtain ⟨ground, rfl, same, _, holds⟩ := holds_of_enter waiting inOrder bounded hands enters
    have fair := (holds.passes_keeps passes).fair
    rw [same] at fair
    exact fair.of_target

theorem message_answered (env : Environment σ) (kind : MessageKind) (pc : Nat)
    (waiting : List Suspended) (inOrder : host.InOrder) (bounded : message.gasLimit < machineLimit)
    (fits : ¬message.Overflows env.fork)
    (hands : ∀ suspended ∈ waiting.head?, suspended.resumption.gas = message.gasLimit) :
    ∃ opening opened answer after, enter env message kind pc host = .ok opening opened ∧
      Passes env waiting (ofOpening opening waiting) opened (.returning answer waiting) after := by
  obtain ⟨opening, opened, enters, _⟩ := enter_run env message kind pc inOrder fits
  cases opening with
  | result result => exact ⟨_, opened, result, opened, enters, .stay⟩
  | frame context frame =>
    obtain ⟨ground, rfl, _, _, holds⟩ := holds_of_enter waiting inOrder bounded hands enters
    obtain ⟨answer, after, passes⟩ := holds.ends env
    exact ⟨_, opened, answer, after, enters, passes⟩

def Reaches (env : Environment σ) (message : Message) (pc : Nat) (host : Host σ)
    (execution : Execution) (reached : Host σ) : Prop :=
  ∃ warmed opening opened, warmUp (warmFromStart env message) host = .ok () warmed ∧
    enter env message (topLevelKind message) pc warmed = .ok opening opened ∧
    Passes env [] (ofOpening opening []) opened execution reached

namespace Reaches

variable {pc : Nat} {execution : Execution} {reached : Host σ}

theorem started (inOrder : host.InOrder)
    (reaches : Reaches env message pc host execution reached) :
    ∃ warmed opening opened, warmed.InOrder ∧
      enter env message (topLevelKind message) pc warmed = .ok opening opened ∧
      Passes env [] (ofOpening opening []) opened execution reached := by
  obtain ⟨warmed, opening, opened, warms, enters, passes⟩ := reaches
  obtain ⟨_, warms', warmedInOrder⟩ := warmUp_run (warmFromStart env message) inOrder
  rw [warms] at warms'
  cases warms'
  exact ⟨warmed, opening, opened, warmedInOrder, enters, passes⟩

/-- A state with frames in it stands above the frame of the message from outside. -/
theorem grounded (inOrder : host.InOrder) (bounded : message.gasLimit < machineLimit)
    (reaches : Reaches env message pc host execution reached) (above : execution.Above []) :
    ∃ ground : Ground σ, ground.waiting = [] ∧
      ground.context.message = { message with target := ground.context.message.target } ∧
      ground.Holds execution reached := by
  obtain ⟨warmed, opening, opened, warmedInOrder, enters, passes⟩ := reaches.started inOrder
  cases opening with
  | result result =>
    obtain ⟨rfl, _⟩ := passes.eq_of_returned
    exact absurd rfl (above.unfinished result)
  | frame context frame =>
    obtain ⟨ground, outermost, same, _, holds⟩ :=
      holds_of_enter [] warmedInOrder bounded (by rintro _ ⟨⟩) enters
    rw [← outermost] at passes holds
    exact ⟨ground, outermost, same, holds.passes_keeps passes⟩

theorem holds (inOrder : host.InOrder) (bounded : message.gasLimit < machineLimit)
    (reaches : Reaches env message pc host execution reached) (above : execution.Above []) :
    ∃ ground : Ground σ, ground.waiting = [] ∧ ground.Holds execution reached := by
  obtain ⟨ground, outermost, _, holds⟩ := reaches.grounded inOrder bounded above
  exact ⟨ground, outermost, holds⟩

theorem used_le {context : Context} {frame : Frame} {waiting : List Suspended}
    (inOrder : host.InOrder) (bounded : message.gasLimit < machineLimit)
    (reaches : Reaches env message pc host (.running context frame waiting) reached) :
    frame.gas.used ≤ message.gasLimit := by
  obtain ⟨ground, _, same, holds⟩ := reaches.grounded inOrder bounded List.nil_suffix
  obtain ⟨sound, limit_eq, backed⟩ := holds.metered
  have given := backed.gasLimit_le
  rw [same] at given
  exact Nat.le_trans sound.used_le (limit_eq ▸ given)

theorem fair {result : Result} (inOrder : host.InOrder) (bounded : message.gasLimit < machineLimit)
    (reaches : Reaches env message pc host (.returning result []) reached) :
    result.Fair message := by
  obtain ⟨warmed, opening, opened, warmedInOrder, enters, passes⟩ := reaches.started inOrder
  exact fair_of_passes warmedInOrder bounded (by rintro _ ⟨⟩) enters passes

end Reaches

def advanceFor (env : Environment σ) : Nat → Execution → HostM σ Execution
  | 0, execution => return execution
  | moves + 1, execution => do
    let next ← advance env execution
    advanceFor env moves next

/-- The state of a run after so many moves. -/
def stateAfter (env : Environment σ) (message : Message) (pc moves : Nat) : HostM σ Execution := do
  warmUp (warmFromStart env message)
  let opening ← enter env message (topLevelKind message) pc
  advanceFor env moves (.ofOpening opening [])

theorem passes_iff_advanceFor {execution last : Execution} {after : Host σ} :
    Passes env [] execution host last after ↔
      ∃ moves, advanceFor env moves execution host = .ok last after := by
  constructor
  · intro passes
    induction passes with
    | stay => exact ⟨0, rfl⟩
    | move _ advances _ later =>
      obtain ⟨moves, runs⟩ := later
      refine ⟨moves + 1, ?_⟩
      rw [advanceFor, bind_of_ok advances, runs]
  · rintro ⟨moves, runs⟩
    induction moves generalizing execution host with
    | zero =>
      cases runs
      exact .stay
    | succ moves later =>
      obtain ⟨next, between, advances, runs⟩ := bind_eq_ok.mp runs
      obtain above | ⟨result, rfl⟩ := above_or_returned execution
      · exact .move above advances (later runs)
      · -- A result that no frame waits for stays what it is.
        cases advances
        exact later runs

theorem reaches_iff_stateAfter {pc : Nat} {execution : Execution} {reached : Host σ} :
    Reaches env message pc host execution reached ↔
      ∃ moves, stateAfter env message pc moves host = .ok execution reached := by
  constructor
  · rintro ⟨warmed, opening, opened, warms, enters, passes⟩
    obtain ⟨moves, runs⟩ := passes_iff_advanceFor.mp passes
    refine ⟨moves, ?_⟩
    rw [stateAfter, bind_of_ok warms, bind_of_ok enters, runs]
  · rintro ⟨moves, runs⟩
    obtain ⟨_, warmed, warms, runs⟩ := bind_eq_ok.mp runs
    obtain ⟨opening, opened, enters, runs⟩ := bind_eq_ok.mp runs
    exact ⟨warmed, opening, opened, warms, enters, passes_iff_advanceFor.mpr ⟨moves, runs⟩⟩

/-- What can be seen of the frame that runs after so many moves, if there is one. -/
def seenAfter {α : Type} (env : Environment σ) (message : Message) (pc moves : Nat)
    (see : Context → Frame → Host σ → α) (host : Host σ) : Option α :=
  match stateAfter env message pc moves host with
  | .ok (.running context frame _) reached => some (see context frame reached)
  | _ => none

theorem reaches_of_seenAfter {α : Type} {see : Context → Frame → Host σ → α} {seen : α} {pc : Nat}
    (moves : Nat) (sees : seenAfter env message pc moves see host = some seen) :
    ∃ context frame waiting reached,
      Reaches env message pc host (.running context frame waiting) reached ∧
        see context frame reached = seen := by
  unfold seenAfter at sees
  split at sees
  · exact ⟨_, _, _, _, reaches_iff_stateAfter.mpr ⟨moves, ‹_›⟩, Option.some.inj sees⟩
  · cases sees

theorem reaches_of_run {pc : Nat} {result : Result} {after : Host σ}
    (runs : runMessage env message pc host = .ok result after) :
    Reaches env message pc host (.returning result []) after := by
  obtain ⟨_, warmed, warms, runs⟩ := bind_eq_ok.mp runs
  obtain ⟨opening, opened, enters, runs⟩ := bind_eq_ok.mp runs
  exact ⟨warmed, opening, opened, warms, enters, passes_of_run runs⟩

/-- Every message from outside comes to a result that does not ask for more than a buffer can
hold. -/
theorem runMessage_run (env : Environment σ) (message : Message) (pc : Nat) (host : Host σ)
    (inOrder : host.InOrder) (bounded : message.gasLimit < machineLimit)
    (fits : ¬message.Overflows env.fork) :
    ∃ result after, runMessage env message pc host = .ok result after := by
  obtain ⟨warmed, warms, warmedInOrder⟩ := warmUp_run (warmFromStart env message) inOrder
  obtain ⟨opening, opened, enters, _⟩ :=
    enter_run env message (topLevelKind message) pc warmedInOrder fits
  unfold runMessage
  rw [bind_of_ok warms, bind_of_ok enters]
  cases opening with
  | result result => exact ⟨result, opened, run_returned _ result opened⟩
  | frame context frame =>
    obtain ⟨ground, outermost, _, gas, holds⟩ :=
      holds_of_enter [] warmedInOrder bounded (by rintro _ ⟨⟩) enters
    apply holds.runs env outermost
    simp [potential, gasLeft, waitingGas, gas, Meter.remaining, Meter.ofLimit, stepBound]

theorem run_of_reaches {pc : Nat} {result : Result} {after : Host σ} (inOrder : host.InOrder)
    (bounded : message.gasLimit < machineLimit)
    (reaches : Reaches env message pc host (.returning result []) after) :
    runMessage env message pc host = .ok result after := by
  obtain ⟨warmed, opening, opened, warms, enters, passes⟩ := reaches
  obtain ⟨found, last, runs⟩ := runMessage_run env message pc host inOrder bounded
    (not_overflows_of_enter enters)
  obtain ⟨_, _, _, warms', enters', passes'⟩ := reaches_of_run runs
  cases warms.symm.trans warms'
  cases enters.symm.trans enters'
  obtain ⟨rfl, rfl⟩ := passes.unique passes'
  exact runs

theorem run_of_answers {pc : Nat} {result : Result} {warmed after : Host σ} (inOrder : host.InOrder)
    (bounded : message.gasLimit < machineLimit)
    (warms : warmUp (warmFromStart env message) host = .ok () warmed)
    (answers : Answers env message (topLevelKind message) pc warmed result after) :
    runMessage env message pc host = .ok result after := by
  obtain ⟨opening, opened, enters, passes⟩ := (answers_iff_passes []).mp answers
  exact run_of_reaches inOrder bounded ⟨warmed, opening, opened, warms, enters, passes⟩

/-- A message for too large a buffer comes to nothing, and nothing is done to the world. -/
theorem runMessage_breach (env : Environment σ) {message : Message} (pc : Nat) (host : Host σ)
    (overflows : message.Overflows env.fork) :
    ∃ after, runMessage env message pc host = .error .breach after ∧ after.store = host.store ∧
      after.transient = host.transient := by
  let warmed : Host σ :=
    { host with warmAddresses := host.warmAddresses.insertMany (warmFromStart env message) }
  have warms : warmUp (warmFromStart env message) host = .ok () warmed := rfl
  obtain ⟨trace, fails⟩ := enter_breach env (topLevelKind message) pc warmed overflows
  refine ⟨{ warmed with trace }, ?_, rfl, rfl⟩
  unfold runMessage
  rw [bind_of_ok warms]
  simp only [bind, EStateM.bind, fails]

end Execution

end Evm
