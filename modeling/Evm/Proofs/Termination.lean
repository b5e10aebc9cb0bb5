import Evm.Proofs.Induction
import Evm.Proofs.Recursion

/-!
# Termination

Every message from outside comes to a result, unless it is for a power that no buffer can hold. The
gas that the frames hold, with what was given to a message that is about to be entered, is what its
execution runs out of.
-/

namespace Evm

def Control.isLast : Control → Bool
  | .halt _ | .revert => true
  | .next | .jump _ | .call _ => false

namespace Execution

variable {σ : Type} {env : Environment σ} {context : Context} {frame left : Frame}
  {waiting : List Suspended} {host : Host σ}

/-- An instruction that does not end its frame lowers the gas that is left, even with what it
gives to a message. -/
theorem gasLeft_step {control : Control} {after : Host σ} (sound : frame.gas.Sound)
    (inOrder : host.InOrder) (steps : step env context frame host = .ok (control, left) after)
    (goesOn : control.isLast = false) (waiting : List Suspended) :
    control.given + gasLeft (.running context left waiting) <
      gasLeft (.running context frame waiting) := by
  have costs := step_costs sound inOrder steps
  cases control with
  | next =>
    rw [Control.given, Nat.zero_add]
    exact gasLeft_goOn costs context waiting
  | jump index =>
    rw [Control.given, Nat.zero_add]
    exact gasLeft_goOn costs context waiting
  | call nested => exact gasLeft_ask costs context waiting
  | halt reason => cases goesOn
  | revert => cases goesOn

theorem turn_of_isLast {control : Control} {after : Host σ}
    (steps : step env context frame host = .ok (control, left) after)
    (last : control.isLast = true) :
    ∃ ended, turn env context frame host = .ok (.finish ended) after ∧
      ended.gasUsed = left.gas.used := by
  cases control with
  | halt reason => exact ⟨haltedResult left reason, by simp only [turn, steps], rfl⟩
  | revert => exact ⟨revertedResult context.message left, by simp only [turn, steps], rfl⟩
  | next => cases last
  | jump index => cases last
  | call nested => cases last

namespace Ground.Holds

variable {ground : Ground σ}

theorem gasLeft_ends {control : Control} {next : Execution} {turned after : Host σ}
    (holds : ground.Holds (.running context frame waiting) host)
    (steps : step env context frame host = .ok (control, left) turned)
    (last : control.isLast = true)
    (moves : advance env (.running context frame waiting) host = .ok next after) :
    gasLeft next ≤ gasLeft (.running context left waiting) := by
  obtain ⟨⟨rests⟩, inOrder, sound, limit_eq, backed⟩ := holds
  have costs := step_costs sound inOrder steps
  obtain ⟨ended, turns, spent⟩ := turn_of_isLast steps last
  obtain ⟨_, _, turns', made⟩ := turn_run env sound limit_eq inOrder
  rw [turns] at turns'
  cases turns'
  have fair : ended.Fair context.message := made.2
  have extend := turn_extends inOrder turns
  obtain ⟨result, _, concludes, _, _, keeps⟩ := (rests.extended extend).conclude_stands
    (extend.inOrder inOrder) fun _ _ => fair.gasUsed_le
  rw [advance_running, bind_of_ok turns, afterTurn, bind_of_ok concludes] at moves
  cases moves
  apply gasLeft_finish backed
  · exact costs.limit_eq.trans limit_eq
  · rw [← spent]
    exact (keeps fair).2

theorem gasLeft_enters {nested : NestedCall} {opening : Opening} {asked opened : Host σ}
    (holds : ground.Holds (.running context frame waiting) host)
    (asks : step env context frame host = .ok (.call nested, left) asked)
    (enters : enter env nested.message nested.kind 0 asked = .ok opening opened) :
    gasLeft (ofOpening opening (suspend context left nested :: waiting)) ≤
      nested.message.gasLimit + gasLeft (.running context left waiting) := by
  have costs : Asks frame nested left := step_costs holds.sound holds.inOrder asks
  have extend := turn_extends holds.inOrder (turn_of_asks asks)
  have started := started_of_enter (extend.inOrder holds.inOrder) enters
  exact gasLeft_enter started costs.gas_eq waiting

end Ground.Holds

def contexts : Execution → List Context
  | .running context _ waiting => context :: waiting.map (·.context)
  | .returning _ waiting => waiting.map (·.context)

def Within (limit : Nat) (execution : Execution) : Prop :=
  ∀ context ∈ execution.contexts, context.message.depth ≤ limit

theorem Within.opening {limit pc : Nat} {message : Message} {kind : MessageKind}
    {opening : Opening} {opened : Host σ}
    (enters : enter env message kind pc host = .ok opening opened) (depth_le : message.depth ≤ limit)
    (waits : ∀ suspended ∈ waiting, suspended.context.message.depth ≤ limit) :
    (ofOpening opening waiting).Within limit := by
  have below : ∀ context ∈ waiting.map (·.context), context.message.depth ≤ limit := by
    simpa using waits
  cases opening with
  | result result => exact below
  | frame context frame =>
    exact List.forall_mem_cons.mpr ⟨(start_of_enter enters).depth_eq ▸ depth_le, below⟩

theorem Within.advance {limit : Nat} {execution next : Execution} {after : Host σ}
    (within : execution.Within limit) (deep : depthLimit ≤ limit)
    (moves : Execution.advance env execution host = .ok next after) : next.Within limit := by
  cases moves_of_advance moves with
  | goOn => exact within
  | finish => exact (List.forall_mem_cons.mp within).2
  | ask turns enters =>
    refine .opening enters (Nat.le_trans (turn_depth turns).2 deep) ?_
    simpa [Within, contexts] using within
  | resume => exact within
  | rest => exact within

theorem Reaches.within {message : Message} {pc : Nat} {execution : Execution} {reached : Host σ}
    (reaches : Reaches env message pc host execution reached) :
    execution.Within (max message.depth depthLimit) := by
  refine reaches.always ?_ fun _ _ moves within => within.advance (Nat.le_max_right ..) moves
  intro _ opening opened _ enters
  exact .opening enters (Nat.le_max_left ..) (by simp)

theorem Reaches.depth_lt {message : Message} {pc : Nat} {execution : Execution} {reached : Host σ}
    (reaches : Reaches env message pc host execution reached)
    (depth_lt : message.depth + 1 < machineLimit) :
    ∀ context ∈ execution.contexts, context.message.depth + 1 < machineLimit := by
  intro context member
  have deep : depthLimit + 1 < machineLimit := by decide
  have within := reaches.within context member
  omega

/-- A message from outside comes to its result, and the gas that is left tells how. -/
structure Terminates (env : Environment σ) (message : Message) (pc : Nat) (host : Host σ) : Prop where
  ends : ¬message.Overflows env.fork →
    ∃ result after, runMessage env message pc host = .ok result after ∧
      Reaches env message pc host (.returning result []) after
  /-- One that asks for too large a buffer breaks the machine before anything is done to the world. -/
  breaks : message.Overflows env.fork →
    ∃ after, runMessage env message pc host = .error .breach after ∧ after.store = host.store ∧
      after.transient = host.transient
  depths : ∀ {execution reached}, Reaches env message pc host execution reached →
    ∀ context ∈ execution.contexts, context.message.depth + 1 < machineLimit
  /-- An instruction that does not end its frame lowers the gas that is left, even with what it
  gives to a message that is about to be entered. -/
  instruction : ∀ {context frame waiting reached control left after},
    Reaches env message pc host (.running context frame waiting) reached →
    step env context frame reached = .ok (control, left) after → control.isLast = false →
    control.given + gasLeft (.running context left waiting) <
      gasLeft (.running context frame waiting)
  entering : ∀ {context frame waiting reached nested left asked opening opened},
    Reaches env message pc host (.running context frame waiting) reached →
    step env context frame reached = .ok (.call nested, left) asked →
    enter env nested.message nested.kind 0 asked = .ok opening opened →
    gasLeft (ofOpening opening (suspend context left nested :: waiting)) ≤
      nested.message.gasLimit + gasLeft (.running context left waiting)
  finishing : ∀ {context frame waiting reached control left turned next after},
    Reaches env message pc host (.running context frame waiting) reached →
    step env context frame reached = .ok (control, left) turned → control.isLast = true →
    advance env (.running context frame waiting) reached = .ok next after →
    gasLeft next ≤ gasLeft (.running context left waiting)
  advancing : ∀ {execution reached next after},
    Reaches env message pc host execution reached →
    advance env execution reached = .ok next after → gasLeft next ≤ gasLeft execution

end Execution

open Execution

/-- A message from outside that fits the machine comes to a result, whatever its code does, if no
buffer is asked for that there cannot be. -/
theorem runMessage_terminates {σ : Type} (env : Environment σ) (message : Message) (pc : Nat)
    (host : Host σ) (inOrder : host.InOrder) (bounded : message.gasLimit < machineLimit)
    (depth_lt : message.depth + 1 < machineLimit) : Terminates env message pc host where
  ends fits := by
    obtain ⟨result, after, runs⟩ := runMessage_run env message pc host inOrder bounded fits
    exact ⟨result, after, runs, reaches_of_run runs⟩
  breaks := runMessage_breach env pc host
  depths reaches := reaches.depth_lt depth_lt
  instruction reaches steps goesOn := by
    obtain ⟨ground, _, holds⟩ := reaches.holds inOrder bounded List.nil_suffix
    exact gasLeft_step holds.sound holds.inOrder steps goesOn _
  entering reaches asks enters := by
    obtain ⟨ground, _, holds⟩ := reaches.holds inOrder bounded List.nil_suffix
    exact holds.gasLeft_enters asks enters
  finishing reaches steps last moves := by
    obtain ⟨ground, _, holds⟩ := reaches.holds inOrder bounded List.nil_suffix
    exact holds.gasLeft_ends steps last moves
  advancing := by
    intro execution reached next after reaches moves
    obtain above | ⟨result, rfl⟩ := above_or_returned execution
    · obtain ⟨ground, outermost, holds⟩ := reaches.holds inOrder bounded above
      rw [← outermost] at above
      exact (holds.descends above moves).gasLeft_le
    · cases moves
      exact Nat.le_refl _

/-- Code that jumps to its own start for ever. -/
def loopingMessage : Message :=
  { Message.blank with
    target := some 0xaa, gasLimit := 100, code := #[0x5b, 0x60, 0x00, 0x56] }

/-- A power with an empty base and an empty exponent, whose modulus is said to be as long as can
be. -/
def overflowingMessage : Message :=
  { Message.blank with
    target := some 5
    gasLimit := machineLimit - 1
    data := Bytes.zeros 64 ++ Array.replicate 32 0xff }

theorem overflowingMessage_overflows : overflowingMessage.Overflows .byzantium :=
  ⟨rfl, by decide, by decide, .inl (by decide +kernel)⟩

theorem runMessage_terminates_looping :
    (∃ result after,
      runMessage (.blank .byzantium) loopingMessage 0 (Host.start .empty ()) = .ok result after ∧
        result.outcome = .faulted .outOfGas) ∧
    ∃ after, runMessage (.blank .byzantium) overflowingMessage 0 (Host.start .empty ()) =
      .error .breach after ∧ after.store = .ofWorld .empty ∧ after.transient = ∅ := by
  constructor
  · have faults : ((runMessage (.blank .byzantium) loopingMessage 0).run'
        (Host.start .empty ())).map (·.outcome) = some (.faulted .outOfGas) := by decide +kernel
    have terminates := runMessage_terminates (.blank .byzantium) loopingMessage 0
      (Host.start .empty ()) World.empty_inOrder (by decide) (by decide)
    obtain ⟨result, after, runs, _⟩ :=
      terminates.ends (Message.not_overflows_of_gasLimit (by decide))
    refine ⟨result, after, runs, ?_⟩
    rw [run'_eq_some.mpr ⟨after, runs⟩, Option.map_some] at faults
    exact Option.some.inj faults
  · have terminates := runMessage_terminates (.blank .byzantium) overflowingMessage 0
      (Host.start .empty ()) World.empty_inOrder (by decide) (by decide)
    exact terminates.breaks overflowingMessage_overflows

end Evm
