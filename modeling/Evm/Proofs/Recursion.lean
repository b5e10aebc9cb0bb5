import Evm.Proofs.Reachable

/-!
# Frames that wait are calls that recurse

The execution keeps the frames that wait in a list. It gives the result of the evaluation in which
a nested message is answered by recursion: each frame waits as it was left when it asked, and what
it is handed is the answer to what it asked for.
-/

namespace Evm

namespace Execution

variable {σ : Type} {env : Environment σ} {message : Message} {pc : Nat} {host : Host σ}

def waitingFrames : Execution → List Suspended
  | .running _ _ waiting | .returning _ waiting => waiting

theorem waitingFrames_opening (opening : Opening) (waiting : List Suspended) :
    (ofOpening opening waiting).waitingFrames = waiting := by
  cases opening <;> rfl

section Interludes

variable {context : Context} {frame left : Frame} {waiting : List Suspended} {nested : NestedCall}
  {asked : Host σ}

theorem advance_asks {opening : Opening} {opened : Host σ}
    (asks : step env context frame host = .ok (.call nested, left) asked)
    (enters : enter env nested.message nested.kind 0 asked = .ok opening opened) :
    advance env (.running context frame waiting) host =
      .ok (ofOpening opening (suspend context left nested :: waiting)) opened :=
  (Moves.ask (turn_of_asks asks) enters).advances

theorem Interlude.passes {answer : Result} {answered resumed : Host σ} {next : Frame}
    (interlude : Interlude env context frame waiting host nested left asked answer answered next
      resumed) :
    Passes env waiting (.running context frame waiting) host (.running context next waiting)
      resumed := by
  obtain ⟨opening, opened, enters, passes⟩ := interlude.answers
  have resuming : Passes env waiting (.returning answer (suspend context left nested :: waiting))
      answered (.running context next waiting) resumed :=
    .move ⟨_, _, rfl, List.suffix_refl _⟩ (Moves.resume interlude.resumes).advances .stay
  refine .move (List.suffix_refl _) (advance_asks interlude.asks enters) ?_
  exact (passes.weaken (List.suffix_cons _ _)).trans resuming

theorem Ground.Holds.interlude {ground : Ground σ}
    (holds : ground.Holds (.running context frame waiting) host)
    (asks : step env context frame host = .ok (.call nested, left) asked) :
    ∃ answer answered next resumed,
      Interlude env context frame waiting host nested left asked answer answered next resumed := by
  obtain ⟨rests⟩ := holds.stands
  have costs : Asks frame nested left := step_costs holds.sound holds.inOrder asks
  have bounded := (backs_of_asks holds.limit_eq costs).gas_lt
  have extend := turn_extends holds.inOrder (turn_of_asks asks)
  obtain ⟨opening, opened, answer, answered, enters, passes⟩ :=
    message_answered env nested.kind 0 (suspend context left nested :: waiting)
      (extend.inOrder holds.inOrder) bounded (costs.not_overflows env.fork)
      (by rintro _ ⟨⟩; exact costs.gas_eq)
  -- The way to the answer is a way above the ground, so the execution can go on from there.
  have whole : Passes env ground.waiting (.running context frame waiting) host
      (.returning answer (suspend context left nested :: waiting)) answered :=
    .move rests.suffix (advance_asks asks enters)
      (passes.weaken (rests.suffix.trans (List.suffix_cons _ _)))
  obtain ⟨_, _, moves, _⟩ :=
    (holds.passes_keeps whole).advances env ⟨_, _, rfl, rests.suffix⟩
  obtain ⟨next, resumed, resumes, _⟩ := bind_eq_ok.mp moves
  exact ⟨answer, answered, next, resumed, asks, ⟨opening, opened, enters, passes⟩, resumes⟩

end Interludes

/-- A frame waits as it was left when it asked for a message, and the execution was busy with that
message since. -/
inductive Waits (env : Environment σ) (message : Message) (pc : Nat) (host : Host σ)
    (waiting : List Suspended) (execution : Execution) (reached : Host σ) : Suspended → Prop where
  | intro {context frame before nested left asked opening opened} :
    Reaches env message pc host (.running context frame waiting) before →
    step env context frame before = .ok (.call nested, left) asked →
    enter env nested.message nested.kind 0 asked = .ok opening opened →
    Passes env (suspend context left nested :: waiting)
      (ofOpening opening (suspend context left nested :: waiting)) opened execution reached →
    Waits env message pc host waiting execution reached (suspend context left nested)

theorem Reaches.passes {execution last : Execution} {reached after : Host σ}
    (reaches : Reaches env message pc host execution reached)
    (more : Passes env [] execution reached last after) :
    Reaches env message pc host last after := by
  obtain ⟨warmed, opening, opened, warms, enters, passes⟩ := reaches
  exact ⟨warmed, opening, opened, warms, enters, passes.trans more⟩

theorem Reaches.advance {execution next : Execution} {reached after : Host σ}
    (reaches : Reaches env message pc host execution reached) (above : execution.Above [])
    (moves : Execution.advance env execution reached = .ok next after) :
    Reaches env message pc host next after :=
  reaches.passes (.move above moves .stay)

/-- What holds where a message is started, and is kept by every move, holds of all that it reaches. -/
@[elab_as_elim]
theorem Reaches.always {motive : Execution → Host σ → Prop} {execution : Execution}
    {reached : Host σ}
    (starts : ∀ {warmed opening opened}, warmUp (warmFromStart env message) host = .ok () warmed →
      enter env message (topLevelKind message) pc warmed = .ok opening opened →
      motive (ofOpening opening []) opened)
    (moves : ∀ {execution next reached after}, Reaches env message pc host execution reached →
      execution.Above [] → Execution.advance env execution reached = .ok next after →
      motive execution reached → motive next after)
    (reaches : Reaches env message pc host execution reached) : motive execution reached := by
  obtain ⟨warmed, opening, opened, warms, enters, passes⟩ := reaches
  have started : Reaches env message pc host (ofOpening opening []) opened :=
    ⟨warmed, opening, opened, warms, enters, .stay⟩
  have held := starts warms enters
  -- From here on only the state counts, not how the message was started.
  generalize ofOpening opening [] = first at passes started held
  clear enters
  induction passes with
  | stay => exact held
  | move above advances _ ih =>
    exact ih (started.advance above advances) (moves started above advances held)

/-- A frame that waits after a move waited before it, or asked just now. -/
theorem above_or_asked {execution next : Execution} {reached after : Host σ}
    {suspended : Suspended} {waiting : List Suspended}
    (moves : Execution.advance env execution reached = .ok next after)
    (suffix : (suspended :: waiting) <:+ next.waitingFrames) :
    execution.Above (suspended :: waiting) ∨
      ∃ context frame nested left asked opening, execution = .running context frame waiting ∧
        step env context frame reached = .ok (.call nested, left) asked ∧
        suspended = suspend context left nested ∧
        enter env nested.message nested.kind 0 asked = .ok opening after ∧
        next = ofOpening opening (suspended :: waiting) := by
  cases moves_of_advance moves with
  | goOn | finish => exact .inl suffix
  | ask turns enters =>
    obtain ⟨left, asks, rfl⟩ := asks_of_turn turns
    rw [waitingFrames_opening] at suffix
    obtain same | suffix := List.suffix_cons_iff.mp suffix
    · cases same
      exact .inr ⟨_, _, _, left, _, _, rfl, asks, rfl, enters, rfl⟩
    · exact .inl suffix
  | resume => exact .inl ⟨_, _, rfl, suffix⟩
  | rest => exact absurd (List.suffix_nil.mp suffix) (List.cons_ne_nil _ _)

theorem Above.suffix {base : List Suspended} {execution : Execution}
    (above : execution.Above base) : base <:+ execution.waitingFrames := by
  cases execution with
  | running context frame waiting => exact above
  | returning result waiting =>
    obtain ⟨first, rest, rfl, suffix⟩ := above
    exact suffix.trans (List.suffix_cons first rest)

def AllWait (env : Environment σ) (message : Message) (pc : Nat) (host : Host σ)
    (execution : Execution) (reached : Host σ) : Prop :=
  ∀ suspended waiting, (suspended :: waiting) <:+ execution.waitingFrames →
    Waits env message pc host waiting execution reached suspended

theorem AllWait.advance {execution next : Execution} {reached after : Host σ}
    (waits : AllWait env message pc host execution reached)
    (reaches : Reaches env message pc host execution reached)
    (moves : Execution.advance env execution reached = .ok next after) :
    AllWait env message pc host next after := by
  intro suspended waiting suffix
  obtain above | ⟨_, _, _, _, _, _, rfl, asks, rfl, enters, rfl⟩ := above_or_asked moves suffix
  · obtain ⟨reaches', asks, enters, passes⟩ := waits suspended waiting above.suffix
    exact .intro reaches' asks enters (passes.trans (.move above moves .stay))
  · exact .intro reaches asks enters .stay

theorem Reaches.allWait {execution : Execution} {reached : Host σ}
    (reaches : Reaches env message pc host execution reached) :
    AllWait env message pc host execution reached := by
  refine reaches.always ?_ fun reaches _ moves waits => waits.advance reaches moves
  intro _ opening opened _ _ suspended waiting suffix
  rw [waitingFrames_opening] at suffix
  exact absurd (List.suffix_nil.mp suffix) (List.cons_ne_nil _ _)

/-- A frame that was opened for the message runs its code, from its start. -/
structure StartsFor (message : Message) (context : Context) (frame : Frame) : Prop where
  code_eq : context.code = Code.ofBytes message.code
  depth_eq : context.message.depth = message.depth
  start : ∃ index, frame = .start context.message index

theorem start_of_openFrame {deployment : Option Deployment} {opening : Opening} {after : Host σ}
    (opens : openFrame env message deployment pc host = .ok opening after)
    {context : Context} {frame : Frame} (same : opening = .frame context frame) :
    StartsFor message context frame := by
  subst same
  obtain ⟨index, opened, _⟩ | ⟨_, _, opened⟩ := openFrame_ok opens <;> cases opened
  exact ⟨rfl, rfl, index, rfl⟩

theorem start_of_enter {kind : MessageKind} {context : Context} {frame : Frame} {after : Host σ}
    (enters : enter env message kind pc host = .ok (.frame context frame) after) :
    StartsFor message context frame := by
  cases creates : message.isCreation with
  | true =>
    obtain ⟨_, _, ⟨_, _, _, _, opened⟩ | ⟨_, _, _, begins, opens⟩⟩ :=
      enter_creation_ok creates enters
    · cases opened
    · cases beginCreate_ok begins with
      | made =>
        obtain ⟨code_eq, depth_eq, start⟩ := start_of_openFrame opens rfl
        exact ⟨code_eq, depth_eq, start⟩
  | false =>
    obtain ⟨_, _, ⟨_, _, _, _, _, opened⟩ | opens⟩ := enter_call_ok creates enters
    · cases opened
    · exact start_of_openFrame opens rfl

end Execution

def Operation.asks : Operation → Bool
  | .call _ | .create _ => true
  | _ => false

def Code.isLeaf (code : Code) : Bool :=
  code.instructions.all fun instruction => !instruction.operation.any Operation.asks

theorem Context.operation?_mem {context : Context} {fork : Fork} {frame : Frame}
    {operation : Operation} (next : context.operation? fork frame = some operation) :
    ∃ instruction ∈ context.code.instructions, instruction.operation = some operation := by
  obtain ⟨instruction, fetched, enabled⟩ := Option.bind_eq_some_iff.mp next
  exact ⟨instruction, Array.mem_of_getElem? fetched, (Option.filter_eq_some_iff.mp enabled).1⟩

theorem Context.not_asks {context : Context} {fork : Fork} {frame : Frame} {operation : Operation}
    (leaf : context.code.isLeaf) (next : context.operation? fork frame = some operation) :
    operation.asks = false := by
  obtain ⟨instruction, member, same⟩ := Context.operation?_mem next
  have found := Array.all_eq_true_iff_forall_mem.mp leaf instruction member
  simpa [same] using found

namespace Execution

def RunsOnly (code : Code) : Execution → Prop
  | .running context _ waiting => context.code = code ∧ waiting = []
  | .returning _ waiting => waiting = []

theorem Reaches.runsOnly {execution : Execution} {reached : Host σ}
    (leaf : (Code.ofBytes message.code).isLeaf)
    (reaches : Reaches env message pc host execution reached) :
    execution.RunsOnly (Code.ofBytes message.code) := by
  refine reaches.always ?_ ?_
  · intro _ opening opened _ enters
    cases opening with
    | result result => rfl
    | frame context frame => exact ⟨(start_of_enter enters).code_eq, rfl⟩
  · intro execution next _ _ _ _ moves held
    cases moves_of_advance moves with
    | goOn => exact held
    | finish => exact held.2
    | ask turns =>
      obtain ⟨code_eq, -⟩ := held
      rw [← code_eq] at leaf
      obtain ⟨_, _, _, _, ⟨_, next, _⟩ | ⟨_, next, _⟩⟩ := turn_asks turns
      all_goals cases Context.not_asks leaf next
    | resume => cases held
    | rest => exact held

/-- The execution of a message from outside is its evaluation by recursion. -/
structure Recursive (env : Environment σ) (message : Message) (pc : Nat) (host : Host σ) :
    Prop where
  /-- The recursion gives the result of the run, and nothing else. -/
  same : ∃ warmed, warmUp (warmFromStart env message) host = .ok () warmed ∧
    ∀ result after, Answers env message (topLevelKind message) pc warmed result after ↔
      runMessage env message pc host = .ok result after
  answered : ¬message.Overflows env.fork →
    ∃ result after, runMessage env message pc host = .ok result after
  /-- A frame that asks is handed the answer that the recursion gives, and goes on. -/
  handed : ∀ {context frame waiting reached nested left asked},
    Reaches env message pc host (.running context frame waiting) reached →
    step env context frame reached = .ok (.call nested, left) asked →
    ∃ answer answered next resumed,
      (∀ found last, Answers env nested.message nested.kind 0 asked found last ↔
        found = answer ∧ last = answered) ∧
      resume env (suspend context left nested) answer answered = .ok next resumed ∧
      Reaches env message pc host (.returning answer (suspend context left nested :: waiting))
        answered ∧
      Reaches env message pc host (.running context next waiting) resumed
  waits : ∀ {execution reached suspended waiting},
    Reaches env message pc host execution reached →
    (suspended :: waiting) <:+ execution.waitingFrames →
    Waits env message pc host waiting execution reached suspended
  handedOnly : ∀ {answer answered suspended waiting},
    Reaches env message pc host (.returning answer (suspended :: waiting)) answered →
    ∃ context frame before nested left asked,
      Reaches env message pc host (.running context frame waiting) before ∧
      step env context frame before = .ok (.call nested, left) asked ∧
      suspended = suspend context left nested ∧
      Answers env nested.message nested.kind 0 asked answer answered

end Execution

open Execution

/-- A message that fits 64 bits of gas is run as the recursion has it, from any host in order. -/
theorem runMessage_recursive {σ : Type} (env : Environment σ) (message : Message) (pc : Nat)
    (host : Host σ) (inOrder : host.InOrder) (bounded : message.gasLimit < machineLimit) :
    Recursive env message pc host where
  same := by
    obtain ⟨warmed, warms, _⟩ := warmUp_run (warmFromStart env message) inOrder
    refine ⟨warmed, warms, fun result after => ⟨fun answers => ?_, fun runs => ?_⟩⟩
    · exact run_of_answers inOrder bounded warms answers
    · obtain ⟨_, opening, opened, warms', enters, passes⟩ := reaches_of_run runs
      cases warms.symm.trans warms'
      exact (answers_iff_passes []).mpr ⟨opening, opened, enters, passes⟩
  answered := runMessage_run env message pc host inOrder bounded
  handed reaches asks := by
    obtain ⟨ground, _, holds⟩ := reaches.holds inOrder bounded List.nil_suffix
    obtain ⟨answer, answered, next, resumed, interlude⟩ := holds.interlude asks
    obtain ⟨opening, opened, enters, passes⟩ := interlude.answers
    refine ⟨answer, answered, next, resumed, answers_iff_eq enters passes, interlude.resumes, ?_, ?_⟩
    · exact (reaches.advance List.nil_suffix (advance_asks asks enters)).passes
        (passes.weaken List.nil_suffix)
    · exact reaches.passes (interlude.passes.weaken List.nil_suffix)
  waits reaches suffix := reaches.allWait _ _ suffix
  handedOnly reaches := by
    obtain ⟨reaches', asks, enters, passes⟩ := reaches.allWait _ _ (List.suffix_refl _)
    exact ⟨_, _, _, _, _, _, reaches', asks, rfl, (answers_iff_passes _).mpr ⟨_, _, enters, passes⟩⟩

/-- Code that has a word copied by the contract that gives back its input, and returns the copy. -/
def copyingMessage : Message :=
  { Message.blank with
    target := some 0xaa
    gasLimit := 10000
    code := #[0x60, 7, 0x60, 0, 0x52, 0x60, 32, 0x60, 32, 0x60, 32, 0x60, 0, 0x60, 4, 0x60, 100,
      0xfa, 0x60, 32, 0x60, 32, 0xf3] }

theorem runMessage_recursive_copying : ∃ warmed result after,
    warmUp (warmFromStart (.blank .byzantium) copyingMessage) (Host.start .empty ()) =
      .ok () warmed ∧
      result.output = Array.replicate 31 0 ++ #[7] ∧
      Answers (.blank .byzantium) copyingMessage (.call .call) 0 warmed result after := by
  have returns : ((runMessage (.blank .byzantium) copyingMessage 0).run'
      (Host.start .empty ())).map (·.output) = some (Array.replicate 31 0 ++ #[7]) := by
    decide +kernel
  have recursive := runMessage_recursive (.blank .byzantium) copyingMessage 0
    (Host.start .empty ()) World.empty_inOrder (by decide)
  obtain ⟨warmed, warms, same⟩ := recursive.same
  obtain ⟨result, after, runs⟩ :=
    recursive.answered (Message.not_overflows_of_gasLimit (by decide))
  rw [run'_eq_some.mpr ⟨after, runs⟩, Option.map_some] at returns
  exact ⟨warmed, result, after, warms, Option.some.inj returns, (same result after).mpr runs⟩

end Evm
