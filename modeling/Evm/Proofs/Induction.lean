import Evm.Proofs.Reachable

/-!
# Induction over evaluations

Answers and the ends of frames depend on each other, and every proof about them needs to know that
hosts stay in order and frames within their gas. That is carried along here once, so that a proof
by induction on the evaluation has only its own cases to show.
-/

namespace Evm

variable {σ : Type} {env : Environment σ}

namespace Instruction

open InstructionM

variable {fork : Fork} {context : Context} {frame after : Frame} {host last : Host σ}
  {nested : NestedCall}

theorem prepareCall_depth {mode : CallMode}
    (runs : prepareCall fork context mode frame host = .ok (some nested, after) last) :
    nested.message.depth = context.message.depth + 1 ∧ nested.message.depth ≤ depthLimit := by
  obtain ⟨operands, _, _, _, runs⟩ := InstructionM.bind_ok.mp runs
  obtain ⟨_, _, _, _, runs⟩ := InstructionM.bind_ok.mp runs
  obtain ⟨price, _, _, _, runs⟩ := InstructionM.bind_ok.mp runs
  obtain ⟨gas, _, _, _, runs⟩ := InstructionM.bind_ok.mp runs
  obtain ⟨account, _, _, _, runs⟩ := InstructionM.bind_ok.mp runs
  split at runs
  · obtain ⟨_, _, _, _, runs⟩ := InstructionM.bind_ok.mp runs
    cases runs
  · obtain ⟨shallow, _⟩ := not_or.mp ‹_›
    obtain ⟨data, _, _, _, runs⟩ := InstructionM.bind_ok.mp runs
    obtain ⟨code, _, _, _, runs⟩ := InstructionM.bind_ok.mp runs
    obtain ⟨checkpoint, _, _, _, runs⟩ := InstructionM.bind_ok.mp runs
    obtain ⟨_, _, _, _, runs⟩ := InstructionM.bind_ok.mp runs
    cases runs
    exact ⟨rfl, Nat.not_lt.mp shallow⟩

theorem create_depth {salted : Bool}
    (runs : create fork context salted frame host = .ok (.call nested, after) last) :
    nested.message.depth = context.message.depth + 1 ∧ nested.message.depth ≤ depthLimit := by
  obtain ⟨_, _, _, _, runs⟩ := InstructionM.bind_ok.mp runs
  obtain ⟨operands, _, _, _, runs⟩ := InstructionM.bind_ok.mp runs
  obtain ⟨code, _, _, _, runs⟩ := InstructionM.bind_ok.mp runs
  obtain ⟨account, _, _, _, runs⟩ := InstructionM.bind_ok.mp runs
  split at runs
  · obtain ⟨_, _, _, _, runs⟩ := InstructionM.bind_ok.mp runs
    cases runs
  · obtain ⟨shallow, _⟩ := not_or.mp ‹_›
    obtain ⟨_, _, _, _, runs⟩ := InstructionM.bind_ok.mp runs
    obtain ⟨_, _, _, _, runs⟩ := InstructionM.bind_ok.mp runs
    obtain ⟨_, _, _, _, runs⟩ := InstructionM.bind_ok.mp runs
    cases runs
    exact ⟨rfl, Nat.not_lt.mp shallow⟩

end Instruction

namespace Execution

theorem turn_depth {context : Context} {frame asking : Frame} {host asked : Host σ}
    {nested : NestedCall} (turns : turn env context frame host = .ok (.ask nested asking) asked) :
    nested.message.depth = context.message.depth + 1 ∧ nested.message.depth ≤ depthLimit := by
  obtain ⟨made, after, same, _, ⟨mode, _, calls⟩ | ⟨salted, _, creates⟩⟩ := turn_asks turns
  · obtain ⟨before, prepares, _⟩ := Instruction.call_ok calls
    have deeper := Instruction.prepareCall_depth prepares
    rw [same]
    exact deeper
  · have deeper := Instruction.create_depth creates
    rw [same]
    exact deeper

/-- A frame can take its turn: the world serves it, and it is within the gas of its message. -/
structure Ready (context : Context) (frame : Frame) (host : Host σ) : Prop where
  inOrder : host.InOrder
  sound : frame.gas.Sound
  limit_eq : frame.gas.limit = context.message.gasLimit

theorem ready_of_enter {message : Message} {kind : MessageKind} {pc : Nat} {context : Context}
    {frame : Frame} {host opened : Host σ} (inOrder : host.InOrder)
    (bounded : message.gasLimit < machineLimit)
    (enters : enter env message kind pc host = .ok (.frame context frame) opened) :
    Ready context frame opened := by
  obtain ⟨start, index, spends, anchors, same, rfl⟩ := started_of_enter inOrder enters
  have given_eq : context.message.gasLimit = message.gasLimit := by rw [same]
  refine ⟨anchors.extend.inOrder (spends.extends.inOrder inOrder), ?_, rfl⟩
  exact Meter.sound_ofLimit (given_eq ▸ bounded)

theorem Ground.Holds.ready {ground : Ground σ} {context : Context} {frame : Frame}
    {waiting : List Suspended} {host : Host σ}
    (holds : ground.Holds (.running context frame waiting) host) : Ready context frame host :=
  ⟨holds.inOrder, holds.sound, holds.limit_eq⟩

theorem turn_costs {context : Context} {frame : Frame} {host after : Host σ} {made : Turn}
    (ready : Ready context frame host) (turns : turn env context frame host = .ok made after) :
    made.Costs context frame := by
  have costs := of_run turns (turn_run env ready.sound ready.limit_eq ready.inOrder)
  exact costs

structure Answered (env : Environment σ) (message : Message) (host : Host σ) (answer : Result)
    (after : Host σ) : Prop where
  extend : host.Extends after
  spends : answer.isSuccess = false → host.Spends env.fork message after
  fair : answer.Fair message

theorem Answers.answered {message : Message} {kind : MessageKind} {pc : Nat} {answer : Result}
    {host after : Host σ} (answers : Answers env message kind pc host answer after)
    (inOrder : host.InOrder) (bounded : message.gasLimit < machineLimit) :
    Answered env message host answer after := by
  obtain ⟨opening, opened, enters, passes⟩ := (answers_iff_passes []).mp answers
  obtain ⟨extend, spends⟩ := spends_of_passes inOrder enters passes
  exact ⟨extend, spends, fair_of_passes inOrder bounded (by rintro _ ⟨⟩) enters passes⟩

/-- A frame that asks, with all that is known until it goes on. -/
structure Pauses (env : Environment σ) (context : Context) (frame : Frame) (host : Host σ)
    (nested : NestedCall) (asking : Frame) (before asked : Host σ) (answer : Result)
    (answered : Host σ) (next : Frame) (resumed : Host σ) : Prop where
  turns : turn env context frame host = .ok (.ask nested asking) asked
  asks : Asks frame nested asking
  marks : Marks nested.resumption.receiver before
  prepared : host.Extends before
  sent : before.Extends asked
  bounded : nested.message.gasLimit < machineLimit
  answers : Answers env nested.message nested.kind 0 asked answer answered
  known : Answered env nested.message asked answer answered
  resumes : resume env ⟨context, asking, nested.resumption⟩ answer answered = .ok next resumed
  kept : answer.isSuccess ∨ nested.resumption.receiver = .create →
    answered.Move answered.view [] resumed
  undone : answer.isSuccess = false → nested.resumption.receiver ≠ .create →
    before.Move before.view [] resumed

theorem Pauses.extends {context : Context} {frame next asking : Frame} {nested : NestedCall}
    {answer : Result} {host before asked answered resumed : Host σ}
    (pauses : Pauses env context frame host nested asking before asked answer answered next
      resumed) : host.Extends resumed := by
  by_cases keeps : answer.isSuccess ∨ nested.resumption.receiver = .create
  · exact ((pauses.prepared.trans pauses.sent).trans pauses.known.extend).trans
      (pauses.kept keeps).extends_of_same
  · obtain ⟨fails, calls⟩ := not_or.mp keeps
    exact pauses.prepared.trans (pauses.undone (by simpa using fails) calls).extends_of_same

/-- The execution passes from a frame that asks to the same frame when it goes on. -/
theorem Pauses.passes {context : Context} {frame next asking : Frame} {nested : NestedCall}
    {answer : Result} {host before asked answered resumed : Host σ}
    (pauses : Pauses env context frame host nested asking before asked answer answered next
      resumed) (waiting : List Suspended) :
    Passes env waiting (.running context frame waiting) host (.running context next waiting)
      resumed := by
  let suspended : Suspended := ⟨context, asking, nested.resumption⟩
  obtain ⟨opening, opened, enters, passes⟩ := pauses.answers.passes (suspended :: waiting)
  have resuming : Passes env waiting (.returning answer (suspended :: waiting)) answered
      (.running context next waiting) resumed :=
    .move ⟨_, _, rfl, List.suffix_refl _⟩ (Moves.resume pauses.resumes).advances .stay
  exact .move (List.suffix_refl _) (Moves.ask pauses.turns enters).advances
    ((passes.weaken (List.suffix_cons suspended waiting)).trans resuming)

namespace Ready

variable {context : Context} {frame next asking : Frame} {host between asked answered resumed :
  Host σ} {nested : NestedCall} {answer : Result}

theorem goOn (ready : Ready context frame host)
    (turns : turn env context frame host = .ok (.goOn next) between) :
    Ready context next between := by
  have spends : frame.gas.Spends 1 next.gas := turn_costs ready turns
  exact ⟨(turn_extends ready.inOrder turns).inOrder ready.inOrder, spends.sound,
    spends.limit_eq.trans ready.limit_eq⟩

theorem serves (ready : Ready context frame host)
    (turns : turn env context frame host = .ok (.ask nested asking) asked) :
    asked.InOrder ∧ nested.message.gasLimit < machineLimit := by
  have asks : Asks frame nested asking := turn_costs ready turns
  exact ⟨(turn_extends ready.inOrder turns).inOrder ready.inOrder,
    (backs_of_asks ready.limit_eq asks).gas_lt⟩

theorem pauses (ready : Ready context frame host)
    (turns : turn env context frame host = .ok (.ask nested asking) asked)
    (answers : Answers env nested.message nested.kind 0 asked answer answered)
    (resumes : resume env ⟨context, asking, nested.resumption⟩ answer answered = .ok next resumed) :
    ∃ before, Pauses env context frame host nested asking before asked answer answered next
      resumed := by
  have asks : Asks frame nested asking := turn_costs ready turns
  obtain ⟨inOrder, bounded⟩ := ready.serves turns
  have known := answers.answered inOrder bounded
  obtain ⟨before, prepared, sent, marks, _⟩ := turn_marks ready.inOrder turns
  let suspended : Suspended := ⟨context, asking, nested.resumption⟩
  have marks' : Marks suspended.resumption.receiver before := marks
  obtain ⟨kept, undone⟩ := of_run resumes (resume_run env answer marks' (fits_of_resume resumes)
    (sent.trans known.extend) (prepared.inOrder ready.inOrder))
  exact ⟨before, turns, asks, marks, prepared, sent, bounded, answers, known, resumes, kept, undone⟩

theorem goesOn {before : Host σ} (ready : Ready context frame host)
    (pauses : Pauses env context frame host nested asking before asked answer answered next
      resumed) : Ready context next resumed := by
  have backs := backs_of_asks ready.limit_eq pauses.asks
  have gas := resume_gas pauses.resumes
  refine ⟨pauses.extends.inOrder ready.inOrder, ?_, ?_⟩
  · rw [gas]
    exact Meter.sound_restore backs.sound
  · rw [gas]
    exact backs.limit_eq

end Ready

/-- What holds of every answer and of the end of every frame, by its cases. -/
structure Inductive (env : Environment σ)
    (answered : Message → MessageKind → Nat → Host σ → Result → Host σ → Prop)
    (ended : Context → Frame → Host σ → Result → Host σ → Prop) : Prop where
  atOnce : ∀ {message kind pc host result after}, host.InOrder → message.gasLimit < machineLimit →
    enter env message kind pc host = .ok (.result result) after →
    answered message kind pc host result after
  byFrame : ∀ {message kind pc host context frame opened last between result after},
    host.InOrder → message.gasLimit < machineLimit →
    enter env message kind pc host = .ok (.frame context frame) opened →
    Evaluates env context frame opened last between → ended context frame opened last between →
    conclude env context last between = .ok result after →
    answered message kind pc host result after
  goOn : ∀ {context frame host next between last after}, Ready context frame host →
    turn env context frame host = .ok (.goOn next) between →
    ended context next between last after → ended context frame host last after
  finish : ∀ {context frame host last after}, Ready context frame host →
    turn env context frame host = .ok (.finish last) after →
    ended context frame host last after
  ask : ∀ {context frame host nested asking before asked answer replied next resumed last after},
    Ready context frame host →
    Pauses env context frame host nested asking before asked answer replied next resumed →
    answered nested.message nested.kind 0 asked answer replied →
    ended context next resumed last after → ended context frame host last after

namespace Inductive

variable {answered : Message → MessageKind → Nat → Host σ → Result → Host σ → Prop}
  {ended : Context → Frame → Host σ → Result → Host σ → Prop}

mutual

theorem answers (cases : Inductive env answered ended) {message : Message} {kind : MessageKind}
    {pc : Nat} {host after : Host σ} {result : Result} (inOrder : host.InOrder)
    (bounded : message.gasLimit < machineLimit) :
    Answers env message kind pc host result after → answered message kind pc host result after
  | .atOnce enters => cases.atOnce inOrder bounded enters
  | .byFrame enters evaluates concludes =>
    cases.byFrame inOrder bounded enters evaluates
      (cases.evaluates (ready_of_enter inOrder bounded enters) evaluates) concludes

theorem evaluates (cases : Inductive env answered ended) {context : Context} {frame : Frame}
    {host after : Host σ} {last : Result} (ready : Ready context frame host) :
    Evaluates env context frame host last after → ended context frame host last after
  | .goOn turns rest => cases.goOn ready turns (cases.evaluates (ready.goOn turns) rest)
  | .finish turns => cases.finish ready turns
  | .ask turns answers resumes rest => by
    obtain ⟨inOrder, bounded⟩ := ready.serves turns
    obtain ⟨before, pauses⟩ := ready.pauses turns answers resumes
    exact cases.ask ready pauses (cases.answers inOrder bounded answers)
      (cases.evaluates (ready.goesOn pauses) rest)

end

end Inductive

theorem Evaluates.extends {context : Context} {frame : Frame} {host after : Host σ} {last : Result}
    (evaluates : Evaluates env context frame host last after) (ready : Ready context frame host) :
    host.Extends after := by
  have cases : Inductive env (fun _ _ _ _ _ _ => True) fun _ _ host _ after => host.Extends after :=
    { atOnce := fun _ _ _ => trivial
      byFrame := fun _ _ _ _ _ _ => trivial
      goOn := fun ready turns rest => (turn_extends ready.inOrder turns).trans rest
      finish := fun ready turns => turn_extends ready.inOrder turns
      ask := fun _ pauses _ rest => pauses.extends.trans rest }
  exact cases.evaluates ready evaluates

end Execution

end Evm
