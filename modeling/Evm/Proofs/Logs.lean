import Evm.Proofs.Passages

/-!
# Logs

Every `LOG` instruction that goes through emits one log. What a run hands back are the logs of the
frames that lasted: those that halted, and deployed if they make a contract, as did each frame that
waited for them. Frames hand logs on only when they end, so that this is a fact about the whole tree
of frames; the order in which the logs were emitted is kept.
-/

namespace Evm

open Execution

variable {σ : Type} {env : Environment σ} {context : Context} {frame left next asking : Frame}
  {host after : Host σ}

/-! ## The log of an instruction -/

/-- The log that a `LOG` instruction with `count` topics emits: the topics in the order in which
they are popped, and the bytes that the memory has in the range that is named. -/
def Frame.log (frame : Frame) (self : Address) (count : Nat) : Log where
  address := self
  topics := (List.range count).map fun index => frame.operand (index + 2)
  data := frame.memory.data.window (frame.operand 0).toNat (frame.operand 1).toNat

def Context.log? (context : Context) (fork : Fork) (frame : Frame) : Option Log :=
  match context.operation? fork frame with
  | some (.log count) => some (frame.log context.self count)
  | _ => none

theorem Bytes.window_zero (bytes : Bytes) (start : Nat) : bytes.window start 0 = #[] := by
  apply Array.eq_empty_of_size_eq_zero
  exact Memory.size_window bytes start 0

theorem Memory.read?_expand (memory : Memory) (offset size : Nat) :
    (memory.expand offset size).read? offset size = some (memory.data.window offset size) := by
  unfold Memory.read? Memory.expand
  by_cases empty : size = 0
  · simp [empty, Bytes.window_zero]
  · have covers : offset + size ≤ memory.size + (32 * wordCount (offset + size) - memory.size) := by
      unfold wordCount
      omega
    simp only [if_neg empty, Memory.size, Bytes.window, Bytes.present, Bytes.zeros,
      Array.size_append, Array.size_replicate]
    rw [if_pos (by simpa [Memory.size] using covers)]
    congr 1
    apply Array.ext
    · simp only [Memory.size, Array.size_append, Array.size_extract, Array.size_replicate] at covers ⊢
      omega
    · intro index within within'
      simp [Array.getElem_append]

namespace FrameM

theorem popMany_ok {count : Nat} {words : List Word}
    (runs : popMany count frame = .ok (words, left)) :
    frame.stack.words = words ++ left.stack.words ∧ words.length = count ∧
      left.memory = frame.memory := by
  induction count generalizing frame words with
  | zero =>
    cases runs
    exact ⟨rfl, rfl, rfl⟩
  | succ count ih =>
    obtain ⟨word, popped, pops, runs⟩ := bind_ok.mp runs
    obtain ⟨rest, _, popsRest, runs⟩ := bind_ok.mp runs
    cases runs
    obtain ⟨first, _, memory⟩ := pop_ok pops
    obtain ⟨others, length, memory'⟩ := ih popsRest
    refine ⟨?_, ?_, memory'.trans memory⟩
    · rw [first, others, List.cons_append]
    · rw [List.length_cons, length]

theorem expand_memory {fork : Fork} {offset size : Nat}
    (runs : expand fork offset size frame = .ok ((), left)) :
    left.memory = frame.memory.expand offset size := by
  obtain ⟨_, _, ⟨⟩, runs⟩ := bind_ok.mp runs
  obtain ⟨_, _, charges, runs⟩ := bind_ok.mp runs
  cases runs
  exact congrArg (·.expand offset size) (charge_ok charges).2

theorem readMemory_read {offset size : Nat} {bytes : Bytes}
    (runs : readMemory offset size frame = .ok (bytes, left)) :
    frame.memory.read? offset size = some bytes := by
  obtain ⟨_, _, ⟨⟩, runs⟩ := bind_ok.mp runs
  cases found : frame.memory.read? offset size with
  | some read =>
    simp only [found, assured] at runs
    cases runs
    rfl
  | none =>
    simp only [found, assured] at runs
    cases runs

end FrameM

theorem Memory.window_of_region? {offset size : Word} {range : Nat × Nat} (data : Bytes)
    (names : Memory.region? offset size = some range) :
    data.window range.1 range.2 = data.window offset.toNat size.toNat := by
  unfold Memory.region? at names
  split at names
  · cases names
    simp [‹size = 0›, Bytes.window_zero]
  · split at names <;> cases names
    rfl

namespace Instruction

open FrameM

theorem log_ok {fork : Fork} {count : Fin 5}
    (runs : log fork context count frame = .ok ((), left)) :
    left.logs = frame.logs.push (frame.log context.self count) := by
  obtain ⟨_, _, checks, runs⟩ := FrameM.bind_ok.mp runs
  obtain ⟨offset, first, popsOffset, runs⟩ := FrameM.bind_ok.mp runs
  obtain ⟨size, second, popsSize, runs⟩ := FrameM.bind_ok.mp runs
  obtain ⟨range, _, names, runs⟩ := FrameM.bind_ok.mp runs
  obtain ⟨topics, third, popsTopics, runs⟩ := FrameM.bind_ok.mp runs
  obtain ⟨_, charged, charges, runs⟩ := FrameM.bind_ok.mp runs
  obtain ⟨_, expanded, expands, runs⟩ := FrameM.bind_ok.mp runs
  obtain ⟨data, _, reads, runs⟩ := FrameM.bind_ok.mp runs
  cases runs
  obtain ⟨_, rfl⟩ := faultIf_ok checks
  obtain ⟨range_eq, rfl⟩ := region_ok names
  obtain rfl := readMemory_ok reads
  have logs : expanded.logs = frame.logs := by
    have taken := (FrameM.Retains.pop popsOffset).trans (FrameM.Retains.pop popsSize)
    have paid := (taken.trans (FrameM.Retains.popMany _ popsTopics)).trans
      (FrameM.Retains.charge _ charges)
    exact (paid.trans (FrameM.Retains.expand _ _ _ expands)).logs_eq
  obtain ⟨words, _, memory⟩ := pop_ok popsOffset
  obtain ⟨words', _, memory'⟩ := pop_ok popsSize
  obtain ⟨words'', length, memory''⟩ := popMany_ok popsTopics
  have data_eq : data = frame.memory.data.window (frame.operand 0).toNat
      (frame.operand 1).toNat := by
    have read := readMemory_read reads
    rw [expand_memory expands, Memory.read?_expand, (charge_ok charges).2, memory'', memory',
      memory] at read
    rw [← Option.some.inj read, Memory.window_of_region? _ range_eq]
    simp [Frame.operand, words, words']
  have topics_eq : topics = (List.range count).map fun index => frame.operand (index + 2) := by
    apply List.ext_getElem
    · simp [length]
    · intro index within _
      simp [Frame.operand, words, words', words'', List.getElem?_append_left within,
        List.getElem?_eq_getElem within]
  show expanded.logs.push ⟨context.self, topics, data⟩ = _
  rw [logs, data_eq, topics_eq]
  rfl

end Instruction

/-! ## Turns -/

theorem Frame.logs_lasts (logs : Array Log) :
    InstructionM.Lasts fun frame : Frame => frame.logs = logs :=
  fun _ _ retains same => retains.logs_eq.trans same

theorem execute_logs {instruction : Instruction} {operation : Operation} {control : Control}
    (silent : ∀ count, operation ≠ .log count)
    (runs : execute env context instruction operation frame host = .ok (control, left) after) :
    left.logs = frame.logs := by
  let same (other : Frame) : Prop := other.logs = frame.logs
  have writes : operation.WriteKeeps same (fun _ _ : Host σ => True) env.fork context := by
    have lasts := Frame.logs_lasts frame.logs
    cases operation with
    | log count => exact absurd rfl (silent count)
    | storageStore =>
      exact Instruction.storageStore_keeps Host.stable_true.toSteady lasts env.fork context
        Host.stable_true.putSlot id
    | transientStore =>
      exact Instruction.transientStore_keeps Host.stable_true.toSteady lasts env.fork context
        Host.stable_true.putTransient
    | call mode => exact Instruction.call_keeps Host.stable_true lasts env.fork context mode
    | selfDestruct =>
      refine Instruction.selfDestruct_keeps Host.stable_true lasts env.fork context fun kept => ?_
      simpa [Instruction.markDestroyed] using kept
    | _ => trivial
  exact ((execute_keeps_of Host.stable_true.toSteady (Frame.logs_lasts frame.logs) env instruction
    writes).of_ok rfl runs).1

/-- A step that goes through emits the log of its instruction, if it has one. After a log the frame
goes on to the next instruction. -/
theorem step_logs {control : Control}
    (steps : step env context frame host = .ok (control, left) after) :
    left.logs.toList = frame.logs.toList ++ (context.log? env.fork frame).toList ∧
      (control ≠ .next → context.log? env.fork frame = none) := by
  obtain ⟨past, _⟩ | ⟨instruction, operation, made, between, next, executes, reports⟩ :=
    step_ok steps
  · have silent : context.log? env.fork frame = none := by
      simp [Context.log?, Context.operation?, past]
    rw [step_past past] at steps
    cases steps
    simp [silent]
  · by_cases logs : ∃ count, operation = .log count
    · obtain ⟨count, rfl⟩ := logs
      obtain rfl := thenNext_ok executes
      have pushed := Instruction.log_ok (InstructionM.lift_ok.mp (thenNext_done executes)).1
      have goesOn : control = .next := by
        obtain ⟨_, ⟨_, same⟩ | ⟨_, _, asks, _⟩⟩ := report_ok reports
        · exact same
        · cases asks
      simp [Context.log?, next, pushed, goesOn]
    · have silent : context.log? env.fork frame = none := by
        unfold Context.log?
        rw [next]
        split
        · rename_i count same
          exact absurd ⟨count, Option.some.inj same⟩ logs
        · rfl
      rw [silent, execute_logs (fun count same => logs ⟨count, same⟩) executes]
      simp

namespace Execution

def Turn.Logs (fork : Fork) (context : Context) (frame : Frame) : Turn → Prop
  | .goOn next => next.logs.toList = frame.logs.toList ++ (context.log? fork frame).toList
  | .ask _ asking => asking.logs = frame.logs
  | .finish ended => ended.logs = if ended.isSuccess then frame.logs else #[]

theorem turn_logs {made : Turn} (turns : turn env context frame host = .ok made after) :
    made.Logs env.fork context frame := by
  unfold turn at turns
  cases steps : step env context frame host with
  | error interrupt last =>
    simp only [steps] at turns
    cases interrupt <;> cases turns
    rfl
  | ok stepped last =>
    obtain ⟨control, left⟩ := stepped
    simp only [steps] at turns
    obtain ⟨logs, silent⟩ := step_logs steps
    have same (other : control ≠ .next) : left.logs = frame.logs := by
      apply Array.toList_inj.mp
      rw [logs, silent other]
      simp
    cases control with
    | revert =>
      cases turns
      rfl
    | next | jump =>
      cases turns
      exact logs
    | halt | call =>
      cases turns
      exact same (by simp)

end Execution

/-! ## Emissions -/

/-- A log that was emitted, and of the frame that emitted it and each one that waited for that,
innermost first, whether it lasted. -/
structure Emission where
  log : Log
  frames : List Bool

/-- A message lasts if it halts, and deploys a contract if it is to make one. -/
def Message.lasts (message : Message) (result : Result) : Bool :=
  result.isSuccess && (!message.isCreation || result.created.isSome)

def Emission.within (lasted : Bool) (emission : Emission) : Emission :=
  { emission with frames := emission.frames ++ [lasted] }

/-- The logs of those frames that lasted, as did each one that waited for them. -/
def lasting (emitted : List Emission) : List Log :=
  (emitted.filter fun emission => emission.frames.all id).map (·.log)

@[simp] theorem lasting_nil : lasting [] = [] := rfl

@[simp] theorem lasting_append (first rest : List Emission) :
    lasting (first ++ rest) = lasting first ++ lasting rest := by
  simp [lasting]

theorem lasting_within (lasted : Bool) (emitted : List Emission) :
    lasting (emitted.map (·.within lasted)) = if lasted then lasting emitted else [] := by
  cases lasted <;> simp [lasting, Emission.within, List.filter_map, Function.comp_def]

theorem lasting_log (log? : Option Log) :
    lasting (log?.toList.map (⟨·, []⟩)) = log?.toList := by
  cases log? <;> rfl

namespace Execution

mutual

/-- The logs that were emitted for a message, in their order. Those of its frame, and of the frames
below, know whether it lasted. -/
inductive Emits (env : Environment σ) :
    Message → MessageKind → Nat → Host σ → Result → Host σ → List Emission → Prop where
  | atOnce {message kind pc host result after} :
    enter env message kind pc host = .ok (.result result) after →
    Emits env message kind pc host result after []
  | byFrame {message kind pc host context frame opened ended between result after emitted} :
    enter env message kind pc host = .ok (.frame context frame) opened →
    FrameEmits env context frame opened ended between emitted →
    conclude env context ended between = .ok result after →
    Emits env message kind pc host result after (emitted.map (·.within (message.lasts result)))

inductive FrameEmits (env : Environment σ) :
    Context → Frame → Host σ → Result → Host σ → List Emission → Prop where
  | goOn {context frame host next between ended after emitted} :
    turn env context frame host = .ok (.goOn next) between →
    FrameEmits env context next between ended after emitted →
    FrameEmits env context frame host ended after
      ((context.log? env.fork frame).toList.map (⟨·, []⟩) ++ emitted)
  | finish {context frame host ended after} :
    turn env context frame host = .ok (.finish ended) after →
    FrameEmits env context frame host ended after []
  | ask {context frame host nested asking between answer answered next resumed ended after inner
      emitted} :
    turn env context frame host = .ok (.ask nested asking) between →
    Emits env nested.message nested.kind 0 between answer answered inner →
    resume env ⟨context, asking, nested.resumption⟩ answer answered = .ok next resumed →
    FrameEmits env context next resumed ended after emitted →
    FrameEmits env context frame host ended after (inner ++ emitted)

end

mutual

theorem Answers.emits {message : Message} {kind : MessageKind} {pc : Nat} {host after : Host σ}
    {result : Result} : Answers env message kind pc host result after →
    ∃ emitted, Emits env message kind pc host result after emitted
  | .atOnce enters => ⟨_, .atOnce enters⟩
  | .byFrame enters evaluates concludes =>
    have ⟨_, emits⟩ := evaluates.emits
    ⟨_, .byFrame enters emits concludes⟩

theorem Evaluates.emits {context : Context} {frame : Frame} {host after : Host σ} {ended : Result} :
    Evaluates env context frame host ended after →
    ∃ emitted, FrameEmits env context frame host ended after emitted
  | .goOn turns rest =>
    have ⟨_, emits⟩ := rest.emits
    ⟨_, .goOn turns emits⟩
  | .finish turns => ⟨_, .finish turns⟩
  | .ask turns answers resumes rest =>
    have ⟨_, below⟩ := answers.emits
    have ⟨_, emits⟩ := rest.emits
    ⟨_, .ask turns below resumes emits⟩

end

mutual

theorem Emits.unique {message : Message} {kind : MessageKind} {pc : Nat} {host after last : Host σ}
    {result found : Result} {emitted others : List Emission} :
    Emits env message kind pc host result after emitted →
    Emits env message kind pc host found last others →
    found = result ∧ last = after ∧ others = emitted
  | .atOnce enters, other => by
    cases other with
    | atOnce enters' =>
      cases enters.symm.trans enters'
      exact ⟨rfl, rfl, rfl⟩
    | byFrame enters' => cases enters.symm.trans enters'
  | .byFrame enters emits concludes, other => by
    cases other with
    | atOnce enters' => cases enters.symm.trans enters'
    | byFrame enters' emits' concludes' =>
      cases enters.symm.trans enters'
      obtain ⟨rfl, rfl, rfl⟩ := emits.unique emits'
      cases concludes.symm.trans concludes'
      exact ⟨rfl, rfl, rfl⟩

theorem FrameEmits.unique {context : Context} {frame : Frame} {host after last : Host σ}
    {ended found : Result} {emitted others : List Emission} :
    FrameEmits env context frame host ended after emitted →
    FrameEmits env context frame host found last others →
    found = ended ∧ last = after ∧ others = emitted
  | .goOn turns rest, other => by
    cases other with
    | goOn turns' rest' =>
      cases turns.symm.trans turns'
      obtain ⟨rfl, rfl, rfl⟩ := rest.unique rest'
      exact ⟨rfl, rfl, rfl⟩
    | finish turns' => cases turns.symm.trans turns'
    | ask turns' => cases turns.symm.trans turns'
  | .finish turns, other => by
    cases other with
    | goOn turns' => cases turns.symm.trans turns'
    | finish turns' =>
      cases turns.symm.trans turns'
      exact ⟨rfl, rfl, rfl⟩
    | ask turns' => cases turns.symm.trans turns'
  | .ask turns answers resumes rest, other => by
    cases other with
    | goOn turns' => cases turns.symm.trans turns'
    | finish turns' => cases turns.symm.trans turns'
    | ask turns' answers' resumes' rest' =>
      cases turns.symm.trans turns'
      obtain ⟨rfl, rfl, rfl⟩ := answers.unique answers'
      cases resumes.symm.trans resumes'
      obtain ⟨rfl, rfl, rfl⟩ := rest.unique rest'
      exact ⟨rfl, rfl, rfl⟩

end

/-! ## What is handed on -/

/-- A result that lasts has the logs of its frame, any other one none. -/
theorem Concludes.logs {fork : Fork} {message : Message} {ended result : Result}
    (concludes : Concludes fork context ended after result)
    (makes : context.deployment.isSome = message.isCreation)
    (fails : ended.isSuccess = false → ended.logs = #[]) :
    (result.isSuccess = message.lasts result) ∧ (message.lasts result → ended.isSuccess) ∧
      result.logs = if message.lasts result then ended.logs else #[] := by
  unfold Message.lasts
  rw [← makes]
  cases concludes with
  | same stays =>
    cases success : ended.isSuccess with
    | false => simp [fails success]
    | true =>
      have plain : context.deployment.isSome = false := by
        by_contra deploys
        rw [stays ((Bool.not_eq_false _).mp deploys)] at success
        cases success
      simp [plain]
  | refused found success => simp [found, Result.isSuccess, Result.faulted, Outcome.isSuccess]
  | deployed found success =>
    have halts : ended.outcome.isSuccess = true := success
    simp [Result.isSuccess, halts]

theorem resume_logs {nested : NestedCall} {answer : Result}
    (turns : turn env context frame host = .ok (.ask nested asking) after) {answered resumed : Host σ}
    (resumes : resume env ⟨context, asking, nested.resumption⟩ answer answered = .ok next resumed) :
    next.logs =
      if nested.message.lasts answer then asking.logs ++ answer.logs else asking.logs := by
  have gathered := congrArg (·.1) (resume_gathered resumes)
  have taken : nested.resumption.receiver.takes answer = nested.message.lasts answer := by
    have receiver := turn_ask_receiver turns
    unfold Receiver.takes Message.lasts
    by_cases creates : nested.resumption.receiver = .create
    · simp [creates, receiver.mp creates]
    · simp [creates, Bool.eq_false_iff.mpr fun made => creates (receiver.mpr made)]
  rw [← taken]
  cases takes : nested.resumption.receiver.takes answer <;>
    simpa [Frame.gathered, absorb, takes] using gathered

mutual

theorem Emits.logs {message : Message} {kind : MessageKind} {pc : Nat} {host after : Host σ}
    {result : Result} {emitted : List Emission} :
    Emits env message kind pc host result after emitted →
    result.isSuccess = message.lasts result ∧ result.logs.toList = lasting emitted ∧
      (message.lasts result = false → result.logs = #[])
  | .atOnce enters => by
    obtain ⟨_, silent, fails⟩ := enter_opens host.repaired_inOrder (enter_repaired enters)
    refine ⟨?_, by simp [silent.logs_eq], fun _ => silent.logs_eq⟩
    cases creates : message.isCreation with
    | true => simp [Message.lasts, fails creates]
    | false => simp [Message.lasts, creates]
  | .byFrame enters emits concludes => by
    have ended := emits.logs
    obtain ⟨_, _, _, _, _, rfl⟩ := started_of_enter host.repaired_inOrder (enter_repaired enters)
    obtain ⟨makes, _⟩ := enter_opens host.repaired_inOrder (enter_repaired enters)
    obtain ⟨success, halts, logs⟩ := (conclude_concludes concludes).logs makes fun stops =>
      Array.toList_eq_nil_iff.mp (ended.trans (if_neg (by simp [stops])))
    refine ⟨success, ?_, fun stops => ?_⟩
    · rw [logs, lasting_within]
      split
      · rw [ended, if_pos (halts ‹_›)]
        rfl
      · rfl
    · rw [logs, if_neg (by simp [stops])]

theorem FrameEmits.logs {context : Context} {frame : Frame} {host after : Host σ}
    {ended : Result} {emitted : List Emission} :
    FrameEmits env context frame host ended after emitted →
    ended.logs.toList = if ended.isSuccess then frame.logs.toList ++ lasting emitted else []
  | .goOn turns rest => by
    have goes : _ = _ := turn_logs turns
    rw [rest.logs, lasting_append, lasting_log, ← List.append_assoc, ← goes]
  | .finish turns => by
    have ends : _ = _ := turn_logs turns
    rw [ends]
    split <;> simp
  | .ask turns answers resumes rest => by
    have asks : _ = _ := turn_logs turns
    obtain ⟨_, brought, silent⟩ := answers.logs
    rw [rest.logs, resume_logs turns resumes, lasting_append, ← brought, asks]
    split
    · split
      · simp
      · simp [silent (Bool.eq_false_iff.mpr ‹_›)]
    · rfl

end

def RunEmits (env : Environment σ) (message : Message) (pc : Nat) (host : Host σ) (result : Result)
    (after : Host σ) (emitted : List Emission) : Prop :=
  ∃ warmed, warmUp (warmFromStart env message) host = .ok () warmed ∧
    Emits env message (topLevelKind message) pc warmed result after emitted

structure LogsLast (env : Environment σ) (message : Message) (pc : Nat) (host : Host σ)
    (result : Result) (after : Host σ) : Prop where
  /-- One list of logs was emitted. The result has those of the frames that lasted, as did all that
  waited for them, and has them in the same order. -/
  emits : ∃ emitted, (∀ others, RunEmits env message pc host result after others ↔
    others = emitted) ∧ result.logs.toList = lasting emitted
  /-- A creation that halted has deployed. -/
  lasts : result.isSuccess = message.lasts result
  silent : result.isSuccess = false → result.logs = #[]

end Execution

/-- A run hands back the logs of the frames that lasted, on any world and whatever was run on the
host before. -/
theorem runMessage_logsLast {message : Message} {pc : Nat} {result : Result}
    (runs : runMessage env message pc host = .ok result after) :
    LogsLast env message pc host result after := by
  obtain ⟨warmed, opening, opened, warms, enters, passes⟩ := reaches_of_run runs
  have answers := (answers_iff_passes []).mpr ⟨opening, opened, enters, passes⟩
  obtain ⟨emitted, emits⟩ := answers.emits
  obtain ⟨lasts, logs, silent⟩ := emits.logs
  refine ⟨⟨emitted, fun others => ⟨?_, ?_⟩, logs⟩, lasts, fun fails => silent (lasts ▸ fails)⟩
  · rintro ⟨_, warms', emits'⟩
    cases warms.symm.trans warms'
    exact (emits.unique emits').2.2
  · rintro rfl
    exact ⟨warmed, warms, emits⟩

/-- A frame on its way through the code of a message. -/
def Frame.midway (message : Message) (index used : Nat) (stack : Stack) (logs : Array Log) :
    Frame :=
  { Frame.start message index with stack, logs, gas := ⟨message.gasLimit, used⟩ }

/-- The instruction that pushes the size of what a call gave back: a zero before there was one. -/
def zeroAt (offset : Nat) : Instruction := ⟨offset, 0x3d, some (.query .returnDataSize), #[]⟩

def logAt (offset : Nat) : Instruction := ⟨offset, 0xa0, some (.log ⟨0, by decide⟩), #[]⟩

/-- Code that logs, and fails after that. -/
def failingCode : Code :=
  ⟨#[0x3d, 0x3d, 0xa0, 0xfe], #[zeroAt 0, zeroAt 1, logAt 2, ⟨3, 0xfe, some .invalid, #[]⟩],
    #[some 0, some 1, some 2, some 3]⟩

theorem failingCode_eq : Code.ofBytes failingCode.bytes = failingCode := by decide +kernel

def failingWorld : World := World.empty.setEntry 0xbb ⟨⟨0, 1, 7⟩, failingCode.bytes, ∅⟩

theorem failingWorld_code : (failingWorld.entry 0xbb).code = failingCode.bytes := by
  rw [failingWorld, World.entry_setEntry, if_pos rfl]

/-- Code that logs, and calls the contract that fails. -/
def loggingMessage : Message :=
  { Message.blank with
    target := some 0xaa
    gasLimit := 50000
    code := #[0x3d, 0x3d, 0xa0, 0x3d, 0x3d, 0x3d, 0x3d, 0x3d, 0x60, 0xbb, 0x5a, 0xf1] }

def loggingCode : Code :=
  ⟨loggingMessage.code,
    #[zeroAt 0, zeroAt 1, logAt 2, zeroAt 3, zeroAt 4, zeroAt 5, zeroAt 6, zeroAt 7,
      ⟨8, 0x60, some .pushByte, #[0xbb]⟩, ⟨10, 0x5a, some (.query .gas), #[]⟩,
      ⟨11, 0xf1, some (.call .call), #[]⟩],
    #[some 0, some 1, some 2, some 3, some 4, some 5, some 6, some 7, some 8, none, some 9,
      some 10]⟩

theorem loggingCode_eq : Code.ofBytes loggingMessage.code = loggingCode := by decide +kernel

namespace Execution

def failingCall : NestedCall :=
  ⟨{ Message.blank with
      caller := 0xaa, target := some 0xbb, gasLimit := 48142, depth := 1, code := failingCode.bytes },
    .call .call, ⟨48142, .call 0 0 0, none⟩⟩

def failedCall : Result := .faulted failingCall.message (.invalidOpcode 0xfe)

def loggedFrame : Frame :=
  .midway loggingMessage 11 49236 (Stack.empty.push 0) #[⟨0xaa, [], #[]⟩]

theorem failingCall_emits : Emits (.blank .byzantium) failingCall.message failingCall.kind 0
    (Host.start failingWorld ()) failedCall (Host.start failingWorld ())
    [⟨⟨0xbb, [], #[]⟩, [false]⟩] := by
  let context : Context := ⟨failingCall.message, failingCode, 0, none⟩
  let reached := Host.start failingWorld ()
  have enters : enter (.blank .byzantium) failingCall.message failingCall.kind 0 reached =
      .ok (.frame context (.start failingCall.message 0)) reached :=
    openFrame_of_starts failingCode_eq rfl none reached
  have fails : FrameEmits (.blank .byzantium) context
      (.midway failingCall.message 3 379 .empty #[⟨0xbb, [], #[]⟩]) reached failedCall reached [] :=
    .finish rfl
  have logs : FrameEmits (.blank .byzantium) context
      (.midway failingCall.message 2 4 ⟨[0, 0], 2, rfl⟩ #[]) reached failedCall reached
      [⟨⟨0xbb, [], #[]⟩, []⟩] :=
    .goOn rfl fails
  exact .byFrame enters (.goOn rfl (.goOn rfl logs)) rfl

set_option maxRecDepth 2000 in
theorem loggingMessage_emits : Emits (.blank .byzantium) loggingMessage (.call .call) 0
    (Host.start failingWorld ()) (haltedResult loggedFrame .stop) (Host.start failingWorld ())
    [⟨⟨0xaa, [], #[]⟩, [true]⟩, ⟨⟨0xbb, [], #[]⟩, [false, true]⟩] := by
  let context : Context := ⟨loggingMessage, loggingCode, 0, none⟩
  let reached := Host.start failingWorld ()
  let Emitted (frame : Frame) (emitted : List Emission) : Prop :=
    FrameEmits (.blank .byzantium) context frame reached (haltedResult loggedFrame .stop) reached
      emitted
  have enters : enter (.blank .byzantium) loggingMessage (.call .call) 0 reached =
      .ok (.frame context (.start loggingMessage 0)) reached :=
    openFrame_of_starts loggingCode_eq rfl none reached
  have asks : turn (.blank .byzantium) context
      (.midway loggingMessage 10 394 ⟨[49606, 0xbb, 0, 0, 0, 0, 0], 7, rfl⟩ #[⟨0xaa, [], #[]⟩])
      reached = .ok (.ask failingCall
        (.midway loggingMessage 11 49236 .empty #[⟨0xaa, [], #[]⟩])) reached := by
    rw [failingCall, ← failingWorld_code]
    rfl
  have resumes : resume (.blank .byzantium)
      ⟨context, .midway loggingMessage 11 49236 .empty #[⟨0xaa, [], #[]⟩], failingCall.resumption⟩
      failedCall reached = .ok loggedFrame reached := rfl
  -- From here on the frame is looked at backwards, one stretch of its code after the other.
  have calls : Emitted
      (.midway loggingMessage 10 394 ⟨[49606, 0xbb, 0, 0, 0, 0, 0], 7, rfl⟩ #[⟨0xaa, [], #[]⟩])
      [⟨⟨0xbb, [], #[]⟩, [false]⟩] :=
    .ask asks failingCall_emits resumes (.finish rfl)
  have names : Emitted
      (.midway loggingMessage 8 389 ⟨[0, 0, 0, 0, 0], 5, rfl⟩ #[⟨0xaa, [], #[]⟩])
      [⟨⟨0xbb, [], #[]⟩, [false]⟩] :=
    .goOn rfl (.goOn rfl calls)
  have readies : Emitted (.midway loggingMessage 5 383 ⟨[0, 0], 2, rfl⟩ #[⟨0xaa, [], #[]⟩])
      [⟨⟨0xbb, [], #[]⟩, [false]⟩] :=
    .goOn rfl (.goOn rfl (.goOn rfl names))
  have logged : Emitted (.midway loggingMessage 3 379 .empty #[⟨0xaa, [], #[]⟩])
      [⟨⟨0xbb, [], #[]⟩, [false]⟩] :=
    .goOn rfl (.goOn rfl readies)
  have logs : Emitted (.midway loggingMessage 2 4 ⟨[0, 0], 2, rfl⟩ #[])
      [⟨⟨0xaa, [], #[]⟩, []⟩, ⟨⟨0xbb, [], #[]⟩, [false]⟩] :=
    .goOn rfl logged
  exact .byFrame enters (.goOn rfl (.goOn rfl logs)) rfl

end Execution

/-- Two logs are emitted, and the one of the call that failed is lost. -/
theorem runMessage_logsLast_logging : ∃ result after,
    runMessage (.blank .byzantium) loggingMessage 0 (Host.start failingWorld ()) =
        .ok result after ∧
      RunEmits (.blank .byzantium) loggingMessage 0 (Host.start failingWorld ()) result after
        [⟨⟨0xaa, [], #[]⟩, [true]⟩, ⟨⟨0xbb, [], #[]⟩, [false, true]⟩] ∧
      result.logs.toList = [⟨0xaa, [], #[]⟩] := by
  obtain ⟨result, after, runs⟩ := runMessage_run (.blank .byzantium) loggingMessage 0
    (Host.start failingWorld ()) (fun _ _ _ => rfl) (by decide)
    (Message.not_overflows_of_gasLimit (by decide))
  obtain ⟨⟨emitted, only, logs⟩, _, _⟩ := runMessage_logsLast runs
  obtain ⟨_, ⟨⟩, emits⟩ := (only emitted).mpr rfl
  obtain ⟨rfl, rfl, rfl⟩ := loggingMessage_emits.unique emits
  exact ⟨_, _, runs, (only _).mpr rfl, logs⟩

end Evm
