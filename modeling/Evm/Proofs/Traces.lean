import Evm.Proofs.Repair
import Evm.Proofs.Reporting

/-!
# Traces

The events of a message stand between the event that announces it and the one that tells its end.
In between stand the steps of its frame, each behind the events of the nested message that it
waited for. The steps account for the gas of the frame, and its end for what it has spent.
-/

namespace Evm

open Execution

/-- What a message has spent when it ends, by the gas that it was given, what its steps have spent,
and the size of the code that it has stored. -/
def Outcome.bill (given used stored : Nat) : Outcome → Nat
  | .halted _ => used + 200 * stored
  | .reverted => used
  | .faulted _ => given

def Result.stored {σ : Type} (result : Result) (after : Host σ) : Nat :=
  match result.created with
  | some address => (after.view.code address).size
  | none => 0

mutual

/-- The events of one message: how deep it is, what it was given, what it has stored and spent, and
how it ended. -/
inductive Told : Nat → MessageKind → Nat → Nat → Nat → Outcome → List Event → Prop where
  | precompiled {depth kind caller target value given data address used outcome} :
    (∀ cause, outcome = .faulted cause → used = given) →
    Told depth kind given 0 used outcome
      [⟨depth, .call kind caller target value given data⟩,
        ⟨depth, .precompile address used outcome.isSuccess⟩, ⟨depth, .exit used outcome⟩]
  | framed {depth kind caller target value given data steps used stored outcome} :
    Ledger depth given 0 steps used →
    (∀ mode, kind = .call mode → stored = 0) →
    Told depth kind given stored (outcome.bill given used stored) outcome
      (⟨depth, .call kind caller target value given data⟩ :: steps ++
        [⟨depth, .exit (outcome.bill given used stored) outcome⟩])

/-- The steps of a frame, from what it has spent before them to what it has spent after them. -/
inductive Ledger : Nat → Nat → Nat → List Event → Nat → Prop where
  | done {depth given used} : Ledger depth given used [] used
  | step {depth given used pc byte name cost left rest last} :
    used + cost + left = given → Ledger depth given (used + cost) rest last →
    Ledger depth given used (⟨depth, .step pc byte name cost (used + cost) left⟩ :: rest) last
  | nested {depth given used kind lent stored spent outcome inner pc byte name cost left rest last} :
    Told (depth + 1) kind lent stored spent outcome inner →
    used + cost + left = given → Ledger depth given (used + cost) rest last →
    Ledger depth given used
      (inner ++ ⟨depth, .step pc byte name cost (used + cost) left⟩ :: rest) last

end

def Reported (message : Message) (kind : MessageKind) (host : Host (Array Event)) (result : Result)
    (after : Host (Array Event)) : Prop :=
  ∃ events, after.trace.toList = host.trace.toList ++ events ∧
    Told message.depth kind message.gasLimit (result.stored after) result.gasUsed result.outcome
      events ∧
    ∀ event ∈ events, event.depth ≤ max message.depth depthLimit

structure Accounted (context : Context) (frame : Frame) (host : Host (Array Event))
    (ended : Result) (after : Host (Array Event)) : Prop where
  created_eq : ended.created = none
  steps : ∃ events used, after.trace.toList = host.trace.toList ++ events ∧
    Ledger context.message.depth context.message.gasLimit frame.gas.used events used ∧
    ((∃ cause, ended.outcome = .faulted cause) ∨ ended.gasUsed = used) ∧
    ∀ event ∈ events, event.depth ≤ max context.message.depth depthLimit

theorem Meter.Sound.balance {gas : Meter} (sound : gas.Sound) :
    gas.used + gas.remaining = gas.limit :=
  Nat.add_sub_cancel' sound.used_le

section Parts

variable {env : Environment (Array Event)} {context : Context} {frame : Frame}
  {host after : Host (Array Event)}

theorem toList_record (logs : env.tracer = .log) (event : Event) (trace : Array Event) :
    (env.tracer.record event trace).toList = trace.toList ++ [event] := by
  rw [logs]
  simp [Tracer.log]

theorem enabled_of_log (logs : env.tracer = .log) (trace : Array Event) :
    env.tracer.enabled trace = true := by
  rw [logs]
  rfl

theorem ledger_event {pending : PendingStep} {depth given last : Nat} {gas : Meter}
    {inner rest : List Event} {used : Nat} (starts : pending.used = used)
    (grows : used ≤ gas.used) (balance : gas.used + gas.remaining = given)
    (enters : ∀ {pc byte name cost left}, used + cost + left = given →
      Ledger depth given (used + cost) rest last →
      Ledger depth given used
        (inner ++ ⟨depth, .step pc byte name cost (used + cost) left⟩ :: rest) last)
    (ledger : Ledger depth given gas.used rest last) :
    Ledger depth given used (inner ++ pending.event depth gas :: rest) last := by
  obtain ⟨cost, total⟩ := Nat.exists_eq_add_of_le grows
  rw [PendingStep.event, starts, total, Nat.add_sub_cancel_left]
  rw [total] at balance ledger
  exact enters balance ledger

/-- The events of a step, and those that it waited for, go before those of the rest. -/
theorem Accounted.cons {next : Frame} {between : Host (Array Event)} {ended : Result}
    {pending : PendingStep} {inner : List Event} (goesOn : Ready context next between)
    (starts : pending.used = frame.gas.used) (grows : frame.gas.used ≤ next.gas.used)
    (told : between.trace.toList = host.trace.toList ++
      (inner ++ [pending.event context.message.depth next.gas]))
    (enters : ∀ {pc byte name cost left rest last},
      frame.gas.used + cost + left = context.message.gasLimit →
      Ledger context.message.depth context.message.gasLimit (frame.gas.used + cost) rest last →
      Ledger context.message.depth context.message.gasLimit frame.gas.used
        (inner ++ ⟨context.message.depth,
          .step pc byte name cost (frame.gas.used + cost) left⟩ :: rest) last)
    (shallow : ∀ event ∈ inner, event.depth ≤ max context.message.depth depthLimit)
    (rest : Accounted context next between ended after) :
    Accounted context frame host ended after := by
  obtain ⟨created, events, used, traced, ledger, ends, shallow'⟩ := rest
  have balance : next.gas.used + next.gas.remaining = context.message.gasLimit :=
    goesOn.limit_eq ▸ goesOn.sound.balance
  refine ⟨created, inner ++ pending.event context.message.depth next.gas :: events, used, ?_,
    ledger_event starts grows balance enters ledger, ends, ?_⟩
  · rw [traced, told]
    simp
  · intro event member
    obtain member | member := List.mem_append.mp member
    · exact shallow event member
    · obtain rfl | member := List.mem_cons.mp member
      · exact Nat.le_max_left _ _
      · exact shallow' event member

theorem accounted_goOn (logs : env.tracer = .log) {next : Frame} {between : Host (Array Event)}
    {ended : Result} (ready : Ready context frame host)
    (turns : turn env context frame host = .ok (.goOn next) between)
    (rest : Accounted context next between ended after) :
    Accounted context frame host ended after := by
  obtain ⟨pending, starts, told⟩ := turn_tells (enabled_of_log logs) ready turns
  have spends : frame.gas.Spends 1 next.gas := turn_costs ready turns
  have grows := spends.used_ge
  have traced : between.trace.toList =
      host.trace.toList ++ ([] ++ [pending.event context.message.depth next.gas]) := by
    rw [told, toList_record logs, List.nil_append]
  exact rest.cons (ready.goOn turns) starts (by omega) traced .step (by simp)

theorem accounted_finish (logs : env.tracer = .log) {ended : Result}
    (ready : Ready context frame host)
    (turns : turn env context frame host = .ok (.finish ended) after) :
    Accounted context frame host ended after := by
  obtain ⟨created, ⟨silent, ends⟩ | ⟨pending, gas, starts, spends, ends, told⟩⟩ :=
    turn_tells (enabled_of_log logs) ready turns
  · exact ⟨created, [], frame.gas.used, by simp [silent], .done, ends, by simp⟩
  · have balance := spends.sound.balance
    rw [spends.limit_eq, ready.limit_eq] at balance
    have grows := spends.used_ge
    refine ⟨created, [] ++ [pending.event context.message.depth gas], gas.used, ?_,
      ledger_event starts grows balance .step .done, .inr ends, ?_⟩
    · rw [told, toList_record logs, List.nil_append]
    · intro event member
      obtain rfl := List.mem_singleton.mp member
      exact Nat.le_max_left _ _

theorem accounted_ask (logs : env.tracer = .log) {next asking : Frame} {nested : NestedCall}
    {answer ended : Result} {before asked answered resumed : Host (Array Event)}
    (ready : Ready context frame host)
    (pauses : Pauses env context frame host nested asking before asked answer answered next resumed)
    (inner : Reported nested.message nested.kind asked answer answered)
    (rest : Accounted context next resumed ended after) :
    Accounted context frame host ended after := by
  obtain ⟨events, traced, told, shallow⟩ := inner
  obtain ⟨silent, pending, waits, starts⟩ := turn_tells (enabled_of_log logs) ready pauses.turns
  obtain ⟨deeper, bounded⟩ := turn_depth pauses.turns
  let suspended : Suspended := ⟨context, asking, nested.resumption⟩
  have waits' : suspended.resumption.step = some pending := waits
  have reports := resume_tells waits' pauses.resumes
  have gas := resume_gas pauses.resumes
  have given_lt := pauses.asks.given_lt
  have gas_eq := pauses.asks.gas_eq
  -- What the nested message gives back is no more than the frame has lent to it.
  have grows : frame.gas.used ≤ next.gas.used := by
    rw [gas]
    simp only [Meter.restore]
    omega
  refine rest.cons (ready.goesOn pauses) starts grows ?_ (.nested (deeper ▸ told)) ?_
  · rw [reports, toList_record logs, traced, silent, List.append_assoc]
  · intro event member
    have := shallow event member
    omega

/-- The kind under which a message is announced tells creations from calls. -/
def Message.IsKind (message : Message) (kind : MessageKind) : Prop :=
  message.isCreation = true → ∃ salted, kind = .create salted

theorem told_framed {message : Message} {kind : MessageKind} {steps : List Event}
    {used stored spent : Nat} {outcome : Outcome}
    (ledger : Ledger message.depth message.gasLimit 0 steps used)
    (calls : ∀ mode, kind = .call mode → stored = 0)
    (billed : spent = outcome.bill message.gasLimit used stored) :
    Told message.depth kind message.gasLimit stored spent outcome
      (callEvent message kind :: steps ++ [⟨message.depth, .exit spent outcome⟩]) := by
  rw [billed]
  exact .framed ledger calls

theorem shallow_of_depth_eq {depth : Nat} {events : List Event}
    (same : ∀ event ∈ events, event.depth = depth) :
    ∀ event ∈ events, event.depth ≤ max depth depthLimit := by
  intro event member
  rw [same event member]
  exact Nat.le_max_left _ _

theorem reported_atOnce (logs : env.tracer = .log) {message : Message} {kind : MessageKind}
    {pc : Nat} {result : Result} (inOrder : host.InOrder)
    (enters : enter env message kind pc host = .ok (.result result) after) :
    Reported message kind host result after := by
  obtain ⟨created, told⟩ := enter_tells (enabled_of_log logs) inOrder enters
  obtain ⟨_, _, fair⟩ := started_of_enter inOrder enters
  have stored : result.stored after = 0 := by rw [Result.stored, created]
  have spent : ∀ cause, result.outcome = .faulted cause → result.gasUsed = message.gasLimit := by
    intro cause faults
    rw [fair.eq_faulted cause faults]
    rfl
  unfold Reported
  rw [stored]
  obtain ⟨⟨cause, faults⟩, traced⟩ | ⟨address, traced⟩ := told
  · have billed : result.gasUsed = result.outcome.bill message.gasLimit 0 0 := by
      rw [faults, spent cause faults]
      rfl
    refine ⟨_, ?_, told_framed .done (fun _ _ => rfl) billed, ?_⟩
    · simp [traced, toList_record logs]
    · exact shallow_of_depth_eq (by simp [callEvent])
  · refine ⟨[callEvent message kind,
      ⟨message.depth, .precompile address result.gasUsed result.isSuccess⟩,
      ⟨message.depth, .exit result.gasUsed result.outcome⟩], ?_, .precompiled spent, ?_⟩
    · simp [traced, toList_record logs]
    · exact shallow_of_depth_eq (by simp [callEvent])

/-- What a frame has spent at its end is what its message is billed. -/
theorem bill_of_concludes {ended result : Result} {used : Nat}
    (concludes : Concludes env.fork context ended after result) (fair : result.Fair context.message)
    (created : ended.created = none)
    (spent : (∃ cause, ended.outcome = .faulted cause) ∨ ended.gasUsed = used) :
    result.gasUsed = result.outcome.bill context.message.gasLimit used (result.stored after) ∧
      (context.deployment = none → result.stored after = 0) := by
  cases concludes with
  | same =>
    have none : ended.stored after = 0 := by rw [Result.stored, created]
    refine ⟨?_, fun _ => none⟩
    rw [none]
    cases outcome : ended.outcome with
    | faulted cause =>
      rw [fair.eq_faulted cause outcome]
      rfl
    | halted reason => simpa [outcome, Outcome.bill] using spent
    | reverted => simpa [outcome, Outcome.bill] using spent
  | refused found => exact ⟨rfl, by simp [found]⟩
  | deployed found success stores =>
    refine ⟨?_, by simp [found]⟩
    unfold Result.isSuccess at success
    cases outcome : ended.outcome with
    | halted reason =>
      have spent' : ended.gasUsed = used := by simpa [outcome] using spent
      simp [Outcome.bill, Result.stored, stores, spent', Fork.fee]
    | reverted => simp [outcome, Outcome.isSuccess] at success
    | faulted cause => simp [outcome, Outcome.isSuccess] at success

theorem reported_byFrame (logs : env.tracer = .log) {message : Message} {kind : MessageKind}
    {pc : Nat} {result ended : Result} {opened between : Host (Array Event)}
    (inOrder : host.InOrder) (bounded : message.gasLimit < machineLimit)
    (isKind : message.IsKind kind)
    (enters : enter env message kind pc host = .ok (.frame context frame) opened)
    (evaluates : Evaluates env context frame opened ended between)
    (accounted : Accounted context frame opened ended between)
    (concludes : conclude env context ended between = .ok result after) :
    Reported message kind host result after := by
  obtain ⟨creates, announced⟩ := enter_tells (enabled_of_log logs) inOrder enters
  obtain ⟨start, index, spends, anchors, same, rfl⟩ := started_of_enter inOrder enters
  have depth : context.message.depth = message.depth := by rw [same]
  have given : context.message.gasLimit = message.gasLimit := by rw [same]
  have ready := ready_of_enter inOrder bounded enters
  have answered := (Answers.byFrame enters evaluates concludes).answered inOrder bounded
  obtain ⟨created, events, used, traced, ledger, spent, shallow⟩ := accounted
  have ends := conclude_concludes concludes
  have exited := conclude_tells concludes
  rw [depth, given] at ledger
  rw [depth] at shallow exited
  have fair : result.Fair context.message := by
    rw [same]
    exact ⟨answered.fair.gasUsed_le, answered.fair.eq_faulted⟩
  obtain ⟨billed, none⟩ := bill_of_concludes ends fair created spent
  rw [given] at billed
  refine ⟨_, ?_, told_framed ledger ?_ billed, ?_⟩
  · simp [exited, toList_record logs, traced, announced]
  · rintro mode rfl
    apply none
    by_contra deploys
    obtain ⟨salted, kind⟩ := isKind (creates (Option.isSome_iff_ne_none.mpr deploys))
    cases kind
  · intro event member
    simp only [List.mem_append, List.mem_cons, List.cons_append] at member
    obtain rfl | member | rfl | none := member
    · exact Nat.le_max_left _ _
    · exact shallow event member
    · exact Nat.le_max_left _ _
    · cases none

theorem isKind_of_turn {nested : NestedCall} {asking : Frame} (inOrder : host.InOrder)
    (turns : turn env context frame host = .ok (.ask nested asking) after) :
    nested.message.IsKind nested.kind := by
  intro creates
  obtain ⟨_, _, _, _, ⟨_, _, _, _, calls, _⟩ | ⟨salted, kind, _⟩⟩ := turn_marks inOrder turns
  · rw [calls] at creates
    cases creates
  · exact ⟨salted, kind⟩

theorem isKind_topLevel (message : Message) : message.IsKind (topLevelKind message) := by
  intro creates
  exact ⟨message.salt.isSome, by rw [topLevelKind, if_pos creates]⟩

theorem traces_inductive (logs : env.tracer = .log) :
    Inductive env
      (fun message kind _ host result after =>
        message.IsKind kind → Reported message kind host result after)
      Accounted where
  atOnce inOrder _ enters _ := reported_atOnce logs inOrder enters
  byFrame inOrder bounded enters evaluates accounted concludes isKind :=
    reported_byFrame logs inOrder bounded isKind enters evaluates accounted concludes
  goOn ready turns rest := accounted_goOn logs ready turns rest
  finish ready turns := accounted_finish logs ready turns
  ask ready pauses inner rest :=
    accounted_ask logs ready pauses (inner (isKind_of_turn ready.inOrder pauses.turns)) rest

end Parts

theorem reported_of_run {env : Environment (Array Event)} (logs : env.tracer = .log)
    {message : Message} {pc : Nat} {host after : Host (Array Event)} {result : Result}
    (bounded : message.gasLimit < machineLimit)
    (runs : runMessage env message pc host = .ok result after) :
    Reported message (topLevelKind message) host result after := by
  obtain ⟨warmed, opening, opened, warms, enters, passes⟩ := reaches_of_run runs
  have answers := (answers_iff_passes []).mpr ⟨opening, opened, enters, passes⟩
  have reported := (traces_inductive logs).answers warmed.repaired_inOrder bounded
    answers.repaired (isKind_topLevel message)
  cases warms
  exact reported

structure Traced (env : Environment (Array Event)) (message : Message) (pc : Nat)
    (host : Host (Array Event)) (result : Result) (after : Host (Array Event)) : Prop where
  /-- The events of the run are those of its message, which ended with the result. -/
  whole : Reported message (topLevelKind message) host result after
  /-- The events between a nested message and its answer are those of that message. -/
  nested : ∀ {context frame waiting reached nested left asked answer answered},
    Reaches env message pc host (.running context frame waiting) reached →
    step env context frame reached = .ok (.call nested, left) asked →
    Answers env nested.message nested.kind 0 asked answer answered →
    Reported nested.message nested.kind asked answer answered
  depths : message.depth + 1 < machineLimit → ∃ events,
    after.trace.toList = host.trace.toList ++ events ∧
      ∀ event ∈ events, event.depth + 1 < machineLimit

/-- Every run that has a result is told in full, whatever the world does not serve. -/
theorem runMessage_traced (env : Environment (Array Event)) (logs : env.tracer = .log)
    (message : Message) (pc : Nat) (host : Host (Array Event)) {result : Result}
    {after : Host (Array Event)} (bounded : message.gasLimit < machineLimit)
    (runs : runMessage env message pc host = .ok result after) :
    Traced env message pc host result after where
  whole := reported_of_run logs bounded runs
  nested reaches asks answers := by
    obtain ⟨ground, _, holds⟩ :=
      reaches.repaired.holds host.repaired_inOrder bounded List.nil_suffix
    have ready := holds.ready
    have turns := turn_of_asks (step_repaired asks)
    obtain ⟨inOrder, bounded'⟩ := ready.serves turns
    have reported := (traces_inductive logs).answers inOrder bounded' answers.repaired
      (isKind_of_turn holds.inOrder turns)
    exact reported
  depths depth_lt := by
    obtain ⟨events, traced, _, shallow⟩ := reported_of_run logs bounded runs
    have deep : depthLimit + 1 < machineLimit := by decide
    refine ⟨events, traced, fun event member => ?_⟩
    have depth_le := shallow event member
    omega

def Environment.logging (fork : Fork) : Environment (Array Event) where
  fork := fork
  block := .blank
  transaction := ⟨0, 0⟩
  curve := ⟨fun _ => #[], fun _ => #[], fun _ => #[]⟩
  tracer := .log

/-- Code that calls the contract that gives back its input, with nothing. -/
def callingMessage : Message :=
  { Message.blank with
    target := some 0xaa
    gasLimit := 10000
    code := #[0x60, 0, 0x60, 0, 0x60, 0, 0x60, 0, 0x60, 4, 0x60, 100, 0xfa] }

theorem runMessage_traced_calling : ∃ result after,
    runMessage (.logging .byzantium) callingMessage 0 (Host.start .empty #[]) = .ok result after ∧
      after.trace.toList.map (·.depth) = [0, 0, 0, 0, 0, 0, 0, 1, 1, 1, 0, 0] ∧
      Reported callingMessage (.call .call) (Host.start .empty #[]) result after := by
  have depths : (match runMessage (.logging .byzantium) callingMessage 0
      (Host.start .empty #[]) with
    | .ok _ after => after.trace.toList.map (·.depth)
    | .error _ _ => []) = [0, 0, 0, 0, 0, 0, 0, 1, 1, 1, 0, 0] := by decide +kernel
  obtain ⟨result, after, runs⟩ := runMessage_run (.logging .byzantium) callingMessage 0
    (Host.start .empty #[]) World.empty_inOrder (by decide)
    (Message.not_overflows_of_gasLimit (by decide))
  rw [runs] at depths
  exact ⟨result, after, runs, depths,
    (runMessage_traced (.logging .byzantium) rfl callingMessage 0 _ (by decide) runs).whole⟩

end Evm
