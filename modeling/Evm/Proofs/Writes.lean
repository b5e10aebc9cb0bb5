import Evm.Proofs.Refunds

/-!
# Writes

What slots hold after a message are the values that were stored last, by frames that lasted as did
all that waited for them. A frame that fails gives back the slots as it found them, so that what it
wrote is as if it had never been.
-/

namespace Evm

open Execution

variable {σ : Type} {env : Environment σ} {context : Context} {frame left next asking : Frame}
  {host after : Host σ}

structure Write where
  place : Address × Word
  value : Word
  deriving DecidableEq

def afterWrites (slots : Address × Word → Word) (writes : List Write) : Address × Word → Word :=
  writes.foldl (fun slots write => Function.update slots write.place write.value) slots

def lastWritten? (writes : List Write) (place : Address × Word) : Option Word :=
  (writes.reverse.find? fun write => write.place = place).map (·.value)

@[simp] theorem afterWrites_nil (slots : Address × Word → Word) : afterWrites slots [] = slots :=
  rfl

theorem afterWrites_append (slots : Address × Word → Word) (early late : List Write) :
    afterWrites slots (early ++ late) = afterWrites (afterWrites slots early) late :=
  List.foldl_append

theorem afterWrites_eq (slots : Address × Word → Word) (writes : List Write)
    (place : Address × Word) :
    afterWrites slots writes place = (lastWritten? writes place).getD (slots place) := by
  induction writes using List.reverseRecOn with
  | nil => rfl
  | append_singleton early write ih =>
    rw [afterWrites_append, lastWritten?, List.reverse_append, List.reverse_singleton,
      List.singleton_append, List.find?_cons]
    by_cases same : write.place = place
    · simp [afterWrites, same]
    · rw [decide_eq_false same]
      exact (Function.update_of_ne (Ne.symm same) ..).trans ih

def Context.write? (context : Context) (fork : Fork) (frame : Frame) : Option Write :=
  match context.operation? fork frame with
  | some .storageStore => some ⟨frame.place context, frame.operand 1⟩
  | _ => none

theorem deed_writes (context : Context) (fork : Fork) (frame : Frame) (view : View) :
    (context.deed fork frame view).slot =
      afterWrites view.slot (context.write? fork frame).toList := by
  unfold Context.deed Context.write?
  cases next : context.operation? fork frame with
  | none => rfl
  | some operation =>
    by_cases stores : operation = .storageStore
    · subst stores
      simp [Operation.deed, afterWrites, View.setSlot]
    · rw [deed_slot stores]
      simp [stores]

theorem step_write? {control : Control}
    (steps : step env context frame host = .ok (control, left) after) (leaves : control ≠ .next) :
    context.write? env.fork frame = none := by
  obtain ⟨past, _⟩ | ⟨instruction, operation, made, between, next, executes, reports⟩ :=
    step_ok steps
  · simp [Context.write?, Context.operation?, past]
  · by_cases stores : operation = .storageStore
    · subst stores
      obtain rfl := thenNext_ok executes
      obtain ⟨_, ⟨_, same⟩ | ⟨_, _, asks, _⟩⟩ := report_ok reports
      · exact absurd same leaves
      · cases asks
    · simp [Context.write?, next, stores]

namespace Execution

theorem turn_finish_write? {ended : Result}
    (turns : turn env context frame host = .ok (.finish ended) after)
    (success : ended.isSuccess) : context.write? env.fork frame = none := by
  unfold turn at turns
  cases steps : step env context frame host with
  | error interrupt between =>
    simp only [steps] at turns
    cases interrupt <;> cases turns
    cases success
  | ok stepped between =>
    obtain ⟨control, left⟩ := stepped
    simp only [steps] at turns
    cases control <;> cases turns
    · exact step_write? steps nofun
    · cases success

theorem turn_ask_write? {nested : NestedCall}
    (turns : turn env context frame host = .ok (.ask nested asking) after) :
    context.write? env.fork frame = none := by
  obtain ⟨_, _, _, _, ⟨_, next, _⟩ | ⟨_, next, _⟩⟩ := turn_asks turns <;>
    simp [Context.write?, next]

mutual

/-- The writes that are left of a message, in their order. Of one that fails none are. -/
inductive Writes (env : Environment σ) :
    Message → MessageKind → Nat → Host σ → Result → Host σ → List Write → Prop where
  | atOnce {message kind pc host result after} :
    enter env message kind pc host = .ok (.result result) after →
    Writes env message kind pc host result after []
  | byFrame {message kind pc host context frame opened ended between result after writes} :
    enter env message kind pc host = .ok (.frame context frame) opened →
    FrameWrites env context frame opened ended between writes →
    conclude env context ended between = .ok result after →
    Writes env message kind pc host result after (if result.isSuccess then writes else [])

/-- The writes of a frame, and those that are left of the messages it waits for, until it comes to
its end. -/
inductive FrameWrites (env : Environment σ) :
    Context → Frame → Host σ → Result → Host σ → List Write → Prop where
  | goOn {context frame host next between ended after writes} :
    turn env context frame host = .ok (.goOn next) between →
    FrameWrites env context next between ended after writes →
    FrameWrites env context frame host ended after
      ((context.write? env.fork frame).toList ++ writes)
  | finish {context frame host ended after} :
    turn env context frame host = .ok (.finish ended) after →
    FrameWrites env context frame host ended after []
  | ask {context frame host nested asking between answer answered next resumed ended after inner
      writes} :
    turn env context frame host = .ok (.ask nested asking) between →
    Writes env nested.message nested.kind 0 between answer answered inner →
    resume env ⟨context, asking, nested.resumption⟩ answer answered = .ok next resumed →
    FrameWrites env context next resumed ended after writes →
    FrameWrites env context frame host ended after (inner ++ writes)

end

mutual

theorem Writes.unique {message : Message} {kind : MessageKind} {pc : Nat} {host after last : Host σ}
    {result found : Result} {writes others : List Write} :
    Writes env message kind pc host result after writes →
    Writes env message kind pc host found last others →
    found = result ∧ last = after ∧ others = writes
  | .atOnce enters, other => by
    cases other with
    | atOnce enters' =>
      cases enters.symm.trans enters'
      exact ⟨rfl, rfl, rfl⟩
    | byFrame enters' => cases enters.symm.trans enters'
  | .byFrame enters inner concludes, other => by
    cases other with
    | atOnce enters' => cases enters.symm.trans enters'
    | byFrame enters' inner' concludes' =>
      cases enters.symm.trans enters'
      obtain ⟨rfl, rfl, rfl⟩ := inner.unique inner'
      cases concludes.symm.trans concludes'
      exact ⟨rfl, rfl, rfl⟩

theorem FrameWrites.unique {context : Context} {frame : Frame} {host after last : Host σ}
    {ended found : Result} {writes others : List Write} :
    FrameWrites env context frame host ended after writes →
    FrameWrites env context frame host found last others →
    found = ended ∧ last = after ∧ others = writes
  | .goOn turns rest, other => by
    cases other with
    | goOn turns' rest' =>
      cases turns.symm.trans turns'
      obtain ⟨rfl, rfl, rfl⟩ := rest.unique rest'
      exact ⟨rfl, rfl, rfl⟩
    | finish turns' => cases turns.symm.trans turns'
    | ask turns' => cases turns.symm.trans turns'
  | .finish turns, other => by
    cases other with
    | goOn turns' => cases turns.symm.trans turns'
    | finish turns' =>
      cases turns.symm.trans turns'
      exact ⟨rfl, rfl, rfl⟩
    | ask turns' => cases turns.symm.trans turns'
  | .ask turns answers resumes rest, other => by
    cases other with
    | goOn turns' => cases turns.symm.trans turns'
    | finish turns' => cases turns.symm.trans turns'
    | ask turns' answers' resumes' rest' =>
      cases turns.symm.trans turns'
      obtain ⟨rfl, rfl, rfl⟩ := answers.unique answers'
      cases resumes.symm.trans resumes'
      obtain ⟨rfl, rfl, rfl⟩ := rest.unique rest'
      exact ⟨rfl, rfl, rfl⟩

end

def LeavesWrites (env : Environment σ) (message : Message) (kind : MessageKind) (pc : Nat)
    (host : Host σ) (result : Result) (after : Host σ) : Prop :=
  ∃ writes, Writes env message kind pc host result after writes ∧
    after.view.slot = afterWrites host.view.slot writes

def MakesWrites (env : Environment σ) (context : Context) (frame : Frame) (host : Host σ)
    (ended : Result) (after : Host σ) : Prop :=
  ∃ writes, FrameWrites env context frame host ended after writes ∧
    (ended.isSuccess → after.view.slot = afterWrites host.view.slot writes)

theorem leavesWrites_atOnce {message : Message} {kind : MessageKind} {pc : Nat} {result : Result}
    (inOrder : host.InOrder)
    (enters : enter env message kind pc host = .ok (.result result) after) :
    LeavesWrites env message kind pc host result after := by
  obtain ⟨shows, _⟩ := enter_opens inOrder enters
  exact ⟨[], .atOnce enters, by rw [shows, View.afterFailure_slot, afterWrites_nil]⟩

theorem leavesWrites_byFrame {message : Message} {kind : MessageKind} {pc : Nat}
    {ended result : Result} {opened between : Host σ} (inOrder : host.InOrder)
    (bounded : message.gasLimit < machineLimit)
    (enters : enter env message kind pc host = .ok (.frame context frame) opened)
    (evaluates : Evaluates env context frame opened ended between)
    (makes : MakesWrites env context frame opened ended between)
    (concludes : conclude env context ended between = .ok result after) :
    LeavesWrites env message kind pc host result after := by
  have ready := ready_of_enter inOrder bounded enters
  have extend := evaluates.extends ready
  obtain ⟨_, start, spends, anchors, alike⟩ := enter_opens inOrder enters
  obtain ⟨writes, inner, changes⟩ := makes
  refine ⟨_, .byFrame enters inner concludes, ?_⟩
  have slots : start.view.slot = host.view.slot := by
    rw [spends.view_eq, View.afterFailure_slot]
  cases success : result.isSuccess with
  | false =>
    obtain ⟨_, undone, _⟩ := of_run concludes
      (conclude_run env anchors extend ready.inOrder (deploys_of_conclude concludes))
    rw [(undone success).view_eq, slots]
    rfl
  | true =>
    obtain ⟨succeeds, kept⟩ := conclude_alike anchors extend ready.inOrder success concludes
    rw [kept.slot_eq, changes succeeds, alike.slot_eq, slots]
    rfl

theorem writes_inductive (env : Environment σ) :
    Inductive env (LeavesWrites env) (MakesWrites env) where
  atOnce inOrder _ enters := leavesWrites_atOnce inOrder enters
  byFrame inOrder bounded enters evaluates makes concludes :=
    leavesWrites_byFrame inOrder bounded enters evaluates makes concludes
  goOn := by
    rintro context frame host next between last after ready turns ⟨writes, rest, changes⟩
    refine ⟨_, .goOn turns rest, fun success => ?_⟩
    rw [changes success, (turn_goOn_deed ready.inOrder turns).slot_eq, deed_writes,
      afterWrites_append]
  finish := by
    intro context frame host last after ready turns
    refine ⟨[], .finish turns, fun success => ?_⟩
    rw [(turn_finish_deed ready.inOrder success turns).slot_eq, deed_writes,
      turn_finish_write? turns success]
    rfl
  ask := by
    rintro context frame host nested asking before asked answer replied next resumed last after
      ready pauses ⟨inner, answers, leaves⟩ ⟨writes, rest, changes⟩
    refine ⟨_, .ask pauses.turns answers pauses.resumes rest, fun success => ?_⟩
    rw [changes success, pauses.slot_eq ready, leaves,
      (turn_ask_deed ready.inOrder pauses.turns).slot_eq, deed_writes, turn_ask_write? pauses.turns,
      afterWrites_append]
    rfl

def RunWrites (env : Environment σ) (message : Message) (pc : Nat) (host : Host σ) (result : Result)
    (after : Host σ) (writes : List Write) : Prop :=
  ∃ warmed, warmUp (warmFromStart env message) host = .ok () warmed ∧
    Writes env message (topLevelKind message) pc warmed result after writes

theorem RunWrites.unique {message : Message} {pc : Nat} {host after last : Host σ}
    {result found : Result} {writes others : List Write}
    (one : RunWrites env message pc host result after writes)
    (other : RunWrites env message pc host found last others) :
    found = result ∧ last = after ∧ others = writes := by
  obtain ⟨_, warms, left⟩ := one
  obtain ⟨_, warms', left'⟩ := other
  cases warms.symm.trans warms'
  exact left.unique left'

/-- What a run does to the slots, and to what is remembered of them. -/
structure RunLeaves (env : Environment σ) (message : Message) (pc : Nat) (host : Host σ)
    (result : Result) (after : Host σ) (writes : List Write) : Prop where
  runs : runMessage env message pc host = .ok result after
  left : RunWrites env message pc host result after writes
  slot_eq : after.view.slot = afterWrites host.view.slot writes
  first_eq : after.store.first = host.store.first
  isDown_eq : after.store.world.isDown = host.store.world.isDown

theorem runMessage_leaves (env : Environment σ) (message : Message) (pc : Nat) (host : Host σ)
    (inOrder : host.InOrder) (bounded : message.gasLimit < machineLimit)
    (fits : ¬message.Overflows env.fork) :
    ∃ result after writes, RunLeaves env message pc host result after writes := by
  obtain ⟨result, after, runs⟩ := runMessage_run env message pc host inOrder bounded fits
  obtain ⟨warmed, opening, opened, warms, enters, passes⟩ := reaches_of_run runs
  have answers := (answers_iff_passes []).mpr ⟨opening, opened, enters, passes⟩
  have same : warmed.store = host.store := by
    cases warms
    rfl
  have warmedInOrder : warmed.InOrder := by rwa [Host.InOrder, same]
  obtain ⟨writes, left, changes⟩ := (writes_inductive env).answers warmedInOrder bounded answers
  have repaid := (refunds_inductive env host.store.first).answers warmedInOrder bounded answers
    (by rw [Host.Recalls, same])
  obtain ⟨_, move, _⟩ := (answers.answered warmedInOrder bounded).extend
  refine ⟨result, after, writes, runs, ⟨warmed, warms, left⟩, ?_, repaid.recalls, ?_⟩
  · simpa only [Host.view, same] using changes
  · rw [move.isDown_eq, same]

end Execution

end Evm
