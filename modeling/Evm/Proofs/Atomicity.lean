import Evm.Proofs.Reachable

/-!
# Failures are undone

A frame that reverts or faults leaves no trace of what was done since it was opened, however deep
it is nested and whatever its own nested messages did.
-/

namespace Evm

open Execution

variable {σ : Type} {env : Environment σ}

namespace Host

variable {base host : Host σ}

/-- All that can be read is as it was, and so is the journal. -/
structure Restores (base host : Host σ) : Prop where
  view_eq : host.view = base.view
  journal_eq : host.journal = base.journal

theorem Move.restores (move : base.Move base.view [] host) : base.Restores host := by
  refine ⟨move.view_eq, ?_⟩
  have same := move.journal_eq
  rw [List.append_nil] at same
  exact Array.toList_inj.mp same

/-- All that is left of a message is the nonce that a creation has taken of its sender, and that
the new address is warm where there are access lists. -/
structure Leaves (fork : Fork) (message : Message) (base host : Host σ) : Prop where
  view_eq : host.view = base.view.afterFailure message fork
  journal_eq : host.journal = base.journal ++ (base.view.failureNotes message fork).toArray

theorem Spends.leaves {fork : Fork} {message : Message} (spends : base.Spends fork message host) :
    base.Leaves fork message host := by
  refine ⟨Move.view_eq spends, ?_⟩
  apply Array.toList_inj.mp
  rw [Move.journal_eq spends, Array.toList_append]

end Host

namespace Execution

variable {host : Host σ}

theorem frame_extends {message : Message} {kind : MessageKind} {pc : Nat} {context other : Context}
    {start last : Frame} {opened between turned : Host σ} {waiting : List Suspended} {made : Turn}
    (inOrder : host.InOrder)
    (enters : enter env message kind pc host = .ok (.frame context start) opened)
    (passes : Passes env waiting (.running context start waiting) opened
      (.running other last waiting) between)
    (turns : turn env other last between = .ok made turned) :
    other = context ∧ context.checkpoint = opened.journal.size ∧ opened.InOrder ∧
      opened.Extends turned := by
  have started := started_of_enter inOrder enters
  obtain ⟨first, index, spends, anchors, _, _⟩ := started
  let ground : Ground σ := ⟨context, waiting, first, opened, anchors⟩
  have openedInOrder := anchors.extend.inOrder (spends.extends.inOrder inOrder)
  have stands : ground.Stands (.running context start waiting) opened :=
    .running (.bottom (.refl opened))
  obtain ⟨stands', betweenInOrder⟩ := stands.passes_keeps openedInOrder passes
  obtain ⟨rests⟩ := stands'
  obtain ⟨same, extend⟩ := rests.eq_bottom
  exact ⟨same, anchors.checkpoint_eq, openedInOrder,
    extend.trans (turn_extends betweenInOrder turns)⟩

/-- What a frame did can be undone as long as it runs. -/
theorem frame_undone {message : Message} {kind : MessageKind} {pc : Nat} {context other : Context}
    {start last : Frame} {opened between turned : Host σ} {waiting : List Suspended} {made : Turn}
    (inOrder : host.InOrder)
    (enters : enter env message kind pc host = .ok (.frame context start) opened)
    (passes : Passes env waiting (.running context start waiting) opened
      (.running other last waiting) between)
    (turns : turn env other last between = .ok made turned) :
    other = context ∧ context.checkpoint = opened.journal.size ∧
      ∃ back, Host.rollback context.checkpoint turned = .ok () back ∧ opened.Restores back := by
  obtain ⟨same, checkpoint_eq, openedInOrder, extend⟩ :=
    frame_extends inOrder enters passes turns
  obtain ⟨back, undoes, restored⟩ := Host.rollback_run extend (extend.inOrder openedInOrder)
  rw [← checkpoint_eq] at undoes
  exact ⟨same, checkpoint_eq, back, undoes, restored.restores⟩

theorem outermost_undone {message : Message} {pc : Nat} {result : Result} {after : Host σ}
    (inOrder : host.InOrder) (runs : runMessage env message pc host = .ok result after)
    (fails : result.isSuccess = false) :
    ∃ warmed, warmUp (warmFromStart env message) host = .ok () warmed ∧
      warmed.Spends env.fork message after := by
  obtain ⟨warmed, warms, warmedInOrder⟩ := warmUp_run (warmFromStart env message) inOrder
  unfold runMessage at runs
  rw [bind_of_ok warms] at runs
  obtain ⟨opening, opened, enters, runs⟩ := bind_eq_ok.mp runs
  exact ⟨warmed, warms, (spends_of_passes warmedInOrder enters (passes_of_run runs)).2 fails⟩

end Execution

namespace Execution.Interlude

variable {host asked answered resumed : Host σ} {context : Context} {frame left next : Frame}
  {waiting : List Suspended} {nested : NestedCall} {answer : Result}

theorem call_undone {mode : CallMode} (inOrder : host.InOrder)
    (interlude : Interlude env context frame waiting host nested left asked answer answered next
      resumed)
    (kind : nested.kind = .call mode) (fails : answer.isSuccess = false) :
    ∃ prepared paid before,
      Instruction.prepareCall env.fork context mode frame host = .ok (some prepared, paid) before ∧
      Instruction.sendValue mode prepared.message before = .ok () asked ∧
      asked.Restores answered ∧ before.Restores resumed := by
  obtain ⟨opening, opened, enters, passes⟩ := interlude.answers
  obtain ⟨before, extend, extend', marks, call | creation⟩ :=
    turn_marks inOrder (turn_of_asks interlude.asks)
  · obtain ⟨found, prepared, paid, kind', plain, calls, prepares, sends⟩ := call
    have beforeInOrder := extend.inOrder inOrder
    obtain ⟨extend'', spends⟩ := spends_of_passes (extend'.inOrder beforeInOrder) enters passes
    obtain ⟨_, _, resumes, _, undone⟩ := resume_run env answer marks
      (fits_of_resume interlude.resumes) (extend'.trans extend'') beforeInOrder
    rw [interlude.resumes] at resumes
    cases resumes
    rw [kind] at kind'
    cases kind'
    exact ⟨prepared, paid, before, prepares, sends,
      ((Host.spends_call plain).mp (spends fails)).restores, (undone fails calls).restores⟩
  · obtain ⟨salted, kind', _⟩ := creation
    rw [kind] at kind'
    cases kind'

theorem creation_undone {salted : Bool} (inOrder : host.InOrder)
    (interlude : Interlude env context frame waiting host nested left asked answer answered next
      resumed)
    (kind : nested.kind = .create salted) (fails : answer.isSuccess = false) :
    asked = host ∧ nested.message.isCreation ∧ host.Spends env.fork nested.message answered ∧
      host.Spends env.fork nested.message resumed := by
  obtain ⟨opening, opened, enters, passes⟩ := interlude.answers
  obtain ⟨before, extend, extend', marks, call | creation⟩ :=
    turn_marks inOrder (turn_of_asks interlude.asks)
  · obtain ⟨_, _, _, kind', _⟩ := call
    rw [kind] at kind'
    cases kind'
  · obtain ⟨_, _, creates, creation, rfl, rfl⟩ := creation
    obtain ⟨extend'', spends⟩ := spends_of_passes inOrder enters passes
    obtain ⟨_, _, resumes, kept, _⟩ := resume_run env answer marks
      (fits_of_resume interlude.resumes) extend'' inOrder
    rw [interlude.resumes] at resumes
    cases resumes
    exact ⟨rfl, creates, spends fails, Host.Move.trans_same (spends fails) (kept (.inr creation))⟩

end Execution.Interlude

structure Atomic (env : Environment σ) (host : Host σ) : Prop where
  /-- A frame runs above any waiting frames until it reverts or faults. Its rollback leads back
  to the host that it was opened on. -/
  frame : ∀ {message kind pc context context' start last opened between turned waiting ended},
    enter env message kind pc host = .ok (.frame context start) opened →
    Passes env waiting (.running context start waiting) opened
      (.running context' last waiting) between →
    turn env context' last between = .ok (.finish ended) turned → ended.isSuccess = false →
    context' = context ∧ context.checkpoint = opened.journal.size ∧
      ∃ back, Host.rollback context.checkpoint turned = .ok () back ∧ opened.Restores back
  /-- A failed message from outside leaves what was there once its addresses were warm. -/
  outermost : ∀ {message pc result after},
    runMessage env message pc host = .ok result after → result.isSuccess = false →
    ∃ warmed, warmUp (warmFromStart env message) host = .ok () warmed ∧
      warmed.Leaves env.fork message after ∧
      (message.isCreation = false → warmed.Restores after)
  /-- A failed call leaves what was there before its value was sent. -/
  call : ∀ {context frame waiting nested left asked answer answered next resumed mode},
    Interlude env context frame waiting host nested left asked answer answered next resumed →
    nested.kind = .call mode → answer.isSuccess = false →
    ∃ prepared paid before,
      Instruction.prepareCall env.fork context mode frame host = .ok (some prepared, paid) before ∧
      Instruction.sendValue mode prepared.message before = .ok () asked ∧
      asked.Restores answered ∧ before.Restores resumed
  /-- A failed creation leaves the taken nonce and the warm address, also to the frame that asked
  for it. -/
  creation : ∀ {context frame waiting nested left asked answer answered next resumed salted},
    Interlude env context frame waiting host nested left asked answer answered next resumed →
    nested.kind = .create salted → answer.isSuccess = false →
    asked = host ∧ nested.message.isCreation ∧ host.Leaves env.fork nested.message answered ∧
      host.Leaves env.fork nested.message resumed

theorem failures_undone (env : Environment σ) (host : Host σ) (inOrder : host.InOrder) :
    Atomic env host where
  frame enters passes turns _ := frame_undone inOrder enters passes turns
  outermost runs fails := by
    obtain ⟨warmed, warms, spends⟩ := outermost_undone inOrder runs fails
    refine ⟨warmed, warms, spends.leaves, ?_⟩
    intro calls
    exact ((Host.spends_call calls).mp spends).restores
  call interlude kind fails := interlude.call_undone inOrder kind fails
  creation interlude kind fails := by
    obtain ⟨same, creates, first, second⟩ := interlude.creation_undone inOrder kind fails
    exact ⟨same, creates, first.leaves, second.leaves⟩

/-- Code that puts a word into the transient storage, and then reverts. -/
def transientMessage : Message :=
  { Message.blank with
    target := some 0xaa
    gasLimit := 1000
    code := #[0x60, 9, 0x60, 5, 0x5d, 0x60, 0, 0x60, 0, 0xfd] }

theorem failures_undone_reverting : ∃ context frame waiting stored result after warmed,
    Reaches (.blank .cancun) transientMessage 0 (Host.start .empty ())
        (.running context frame waiting) stored ∧
      context.operation? .cancun frame = some .revert ∧ stored.journal.size = 1 ∧
      runMessage (.blank .cancun) transientMessage 0 (Host.start .empty ()) = .ok result after ∧
      result.outcome = .reverted ∧
      warmUp (warmFromStart (.blank .cancun) transientMessage) (Host.start .empty ()) =
        .ok () warmed ∧
      warmed.Restores after := by
  have sees : seenAfter (.blank .cancun) transientMessage 0 5
      (fun context frame stored => (context.operation? .cancun frame, stored.journal.size))
      (Host.start .empty ()) = some (some .revert, 1) := by
    decide +kernel
  obtain ⟨context, frame, waiting, stored, reaches, seen⟩ := reaches_of_seenAfter 5 sees
  obtain ⟨reverts, noted⟩ := Prod.mk.inj seen
  have ends : ((runMessage (.blank .cancun) transientMessage 0).run'
      (Host.start .empty ())).map (·.outcome) = some .reverted := by decide +kernel
  obtain ⟨result, gives, outcome⟩ := Option.map_eq_some_iff.mp ends
  obtain ⟨after, runs⟩ := run'_eq_some.mp gives
  have atomic := failures_undone (.blank .cancun) (Host.start .empty ()) World.empty_inOrder
  obtain ⟨warmed, warms, _, restored⟩ :=
    atomic.outermost runs (by simp [Result.isSuccess, outcome, Outcome.isSuccess])
  exact ⟨context, frame, waiting, stored, result, after, warmed, reaches, reverts, noted, runs,
    outcome, warms, restored rfl⟩

end Evm
