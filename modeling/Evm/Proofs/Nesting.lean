import Evm.Proofs.Boundary
import Evm.Proofs.Steps

/-!
# Nested frames

The frames of an execution are behind each other in the journal: the host of each extends the one
it was opened on, which extends the host that the frame below it left when it asked. The execution
is followed from a frame that was opened above some waiting frames until that frame has its result.
-/

namespace Evm

namespace Host

theorem Extends.inOrder_iff {σ : Type} {base host : Host σ} (extend : base.Extends host) :
    base.InOrder ↔ host.InOrder := by
  obtain ⟨_, move, _⟩ := extend
  unfold Host.InOrder World.InOrder World.fails
  rw [move.isDown_eq]

end Host

namespace Execution

variable {σ : Type} {env : Environment σ}

/-- A frame that asks leaves a host that its receiver marks. A call marks the host before its
value is sent; a creation leaves the host as it is. -/
theorem turn_marks {context : Context} {frame asking : Frame} {host last : Host σ}
    {nested : NestedCall} (inOrder : host.InOrder)
    (turns : turn env context frame host = .ok (.ask nested asking) last) :
    ∃ before, host.Extends before ∧ before.Extends last ∧
      Marks nested.resumption.receiver before ∧
      ((∃ mode prepared after, nested.kind = .call mode ∧ nested.message.isCreation = false ∧
          nested.resumption.receiver ≠ .create ∧
          Instruction.prepareCall env.fork context mode frame host =
            .ok (some prepared, after) before ∧
          Instruction.sendValue mode prepared.message before = .ok () last) ∨
        ∃ salted, nested.kind = .create salted ∧ nested.message.isCreation = true ∧
          nested.resumption.receiver = .create ∧ before = host ∧ last = host) := by
  obtain ⟨made, after, same, _, calls | creates⟩ := turn_asks turns
  · obtain ⟨mode, _, calls⟩ := calls
    obtain ⟨before, prepares, sends⟩ := Instruction.call_ok calls
    obtain ⟨kind, plain, offset, size, receiver⟩ := Instruction.prepareCall_ok prepares
    have notes := (Instruction.prepareCall_keeps Host.notes_stable.toSteady
      InstructionM.lasts_true env.fork context mode).of_ok trivial prepares
    have extend : host.Extends before := notes.2 inOrder
    have extend' := (Instruction.sendValue_serves mode made.message).extends_of_run
      (extend.inOrder inOrder) sends
    rw [same]
    refine ⟨before, extend, extend', ?_, .inl ⟨mode, made, after, kind, plain, ?_, prepares, sends⟩⟩
    · simp [receiver, Marks]
    · simp [receiver]
  · obtain ⟨salted, _, creates⟩ := creates
    obtain ⟨kind, creation, receiver, kept⟩ := Instruction.create_ok inOrder creates
    rw [same, kept]
    refine ⟨host, .refl host, .refl host, ?_, .inr ⟨salted, kind, creation, receiver, rfl, rfl⟩⟩
    simp [receiver, Marks]

/-- A frame that was opened above waiting frames, with the hosts that it comes back to. -/
structure Ground (σ : Type) where
  context : Context
  waiting : List Suspended
  start : Host σ
  opened : Host σ
  anchors : Anchors context start opened

namespace Ground

variable {ground : Ground σ}

/-- A frame with those that wait below it, down to the frame of the ground. -/
inductive Rests (ground : Ground σ) : Context → List Suspended → Host σ → Prop where
  | bottom {host} : ground.opened.Extends host → Rests ground ground.context ground.waiting host
  | above {context start opened suspended waiting before host} :
    Anchors context start opened → opened.Extends host →
    Marks suspended.resumption.receiver before → before.Extends start →
    Rests ground suspended.context waiting before →
    Rests ground context (suspended :: waiting) host

inductive Stands (ground : Ground σ) : Execution → Host σ → Prop where
  | running {context frame waiting host} :
    Rests ground context waiting host → Stands ground (.running context frame waiting) host
  | handing {result suspended waiting before host} :
    Marks suspended.resumption.receiver before → before.Extends host →
    Rests ground suspended.context waiting before →
    Stands ground (.returning result (suspended :: waiting)) host
  | done {result host} :
    ground.start.Extends host →
    (result.isSuccess = false → ground.start.Move ground.start.view [] host) →
    Stands ground (.returning result ground.waiting) host

namespace Rests

variable {context : Context} {waiting : List Suspended} {host after : Host σ}

theorem extended (rests : ground.Rests context waiting host) (extend : host.Extends after) :
    ground.Rests context waiting after := by
  cases rests with
  | bottom first => exact .bottom (first.trans extend)
  | above anchors first marks start rest => exact .above anchors (first.trans extend) marks start rest

theorem suffix (rests : ground.Rests context waiting host) : ground.waiting <:+ waiting := by
  induction rests with
  | bottom => exact List.suffix_refl _
  | above _ _ _ _ _ ih => exact ih.trans (List.suffix_cons _ _)

theorem length_le (rests : ground.Rests context waiting host) :
    ground.waiting.length ≤ waiting.length :=
  rests.suffix.length_le

theorem eq_bottom (rests : ground.Rests context ground.waiting host) :
    context = ground.context ∧ ground.opened.Extends host := by
  generalize same : ground.waiting = waiting at rests
  cases rests with
  | bottom extend => exact ⟨rfl, extend⟩
  | above _ _ _ _ rest =>
    have shorter := rest.length_le
    rw [same] at shorter
    exact absurd shorter (Nat.not_succ_le_self _)

theorem conclude_stands (rests : ground.Rests context waiting host) (inOrder : host.InOrder)
    {ended : Result} (within : Deploys context ended) :
    ∃ result after, conclude env context ended host = .ok result after ∧
      ground.Stands (.returning result waiting) after ∧ after.InOrder ∧
      (ended.Fair context.message →
        result.Fair context.message ∧ ended.gasUsed ≤ result.gasUsed) := by
  cases rests with
  | bottom extend =>
    have openedInOrder := extend.inOrder_iff.mpr inOrder
    obtain ⟨result, after, concludes, extend', undone, fair⟩ :=
      conclude_run env ground.anchors extend openedInOrder within
    have startInOrder := ground.anchors.extend.inOrder_iff.mpr openedInOrder
    exact ⟨result, after, concludes, .done extend' undone, extend'.inOrder startInOrder, fair⟩
  | above anchors extend marks start rest =>
    have openedInOrder := extend.inOrder_iff.mpr inOrder
    obtain ⟨result, after, concludes, extend', _, fair⟩ :=
      conclude_run env anchors extend openedInOrder within
    have startInOrder := anchors.extend.inOrder_iff.mpr openedInOrder
    exact ⟨result, after, concludes, .handing marks (start.trans extend') rest,
      extend'.inOrder startInOrder, fair⟩

theorem enter_stands (rests : ground.Rests context waiting host) (inOrder : host.InOrder)
    {resumption : Resumption} (marks : Marks resumption.receiver host) {asked : Host σ}
    (extend : host.Extends asked) {message : Message} (fits : ¬message.Overflows env.fork)
    (kind : MessageKind) (asking : Frame) :
    ∃ opening after, enter env message kind 0 asked = .ok opening after ∧
      Started env.fork message asked opening after ∧ after.InOrder ∧
      ground.Stands (ofOpening opening (⟨context, asking, resumption⟩ :: waiting)) after := by
  have askedInOrder := extend.inOrder inOrder
  obtain ⟨opening, after, enters, started⟩ := enter_run env message kind 0 askedInOrder fits
  refine ⟨opening, after, enters, started, ?_⟩
  cases opening with
  | result result =>
    obtain ⟨extend', _, _⟩ := started
    exact ⟨extend'.inOrder askedInOrder, .handing marks (extend.trans extend') rests⟩
  | frame inner first =>
    obtain ⟨start, index, spends, anchors, _, _⟩ := started
    have startInOrder := spends.extends.inOrder askedInOrder
    refine ⟨anchors.extend.inOrder startInOrder, .running ?_⟩
    exact .above anchors (.refl after) marks (extend.trans spends.extends) rests

theorem resume_rests {suspended : Suspended} {before answered : Host σ}
    (rests : ground.Rests suspended.context waiting before) (inOrder : before.InOrder)
    (marks : Marks suspended.resumption.receiver before) (extend : before.Extends answered)
    {result : Result} (fits : Fits suspended.resumption.receiver suspended.frame result) :
    ∃ next after, resume env suspended result answered = .ok next after ∧
      ground.Rests suspended.context waiting after ∧ after.InOrder := by
  obtain ⟨next, after, resumes, kept, undone⟩ := resume_run env result marks fits extend inOrder
  have extend' : before.Extends after := by
    by_cases keeps : result.isSuccess ∨ suspended.resumption.receiver = .create
    · exact extend.trans (kept keeps).extends_of_same
    · have fails : result.isSuccess = false := by
        by_contra succeeds
        exact keeps (.inl (by simpa using succeeds))
      exact (undone fails fun creates => keeps (.inr creates)).extends_of_same
  exact ⟨next, after, resumes, rests.extended extend', extend'.inOrder inOrder⟩

end Rests

namespace Stands

variable {execution next last : Execution} {host between after : Host σ}

theorem eq_done {result : Result} (stands : ground.Stands (.returning result ground.waiting) host) :
    ground.start.Extends host ∧
      (result.isSuccess = false → ground.start.Move ground.start.view [] host) := by
  generalize same : ground.waiting = waiting at stands
  cases stands with
  | done extend undone => exact ⟨extend, undone⟩
  | handing _ _ rests =>
    have shorter := rests.length_le
    rw [same] at shorter
    exact absurd shorter (Nat.not_succ_le_self _)

theorem above_or_done (stands : ground.Stands execution host) :
    execution.Above ground.waiting ∨ ∃ result, execution = .returning result ground.waiting := by
  cases stands with
  | running rests => exact .inl rests.suffix
  | handing _ _ rests => exact .inl ⟨_, _, rfl, rests.suffix⟩
  | done => exact .inr ⟨_, rfl⟩

theorem advance_keeps (stands : ground.Stands execution host) (inOrder : host.InOrder)
    (above : execution.Above ground.waiting)
    (advances : advance env execution host = .ok next after) :
    ground.Stands next after ∧ after.InOrder := by
  cases moves_of_advance advances with
  | goOn turns =>
    obtain ⟨rests⟩ := stands
    have extend := turn_extends inOrder turns
    exact ⟨.running (rests.extended extend), extend.inOrder inOrder⟩
  | finish turns concludes =>
    obtain ⟨rests⟩ := stands
    have extend := turn_extends inOrder turns
    obtain ⟨_, _, concludes', stands, inOrder', _⟩ := (rests.extended extend).conclude_stands
      (extend.inOrder inOrder) (deploys_of_conclude concludes)
    rw [concludes] at concludes'
    cases concludes'
    exact ⟨stands, inOrder'⟩
  | @ask _ _ _ _ nested asking _ _ _ turns enters =>
    obtain ⟨rests⟩ := stands
    obtain ⟨before, first, second, marks, _⟩ := turn_marks inOrder turns
    obtain ⟨_, _, enters', _, inOrder', stands⟩ := (rests.extended first).enter_stands
      (first.inOrder inOrder) marks second (not_overflows_of_enter enters) nested.kind asking
    rw [enters] at enters'
    cases enters'
    exact ⟨stands, inOrder'⟩
  | @resume suspended _ waiting _ _ _ resumes =>
    generalize same : suspended :: waiting = all at stands above
    cases stands with
    | handing marks extend rests =>
      cases same
      obtain ⟨_, _, resumes', rests', inOrder'⟩ := rests.resume_rests
        (extend.inOrder_iff.mpr inOrder) marks extend (fits_of_resume resumes)
      rw [resumes] at resumes'
      cases resumes'
      exact ⟨.running rests', inOrder'⟩
    | done => exact absurd above not_above_returned
  | rest => exact ⟨stands, inOrder⟩

theorem passes_keeps (stands : ground.Stands execution host) (inOrder : host.InOrder)
    (passes : Passes env ground.waiting execution host last after) :
    ground.Stands last after ∧ after.InOrder := by
  induction passes with
  | stay => exact ⟨stands, inOrder⟩
  | move above advances _ ih =>
    obtain ⟨stands', inOrder'⟩ := stands.advance_keeps inOrder above advances
    exact ih stands' inOrder'

end Stands

end Ground

theorem spends_of_passes {message : Message} {kind : MessageKind} {pc : Nat} {opening : Opening}
    {waiting : List Suspended} {answer : Result} {host opened after : Host σ}
    (inOrder : host.InOrder) (enters : enter env message kind pc host = .ok opening opened)
    (passes : Passes env waiting (ofOpening opening waiting) opened (.returning answer waiting) after) :
    host.Extends after ∧ (answer.isSuccess = false → host.Spends env.fork message after) := by
  have started := started_of_enter inOrder enters
  cases opening with
  | result result =>
    obtain ⟨extend, spends, _⟩ := started
    obtain ⟨same, rfl⟩ := passes.eq_of_returned
    cases same
    exact ⟨extend, spends⟩
  | frame context frame =>
    obtain ⟨start, index, spends, anchors, _, _⟩ := started
    let ground : Ground σ := ⟨context, waiting, start, opened, anchors⟩
    have openedInOrder := anchors.extend.inOrder (spends.extends.inOrder inOrder)
    have stands : ground.Stands (.running context frame waiting) opened :=
      .running (.bottom (.refl opened))
    obtain ⟨stands', _⟩ := stands.passes_keeps openedInOrder passes
    obtain ⟨extend, undone⟩ := stands'.eq_done
    exact ⟨spends.extends.trans extend, fun fails => Host.Move.trans_same spends (undone fails)⟩

end Execution

end Evm
