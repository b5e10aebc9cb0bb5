import Evm.Proofs.Recursion

/-!
# Restraints

A restraint binds a message, and with it every message below, to leave the world alone. What a
restraint is made of is local: which messages it binds, and why none of the instructions that write
goes through in their frames. What follows is about whole runs.
-/

namespace Evm

variable {σ : Type}

/-- What code can note that does not write to the world. A lax code may write to transient storage,
which is no part of the world. -/
def Change.Spares (lax : Bool) : Change → Prop
  | .warmAddress _ | .warmSlot _ _ => True
  | .transient _ _ _ => lax = true
  | .account _ _ | .code _ _ | .storage _ _ _ => False

namespace Host

structure Spares (lax : Bool) (base host : Host σ) : Prop where
  world_eq : host.store.world = base.store.world
  transient_eq : lax = false → host.transient = base.transient
  noted : ∃ changes, host.journal.toList = base.journal.toList ++ changes ∧
    ∀ change ∈ changes, change.Spares lax

namespace Spares

variable {lax : Bool} {base middle host : Host σ}

theorem refl (host : Host σ) : host.Spares lax host := ⟨rfl, fun _ => rfl, [], by simp, by simp⟩

theorem trans (first : base.Spares lax middle) (second : middle.Spares lax host) :
    base.Spares lax host where
  world_eq := second.world_eq.trans first.world_eq
  transient_eq strict := (second.transient_eq strict).trans (first.transient_eq strict)
  noted := by
    obtain ⟨older, first_eq, allowed⟩ := first.noted
    obtain ⟨newer, second_eq, allowed'⟩ := second.noted
    refine ⟨older ++ newer, by rw [second_eq, first_eq, List.append_assoc], ?_⟩
    intro change noted
    obtain old | new := List.mem_append.mp noted
    · exact allowed change old
    · exact allowed' change new

theorem inOrder (spares : base.Spares lax host) (inOrder : base.InOrder) : host.InOrder := by
  unfold Host.InOrder
  rw [spares.world_eq]
  exact inOrder

theorem size_le (spares : base.Spares lax host) : base.journal.size ≤ host.journal.size := by
  obtain ⟨changes, journal_eq, _⟩ := spares.noted
  have lengths := congrArg List.length journal_eq
  simp only [List.length_append, Array.length_toList] at lengths
  omega

theorem of_push {change : Change} (world_eq : host.store.world = base.store.world)
    (transient_eq : lax = false → host.transient = base.transient)
    (journal_eq : host.journal = base.journal.push change) (allowed : change.Spares lax) :
    base.Spares lax host :=
  ⟨world_eq, transient_eq, [change], by simp [journal_eq], by simpa using allowed⟩

end Spares

/-- A world that is in order is left alone. Any other is changed by each access, since it may fail
the next one. -/
def LeavesAlone (lax : Bool) (base host : Host σ) : Prop := base.InOrder → base.Spares lax host

variable {lax : Bool}

theorem touchAddress_leaves (address : Address) :
    HostM.Keeps (LeavesAlone lax) (Host.touchAddress address : HostM σ Bool) := by
  intro host after value runs _
  obtain ⟨_, _, ⟨⟩, runs⟩ := bind_eq_ok.mp runs
  split at runs
  · cases runs
    exact .refl host
  · cases runs
    exact .of_push rfl (fun _ => rfl) rfl trivial

theorem touchSlot_leaves (address : Address) (key : Word) :
    HostM.Keeps (LeavesAlone lax) (Host.touchSlot address key : HostM σ Bool) := by
  intro host after value runs _
  obtain ⟨_, _, ⟨⟩, runs⟩ := bind_eq_ok.mp runs
  split at runs
  · cases runs
    exact .refl host
  · cases runs
    exact .of_push rfl (fun _ => rfl) rfl trivial

theorem putTransient_leaves (address : Address) (key value : Word) :
    HostM.Keeps (LeavesAlone true) (Host.putTransient address key value : HostM σ Unit) := by
  rintro host _ _ ⟨⟩ _
  exact .of_push rfl (by simp) rfl rfl

theorem leaves_steady : Steady (LeavesAlone lax : Host σ → Host σ → Prop) where
  refl host _ := .refl host
  trans first second inOrder :=
    (first inOrder).trans (second ((first inOrder).inOrder inOrder))
  rereads _ _ same inOrder := ⟨same inOrder, fun _ => rfl, [], by simp, by simp⟩
  reports _ _ _ := ⟨rfl, fun _ => rfl, [], by simp, by simp⟩
  touchAddress := touchAddress_leaves
  touchSlot := touchSlot_leaves

theorem undo_spares {change : Change} {host after : Host σ} (allowed : change.Spares lax)
    (undoes : Host.undo change host = .ok () after) :
    host.Spares lax after ∧ after.journal = host.journal := by
  cases change with
  | account address previous => exact absurd allowed id
  | code address previous => exact absurd allowed id
  | storage address key previous => exact absurd allowed id
  | transient address key previous =>
    cases undoes
    obtain rfl : lax = true := allowed
    exact ⟨⟨rfl, by simp, [], by simp, by simp⟩, rfl⟩
  | warmAddress address =>
    cases undoes
    exact ⟨⟨rfl, fun _ => rfl, [], by simp, by simp⟩, rfl⟩
  | warmSlot address key =>
    cases undoes
    exact ⟨⟨rfl, fun _ => rfl, [], by simp, by simp⟩, rfl⟩

theorem undoAll_spares {changes : List Change} {host after : Host σ}
    (allowed : ∀ change ∈ changes, change.Spares lax)
    (undoes : Host.undoAll changes host = .ok () after) :
    host.Spares lax after ∧ after.journal = host.journal := by
  induction changes generalizing host with
  | nil =>
    cases undoes
    exact ⟨.refl _, rfl⟩
  | cons newest older ih =>
    obtain ⟨_, between, undoes, rest⟩ := bind_eq_ok.mp undoes
    obtain ⟨spares, journal_eq⟩ := undo_spares (allowed newest (by simp)) undoes
    obtain ⟨spares', journal_eq'⟩ := ih (fun change old => allowed change (by simp [old])) rest
    exact ⟨spares.trans spares', journal_eq'.trans journal_eq⟩

theorem rollback_spares {base host after : Host σ} {checkpoint : Nat}
    (spares : base.Spares lax host) (behind : base.journal.size ≤ checkpoint)
    (undoes : Host.rollback checkpoint host = .ok () after) : base.Spares lax after := by
  obtain ⟨changes, journal_eq, allowed⟩ := spares.noted
  obtain ⟨_, _, ⟨⟩, undoes⟩ := bind_eq_ok.mp undoes
  obtain ⟨_, _, ⟨⟩, undoes⟩ := bind_eq_ok.mp undoes
  -- The checkpoint cuts the journal somewhere in what was noted since the base.
  have within : base.journal.toList.length ≤ checkpoint := by simpa using behind
  have undone : host.journal.toList.drop checkpoint =
      changes.drop (checkpoint - base.journal.toList.length) := by
    rw [journal_eq, List.drop_append, List.drop_of_length_le within, List.nil_append]
  have kept : host.journal.toList.take checkpoint =
      base.journal.toList ++ changes.take (checkpoint - base.journal.toList.length) := by
    rw [journal_eq, List.take_append, List.take_of_length_le within]
  rw [undone] at undoes
  obtain ⟨spares', journal_eq'⟩ := undoAll_spares
    (fun change old => allowed change (List.mem_of_mem_drop (List.mem_reverse.mp old))) undoes
  refine ⟨spares'.world_eq.trans spares.world_eq, ?_, ?_⟩
  · intro strict
    exact (spares'.transient_eq strict).trans (spares.transient_eq strict)
  · refine ⟨changes.take (checkpoint - base.journal.toList.length), ?_, ?_⟩
    · rw [journal_eq', ← kept]
      simp
    · intro change old
      exact allowed change (List.mem_of_mem_take old)

end Host

open Execution Instruction InstructionM

/-- Nothing was written since `base`, and the next instruction of the frame writes nothing, not even
if it faults. -/
structure Execution.Refrains (env : Environment σ) (lax : Bool) (base : Host σ) (context : Context)
    (frame : Frame) (host : Host σ) : Prop where
  before : base.Spares lax host
  after : ∀ {made turned}, turn env context frame host = .ok made turned → base.Spares lax turned

/-- A call that sends no value leaves alone what the preparation of a call leaves alone. -/
theorem Instruction.call_keeps_of_unsent {kept : Frame → Prop} {order : Host σ → Host σ → Prop}
    (steady : Host.Steady order) (lasts : Lasts kept) {fork : Fork} {context : Context}
    {mode : CallMode}
    (unsent : ∀ {frame after host last nested}, kept frame →
      (prepareCall fork context mode : InstructionM σ _) frame host =
        .ok (some nested, after) last → mode = .call → nested.message.value = 0) :
    (call fork context mode : InstructionM σ Control).Keeps kept order := by
  refine .bindGiven steady (prepareCall_keeps steady lasts fork context mode) ?_
  intro frame _ host _ prepared holds prepares
  cases prepared with
  | none => exact .done steady _
  | some nested =>
    refine .bind steady (.host ?_) fun _ => .done steady _
    unfold sendValue
    split
    · rw [unsent holds prepares ‹_›]
      exact HostM.Keeps.bind steady (.done steady true) fun _ => .done steady ()
    · exact .done steady ()

/-- What binds messages to spare the world. -/
structure Restraint (σ : Type) (fork : Fork) (lax : Bool) where
  Binds : Message → Prop
  Bare : Frame → Prop
  Silent : Result → Prop
  lasts : Lasts Bare
  isCall : ∀ {message}, Binds message → message.isCreation = false
  starts : ∀ {message index}, Binds message → Bare (.start message index)
  writes : ∀ {context : Context}, Binds context.message →
    WritesKeep Bare (Host.LeavesAlone lax : Host σ → Host σ → Prop) fork context
  calls : ∀ {context mode frame after nested} {host last : Host σ}, Binds context.message →
    Bare frame → prepareCall fork context mode frame host = .ok (some nested, after) last →
    Binds nested.message
  creates : ∀ {context salted frame after nested} {host last : Host σ}, Binds context.message →
    Bare frame → create fork context salted frame host ≠ .ok (.call nested, after) last
  halts : ∀ {frame reason}, Bare frame → Silent (haltedResult frame reason)
  /-- A result that brings nothing with it is silent. -/
  idles : ∀ {message result}, Binds message → result.logs = #[] → result.gasRefund = 0 →
    result.selfDestruct = message.selfDestruct → Silent result
  absorbs : ∀ {frame result}, Bare frame → Silent result → Bare (absorb frame result)

namespace Restraint

variable {env : Environment σ} {lax : Bool} (restraint : Restraint σ env.fork lax) {base : Host σ}

/-- The frame of a bound message. It comes back to no host before `base`. -/
structure Bound (base : Host σ) (context : Context) (frame : Frame) : Prop where
  binds : restraint.Binds context.message
  bare : restraint.Bare frame
  behind : base.journal.size ≤ context.checkpoint
  deployment_eq : context.deployment = none

def Returns (base : Host σ) (receiver : Receiver) : Prop :=
  ∃ offset size checkpoint, receiver = .call offset size checkpoint ∧
    base.journal.size ≤ checkpoint

inductive Stacks (base : Host σ) (floor : List Suspended) : List Suspended → Prop where
  | floor : Stacks base floor floor
  | above {suspended waiting} : restraint.Bound base suspended.context suspended.frame →
    Returns base suspended.resumption.receiver → Stacks base floor waiting →
    Stacks base floor (suspended :: waiting)

def Confines (base : Host σ) (floor : List Suspended) : Execution → Prop
  | .running context frame waiting =>
    restraint.Bound base context frame ∧ restraint.Stacks base floor waiting
  | .returning result waiting => restraint.Silent result ∧ restraint.Stacks base floor waiting

def Allows (base : Host σ) (context : Context) : Turn → Prop
  | .goOn next => restraint.Bound base context next
  | .finish ended => restraint.Silent ended
  | .ask nested asking => restraint.Binds nested.message ∧ restraint.Bound base context asking ∧
    Returns base nested.resumption.receiver

variable {restraint} {context : Context} {frame : Frame} {host after : Host σ}

theorem Bound.of_bare {next : Frame} (bound : restraint.Bound base context frame)
    (bare : restraint.Bare next) : restraint.Bound base context next :=
  ⟨bound.binds, bare, bound.behind, bound.deployment_eq⟩

theorem Bound.asks {nested : NestedCall} {asking : Frame} (inOrder : base.InOrder)
    (bound : restraint.Bound base context frame) (spares : base.Spares lax host)
    (turns : turn env context frame host = .ok (.ask nested asking) after) :
    restraint.Binds nested.message ∧ Returns base nested.resumption.receiver := by
  obtain ⟨made, left, same, _, calls | creates⟩ := turn_asks turns
  · obtain ⟨mode, _, calls⟩ := calls
    obtain ⟨before, prepares, _⟩ := call_ok calls
    have kept : _ ∧ host.LeavesAlone lax before :=
      (prepareCall_keeps Host.leaves_steady restraint.lasts env.fork context mode).of_ok bound.bare
        prepares
    obtain ⟨_, _, offset, size, receiver⟩ := prepareCall_ok prepares
    have binds := restraint.calls bound.binds bound.bare prepares
    rw [same]
    exact ⟨binds, offset, size, _, receiver,
      (spares.trans (kept.2 (spares.inOrder inOrder))).size_le⟩
  · obtain ⟨salted, _, creates⟩ := creates
    exact absurd creates (restraint.creates bound.binds bound.bare)

theorem Bound.turn {made : Turn} (inOrder : base.InOrder)
    (bound : restraint.Bound base context frame) (spares : base.Spares lax host)
    (turns : turn env context frame host = .ok made after) :
    base.Spares lax after ∧ restraint.Allows base context made := by
  have keeps := step_keeps Host.leaves_steady restraint.lasts env (restraint.writes bound.binds)
    frame bound.bare host
  have further {last : Host σ} (leaves : host.LeavesAlone lax last) : base.Spares lax last :=
    spares.trans (leaves (spares.inOrder inOrder))
  cases steps : step env context frame host with
  | ok stepped last =>
    obtain ⟨control, left⟩ := stepped
    simp only [steps] at keeps
    have moved (index : Nat) : restraint.Bare { left with index } := by
      have retains : left.Retains { left with index } :=
        ⟨rfl, rfl, rfl, rfl, Nat.le_max_left ..⟩
      exact restraint.lasts retains keeps.1
    cases control with
    | next =>
      simp only [Execution.turn, steps] at turns
      cases turns
      exact ⟨further keeps.2, bound.of_bare (moved _)⟩
    | jump index =>
      simp only [Execution.turn, steps] at turns
      cases turns
      exact ⟨further keeps.2, bound.of_bare (moved _)⟩
    | halt reason =>
      simp only [Execution.turn, steps] at turns
      cases turns
      exact ⟨further keeps.2, restraint.halts keeps.1⟩
    | revert =>
      simp only [Execution.turn, steps] at turns
      cases turns
      exact ⟨further keeps.2, restraint.idles bound.binds rfl rfl rfl⟩
    | call nested =>
      have asks := turn_of_asks steps
      rw [asks] at turns
      cases turns
      obtain ⟨binds, returns⟩ := bound.asks inOrder spares asks
      exact ⟨further keeps.2, binds, bound.of_bare (moved _), returns⟩
  | error interrupt last =>
    simp only [steps] at keeps
    simp only [Execution.turn, steps] at turns
    -- A fault ends the frame with nothing brought along; a failure gives no turn at all.
    cases interrupt <;> cases turns
    exact ⟨further keeps, restraint.idles bound.binds rfl rfl rfl⟩

theorem Bound.refrains (inOrder : base.InOrder) (bound : restraint.Bound base context frame)
    (spares : base.Spares lax host) : Refrains env lax base context frame host :=
  ⟨spares, fun turns => (bound.turn inOrder spares turns).1⟩

theorem spares_trace (spares : base.Spares lax host) (trace : σ) :
    base.Spares lax { host with trace } :=
  ⟨spares.world_eq, spares.transient_eq, spares.noted⟩

theorem exit_spares {depth : Nat} {result given : Result} (spares : base.Spares lax host)
    (exits : exit env depth result host = .ok given after) :
    given = result ∧ base.Spares lax after := by
  cases exits
  exact ⟨rfl, spares_trace spares _⟩

theorem settle_spares {checkpoint : Nat} {result : Result} (spares : base.Spares lax host)
    (behind : base.journal.size ≤ checkpoint)
    (settles : settle checkpoint result host = .ok () after) : base.Spares lax after := by
  unfold settle at settles
  split at settles
  · cases settles
    exact spares
  · exact Host.rollback_spares spares behind settles

theorem conclude_spares {ended result : Result} (behind : base.journal.size ≤ context.checkpoint)
    (deployment_eq : context.deployment = none) (spares : base.Spares lax host)
    (concludes : conclude env context ended host = .ok result after) :
    result = ended ∧ base.Spares lax after := by
  obtain ⟨_, settled, settles, concludes⟩ := bind_eq_ok.mp concludes
  obtain ⟨answered, _, answers, concludes⟩ := bind_eq_ok.mp concludes
  simp only [deployFor, deployment_eq] at answers
  cases answers
  exact exit_spares (settle_spares spares behind settles) concludes

theorem runPrecompile_spares {message : Message} {contract : Precompile} {result : Result}
    (binds : restraint.Binds message) (spares : base.Spares lax host)
    (runs : runPrecompile env message contract host = .ok result after) :
    base.Spares lax after ∧ restraint.Silent result := by
  obtain ⟨answer, _, rfl, rfl⟩ := runPrecompile_eq_ok.mp runs
  refine ⟨spares_trace spares _, ?_⟩
  unfold answeredResult
  split <;> exact restraint.idles binds rfl rfl rfl

theorem enter_confines {message : Message} {kind : MessageKind} {pc : Nat} {opening : Opening}
    {floor waiting : List Suspended} (inOrder : base.InOrder) (binds : restraint.Binds message)
    (piled : restraint.Stacks base floor waiting) (spares : base.Spares lax host)
    (enters : enter env message kind pc host = .ok opening after) :
    base.Spares lax after ∧ restraint.Confines base floor (ofOpening opening waiting) := by
  obtain ⟨told, announces, runs | opens⟩ := enter_call_ok (restraint.isCall binds) enters
  all_goals
    have spares' : base.Spares lax told :=
      spares.trans
        (announce_keeps Host.leaves_steady env message kind announces (spares.inOrder inOrder))
  · obtain ⟨contract, result, ran, runs, exits, rfl⟩ := runs
    obtain ⟨spares'', silent⟩ := runPrecompile_spares binds spares' runs
    exact ⟨(exit_spares spares'' exits).2, silent, piled⟩
  · obtain ⟨index, rfl, rfl⟩ | ⟨result, concludes, rfl⟩ := openFrame_ok opens
    · exact ⟨spares', ⟨binds, restraint.starts binds, spares'.size_le, rfl⟩, piled⟩
    · obtain ⟨rfl, spares''⟩ := conclude_spares spares'.size_le rfl spares' concludes
      exact ⟨spares'', restraint.idles binds rfl rfl rfl, piled⟩

theorem receiveCall?_bare {next : Frame} {offset size : Nat} {result : Result}
    (bare : restraint.Bare frame) (silent : restraint.Silent result)
    (receives : receiveCall? frame offset size result = some next) : restraint.Bare next := by
  obtain ⟨memory, _, same⟩ := Option.map_eq_some_iff.mp receives
  -- The memory is taken out of the frame before the output is written to it.
  have freed : frame.Retains { frame with memory := .empty } :=
    ⟨rfl, rfl, rfl, rfl, Nat.le_max_left ..⟩
  have bare' := restraint.lasts freed bare
  cases success : result.isSuccess with
  | true =>
    have retains : (absorb { frame with memory := .empty } result).Retains next := by
      rw [← same, if_pos success]
      exact ⟨rfl, rfl, rfl, rfl, Nat.le_max_left ..⟩
    exact restraint.lasts retains (restraint.absorbs bare' silent)
  | false =>
    have retains : Frame.Retains { frame with memory := .empty } next := by
      rw [← same, if_neg (by simp [success])]
      exact ⟨rfl, rfl, rfl, rfl, Nat.le_max_left ..⟩
    exact restraint.lasts retains bare'

theorem receive_spares {next : Frame} {receiver : Receiver} {result : Result}
    (returns : Returns base receiver) (spares : base.Spares lax host)
    (receives : receive frame receiver result host = .ok next after) : base.Spares lax after := by
  obtain ⟨offset, size, checkpoint, rfl, behind⟩ := returns
  exact settle_spares spares behind (receive_call_ok receives).1

theorem receive_bare {next : Frame} {receiver : Receiver} {result : Result}
    (returns : Returns base receiver) (bare : restraint.Bare frame)
    (silent : restraint.Silent result)
    (receives : receive frame receiver result host = .ok next after) : restraint.Bare next := by
  obtain ⟨offset, size, checkpoint, rfl, _⟩ := returns
  exact receiveCall?_bare bare silent (receive_call_ok receives).2

theorem resume_spares {suspended : Suspended} {result : Result} {next : Frame}
    (inOrder : base.InOrder) (returns : Returns base suspended.resumption.receiver) (spares : base.Spares lax host)
    (resumes : resume env suspended result host = .ok next after) : base.Spares lax after := by
  obtain ⟨_, receives, reports⟩ := resume_ok resumes
  have received := receive_spares returns spares receives
  exact received.trans
    (reportPending_keeps Host.leaves_steady env _ _ _ reports (received.inOrder inOrder))

theorem Bound.resume {suspended : Suspended} {result : Result} {next : Frame}
    (bound : restraint.Bound base suspended.context suspended.frame)
    (returns : Returns base suspended.resumption.receiver) (silent : restraint.Silent result)
    (resumes : resume env suspended result host = .ok next after) :
    restraint.Bound base suspended.context next := by
  obtain ⟨_, receives, _⟩ := resume_ok resumes
  have restores : suspended.frame.Retains { suspended.frame with
      gas := suspended.frame.gas.restore (suspended.resumption.gas - result.gasUsed) } :=
    ⟨rfl, rfl, rfl, rfl, Nat.le_max_left ..⟩
  apply bound.of_bare
  exact receive_bare returns (restraint.lasts restores bound.bare) silent receives

theorem Stacks.uncons {floor waiting : List Suspended} {suspended : Suspended}
    (piled : restraint.Stacks base floor (suspended :: waiting)) (above : floor <:+ waiting) :
    restraint.Bound base suspended.context suspended.frame ∧
      Returns base suspended.resumption.receiver ∧ restraint.Stacks base floor waiting := by
  cases piled with
  | floor => exact absurd above.length_le (Nat.not_succ_le_self _)
  | above bound returns rest => exact ⟨bound, returns, rest⟩

theorem advance_confines {floor : List Suspended} {execution next : Execution}
    (inOrder : base.InOrder) (confines : restraint.Confines base floor execution) (spares : base.Spares lax host)
    (above : execution.Above floor) (advances : advance env execution host = .ok next after) :
    base.Spares lax after ∧ restraint.Confines base floor next := by
  cases moves_of_advance advances with
  | goOn turns =>
    obtain ⟨bound, piled⟩ := confines
    obtain ⟨spares', allows⟩ := bound.turn inOrder spares turns
    exact ⟨spares', allows, piled⟩
  | finish turns concludes =>
    obtain ⟨bound, piled⟩ := confines
    obtain ⟨spares', allows⟩ := bound.turn inOrder spares turns
    obtain ⟨rfl, spares''⟩ :=
      conclude_spares bound.behind bound.deployment_eq spares' concludes
    exact ⟨spares'', allows, piled⟩
  | ask turns enters =>
    obtain ⟨bound, piled⟩ := confines
    obtain ⟨spares', binds, asks, returns⟩ := bound.turn inOrder spares turns
    exact enter_confines inOrder binds (.above asks returns piled) spares' enters
  | resume resumes =>
    obtain ⟨silent, piled⟩ := confines
    obtain ⟨_, _, ⟨⟩, suffix⟩ := above
    obtain ⟨bound, returns, piled'⟩ := piled.uncons suffix
    exact ⟨resume_spares inOrder returns spares resumes, bound.resume returns silent resumes, piled'⟩
  | rest => exact ⟨spares, confines⟩

theorem passes_confines {floor : List Suspended} {execution last : Execution}
    (inOrder : base.InOrder) (confines : restraint.Confines base floor execution) (spares : base.Spares lax host)
    (passes : Passes env floor execution host last after) :
    base.Spares lax after ∧ restraint.Confines base floor last := by
  induction passes with
  | stay => exact ⟨spares, confines⟩
  | move above advances _ ih =>
    obtain ⟨spares', confines'⟩ := advance_confines inOrder confines spares above advances
    exact ih confines' spares'

/-- A bound message from outside leaves the world alone at any time. -/
theorem reaches_confines {message : Message} {pc : Nat} {execution : Execution} {reached : Host σ}
    (inOrder : host.InOrder) (binds : restraint.Binds message)
    (reaches : Reaches env message pc host execution reached) :
    host.Spares lax reached ∧ restraint.Confines host [] execution := by
  obtain ⟨warmed, opening, opened, warms, enters, passes⟩ := reaches
  have warm : host.Spares lax warmed := by
    cases warms
    exact ⟨rfl, fun _ => rfl, [], by simp, by simp⟩
  obtain ⟨spares, confines⟩ := enter_confines inOrder binds .floor warm enters
  exact passes_confines inOrder confines spares passes

end Restraint

end Evm
