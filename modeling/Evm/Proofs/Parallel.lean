import Evm.Proofs.Comparison
import Evm.Proofs.Evaluation
import Mathlib.Data.List.Forall2

/-!
# Runs side by side

Two hosts take the same steps, as long as their stores are like each other, what their traces tell
is, and they have all else in common; their tracers may differ. A tracer that is not enabled hears
less, so that a frame may wait without the step that the other one has to report; nothing else
differs.
-/

namespace Evm

variable {σ τ α β γ δ : Type}

namespace Instruction

open InstructionM InstructionM.Matches

variable {how : Comparison σ τ} (matching : Store.Matching how.strict how.like) (fork : Fork)
  (context : Context)

include matching

theorem inspected_matches (address : Address) (what : Inspection) :
    HostM.Matches how Eq (inspected address what) (inspected address what) := by
  cases what with
  | balance => exact (HostM.Matches.account matching address).bind fun _ => .same _
  | codeSize => exact (HostM.Matches.code matching address).bind fun _ => .same _
  | codeHash => exact (HostM.Matches.account matching address).bind fun _ => .same _

theorem inspect_matches (what : Inspection) :
    Matches how Eq (inspect fork what) (inspect fork what) := by
  refine .bind (lift _) fun address => ?_
  refine .bind (host (.accessAddress fork address)) fun access => ?_
  refine .bind (lift _) fun _ => ?_
  exact .bind (host (inspected_matches matching address what)) fun value => lift _

theorem selfBalance_matches :
    Matches how Eq (selfBalance fork context) (selfBalance fork context) := by
  refine .bind (lift _) fun _ => ?_
  exact .bind (host (.account matching context.self)) fun account => lift _

theorem externalCodeCopy_matches :
    Matches how Eq (externalCodeCopy fork) (externalCodeCopy fork) := by
  refine .bind (lift _) fun address => .bind (lift _) fun target => ?_
  refine .bind (lift _) fun start => .bind (lift _) fun size => .bind (lift _) fun range => ?_
  refine .bind (host (.accessAddress fork address)) fun access => ?_
  refine .bind (lift _) fun _ => .bind (lift _) fun _ => ?_
  exact .bind (host (.code matching address)) fun code => lift _

theorem storageLoad_matches :
    Matches how Eq (storageLoad fork context) (storageLoad fork context) := by
  refine .bind (lift _) fun key => ?_
  refine .bind (host (.accessSlot fork context.self key)) fun access => ?_
  refine .bind (lift _) fun _ => ?_
  exact .bind (host (.slot matching context.self key)) fun value => lift _

theorem storageStore_matches :
    Matches how Eq (storageStore fork context) (storageStore fork context) := by
  refine .bind (lift _) fun _ => .bind current fun frame => .bind (lift _) fun _ => ?_
  refine .bind (lift _) fun key => .bind (lift _) fun new => ?_
  refine .bind (host (.slot matching context.self key)) fun now => ?_
  refine .bind (host (.initialSlot matching context.self key)) fun initial => ?_
  refine .bind (host (.accessColdSlot fork context.self key)) fun access => ?_
  refine .bind (lift _) fun _ => .bind (host ?_) fun _ => update _
  split
  · exact .same ()
  · exact .putSlot matching context.self key new

omit matching in
theorem transientLoad_matches :
    Matches how Eq (transientLoad fork context) (transientLoad fork context) := by
  refine .bind (lift _) fun _ => .bind (lift _) fun key => ?_
  exact .bind (host (.transientSlot context.self key)) fun value => lift _

omit matching in
theorem transientStore_matches :
    Matches how Eq (transientStore fork context) (transientStore fork context) := by
  refine .bind (lift _) fun _ => .bind (lift _) fun _ => ?_
  refine .bind (lift _) fun key => .bind (lift _) fun value => ?_
  exact host (.putTransient context.self key value)

theorem destructPrice_matches (heir : Address) (balance : Word) :
    HostM.Matches how Eq (destructPrice fork heir balance) (destructPrice fork heir balance) := by
  unfold destructPrice
  split
  · exact .same _
  · exact (HostM.Matches.account matching heir).bind fun _ => .same _

theorem bequeath_matches (self heir : Address) (balance : Word) :
    HostM.Matches how Eq (bequeath self heir balance) (bequeath self heir balance) := by
  unfold bequeath
  split
  · exact (HostM.Matches.transfer matching self heir balance).bind fun _ => .same _
  · exact .same ()

theorem selfDestruct_matches :
    Matches how Eq (selfDestruct fork context) (selfDestruct fork context) := by
  refine .bind (lift _) fun _ => .bind (lift _) fun heir => ?_
  refine .bind (host (.accessCold fork heir)) fun access => ?_
  refine .bind (host (.account matching context.self)) fun account => ?_
  refine .bind (host (destructPrice_matches matching fork heir account.balance)) fun price => ?_
  refine .bind (lift _) fun _ => ?_
  refine .bind (host (bequeath_matches matching context.self heir account.balance)) fun _ => ?_
  exact update _

theorem callPrice_matches (mode : CallMode) (target : Address) (value : Word) :
    HostM.Matches how Eq (callPrice fork mode target value) (callPrice fork mode target value) := by
  unfold callPrice
  refine (HostM.Matches.accessAddress fork target).bind fun access => ?_
  split
  · exact .same _
  · dsimp only
    split
    · exact (HostM.Matches.account matching target).bind fun _ => .same _
    · exact .same _

theorem prepareCall_matches (mode : CallMode) :
    Matches how Eq (prepareCall fork context mode) (prepareCall fork context mode) := by
  refine .bind (lift _) fun operands => .bind (lift _) fun _ => ?_
  refine .bind (host (callPrice_matches matching fork mode _ _)) fun price => ?_
  refine .bind (lift _) fun gas => ?_
  refine .bind (host (.account matching context.self)) fun account => ?_
  split
  · exact .bind (lift _) fun _ => same none
  · refine .bind (lift _) fun data => ?_
    refine .bind (host (.code matching operands.target)) fun code => ?_
    exact .bind (host .checkpoint) fun checkpoint => .bind current fun frame => same _

theorem sendValue_matches (mode : CallMode) (message : Message) :
    HostM.Matches how Eq (sendValue mode message) (sendValue mode message) := by
  unfold sendValue
  split
  · exact (HostM.Matches.transfer matching _ _ _).bind fun _ => .same _
  · exact .same ()

theorem call_matches (mode : CallMode) :
    Matches how Eq (call fork context mode) (call fork context mode) := by
  refine .bind (prepareCall_matches matching fork context mode) fun prepared => ?_
  cases prepared with
  | none => exact same _
  | some nested =>
    exact .bind (host (sendValue_matches matching mode nested.message)) fun _ => same _

theorem create_matches (salted : Bool) :
    Matches how Eq (create fork context salted) (create fork context salted) := by
  refine .bind (lift _) fun _ => .bind (lift _) fun operands => .bind (lift _) fun code => ?_
  refine .bind (host (.account matching context.self)) fun account => ?_
  split
  · exact .bind (lift _) fun _ => same _
  · exact .bind current fun frame => .bind (lift _) fun _ => .bind current fun frame => same _

end Instruction

/-! ## Tracers -/

namespace Environment

variable (env : Environment σ) (tracer : Tracer τ)

def tracedBy : Environment τ := ⟨env.fork, env.block, env.transaction, env.curve, tracer⟩

@[simp] theorem tracedBy_fork : (env.tracedBy tracer).fork = env.fork := rfl

@[simp] theorem tracedBy_curve : (env.tracedBy tracer).curve = env.curve := rfl

@[simp] theorem tracedBy_tracer : (env.tracedBy tracer).tracer = tracer := rfl

end Environment

/-- A nested message, but for the step that waits for it if the tracers hear of different ones. -/
inductive Control.Alike (told : Prop) : Control → Control → Prop where
  | same {control} : Alike told control control
  | call {nested step} : (told → step = nested.resumption.step) →
    Alike told (.call nested)
      (.call { nested with resumption := { nested.resumption with step } })

inductive Suspended.Alike (told : Prop) : Suspended → Suspended → Prop where
  | intro {suspended step} : (told → step = suspended.resumption.step) →
    Alike told suspended
      { suspended with resumption := { suspended.resumption with step } }

/-- The same frames run and wait, but for the steps that they wait with. -/
inductive Execution.Alike (told : Prop) : Execution → Execution → Prop where
  | running {context frame waiting waiting'} :
    List.Forall₂ (Suspended.Alike told) waiting waiting' →
    Alike told (.running context frame waiting) (.running context frame waiting')
  | returning {result waiting waiting'} : List.Forall₂ (Suspended.Alike told) waiting waiting' →
    Alike told (.returning result waiting) (.returning result waiting')

section Alike

variable {told : Prop}

theorem Control.Alike.eq {control other : Control} (alike : control.Alike told other)
    (tell : told) : control = other := by
  cases alike with
  | same => rfl
  | call same => rw [same tell]

theorem Suspended.Alike.refl (suspended : Suspended) : suspended.Alike told suspended :=
  .intro fun _ => rfl

theorem Suspended.Alike.eq {suspended other : Suspended} (alike : suspended.Alike told other)
    (tell : told) : suspended = other := by
  obtain ⟨same⟩ := alike
  rw [same tell]

theorem Execution.Alike.refl (execution : Execution) : execution.Alike told execution := by
  cases execution with
  | running context frame waiting => exact .running (List.forall₂_same.mpr fun _ _ => .refl _)
  | returning result waiting => exact .returning (List.forall₂_same.mpr fun _ _ => .refl _)

theorem Execution.Alike.eq {execution other : Execution} (alike : execution.Alike told other)
    (tell : told) : execution = other := by
  have same {waiting waiting' : List Suspended}
      (waits : List.Forall₂ (Suspended.Alike told) waiting waiting') : waiting = waiting' :=
    List.forall₂_eq_eq_eq ▸ waits.imp fun _ _ alike => alike.eq tell
  cases alike with
  | running waits => rw [same waits]
  | returning waits => rw [same waits]

end Alike

section Steps

open InstructionM InstructionM.Matches Instruction

variable {how : Comparison σ τ} (matching : Store.Matching how.strict how.like)
  (env : Environment σ) (tracer : Tracer τ) (context : Context)

theorem thenNext_matches {action : InstructionM σ Unit} {other : InstructionM τ Unit}
    (matched : Matches how Eq action other) :
    Matches how Eq (thenNext action) (thenNext other) :=
  .bind matched fun _ => same _

include matching

theorem execute_matches (instruction : Instruction) (operation : Operation) :
    Matches how Eq (execute env context instruction operation)
      (execute (env.tracedBy tracer) context instruction operation) := by
  cases operation with
  | stop => exact same _
  | inspect what => exact thenNext_matches (inspect_matches matching _ what)
  | selfBalance => exact thenNext_matches (selfBalance_matches matching _ context)
  | externalCodeCopy => exact thenNext_matches (externalCodeCopy_matches matching _)
  | pop => exact thenNext_matches (.bind (lift _) fun _ => .bind (lift _) fun _ => same _)
  | storageLoad => exact thenNext_matches (storageLoad_matches matching _ context)
  | storageStore => exact thenNext_matches (storageStore_matches matching _ context)
  | transientLoad => exact thenNext_matches (transientLoad_matches _ context)
  | transientStore => exact thenNext_matches (transientStore_matches _ context)
  | jump => exact lift _
  | jumpIf => exact lift _
  | create salted => exact create_matches matching _ context salted
  | call mode => exact call_matches matching _ context mode
  | ret => exact lift _
  | revert => exact lift _
  | invalid => exact lift _
  | selfDestruct => exact .bind (selfDestruct_matches matching _ context) fun _ => same _
  | _ => exact thenNext_matches (lift _)

end Steps

section Reports

variable {how : Comparison σ τ} {env : Environment σ} {tracer : Tracer τ}
  (tracers : how.Tracers env.tracer tracer)

include tracers

theorem emit_matches (event : Event) :
    HostM.Matches how Eq (Host.emit env event) (Host.emit (env.tracedBy tracer) event) :=
  .changing fun hosts => { hosts with trace := tracers.both event hosts.trace }

omit tracers in
theorem Comparison.Tracers.apart (tracers : how.Tracers env.tracer tracer) {host : Host σ}
    {twin : Host τ} (hosts : how.Hosts host twin)
    (differ : tracer.enabled twin.trace ≠ env.tracer.enabled host.trace) : ¬how.together :=
  fun together => differ (tracers.enabled together hosts.trace)

theorem emit_left (apart : ¬how.together) (event : Event) :
    HostM.Matches how Eq (Host.emit env event) (pure () : HostM τ Unit) :=
  fun _ _ hosts => .ok rfl { hosts with trace := tracers.left apart event hosts.trace }

theorem emit_right (apart : ¬how.together) (event : Event) :
    HostM.Matches how Eq (pure () : HostM σ Unit) (Host.emit (env.tracedBy tracer) event) :=
  fun _ _ hosts => .ok rfl { hosts with trace := tracers.right apart event hosts.trace }

theorem reportStep_matches (context : Context) (step : PendingStep) (control : Control) :
    InstructionM.Matches how (Control.Alike how.together) (reportStep env context step control)
      (reportStep (env.tracedBy tracer) context step control) := by
  cases control with
  | call nested => exact .done .same
  | _ =>
    exact .bind .current fun frame => .bind (.host (emit_matches tracers _)) fun _ => .done .same

theorem reportStep_left (apart : ¬how.together) (context : Context) (step : PendingStep)
    (control : Control) :
    InstructionM.Matches how (Control.Alike how.together) (reportStep env context step control)
      (pure control) := by
  cases control with
  | call nested => exact .done (.call fun together => absurd together apart)
  | _ =>
    intro frame host twin hosts
    exact (InstructionM.Matches.host (emit_left tracers apart _) frame hosts).bind
      fun _ _ _ _ _ hosts' => .ok ⟨.same, rfl⟩ hosts'

theorem reportStep_right (apart : ¬how.together) (context : Context) (step : PendingStep)
    (control : Control) :
    InstructionM.Matches how (Control.Alike how.together) (pure control)
      (reportStep (env.tracedBy tracer) context step control) := by
  cases control with
  | call nested => exact .done (.call fun together => absurd together apart)
  | _ =>
    intro frame host twin hosts
    exact (InstructionM.Matches.host (emit_right tracers apart _) frame hosts).bind
      fun _ _ _ _ _ hosts' => .ok ⟨.same, rfl⟩ hosts'

theorem report_matches (context : Context) (instruction : Instruction) (operation : Operation)
    (used : Nat) (control : Control) :
    InstructionM.Matches how (Control.Alike how.together)
      (report env context instruction operation used control)
      (report (env.tracedBy tracer) context instruction operation used control) := by
  intro frame host twin hosts
  rw [report_run, report_run, Environment.tracedBy_tracer]
  by_cases one : env.tracer.enabled host.trace <;> by_cases two : tracer.enabled twin.trace
  · rw [if_pos one, if_pos two]
    exact reportStep_matches tracers context _ control frame hosts
  · rw [if_pos one, if_neg two]
    exact reportStep_left tracers (tracers.apart hosts (by simp [one, two])) context _ control
      frame hosts
  · rw [if_neg one, if_pos two]
    exact reportStep_right tracers (tracers.apart hosts (by simp [one, two])) context _ control
      frame hosts
  · rw [if_neg one, if_neg two]
    exact .ok ⟨.same, rfl⟩ hosts

theorem exit_matches (depth : Nat) (result : Result) :
    HostM.Matches how Eq (Execution.exit env depth result)
      (Execution.exit (env.tracedBy tracer) depth result) :=
  (emit_matches tracers _).bind fun _ => .same result

theorem announce_matches (message : Message) (kind : MessageKind) :
    HostM.Matches how Eq (Execution.announce env message kind)
      (Execution.announce (env.tracedBy tracer) message kind) := by
  intro host twin hosts
  rw [Execution.announce_eq, Execution.announce_eq, Environment.tracedBy_tracer]
  by_cases one : env.tracer.enabled host.trace <;> by_cases two : tracer.enabled twin.trace
  · rw [if_pos one, if_pos two]
    exact emit_matches tracers _ hosts
  · rw [if_pos one, if_neg two]
    exact emit_left tracers (tracers.apart hosts (by simp [one, two])) _ hosts
  · rw [if_neg one, if_pos two]
    exact emit_right tracers (tracers.apart hosts (by simp [one, two])) _ hosts
  · rw [if_neg one, if_neg two]
    exact .ok rfl hosts

theorem runPrecompile_matches (message : Message) (contract : Precompile) :
    HostM.Matches how Eq (Execution.runPrecompile env message contract)
      (Execution.runPrecompile (env.tracedBy tracer) message contract) := by
  unfold Execution.runPrecompile
  rw [Environment.tracedBy_fork, Environment.tracedBy_curve]
  split
  · exact .raise .breach
  · exact (emit_matches tracers _).bind fun _ => .same _

theorem consult_matches (message : Message) :
    HostM.Matches how Eq (Execution.consult env message)
      (Execution.consult (env.tracedBy tracer) message) := by
  unfold Execution.consult
  rw [Environment.tracedBy_fork]
  split
  · exact runPrecompile_matches tracers message _
  · exact .same _

theorem reportPending_matches (depth : Nat) (gas : Meter) {step other : Option PendingStep}
    (same : how.together → other = step) :
    HostM.Matches how Eq (Execution.reportPending env depth gas step)
      (Execution.reportPending (env.tracedBy tracer) depth gas other) := by
  by_cases told : how.together
  · obtain rfl := same told
    cases other with
    | none => exact .same ()
    | some step => exact emit_matches tracers _
  · cases step with
    | none =>
      cases other with
      | none => exact .same ()
      | some step => exact emit_right tracers told _
    | some step =>
      cases other with
      | none => exact emit_left tracers told _
      | some other => exact (emit_left tracers told _).bind fun _ => emit_right tracers told _

end Reports

/-! ## Executions -/

namespace Execution

variable {how : Comparison σ τ} (matching : Store.Matching how.strict how.like)

section

include matching

theorem settle_matches (checkpoint : Nat) (result : Result) :
    HostM.Matches how Eq (settle checkpoint result) (settle checkpoint result) := by
  unfold settle
  split
  · exact .same ()
  · exact .rollback matching checkpoint

variable (env : Environment σ) (tracer : Tracer τ)

theorem deploy_matches (message : Message) (deployment : Deployment) (result : Result) :
    HostM.Matches how Eq (deploy env message deployment result)
      (deploy (env.tracedBy tracer) message deployment result) := by
  unfold deploy
  split
  · dsimp only
    split
    · exact .raise .breach
    · rw [Environment.tracedBy_fork]
      split
      · exact (HostM.Matches.rollback matching _).bind fun _ => .same _
      · refine (HostM.Matches.account matching _).bind fun _ => ?_
        refine (HostM.Matches.putAccount matching _ _).bind fun _ => ?_
        exact (HostM.Matches.putCode matching _ _).bind fun _ => .same _
  · exact (HostM.Matches.rollback matching _).bind fun _ => .same _

theorem deployFor_matches (context : Context) (result : Result) :
    HostM.Matches how Eq (deployFor env context result)
      (deployFor (env.tracedBy tracer) context result) := by
  unfold deployFor
  split
  · exact deploy_matches matching env tracer _ _ result
  · exact .same result

theorem claimAddress_matches (message : Message) :
    HostM.Matches how Eq (claimAddress env message)
      (claimAddress (env.tracedBy tracer) message) := by
  refine (HostM.Matches.account matching _).bind fun account => ?_
  split
  · exact .same none
  · refine (HostM.Matches.putAccount matching _ _).bind fun _ => ?_
    rw [Environment.tracedBy_fork]
    split
    · exact (HostM.Matches.touchAddress _).bind fun _ => .same _
    · exact .same _

theorem makeAccount_matches (message : Message) (deployment : Deployment) :
    HostM.Matches how Eq (makeAccount message deployment) (makeAccount message deployment) := by
  refine (HostM.Matches.account matching _).bind fun account => ?_
  split
  · exact .same _
  · refine (HostM.Matches.putAccount matching _ _).bind fun _ => ?_
    refine (HostM.Matches.transfer matching _ _ _).bind fun sent => ?_
    split
    · exact .same none
    · exact (HostM.Matches.rollback matching _).bind fun _ => .same _

theorem beginCreate_matches (message : Message) :
    HostM.Matches how Eq (beginCreate env message)
      (beginCreate (env.tracedBy tracer) message) := by
  refine (claimAddress_matches matching env tracer message).bind fun claimed => ?_
  cases claimed with
  | none => exact .same _
  | some address =>
    refine HostM.Matches.checkpoint.bind fun checkpoint => ?_
    refine (makeAccount_matches matching message _).bind fun cause => ?_
    cases cause <;> exact .same _

theorem receive_matches (frame : Frame) (receiver : Receiver) (result : Result) :
    HostM.Matches how Eq (receive frame receiver result) (receive frame receiver result) := by
  cases receiver with
  | call offset size checkpoint =>
    refine (settle_matches matching checkpoint result).bind fun _ => ?_
    split
    · exact .same _
    · exact .raise .breach
  | create => exact .same _

end

variable {env : Environment σ} {tracer : Tracer τ} (tracers : how.Tracers env.tracer tracer)

include matching tracers

theorem conclude_matches (context : Context) (result : Result) :
    HostM.Matches how Eq (conclude env context result)
      (conclude (env.tracedBy tracer) context result) :=
  (settle_matches matching _ result).bind fun _ =>
    (deployFor_matches matching env tracer context result).bind fun _ => exit_matches tracers _ _

theorem openFrame_matches (message : Message) (deployment : Option Deployment) (pc : Nat) :
    HostM.Matches how Eq (openFrame env message deployment pc)
      (openFrame (env.tracedBy tracer) message deployment pc) := by
  refine HostM.Matches.checkpoint.bind fun checkpoint => ?_
  dsimp only
  split
  · exact .same _
  · exact (conclude_matches matching tracers _ _).bind fun _ => .same _

theorem enter_matches (message : Message) (kind : MessageKind) (pc : Nat) :
    HostM.Matches how Eq (enter env message kind pc)
      (enter (env.tracedBy tracer) message kind pc) := by
  refine (announce_matches tracers message kind).bind fun _ => ?_
  split
  · refine (beginCreate_matches matching env tracer message).bind fun begun => ?_
    split
    · exact (exit_matches tracers _ _).bind fun _ => .same _
    · exact openFrame_matches matching tracers _ _ pc
  · rw [Environment.tracedBy_fork]
    split
    · exact (consult_matches tracers message).bind fun _ =>
        (exit_matches tracers _ _).bind fun _ => .same _
    · exact openFrame_matches matching tracers message none pc

theorem resume_matches {suspended other : Suspended}
    (alike : suspended.Alike how.together other) (result : Result) :
    HostM.Matches how Eq (resume env suspended result)
      (resume (env.tracedBy tracer) other result) := by
  obtain ⟨same⟩ := alike
  exact (receive_matches matching _ _ result).bind fun _ =>
    (reportPending_matches tracers _ _ same).bind fun _ => .same _

theorem step_matches (context : Context) :
    InstructionM.Matches how (Control.Alike how.together)
      (step env context) (step (env.tracedBy tracer) context) := by
  refine .bind .current fun frame => ?_
  split
  · exact .done .same
  rw [Environment.tracedBy_fork]
  split
  · exact (InstructionM.Matches.lift _).mono fun _ _ same => same ▸ .same
  refine .bind (.lift _) fun _ => .bind .current fun frame => ?_
  refine .bind (execute_matches matching env tracer context _ _) fun control => ?_
  exact report_matches tracers context _ _ _ control

inductive Turn.Alike (told : Prop) : Turn → Turn → Prop where
  | same {made} : Alike told made made
  | ask {nested frame step} : (told → step = nested.resumption.step) →
    Alike told (.ask nested frame)
      (.ask { nested with resumption := { nested.resumption with step } } frame)

omit matching tracers in
theorem Turn.Alike.eq {told : Prop} {made other : Turn} (alike : made.Alike told other)
    (tell : told) : made = other := by
  cases alike with
  | same => rfl
  | ask same => rw [same tell]

theorem turn_matches (context : Context) (frame : Frame) :
    HostM.Matches how (Turn.Alike how.together)
      (turn env context frame) (turn (env.tracedBy tracer) context frame) := by
  intro host twin hosts
  have ends := step_matches matching tracers context frame hosts
  unfold turn
  generalize step env context frame host = one at ends
  generalize step (env.tracedBy tracer) context frame twin = two at ends
  cases ends with
  | @ok given given' _ _ agrees hosts' =>
    obtain ⟨control, left⟩ := given
    obtain ⟨control', _⟩ := given'
    obtain ⟨alike, rfl⟩ := agrees
    cases alike with
    | same => cases control <;> exact .ok .same hosts'
    | call same => exact .ok (.ask same) hosts'
  | @error cause _ _ hosts' =>
    cases cause with
    | fault cause => exact .ok .same hosts'
    | failure failure => exact .error hosts'
  | @excuse cause _ _ excused =>
    cases cause with
    | fault cause => exact absurd excused id
    | failure failure => exact .excuse excused

omit matching tracers in
theorem alike_ofOpening {told : Prop} {waiting waiting' : List Suspended} (opening : Opening)
    (alike : List.Forall₂ (Suspended.Alike told) waiting waiting') :
    (ofOpening opening waiting).Alike told (ofOpening opening waiting') := by
  cases opening with
  | frame context frame => exact .running alike
  | result result => exact .returning alike

theorem advance_matches {execution other : Execution}
    (alike : execution.Alike how.together other) :
    HostM.Matches how (Execution.Alike how.together)
      (advance env execution) (advance (env.tracedBy tracer) other) := by
  cases alike with
  | @running context frame waiting waiting' waits =>
    rw [advance_running, advance_running]
    refine (turn_matches matching tracers context frame).bindGiven fun made made' alike => ?_
    cases alike with
    | same =>
      cases made with
      | goOn next => exact .done (.running waits)
      | finish ended =>
        exact (conclude_matches matching tracers context ended).bind fun _ => .done (.returning waits)
      | ask nested asking =>
        refine (enter_matches matching tracers _ _ 0).bind fun opening => .done ?_
        exact alike_ofOpening opening (.cons (.intro fun _ => rfl) waits)
    | ask same =>
      refine (enter_matches matching tracers _ _ 0).bind fun opening => .done ?_
      exact alike_ofOpening opening (.cons (.intro same) waits)
  | returning waits =>
    cases waits with
    | nil => exact .done (.returning .nil)
    | cons waits rest =>
      refine (resume_matches matching tracers waits _).bind fun next => ?_
      obtain ⟨same⟩ := waits
      exact .done (.running rest)

theorem run_matches (fuel : Nat) {execution other : Execution}
    (alike : execution.Alike how.together other) :
    HostM.Matches how Eq (run env fuel execution) (run (env.tracedBy tracer) fuel other) := by
  induction fuel generalizing execution other with
  | zero =>
    cases alike with
    | running waits => exact .raise .unfinished
    | returning waits =>
      cases waits with
      | nil => exact .same _
      | cons => exact .raise .unfinished
  | succ fuel ih =>
    have next := (advance_matches matching tracers alike).bindGiven fun _ _ alike => ih alike
    cases alike with
    | running waits => exact next
    | returning waits =>
      cases waits with
      | nil => exact .same _
      | cons => exact next

end Execution

section Messages

open Execution

variable {how : Comparison σ τ} (matching : Store.Matching how.strict how.like)
  {env : Environment σ} {tracer : Tracer τ} (tracers : how.Tracers env.tracer tracer)

theorem warmFromStart_tracedBy (message : Message) :
    warmFromStart (env.tracedBy tracer) message = warmFromStart env message := rfl

theorem warmUp_matches (addresses : List Address) :
    HostM.Matches how Eq (warmUp addresses) (warmUp addresses) :=
  .changing fun hosts =>
    { hosts with warmAddresses := congrArg (·.insertMany addresses) hosts.warmAddresses }

include matching tracers

theorem runMessage_matches (message : Message) (pc : Nat) :
    HostM.Matches how Eq (runMessage env message pc)
      (runMessage (env.tracedBy tracer) message pc) := by
  unfold runMessage
  rw [warmFromStart_tracedBy]
  refine (warmUp_matches _).bind fun _ => ?_
  refine (enter_matches matching tracers message _ pc).bind fun opening => ?_
  exact run_matches matching tracers _ (alike_ofOpening opening .nil)

end Messages

namespace HostM

variable {ρ : Type}

/-- Serves requests in turn, each on the host that the one before it has left, also by failing. -/
def inTurn (serve : ρ → HostM σ α) :
    List ρ → Host σ → List (EStateM.Result Failure (Host σ) α)
  | [], _ => []
  | request :: rest, host =>
    match serve request host with
    | .ok value after => .ok value after :: inTurn serve rest after
    | .error failure after => .error failure after :: inTurn serve rest after

theorem inTurn_one (serve : ρ → HostM σ α) (request : ρ) (host : Host σ) :
    inTurn serve [request] host = [serve request host] := by
  unfold inTurn inTurn
  cases serve request host <;> rfl

theorem inTurn_alike {states : Host σ → Host τ → Prop} {serve : ρ → HostM σ α}
    {serve' : ρ → HostM τ α}
    (kept : ∀ request {host twin}, states host twin →
      EndAlike states (serve request host) (serve' request twin))
    (requests : List ρ) {host : Host σ} {twin : Host τ} (alike : states host twin) :
    List.Forall₂ (EndAlike states) (inTurn serve requests host) (inTurn serve' requests twin) := by
  induction requests generalizing host twin with
  | nil => exact .nil
  | cons request rest ih =>
    have ends := kept request alike
    unfold inTurn
    generalize serve request host = one at ends
    generalize serve' request twin = two at ends
    cases ends with
    | ok alike => exact .cons (.ok alike) (ih alike)
    | error alike => exact .cons (.error alike) (ih alike)

end HostM

def runMessages (env : Environment σ) (messages : List (Message × Nat)) :
    Host σ → List (EStateM.Result Failure (Host σ) Result) :=
  HostM.inTurn (fun request => runMessage env request.1 request.2) messages

end Evm
