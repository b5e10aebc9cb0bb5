import Evm.Proofs.Retention
import Evm.Proofs.View

/-!
# What instructions leave alone

Most instructions read and touch, and do not write. They keep every order of hosts that reading and
touching keep, and every property of a frame that lasts while the frame retains what it has. The
instructions that write keep what their writes keep.
-/

namespace Evm

variable {σ α β : Type}

/-! ## Hosts -/

def HostM.Keeps (order : Host σ → Host σ → Prop) (action : HostM σ α) : Prop :=
  ∀ ⦃host after : Host σ⦄ ⦃value : α⦄, action host = .ok value after → order host after

namespace Store

def Reads (action : Action α) : Prop :=
  ∀ ⦃store after : Store⦄ ⦃value : α⦄, action store = .ok value after → store.world.InOrder →
    after.world = store.world

theorem read_reads (query : World → Except Failure α) : Reads (Store.read query) := by
  intro store after value runs inOrder
  unfold Store.read at runs
  split at runs <;> cases runs
  rw [tick_of_inOrder inOrder]

theorem get_reads (address : Address) (key : Word) : Reads (Store.get address key) := by
  intro store after value runs inOrder
  obtain ⟨_, between, reads, runs⟩ := bind_eq_ok.mp runs
  have same : between.world = store.world := read_reads _ reads inOrder
  cases runs
  exact same

theorem initial_reads (address : Address) (key : Word) : Reads (Store.initial address key) := by
  intro store after value runs inOrder
  obtain ⟨_, _, ⟨⟩, runs⟩ := bind_eq_ok.mp runs
  cases known : store.initials[(address, key)]? with
  | some found =>
    simp only [known] at runs
    cases runs
    rfl
  | none =>
    simp only [known] at runs
    exact get_reads address key runs inOrder

end Store

namespace Host

/-- An order of hosts that reading, reporting and touching keep. -/
structure Steady (order : Host σ → Host σ → Prop) : Prop where
  refl : ∀ host, order host host
  trans : ∀ {first second third}, order first second → order second third → order first third
  rereads : ∀ (host : Host σ) (store : Store), (host.InOrder → store.world = host.store.world) →
    order host { host with store }
  reports : ∀ (host : Host σ) (trace : σ), order host { host with trace }
  touchAddress : ∀ address, HostM.Keeps order (Host.touchAddress address)
  touchSlot : ∀ address key, HostM.Keeps order (Host.touchSlot address key)

end Host

namespace HostM.Keeps

open Host

variable {order : Host σ → Host σ → Prop}

theorem done (steady : Steady order) (value : α) : Keeps order (pure value : HostM σ α) := by
  rintro host _ _ ⟨⟩
  exact steady.refl host

theorem bind (steady : Steady order) {action : HostM σ α} {next : α → HostM σ β}
    (first : Keeps order action) (rest : ∀ value, Keeps order (next value)) :
    Keeps order (action >>= next) := by
  intro host after value runs
  obtain ⟨middle, between, runs, runs'⟩ := bind_eq_ok.mp runs
  exact steady.trans (first runs) (rest middle runs')

theorem onStore (steady : Steady order) {action : Store.Action α} (reads : Store.Reads action) :
    Keeps order (Host.onStore action) := by
  intro host after value runs
  unfold Host.onStore at runs
  split at runs <;> cases runs
  exact steady.rereads host _ (reads ‹_›)

variable (steady : Steady order)

include steady

theorem account (address : Address) : Keeps order (Host.account address) :=
  onStore steady (Store.read_reads _)

theorem code (address : Address) : Keeps order (Host.code address) :=
  onStore steady (Store.read_reads _)

theorem slot (address : Address) (key : Word) : Keeps order (Host.slot address key) :=
  onStore steady (Store.get_reads address key)

theorem initialSlot (address : Address) (key : Word) : Keeps order (Host.initialSlot address key) :=
  onStore steady (Store.initial_reads address key)

theorem transientSlot (address : Address) (key : Word) :
    Keeps order (Host.transientSlot address key) := by
  rintro host _ _ ⟨⟩
  exact steady.refl host

theorem checkpoint : Keeps order (Host.checkpoint : HostM σ Nat) := by
  rintro host _ _ ⟨⟩
  exact steady.refl host

theorem emit (env : Environment σ) (event : Event) : Keeps order (Host.emit env event) := by
  rintro host _ _ ⟨⟩
  exact steady.reports host _

theorem accessAddress (fork : Fork) (address : Address) :
    Keeps order (Host.accessAddress fork address) := by
  unfold Host.accessAddress
  split
  · refine (steady.touchAddress address).bind steady fun cold => ?_
    split <;> exact done steady _
  · exact done steady 0

theorem accessCold (fork : Fork) (address : Address) :
    Keeps order (Host.accessCold fork address) := by
  unfold Host.accessCold
  split
  · refine (steady.touchAddress address).bind steady fun cold => ?_
    split <;> exact done steady _
  · exact done steady 0

theorem accessSlot (fork : Fork) (address : Address) (key : Word) :
    Keeps order (Host.accessSlot fork address key) := by
  unfold Host.accessSlot
  split
  · refine (steady.touchSlot address key).bind steady fun cold => ?_
    split <;> exact done steady _
  · exact done steady 0

theorem accessColdSlot (fork : Fork) (address : Address) (key : Word) :
    Keeps order (Host.accessColdSlot fork address key) := by
  unfold Host.accessColdSlot
  split
  · refine (steady.touchSlot address key).bind steady fun cold => ?_
    split <;> exact done steady _
  · exact done steady 0

end HostM.Keeps

/-! ## Instructions -/

namespace InstructionM

theorem bind_run (action : InstructionM σ α) (next : α → InstructionM σ β) (frame : Frame)
    (host : Host σ) :
    (action >>= next) frame host =
      match action frame host with
      | .ok (value, between) middle => next value between middle
      | .error interrupt middle => .error interrupt middle := by
  simp only [bind, StateT.bind, EStateM.bind]
  cases action frame host <;> rfl

theorem lift_run (action : FrameM α) (frame : Frame) (host : Host σ) :
    (liftM action : InstructionM σ α) frame host =
      match action frame with
      | .ok result => .ok result host
      | .error interrupt => .error interrupt host := rfl

/-- The action keeps a property of its frame and an order of hosts. A fault loses the frame, and a
failure ends the execution, so that nothing is said of it. -/
def Keeps (kept : Frame → Prop) (order : Host σ → Host σ → Prop) (action : InstructionM σ α) :
    Prop :=
  ∀ frame, kept frame → ∀ host : Host σ,
    match action frame host with
    | .ok (_, after) last => kept after ∧ order host last
    | .error (.fault _) last => order host last
    | .error (.failure _) _ => True

/-- A property that holds of every frame that retains what a frame with it has. -/
def Lasts (kept : Frame → Prop) : Prop :=
  ∀ ⦃frame after : Frame⦄, frame.Retains after → kept frame → kept after

theorem lasts_true : Lasts fun _ => True := fun _ _ _ _ => trivial

namespace Keeps

variable {kept : Frame → Prop} {order : Host σ → Host σ → Prop} (steady : Host.Steady order)

theorem of_ok {action : InstructionM σ α} {frame after : Frame} {host last : Host σ} {value : α}
    (keeps : Keeps kept order action) (holds : kept frame)
    (runs : action frame host = .ok (value, after) last) : kept after ∧ order host last := by
  have found := keeps frame holds host
  rw [runs] at found
  exact found

theorem lift (refl : ∀ host, order host host) {action : FrameM α}
    (keeps : ∀ ⦃frame after : Frame⦄ ⦃value : α⦄, kept frame → action frame = .ok (value, after) →
      kept after) :
    Keeps kept order (liftM action : InstructionM σ α) := by
  intro frame holds host
  rw [lift_run]
  cases runs : action frame with
  | ok result => exact ⟨keeps holds runs, refl host⟩
  | error interrupt =>
    cases interrupt with
    | fault cause => exact refl host
    | failure cause => trivial

theorem host {action : HostM σ α} (keeps : HostM.Keeps order action) :
    Keeps kept order (InstructionM.host action) := by
  intro frame holds host
  simp only [InstructionM.host]
  cases runs : action host with
  | ok value after => exact ⟨holds, keeps runs⟩
  | error failure after => trivial

include steady

theorem bindGiven {action : InstructionM σ α} {next : α → InstructionM σ β}
    (first : Keeps kept order action)
    (rest : ∀ {frame between host middle value}, kept frame →
      action frame host = .ok (value, between) middle → Keeps kept order (next value)) :
    Keeps kept order (action >>= next) := by
  intro frame holds host
  have before := first frame holds host
  rw [bind_run]
  cases run : action frame host with
  | error interrupt middle =>
    simp only [run] at before
    cases interrupt <;> exact before
  | ok result middle =>
    simp only [run] at before
    have after := rest holds run result.2 before.1 middle
    dsimp only
    cases run' : next result.1 result.2 middle with
    | ok result' last =>
      simp only [run'] at after
      exact ⟨after.1, steady.trans before.2 after.2⟩
    | error interrupt last =>
      simp only [run'] at after
      cases interrupt with
      | fault cause => exact steady.trans before.2 after
      | failure cause => trivial

theorem bind {action : InstructionM σ α} {next : α → InstructionM σ β}
    (first : Keeps kept order action) (rest : ∀ value, Keeps kept order (next value)) :
    Keeps kept order (action >>= next) :=
  bindGiven steady first fun _ _ => rest _

/-- What comes after a step that never goes through is never run. -/
theorem blocked {action : FrameM α} {next : α → InstructionM σ β}
    (stops : ∀ {frame after value}, kept frame → action frame ≠ .ok (value, after)) :
    Keeps kept order ((liftM action : InstructionM σ α) >>= next) := by
  intro frame holds host
  rw [bind_run, lift_run]
  cases runs : action frame with
  | ok result => exact absurd runs (stops holds)
  | error interrupt =>
    cases interrupt with
    | fault cause => exact steady.refl host
    | failure cause => trivial

theorem done (value : α) : Keeps kept order (pure value : InstructionM σ α) :=
  fun _ holds host => ⟨holds, steady.refl host⟩

theorem current : Keeps kept order (get : InstructionM σ Frame) :=
  fun _ holds host => ⟨holds, steady.refl host⟩

theorem around : Keeps kept order (getThe (Host σ) : InstructionM σ (Host σ)) :=
  fun _ holds host => ⟨holds, steady.refl host⟩

theorem update {change : Frame → Frame} (keeps : ∀ ⦃frame⦄, kept frame → kept (change frame)) :
    Keeps kept order (modify change : InstructionM σ PUnit) :=
  fun _ holds host => ⟨keeps holds, steady.refl host⟩

theorem retaining (lasts : Lasts kept) {action : FrameM α} (retains : action.Retains) :
    Keeps kept order (liftM action : InstructionM σ α) :=
  lift steady.refl fun _ _ _ holds runs => lasts (retains runs) holds

end Keeps

end InstructionM

namespace Instruction

open InstructionM Host

section

variable {kept : Frame → Prop} {order : Host σ → Host σ → Prop} (steady : Host.Steady order)
  (lasts : Lasts kept) (fork : Fork) (context : Context)

include steady lasts

omit lasts in
theorem inspected_keeps (address : Address) (what : Inspection) :
    HostM.Keeps order (inspected address what) := by
  cases what with
  | balance => exact (HostM.Keeps.account steady address).bind steady fun _ => .done steady _
  | codeSize => exact (HostM.Keeps.code steady address).bind steady fun _ => .done steady _
  | codeHash => exact (HostM.Keeps.account steady address).bind steady fun _ => .done steady _

theorem inspect_keeps (what : Inspection) :
    (inspect fork what : InstructionM σ Unit).Keeps kept order := by
  refine .bind steady (.retaining steady lasts .popAddress) fun address => ?_
  refine .bind steady (.host (.accessAddress steady fork address)) fun access => ?_
  refine .bind steady (.retaining steady lasts (.charge _)) fun _ => ?_
  refine .bind steady (.host (inspected_keeps steady address what)) fun value => ?_
  exact .retaining steady lasts (.push value)

theorem selfBalance_keeps : (selfBalance fork context : InstructionM σ Unit).Keeps kept order := by
  refine .bind steady (.retaining steady lasts (.charge _)) fun _ => ?_
  refine .bind steady (.host (.account steady context.self)) fun account => ?_
  exact .retaining steady lasts (.push account.balance)

theorem externalCodeCopy_keeps :
    (externalCodeCopy fork : InstructionM σ Unit).Keeps kept order := by
  refine .bind steady (.retaining steady lasts .popAddress) fun address => ?_
  refine .bind steady (.retaining steady lasts .pop) fun target => ?_
  refine .bind steady (.retaining steady lasts .pop) fun start => ?_
  refine .bind steady (.retaining steady lasts .pop) fun size => ?_
  refine .bind steady (.retaining steady lasts (.region target size)) fun range => ?_
  refine .bind steady (.host (.accessAddress steady fork address)) fun access => ?_
  refine .bind steady (.retaining steady lasts (.charge _)) fun _ => ?_
  refine .bind steady (.retaining steady lasts (.expand fork _ _)) fun _ => ?_
  refine .bind steady (.host (.code steady address)) fun code => ?_
  exact .retaining steady lasts (.updateMemory _)

theorem storageLoad_keeps : (storageLoad fork context : InstructionM σ Unit).Keeps kept order := by
  refine .bind steady (.retaining steady lasts .pop) fun key => ?_
  refine .bind steady (.host (.accessSlot steady fork context.self key)) fun access => ?_
  refine .bind steady (.retaining steady lasts (.charge _)) fun _ => ?_
  refine .bind steady (.host (.slot steady context.self key)) fun value => ?_
  exact .retaining steady lasts (.push value)

theorem transientLoad_keeps :
    (transientLoad fork context : InstructionM σ Unit).Keeps kept order := by
  refine .bind steady (.retaining steady lasts (.charge _)) fun _ => ?_
  refine .bind steady (.retaining steady lasts .pop) fun key => ?_
  refine .bind steady (.host (.transientSlot steady context.self key)) fun value => ?_
  exact .retaining steady lasts (.push value)

omit lasts in
theorem callPrice_keeps (mode : CallMode) (target : Address) (value : Word) :
    HostM.Keeps order (callPrice fork mode target value) := by
  unfold callPrice
  refine (HostM.Keeps.accessAddress steady fork target).bind steady fun access => ?_
  split
  · exact .done steady _
  · dsimp only
    split
    · exact (HostM.Keeps.account steady target).bind steady fun account => .done steady _
    · exact .done steady _

omit lasts in
theorem destructPrice_keeps (heir : Address) (balance : Word) :
    HostM.Keeps order (destructPrice fork heir balance) := by
  unfold destructPrice
  split
  · exact .done steady _
  · exact (HostM.Keeps.account steady heir).bind steady fun _ => .done steady _

theorem prepareCall_keeps (mode : CallMode) :
    (prepareCall fork context mode : InstructionM σ (Option NestedCall)).Keeps kept order := by
  refine .bind steady (.retaining steady lasts (popCall_retains mode)) fun operands => ?_
  refine .bind steady (.retaining steady lasts (.faultIf _ _)) fun _ => ?_
  refine .bind steady (.host (callPrice_keeps steady fork mode _ _)) fun price => ?_
  refine .bind steady (.retaining steady lasts (payCall_retains operands price)) fun gas => ?_
  refine .bind steady (.host (.account steady context.self)) fun account => ?_
  split
  · exact .bind steady (.retaining steady lasts (refuseCall_retains gas)) fun _ => .done steady none
  · refine .bind steady (.retaining steady lasts (.readMemory _ _)) fun data => ?_
    refine .bind steady (.host (.code steady operands.target)) fun code => ?_
    refine .bind steady (.host (.checkpoint steady)) fun checkpoint => ?_
    exact .bind steady (.current steady) fun frame => .done steady _

theorem create_keeps (salted : Bool) :
    (create fork context salted : InstructionM σ Control).Keeps kept order := by
  refine .bind steady (.retaining steady lasts (.faultIf _ _)) fun _ => ?_
  refine .bind steady (.retaining steady lasts (popCreate_retains salted)) fun operands => ?_
  refine .bind steady (.retaining steady lasts (payCreate_retains salted operands)) fun code => ?_
  refine .bind steady (.host (.account steady context.self)) fun account => ?_
  split
  · exact .bind steady (.retaining steady lasts (.push 0)) fun _ => .done steady _
  · refine .bind steady (.current steady) fun frame => ?_
    refine .bind steady (.retaining steady lasts (.charge _)) fun _ => ?_
    exact .bind steady (.current steady) fun frame => .done steady _

omit lasts in
theorem writeSlot_keeps
    (puts : ∀ address key value, HostM.Keeps order (Host.putSlot address key value))
    (address : Address) (key current new : Word) :
    HostM.Keeps order
      (if current = new then pure () else Host.putSlot address key new : HostM σ Unit) := by
  split
  · exact .done steady ()
  · exact puts address key new

theorem storageStore_keeps
    (puts : ∀ address key value, HostM.Keeps order (Host.putSlot address key value))
    (refunds : ∀ {frame : Frame} {refund}, kept frame → kept { frame with refund }) :
    (storageStore fork context : InstructionM σ Unit).Keeps kept order := by
  refine .bind steady (.retaining steady lasts (.faultIf _ _)) fun _ => ?_
  refine .bind steady (.current steady) fun frame => ?_
  refine .bind steady (.retaining steady lasts (.faultIf _ _)) fun _ => ?_
  refine .bind steady (.retaining steady lasts .pop) fun key => ?_
  refine .bind steady (.retaining steady lasts .pop) fun new => ?_
  refine .bind steady (.host (.slot steady context.self key)) fun current => ?_
  refine .bind steady (.host (.initialSlot steady context.self key)) fun initial => ?_
  refine .bind steady (.host (.accessColdSlot steady fork context.self key)) fun access => ?_
  refine .bind steady (.retaining steady lasts (.charge _)) fun _ => ?_
  refine .bind steady (.host (writeSlot_keeps steady puts context.self key current new))
    fun _ => ?_
  exact .update steady fun _ => refunds

theorem transientStore_keeps
    (puts : ∀ address key value, HostM.Keeps order (Host.putTransient address key value)) :
    (transientStore fork context : InstructionM σ Unit).Keeps kept order := by
  refine .bind steady (.retaining steady lasts (.faultIf _ _)) fun _ => ?_
  refine .bind steady (.retaining steady lasts (.charge _)) fun _ => ?_
  refine .bind steady (.retaining steady lasts .pop) fun key => ?_
  refine .bind steady (.retaining steady lasts .pop) fun value => ?_
  exact .host (puts context.self key value)

theorem log_keeps (logs : ∀ {frame : Frame} {logs}, kept frame → kept { frame with logs })
    (count : Fin 5) :
    (liftM (log fork context count) : InstructionM σ Unit).Keeps kept order := by
  refine .lift steady.refl fun frame after value holds runs => ?_
  obtain ⟨_, _, mutable, runs⟩ := FrameM.bind_ok.mp runs
  obtain ⟨offset, _, popsOffset, runs⟩ := FrameM.bind_ok.mp runs
  obtain ⟨size, _, popsSize, runs⟩ := FrameM.bind_ok.mp runs
  obtain ⟨range, _, names, runs⟩ := FrameM.bind_ok.mp runs
  obtain ⟨topics, _, popsTopics, runs⟩ := FrameM.bind_ok.mp runs
  obtain ⟨_, _, charges, runs⟩ := FrameM.bind_ok.mp runs
  obtain ⟨_, _, expands, runs⟩ := FrameM.bind_ok.mp runs
  obtain ⟨data, read, reads, runs⟩ := FrameM.bind_ok.mp runs
  cases runs
  have taken := (FrameM.Retains.faultIf _ _ mutable).trans
    ((FrameM.Retains.pop popsOffset).trans (FrameM.Retains.pop popsSize))
  have paid := (FrameM.Retains.region _ _ names).trans
    ((FrameM.Retains.popMany _ popsTopics).trans (FrameM.Retains.charge _ charges))
  have shown := (FrameM.Retains.expand _ _ _ expands).trans (FrameM.Retains.readMemory _ _ reads)
  exact logs (lasts (taken.trans (paid.trans shown)) holds)

end

structure WritesKeep (kept : Frame → Prop) (order : Host σ → Host σ → Prop) (fork : Fork)
    (context : Context) : Prop where
  storageStore : (storageStore fork context : InstructionM σ Unit).Keeps kept order
  transientStore : (transientStore fork context : InstructionM σ Unit).Keeps kept order
  log : ∀ count, (liftM (log fork context count) : InstructionM σ Unit).Keeps kept order
  call : ∀ mode, (call fork context mode : InstructionM σ Control).Keeps kept order
  selfDestruct : (selfDestruct fork context : InstructionM σ Unit).Keeps kept order

end Instruction

def Operation.WriteKeeps (kept : Frame → Prop) (order : Host σ → Host σ → Prop) (fork : Fork)
    (context : Context) : Operation → Prop
  | .storageStore => (Instruction.storageStore fork context : InstructionM σ Unit).Keeps kept order
  | .transientStore =>
    (Instruction.transientStore fork context : InstructionM σ Unit).Keeps kept order
  | .log count => (liftM (Instruction.log fork context count) : InstructionM σ Unit).Keeps kept order
  | .call mode => (Instruction.call fork context mode : InstructionM σ Control).Keeps kept order
  | .selfDestruct => (Instruction.selfDestruct fork context : InstructionM σ Unit).Keeps kept order
  | _ => True

namespace Host

structure Stable (order : Host σ → Host σ → Prop) : Prop extends Steady order where
  putSlot : ∀ address key value, HostM.Keeps order (Host.putSlot address key value)
  putTransient : ∀ address key value, HostM.Keeps order (Host.putTransient address key value)
  transfer : ∀ sender recipient value, HostM.Keeps order (Host.transfer sender recipient value)

theorem stable_true : Stable fun _ _ : Host σ => True := by
  constructor
  · constructor <;> intros <;> try trivial
    all_goals exact fun _ _ _ _ => trivial
  all_goals exact fun _ _ _ _ _ _ _ => trivial

end Host

namespace Instruction

open InstructionM Host

section

variable {kept : Frame → Prop} {order : Host σ → Host σ → Prop} (stable : Host.Stable order)
  (lasts : Lasts kept) (fork : Fork) (context : Context)

include stable

theorem bequeath_keeps (self heir : Address) (balance : Word) :
    HostM.Keeps order (bequeath self heir balance) := by
  unfold bequeath
  split
  · exact (stable.transfer self heir balance).bind stable.toSteady fun _ =>
      .done stable.toSteady ()
  · exact .done stable.toSteady ()

theorem sendValue_keeps (mode : CallMode) (message : Message) :
    HostM.Keeps order (sendValue mode message) := by
  unfold sendValue
  split
  · exact (stable.transfer _ _ _).bind stable.toSteady fun _ => .done stable.toSteady ()
  · exact .done stable.toSteady ()

include lasts

theorem selfDestruct_keeps
    (marks : ∀ {frame : Frame}, kept frame → kept (markDestroyed fork context.self frame)) :
    (selfDestruct fork context : InstructionM σ Unit).Keeps kept order := by
  have steady := stable.toSteady
  refine .bind steady (.retaining steady lasts (.faultIf _ _)) fun _ => ?_
  refine .bind steady (.retaining steady lasts .popAddress) fun heir => ?_
  refine .bind steady (.host (.accessCold steady fork heir)) fun access => ?_
  refine .bind steady (.host (.account steady context.self)) fun account => ?_
  refine .bind steady (.host (destructPrice_keeps steady fork heir account.balance)) fun price => ?_
  refine .bind steady (.retaining steady lasts (.charge _)) fun _ => ?_
  refine .bind steady (.host (bequeath_keeps stable context.self heir account.balance)) fun _ => ?_
  exact .update steady fun _ => marks

theorem call_keeps (mode : CallMode) :
    (call fork context mode : InstructionM σ Control).Keeps kept order := by
  have steady := stable.toSteady
  refine .bind steady (prepareCall_keeps steady lasts fork context mode) fun prepared => ?_
  cases prepared with
  | none => exact .done steady _
  | some nested =>
    exact .bind steady (.host (sendValue_keeps stable mode nested.message)) fun _ => .done steady _

theorem writesKeep (logs : ∀ {frame : Frame} {logs}, kept frame → kept { frame with logs })
    (refunds : ∀ {frame : Frame} {refund}, kept frame → kept { frame with refund })
    (marks : ∀ {frame : Frame}, kept frame → kept (markDestroyed fork context.self frame)) :
    WritesKeep kept order fork context where
  storageStore :=
    storageStore_keeps stable.toSteady lasts fork context stable.putSlot refunds
  transientStore := transientStore_keeps stable.toSteady lasts fork context stable.putTransient
  log := log_keeps stable.toSteady lasts fork context logs
  call := call_keeps stable lasts fork context
  selfDestruct := selfDestruct_keeps stable lasts fork context marks

end

end Instruction

open InstructionM Instruction

section

variable {kept : Frame → Prop} {order : Host σ → Host σ → Prop} (steady : Host.Steady order)
  (lasts : Lasts kept) (env : Environment σ) {context : Context}

include steady

theorem thenNext_keeps {action : InstructionM σ Unit} (keeps : action.Keeps kept order) :
    (thenNext action).Keeps kept order :=
  .bind steady keeps fun _ => .done steady _

theorem reportStep_keeps (context : Context) (step : PendingStep) (control : Control) :
    (reportStep env context step control).Keeps kept order := by
  cases control with
  | call nested => exact .done steady _
  | _ =>
    refine .bind steady (.current steady) fun frame => ?_
    exact .bind steady (.host (.emit steady env _)) fun _ => .done steady _

theorem report_keeps (context : Context) (instruction : Instruction) (operation : Operation)
    (used : Nat) (control : Control) :
    (report env context instruction operation used control).Keeps kept order := by
  refine .bind steady (.around steady) fun host => ?_
  split
  · exact reportStep_keeps steady env context _ control
  · exact .done steady _

include lasts

theorem thenNext_retains {action : FrameM Unit} (retains : action.Retains) :
    (thenNext (liftM action : InstructionM σ Unit)).Keeps kept order :=
  thenNext_keeps steady (.retaining steady lasts retains)

theorem execute_keeps_of (instruction : Instruction) {operation : Operation}
    (writes : operation.WriteKeeps kept order env.fork context) :
    (execute env context instruction operation).Keeps kept order := by
  cases operation with
  | stop => exact .done steady _
  | unary op => exact thenNext_retains steady lasts (unary_retains op)
  | binary op => exact thenNext_retains steady lasts (binary_retains op)
  | ternary op => exact thenNext_retains steady lasts (ternary_retains op)
  | keccak => exact thenNext_retains steady lasts keccak_retains
  | query what => exact thenNext_retains steady lasts (query_retains env context _ what)
  | lookup what => exact thenNext_retains steady lasts (lookup_retains env context what)
  | inspect what => exact thenNext_keeps steady (inspect_keeps steady lasts _ what)
  | selfBalance => exact thenNext_keeps steady (selfBalance_keeps steady lasts _ context)
  | copy source => exact thenNext_retains steady lasts (copy_retains _)
  | externalCodeCopy => exact thenNext_keeps steady (externalCodeCopy_keeps steady lasts _)
  | returnDataCopy => exact thenNext_retains steady lasts returnDataCopy_retains
  | pop =>
    refine thenNext_keeps steady (.bind steady (.retaining steady lasts (.charge _)) fun _ => ?_)
    exact .bind steady (.retaining steady lasts .pop) fun _ => .done steady _
  | memoryLoad => exact thenNext_retains steady lasts memoryLoad_retains
  | memoryStore => exact thenNext_retains steady lasts memoryStore_retains
  | memoryStore8 => exact thenNext_retains steady lasts memoryStore8_retains
  | memoryCopy => exact thenNext_retains steady lasts memoryCopy_retains
  | storageLoad => exact thenNext_keeps steady (storageLoad_keeps steady lasts _ context)
  | storageStore => exact thenNext_keeps steady writes
  | transientLoad => exact thenNext_keeps steady (transientLoad_keeps steady lasts _ context)
  | transientStore => exact thenNext_keeps steady writes
  | jump => exact .retaining steady lasts (jump_retains context)
  | jumpIf => exact .retaining steady lasts (jumpIf_retains context)
  | jumpDest => exact thenNext_retains steady lasts (.charge _)
  | push width => exact thenNext_retains steady lasts (pushArgument_retains width _)
  | dup depth => exact thenNext_retains steady lasts (dup_retains depth)
  | swap depth => exact thenNext_retains steady lasts (swap_retains depth)
  | log topics => exact thenNext_keeps steady writes
  | create salted => exact create_keeps steady lasts _ context salted
  | call mode => exact writes
  | ret => exact .retaining steady lasts (finish_retains _)
  | revert => exact .retaining steady lasts (finish_retains _)
  | invalid => exact .retaining steady lasts (.fault _)
  | selfDestruct => exact .bind steady writes fun _ => .done steady _

theorem execute_keeps (writes : WritesKeep kept order env.fork context)
    (instruction : Instruction) (operation : Operation) :
    (execute env context instruction operation).Keeps kept order := by
  refine execute_keeps_of steady lasts env instruction ?_
  cases operation with
  | storageStore => exact writes.storageStore
  | transientStore => exact writes.transientStore
  | log topics => exact writes.log topics
  | call mode => exact writes.call mode
  | selfDestruct => exact writes.selfDestruct
  | _ => trivial

theorem step_keeps (writes : WritesKeep kept order env.fork context) :
    (step env context).Keeps kept order := by
  refine .bind steady (.current steady) fun frame => ?_
  split
  · exact .done steady _
  split
  · exact .retaining steady lasts (.fault _)
  refine .bind steady (.retaining steady lasts (checkStack_retains _)) fun _ => ?_
  refine .bind steady (.current steady) fun frame => ?_
  refine .bind steady (execute_keeps steady lasts env writes _ _) fun control => ?_
  exact report_keeps steady env context _ _ _ control

end

namespace Execution

variable {order : Host σ → Host σ → Prop} (steady : Host.Steady order) (env : Environment σ)

include steady

theorem exit_keeps (depth : Nat) (result : Result) :
    HostM.Keeps order (exit env depth result) :=
  (HostM.Keeps.emit steady env _).bind steady fun _ => .done steady _

omit steady in
/-- Whether a message is announced may depend on what was reported before it. -/
theorem announce_eq (message : Message) (kind : MessageKind)
    (host : Host σ) :
    announce env message kind host =
      if env.tracer.enabled host.trace then
        Host.emit env ⟨message.depth, .call kind message.caller message.target message.value
          message.gasLimit message.data⟩ host
      else .ok () host := by
  have starts : (get : HostM σ (Host σ)) host = .ok host host := rfl
  unfold announce
  rw [bind_of_ok starts]
  by_cases enabled : env.tracer.enabled host.trace = true
  · rw [if_pos enabled, if_pos enabled]
  · rw [if_neg enabled, if_neg enabled]
    rfl

theorem announce_keeps (message : Message) (kind : MessageKind) :
    HostM.Keeps order (announce env message kind) := by
  intro host after _ runs
  rw [announce_eq] at runs
  split at runs
  · exact HostM.Keeps.emit steady env _ runs
  · exact HostM.Keeps.done steady () runs

theorem reportPending_keeps (depth : Nat) (gas : Meter) (step : Option PendingStep) :
    HostM.Keeps order (reportPending env depth gas step) := by
  cases step with
  | some step => exact .emit steady env _
  | none => exact .done steady ()

end Execution

theorem step_stable {order : Host σ → Host σ → Prop} (stable : Host.Stable order)
    (env : Environment σ) (context : Context) : (step env context).Keeps (fun _ => True) order :=
  step_keeps stable.toSteady lasts_true env
    (writesKeep stable lasts_true env.fork context id id id)

end Evm
