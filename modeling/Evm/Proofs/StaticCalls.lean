import Evm.Proofs.Recursion
import Evm.Proofs.Restraint

/-!
# Static calls

Code that was called statically writes nothing: neither its frame nor any frame below it, whatever
calls lead there. The flag is passed on by every call, and each instruction that writes looks at it.
-/

namespace Evm

open Execution Instruction InstructionM

namespace AddressSet

theorem insertSorted_of_mem {address : Address} {list : List Address}
    (ascending : list.Pairwise (· < ·)) (mem : address ∈ list) :
    insertSorted address list = list := by
  induction list with
  | nil => cases mem
  | cons first rest ih =>
    obtain ⟨least, ascending⟩ := List.pairwise_cons.mp ascending
    unfold insertSorted
    obtain rfl | later := List.mem_cons.mp mem
    · simp
    · have after := least address later
      rw [if_neg (BitVec.lt_asymm after), if_pos after, ih ascending later]

theorem insert_of_mem {set : AddressSet} {address : Address} (mem : address ∈ set.toList) :
    set.insert address = set := by
  obtain ⟨list, ascending⟩ := set
  simp only [insert, insertSorted_of_mem ascending mem]

@[simp] theorem union_self (set : AddressSet) : set.union set = set := by
  have folds (added : List Address) (within : ∀ address ∈ added, address ∈ set.toList) :
      added.foldl insert set = set := by
    induction added with
    | nil => rfl
    | cons first rest ih =>
      rw [List.foldl_cons, insert_of_mem (within first (by simp))]
      exact ih fun address later => within address (by simp [later])
  exact folds set.toList fun _ mem => mem

end AddressSet

/-- A result that brings nothing with it: no logs, no refund, and no account marked beside those
that were marked before. -/
structure Result.Silent (marked : AddressSet) (result : Result) : Prop where
  logs_eq : result.logs = #[]
  gasRefund_eq : result.gasRefund = 0
  selfDestruct_eq : result.selfDestruct = marked

structure Frame.Bare (marked : AddressSet) (frame : Frame) : Prop where
  logs_eq : frame.logs = #[]
  refund_eq : frame.refund = 0
  selfDestruct_eq : frame.selfDestruct = marked

variable {σ : Type} {fork : Fork} {context : Context}

namespace Frame.Bare

variable {marked : AddressSet}

theorem lasts : Lasts (Frame.Bare marked) := fun _ _ retains bare =>
  ⟨retains.logs_eq.trans bare.logs_eq, retains.refund_eq.trans bare.refund_eq,
    retains.selfDestruct_eq.trans bare.selfDestruct_eq⟩

theorem absorb {frame : Frame} {result : Result} (bare : frame.Bare marked)
    (silent : result.Silent marked) : (Execution.absorb frame result).Bare marked where
  logs_eq := by simp [Execution.absorb, bare.logs_eq, silent.logs_eq]
  refund_eq := by simp [Execution.absorb, bare.refund_eq, silent.gasRefund_eq]
  selfDestruct_eq := by simp [Execution.absorb, bare.selfDestruct_eq, silent.selfDestruct_eq]

end Frame.Bare

namespace Instruction

theorem ensureMutable_ok {message : Message} {frame after : Frame}
    (runs : ensureMutable message frame = .ok ((), after)) : message.isStatic = false := by
  simpa using (faultIf_ok runs).1

theorem create_isStatic {salted : Bool} {frame after : Frame} {host last : Host σ}
    {nested : NestedCall}
    (runs : create fork context salted frame host = .ok (.call nested, after) last) :
    context.message.isStatic = false ∧ nested.message.isStatic = false := by
  obtain ⟨_, _, _, checks, runs⟩ := InstructionM.bind_ok.mp runs
  refine ⟨ensureMutable_ok (lift_ok.mp checks).1, ?_⟩
  obtain ⟨operands, _, _, _, runs⟩ := InstructionM.bind_ok.mp runs
  obtain ⟨code, _, _, _, runs⟩ := InstructionM.bind_ok.mp runs
  obtain ⟨account, _, _, _, runs⟩ := InstructionM.bind_ok.mp runs
  split at runs
  · obtain ⟨_, _, _, _, runs⟩ := InstructionM.bind_ok.mp runs
    cases runs
  · obtain ⟨_, _, _, _, runs⟩ := InstructionM.bind_ok.mp runs
    obtain ⟨_, _, _, _, runs⟩ := InstructionM.bind_ok.mp runs
    obtain ⟨_, _, _, _, runs⟩ := InstructionM.bind_ok.mp runs
    cases runs
    rfl

theorem prepareCall_isStatic {mode : CallMode} {frame after : Frame} {host last : Host σ}
    {nested : NestedCall}
    (runs : prepareCall fork context mode frame host = .ok (some nested, after) last) :
    nested.message.isStatic = (context.message.isStatic || mode = .static) := by
  obtain ⟨_, _, _, _, _, _, _, _, _, _, _, rfl⟩ := prepareCall_made runs
  simp [callMessage]

theorem prepareCall_selfDestruct {mode : CallMode} {frame after : Frame} {host last : Host σ}
    {nested : NestedCall}
    (runs : prepareCall fork context mode frame host = .ok (some nested, after) last) :
    nested.message.selfDestruct = after.selfDestruct := by
  obtain ⟨_, _, _, _, _, _, _, _, _, _, _, rfl⟩ := prepareCall_made runs
  rfl

theorem prepareCall_unsent {mode : CallMode} {frame after : Frame} {host last : Host σ}
    {nested : NestedCall} (static : context.message.isStatic ∨ mode = .static)
    (runs : prepareCall fork context mode frame host = .ok (some nested, after) last)
    (plain : mode = .call) : nested.message.value = 0 := by
  obtain ⟨operands, _, _, _, _, _, _, _, mutable, _, _, rfl⟩ := prepareCall_made runs
  obtain static | static := static
  · by_contra sends
    exact mutable ⟨plain, by simpa [callMessage, plain] using sends, static⟩
  · rw [plain] at static
    cases static

theorem call_leaves {kept : Frame → Prop} {mode : CallMode} (lasts : Lasts kept)
    (static : context.message.isStatic ∨ mode = .static) :
    (call fork context mode : InstructionM σ Control).Keeps kept (Host.LeavesAlone false) :=
  call_keeps_of_unsent Host.leaves_steady lasts fun _ => prepareCall_unsent static

theorem writesKeep_of_static {marked : AddressSet} (static : context.message.isStatic) :
    WritesKeep (Frame.Bare marked) (Host.LeavesAlone false : Host σ → Host σ → Prop) fork context := by
  have stops {kept : Frame → Prop} {frame after : Frame} {value : Unit} (_ : kept frame) :
      ensureMutable context.message frame ≠ .ok (value, after) := by
    intro runs
    rw [ensureMutable_ok runs] at static
    cases static
  refine ⟨?_, ?_, ?_, ?_, ?_⟩
  · exact .blocked Host.leaves_steady stops
  · exact .blocked Host.leaves_steady stops
  · -- A log changes the frame alone, but it changes what is brought along.
    intro count
    refine .lift Host.leaves_steady.refl ?_
    intro frame after _ bare runs
    obtain ⟨_, _, checks, _⟩ := FrameM.bind_ok.mp runs
    exact absurd checks (stops bare)
  · intro mode
    exact call_leaves Frame.Bare.lasts (.inl static)
  · exact .blocked Host.leaves_steady stops

end Instruction

/-- A static message writes nothing and marks nothing. -/
def Restraint.ofStatic (σ : Type) (fork : Fork) (marked : AddressSet) : Restraint σ fork false where
  Binds message :=
    message.isStatic ∧ message.isCreation = false ∧ message.selfDestruct = marked
  Bare := Frame.Bare marked
  Silent := Result.Silent marked
  lasts := Frame.Bare.lasts
  isCall binds := binds.2.1
  starts binds := ⟨rfl, rfl, binds.2.2⟩
  writes binds := writesKeep_of_static binds.1
  calls binds bare prepares := by
    obtain ⟨bare', _⟩ : Frame.Bare marked _ ∧ Host.LeavesAlone false _ _ :=
      (prepareCall_keeps Host.leaves_steady Frame.Bare.lasts _ _ _).of_ok bare prepares
    refine ⟨?_, (prepareCall_ok prepares).2.1, ?_⟩
    · simp [prepareCall_isStatic prepares, binds.1]
    · rw [prepareCall_selfDestruct prepares]
      exact bare'.selfDestruct_eq
  creates binds _ runs := by
    have mutable := (create_isStatic runs).1
    rw [binds.1] at mutable
    cases mutable
  halts bare := ⟨bare.logs_eq, bare.refund_eq, bare.selfDestruct_eq⟩
  idles binds logs_eq gasRefund_eq same := ⟨logs_eq, gasRefund_eq, same.trans binds.2.2⟩
  absorbs bare silent := bare.absorb silent

namespace Execution

variable {env : Environment σ} {message : Message} {pc : Nat} {host reached asked : Host σ}
  {frame left : Frame} {nested : NestedCall}

theorem static_of_asks
    (static : context.message.isStatic ∨ context.operation? env.fork frame = some (.call .static))
    (asks : step env context frame reached = .ok (.call nested, left) asked) :
    nested.message.isStatic := by
  obtain ⟨made, _, same, _, calls | creates⟩ := turn_asks (turn_of_asks asks)
  · obtain ⟨mode, operation, calls⟩ := calls
    obtain ⟨_, prepares, _⟩ := call_ok calls
    rw [same, prepareCall_isStatic prepares]
    obtain static | static := static
    · simp [static]
    · rw [operation] at static
      cases static
      simp
  · obtain ⟨salted, operation, creates⟩ := creates
    obtain static | static := static
    · rw [(create_isStatic creates).1] at static
      cases static
    · rw [operation] at static
      cases static

/-- A static message is asked for by a call, which comes back to no host before it. -/
theorem call_of_static (inOrder : reached.InOrder) (static : nested.message.isStatic)
    (asks : step env context frame reached = .ok (.call nested, left) asked) :
    nested.message.isCreation = false ∧ reached.Spares false asked ∧
      Restraint.Returns reached nested.resumption.receiver := by
  obtain ⟨made, _, same, _, calls | creates⟩ := turn_asks (turn_of_asks asks)
  · obtain ⟨mode, operation, calls⟩ := calls
    obtain ⟨before, prepares, _⟩ := call_ok calls
    obtain ⟨_, isCall, offset, size, receiver⟩ := prepareCall_ok prepares
    have static' : context.message.isStatic ∨ mode = .static := by
      rw [same, prepareCall_isStatic prepares] at static
      simpa using static
    have prepared : _ ∧ reached.LeavesAlone false before :=
      (prepareCall_keeps Host.leaves_steady lasts_true _ _ _).of_ok trivial prepares
    have leaves := ((call_leaves lasts_true static').of_ok trivial calls).2
    rw [same]
    exact ⟨isCall, leaves inOrder, offset, size, _, receiver, (prepared.2 inOrder).size_le⟩
  · obtain ⟨salted, _, creates⟩ := creates
    rw [same, (create_isStatic creates).2] at static
    cases static

/-- All that comes of a static message is bound, whatever waits for it. -/
theorem passes_of_static {kind : MessageKind} {opening : Opening} {floor : List Suspended}
    {execution : Execution} {base opened passed : Host σ} (inOrder : base.InOrder)
    (static : message.isStatic) (isCall : message.isCreation = false) (spares : base.Spares false host)
    (enters : enter env message kind pc host = .ok opening opened)
    (passes : Passes env floor (ofOpening opening floor) opened execution passed) :
    base.Spares false passed ∧
      (Restraint.ofStatic σ env.fork message.selfDestruct).Confines base floor execution := by
  let restraint := Restraint.ofStatic σ env.fork message.selfDestruct
  have binds : restraint.Binds message := ⟨static, isCall, rfl⟩
  obtain ⟨spares', confines⟩ := Restraint.enter_confines inOrder binds .floor spares enters
  exact Restraint.passes_confines inOrder confines spares' passes

structure StaticallyClosed (env : Environment σ) (message : Message) (pc : Nat) (host : Host σ) :
    Prop where
  /-- A static message from outside has a result, which brings nothing with it. The world and
  transient storage are as they were. -/
  outermost : message.isStatic → message.isCreation = false → ¬message.Overflows env.fork →
    ∃ result after, runMessage env message pc host = .ok result after ∧
      host.Spares false after ∧ result.Silent message.selfDestruct
  throughout : ∀ {context frame waiting reached}, message.isStatic → message.isCreation = false →
    Reaches env message pc host (.running context frame waiting) reached →
    context.message.isStatic ∧ Refrains env false host context frame reached
  /-- Every message of a static frame is a static call, and so is that of a static call from any
  frame. -/
  asked : ∀ {context frame waiting reached nested left asked},
    Reaches env message pc host (.running context frame waiting) reached →
    (context.message.isStatic ∨ context.operation? env.fork frame = some (.call .static)) →
    step env context frame reached = .ok (.call nested, left) asked →
    nested.message.isStatic ∧ nested.message.isCreation = false ∧ reached.Spares false asked
  /-- A static call is answered with nothing brought along. When its frame goes on, the world and
  transient storage are as they were before it. -/
  answered : ∀ {context frame waiting reached nested left asked},
    Reaches env message pc host (.running context frame waiting) reached →
    step env context frame reached = .ok (.call nested, left) asked → nested.message.isStatic →
    ∃ answer answered next resumed,
      Interlude env context frame waiting reached nested left asked answer answered next resumed ∧
      reached.Spares false answered ∧ reached.Spares false resumed ∧
      answer.Silent nested.message.selfDestruct
  /-- While the call is answered both are so at any time, and all code that is run is static. -/
  below : ∀ {context frame waiting reached nested left asked opening opened inner running above
      passed},
    Reaches env message pc host (.running context frame waiting) reached →
    step env context frame reached = .ok (.call nested, left) asked → nested.message.isStatic →
    enter env nested.message nested.kind 0 asked = .ok opening opened →
    Passes env (suspend context left nested :: waiting)
      (ofOpening opening (suspend context left nested :: waiting)) opened
      (.running inner running above) passed →
    inner.message.isStatic ∧ Refrains env false reached inner running passed

end Execution

/-- No fork, no code and no mix of calls lets static code write. -/
theorem runMessage_staticallyClosed (env : Environment σ) (message : Message) (pc : Nat)
    (host : Host σ) (inOrder : host.InOrder) (bounded : message.gasLimit < machineLimit) :
    StaticallyClosed env message pc host where
  outermost static isCall fits := by
    obtain ⟨result, after, runs⟩ := runMessage_run env message pc host inOrder bounded fits
    let restraint := Restraint.ofStatic σ env.fork message.selfDestruct
    have binds : restraint.Binds message := ⟨static, isCall, rfl⟩
    obtain ⟨spares, silent, _⟩ := Restraint.reaches_confines inOrder binds (reaches_of_run runs)
    exact ⟨result, after, runs, spares, silent⟩
  throughout static isCall reaches := by
    let restraint := Restraint.ofStatic σ env.fork message.selfDestruct
    have binds : restraint.Binds message := ⟨static, isCall, rfl⟩
    obtain ⟨spares, bound, _⟩ := Restraint.reaches_confines inOrder binds reaches
    exact ⟨bound.binds.1, bound.refrains inOrder spares⟩
  asked reaches static asks := by
    obtain ⟨ground, _, holds⟩ := reaches.holds inOrder bounded List.nil_suffix
    have isStatic := static_of_asks static asks
    obtain ⟨isCall, spares, _⟩ := call_of_static holds.inOrder isStatic asks
    exact ⟨isStatic, isCall, spares⟩
  answered reaches asks static := by
    obtain ⟨ground, _, holds⟩ := reaches.holds inOrder bounded List.nil_suffix
    obtain ⟨isCall, spares, returns⟩ := call_of_static holds.inOrder static asks
    obtain ⟨answer, answered, next, resumed, interlude⟩ := holds.interlude asks
    obtain ⟨opening, opened, enters, passes⟩ := interlude.answers
    obtain ⟨spares', silent, _⟩ :=
      passes_of_static holds.inOrder static isCall spares enters passes
    exact ⟨answer, answered, next, resumed, interlude, spares',
      Restraint.resume_spares holds.inOrder returns spares' interlude.resumes, silent⟩
  below reaches asks static enters passes := by
    obtain ⟨ground, _, holds⟩ := reaches.holds inOrder bounded List.nil_suffix
    obtain ⟨isCall, spares, _⟩ := call_of_static holds.inOrder static asks
    obtain ⟨spares', bound, _⟩ := passes_of_static holds.inOrder static isCall spares enters passes
    exact ⟨bound.binds.1, bound.refrains holds.inOrder spares'⟩

/-- Static code that stores a word. -/
def storingMessage : Message :=
  { Message.blank with
    target := some 0xaa, gasLimit := 50000, isStatic := true
    code := #[0x60, 0x01, 0x60, 0x00, 0x55] }

theorem runMessage_staticallyClosed_storing : ∃ result after,
    runMessage (.blank .cancun) storingMessage 0 (Host.start .empty ()) = .ok result after ∧
      result.outcome = .faulted .staticStateChangeViolation ∧
      (Host.start .empty ()).Spares false after := by
  have faults : ((runMessage (.blank .cancun) storingMessage 0).run'
      (Host.start .empty ())).map (·.outcome) = some (.faulted .staticStateChangeViolation) := by
    decide +kernel
  have closed := runMessage_staticallyClosed (.blank .cancun) storingMessage 0
    (Host.start .empty ()) World.empty_inOrder (by decide)
  obtain ⟨result, after, runs, spares, _⟩ := closed.outermost rfl rfl
    (Message.not_overflows_of_gasLimit (by decide))
  rw [run'_eq_some.mpr ⟨after, runs⟩, Option.map_some] at faults
  exact ⟨result, after, runs, Option.some.inj faults, spares⟩

end Evm
