import Evm.Proofs.Conservation
import Evm.Proofs.Footprints

/-!
# What calls do to their frame, and all operations

Calls and creations reach memory like other operations, and owe the stack the word that their nested
message decides. What holds of each operation holds of a step, and of a turn of a frame.
-/

namespace Evm

variable {σ : Type}

namespace Instruction

open FrameM.Does hiding bind

variable {fork : Fork} {context : Context} {frame : Frame} {host : Host σ}

structure CallNames (mode : CallMode) (frame : Frame) (operands : CallOperands) : Prop where
  target_eq : operands.target = frame.address 1
  value_eq : operands.value = Operation.callValue mode frame
  input : Memory.Names (frame.operand (Operation.callRanges mode))
    (frame.operand (Operation.callRanges mode + 1)) operands.input
  room : Memory.Names (frame.operand (Operation.callRanges mode + 2))
    (frame.operand (Operation.callRanges mode + 3)) operands.room

theorem inputs_call (mode : CallMode) :
    (Operation.call mode).inputs = Operation.callRanges mode + 4 := by
  cases mode <;> rfl

theorem popCall_does {mode : CallMode} {post : CallOperands → Frame → Prop}
    (enough : (Operation.call mode).inputs ≤ frame.stack.size)
    (holds : ∀ operands popped, CallNames mode frame operands →
      Stand frame (Operation.call mode).inputs [] 0 frame.memory popped → post operands popped) :
    (popCall mode).Does frame post := by
  rw [inputs_call] at enough holds
  have first : 2 ≤ Operation.callRanges mode := by
    unfold Operation.callRanges
    split <;> omega
  refine .bind (pop (.begin frame) (by omega) fun _ stand => ?_)
  refine .bind (popAddress stand (by omega) fun between stand => ?_)
  have value : (popValue mode).Does between fun value popped =>
      value = Operation.callValue mode frame ∧
        Stand frame (Operation.callRanges mode) [] 0 frame.memory popped := by
    unfold popValue Operation.callValue Operation.callRanges at *
    split
    · exact pop stand (by omega) fun popped stand => ⟨rfl, stand⟩
    · exact done ⟨rfl, stand⟩
  refine .bind (value.mono fun value popped valued => ?_)
  obtain ⟨value_eq, stand⟩ := valued
  refine .bind (pop stand (by omega) fun _ stand => .bind (pop stand (by omega) fun _ stand => ?_))
  refine .bind (pop stand (by omega) fun _ stand => .bind (pop stand (by omega) fun _ stand => ?_))
  refine .bind (region fun input names => .bind (region fun room names' => ?_))
  exact done (holds _ _ ⟨rfl, value_eq, names, names'⟩ stand)

theorem callExpansion_eq {mode : CallMode} {operands : CallOperands}
    (names : CallNames mode frame operands) :
    callExpansion fork frame.memory operands = (Operation.call mode).growth fork frame := by
  unfold callExpansion
  rw [names.input.expansionPrice, names.room.expansionPrice]
  rfl

theorem callPrice_ok {mode : CallMode} {operands : CallOperands} {price : Nat} {priced : Host σ}
    (names : CallNames mode frame operands)
    (prices : callPrice fork mode operands.target operands.value host = .ok price priced) :
    price = (Operation.call mode).ownPrice fork host.view frame ∧
      stipend fork operands.value ≤ price := by
  rw [names.target_eq, names.value_eq] at prices
  rw [names.value_eq]
  obtain ⟨access, accessed, accesses, prices⟩ := bind_eq_ok.mp prices
  obtain ⟨rfl, shows⟩ := Host.accessAddress_shows accesses
  have dearer : fork.fee .callStipend ≤ fork.fee .callValue := by simp only [Fork.fee]; omega
  unfold Operation.ownPrice stipend
  by_cases none : Operation.callValue mode frame = 0
  · simp only [if_pos none] at prices ⊢
    cases prices
    exact ⟨rfl, Nat.zero_le _⟩
  simp only [if_neg none] at prices ⊢
  suffices price_eq : price = _ from ⟨price_eq, by rw [price_eq]; omega⟩
  by_cases plain : mode = .call
  · simp only [if_pos plain] at prices
    obtain ⟨account, _, reads, prices⟩ := bind_eq_ok.mp prices
    obtain rfl := Host.account_ok reads
    cases prices
    simp [plain, shows.view_eq, Nat.add_assoc]
  · simp only [if_neg plain] at prices
    cases prices
    simp [plain, Nat.add_assoc]

theorem payCall_does {mode : CallMode} {operands : CallOperands} {price : Nat} {popped : Frame}
    (names : CallNames mode frame operands)
    (stand : Stand frame (Operation.call mode).inputs [] 0 frame.memory popped)
    {post : Nat → Frame → Prop}
    (holds : ∀ granted paid,
      Stand { frame with returnData := #[] } (Operation.call mode).inputs []
        (price + (Operation.call mode).growth fork frame + granted)
        (frame.memory.expandAll ((Operation.call mode).ranges frame)) paid →
      post (granted + stipend fork operands.value) paid) :
    (payCall fork operands price).Does popped post := by
  refine .bind (current ?_)
  rw [stand.memory_eq, callExpansion_eq names]
  refine .bind (charge stand fun _ stand => ?_)
  refine .bind (grow stand fun _ stand => .bind (grow stand fun _ stand => ?_))
  rw [names.input.expand, names.room.expand, Nat.zero_add] at stand
  refine .bind (current (.bind (charge stand fun _ stand => ?_)))
  refine .bind (update (assured fun gas fits => ?_))
  unfold fits? at fits
  split at fits <;> cases fits
  exact holds _ _ ⟨stand.words_eq, stand.used_eq, stand.memory_eq, rfl, stand.logs_eq⟩

theorem refuseCall_does {mode : CallMode} {price granted given : Nat} {paid : Frame}
    (fits : (Operation.call mode).Fits frame.stack) (enough : given ≤ price)
    (stand : Stand { frame with returnData := #[] } (Operation.call mode).inputs []
      (price + (Operation.call mode).growth fork frame + granted)
      (frame.memory.expandAll ((Operation.call mode).ranges frame)) paid)
    {post : Unit → Frame → Prop}
    (holds : ∀ left, left.stack.words = [0] ++ frame.stack.words.drop (Operation.call mode).inputs →
      left.gas.used + given =
        frame.gas.used + price + (Operation.call mode).growth fork frame →
      left.memory = frame.memory.expandAll ((Operation.call mode).ranges frame) → post () left) :
    (refuseCall (granted + given)).Does paid post := by
  obtain ⟨-, room⟩ := fits
  have settled : Stand { frame with returnData := #[] } (Operation.call mode).inputs []
      (price - given + (Operation.call mode).growth fork frame)
      (frame.memory.expandAll ((Operation.call mode).ranges frame))
      { paid with gas := paid.gas.restore (granted + given) } := by
    refine ⟨stand.words_eq, ?_, stand.memory_eq, stand.returnData_eq, stand.logs_eq⟩
    have used_eq := stand.used_eq
    simp only [Meter.restore] at used_eq ⊢
    omega
  refine .bind (update (push settled ?_ fun left stand => ?_))
  · exact room
  · refine holds left stand.words_eq ?_ stand.memory_eq
    rw [stand.used_eq]
    dsimp only
    omega

theorem prepareCall_does {mode : CallMode} (fits : (Operation.call mode).Fits frame.stack) :
    (prepareCall fork context mode).Does frame host fun prepared left _ =>
      (Operation.call mode).Footprint fork context host.view frame left
        (prepared.elim .next .call) := by
  refine .bind (.lift (popCall_does fits.enough fun operands popped names stand => ?_))
  refine .bind (.lift (faultIf rfl fun mutable => ?_))
  refine .bind (.serve fun price priced prices => ?_)
  obtain ⟨rfl, enough⟩ := callPrice_ok names prices
  refine .bind (.lift (payCall_does names stand fun granted paid stand => ?_))
  refine .bind (.serve fun account _ _ => ?_)
  rw [names.value_eq] at enough ⊢
  have reached : ∀ range ∈ (Operation.call mode).ranges frame,
      range.2 ≠ 0 → range.1 + range.2 ≤ memoryLimit :=
    List.forall_mem_cons.mpr
      ⟨names.input.within, List.forall_mem_singleton.mpr names.room.within⟩
  have grown : (frame.memory.expandAll ((Operation.call mode).ranges frame)).bytes =
      frame.memory.bytes := by
    simp [Operation.ranges]
  split
  · refine .bind (.lift (refuseCall_does fits enough stand fun left words used memory => .done ?_))
    refine ⟨⟨[0], words, ?_⟩, reached, ?_, ?_, ?_, ⟨_, used, enough, fun _ => rfl⟩, ?_⟩
    · cases mode <;> rfl
    · rw [memory]
    · rw [memory, grown]
      rfl
    · rintro _ ⟨⟩
    · rintro _ ⟨⟩
  · refine .bind (.lift (readMemory stand ?_))
    refine .bind (.serve fun code _ _ => .bind (.serve fun checkpoint _ _ => ?_))
    refine .bind (.current (.done ?_))
    refine ⟨⟨[], stand.words_eq, ?_⟩, reached, ?_, ?_, ?_, ⟨_, ?_, enough, fun _ => rfl⟩, ?_⟩
    · cases mode <;> rfl
    · rw [stand.memory_eq]
    · rw [stand.memory_eq, grown]
      rfl
    · rintro _ ⟨⟩
      refine ⟨?_, operands.room, checkpoint, rfl, names.room⟩
      rw [← names.input.read, ← grown]
      rfl
    · rw [stand.used_eq]
      simp only [Option.elim, Control.given, callMessage, Operation.gift]
      omega
    · rintro _ ⟨⟩
      rfl

theorem call_does {mode : CallMode} (fits : (Operation.call mode).Fits frame.stack) :
    (call fork context mode).Does frame host fun control left _ =>
      (Operation.call mode).Footprint fork context host.view frame left control := by
  refine .bind ((prepareCall_does fits).mono fun prepared left _ footprint => ?_)
  cases prepared with
  | none => exact .done footprint
  | some nested => exact .bind (.serve fun _ _ _ => .done footprint)

theorem popCreate_does {salted : Bool} {post : CreateOperands → Frame → Prop}
    (enough : (Operation.create salted).inputs ≤ frame.stack.size)
    (holds : ∀ operands popped,
      Memory.Names (frame.operand 1) (frame.operand 2) operands.code →
      Stand frame (Operation.create salted).inputs [] 0 frame.memory popped →
      post operands popped) :
    (popCreate salted).Does frame post := by
  have least : 3 ≤ (Operation.create salted).inputs := by cases salted <;> decide
  refine .bind (pop (.begin frame) (by omega) fun _ stand => ?_)
  refine .bind (pop stand (by omega) fun _ stand => ?_)
  refine .bind (pop stand (by omega) fun between stand => ?_)
  have salt : (popSalt salted).Does between fun _ popped =>
      Stand frame (Operation.create salted).inputs [] 0 frame.memory popped := by
    cases salted with
    | false => exact done stand
    | true => exact .bind (pop stand enough fun popped stand => done stand)
  refine .bind (salt.mono fun salt popped stand => .bind (region fun code names => ?_))
  exact done (holds _ _ names stand)

theorem payCreate_does (view : View) {salted : Bool} {operands : CreateOperands} {popped : Frame}
    (names : Memory.Names (frame.operand 1) (frame.operand 2) operands.code)
    (stand : Stand frame (Operation.create salted).inputs [] 0 frame.memory popped)
    {post : Bytes → Frame → Prop}
    (holds : ∀ paid,
      Stand { frame with returnData := #[] } (Operation.create salted).inputs []
        ((Operation.create salted).ownPrice fork view frame +
          (Operation.create salted).growth fork frame)
        (frame.memory.expandAll ((Operation.create salted).ranges frame)) paid →
      post (frame.memory.bytes.read (frame.operand 1).toNat (frame.operand 2).toNat) paid) :
    (payCreate fork salted operands).Does popped post := by
  refine .bind (faultIf rfl fun small => ?_)
  refine .bind (charge stand fun _ stand => ?_)
  refine .bind (expand stand fun _ stand => ?_)
  refine .bind (readMemory stand (.bind (update (done ?_))))
  rw [Memory.bytes_expand, names.read]
  rw [names.expand, names.expansionPrice, names.size_eq, Nat.zero_add] at stand
  exact holds _ ⟨stand.words_eq, stand.used_eq, stand.memory_eq, rfl, stand.logs_eq⟩

theorem create_does {salted : Bool} (fits : (Operation.create salted).Fits frame.stack) :
    (create fork context salted).Does frame host fun control left _ =>
      (Operation.create salted).Footprint fork context host.view frame left control := by
  refine .bind (.lift (faultIf rfl fun mutable => ?_))
  refine .bind (.lift (popCreate_does fits.enough fun operands popped names stand => ?_))
  refine .bind (.lift (payCreate_does host.view names stand fun paid stand => ?_))
  refine .bind (.serve fun account _ _ => ?_)
  have reached : ∀ range ∈ (Operation.create salted).ranges frame,
      range.2 ≠ 0 → range.1 + range.2 ≤ memoryLimit := List.forall_mem_singleton.mpr names.within
  have grown : (frame.memory.expandAll ((Operation.create salted).ranges frame)).bytes =
      frame.memory.bytes := by
    simp [Operation.ranges]
  split
  · refine .bind (.lift (push stand fits.room fun left stand => .done ?_))
    refine ⟨⟨[0], stand.words_eq, rfl⟩, reached, ?_, ?_, ?_,
      ⟨_, ?_, Nat.zero_le _, fun _ => rfl⟩, ?_⟩
    · rw [stand.memory_eq]
    · rw [stand.memory_eq, grown]
      rfl
    · rintro _ ⟨⟩
    · rw [stand.used_eq]
      simp only [Control.given, Operation.gift]
      omega
    · rintro _ ⟨⟩
  · refine .bind (.current (.bind (.lift (charge stand fun left stand => ?_))))
    refine .bind (.current (.done ?_))
    refine ⟨⟨[], stand.words_eq, rfl⟩, reached, ?_, ?_, ?_,
      ⟨_, ?_, Nat.zero_le _, fun _ => rfl⟩, ?_⟩
    · rw [stand.memory_eq]
    · rw [stand.memory_eq, grown]
      rfl
    · rintro _ ⟨⟩
      rfl
    · rw [stand.used_eq]
      simp only [Control.given, Operation.gift, createMessage]
      omega
    · rintro _ ⟨⟩
      rfl

end Instruction

open Instruction InstructionM

theorem thenNext_does {action : InstructionM σ Unit} {frame : Frame} {host : Host σ}
    {post : Control → Frame → Host σ → Prop}
    (does : action.Does frame host fun _ left last => post .next left last) :
    (thenNext action).Does frame host post :=
  .bind (does.mono fun _ _ _ holds => .done holds)

theorem thenNext_lift_does {action : FrameM Unit} {frame : Frame} {host : Host σ}
    {post : Control → Frame → Host σ → Prop}
    (does : action.Does frame fun _ left => post .next left host) :
    (thenNext (liftM action)).Does frame host post :=
  thenNext_does (.lift does)

/-- An operation that fits the stack leaves its footprint, unless it is stopped. It is stopped for
neither operands nor room, and not as unknown unless it is the one that is there for that. -/
theorem execute_does {env : Environment σ} {context : Context} {instruction : Instruction}
    {operation : Operation} {frame : Frame} {host : Host σ} (known : operation ≠ .invalid)
    (fits : operation.Fits frame.stack) :
    (execute env context instruction operation).Does frame host fun control left _ =>
      operation.Footprint env.fork context host.view frame left control := by
  have plain {left : Frame} {control : Control} (rests : operation.reaches = false)
      (goes : control.owed = 0) (done : operation.Plain frame left) :
      operation.Footprint env.fork context host.view frame left control :=
    done.footprint env.fork context host.view rests goes
  cases operation with
  | invalid => exact absurd rfl known
  | stop => exact .done (plain rfl rfl ⟨[], 0, rfl, .begin frame⟩)
  | unary => exact thenNext_lift_does ((unary_does fits).mono fun _ _ => plain rfl rfl)
  | binary => exact thenNext_lift_does ((binary_does fits).mono fun _ _ => plain rfl rfl)
  | ternary => exact thenNext_lift_does ((ternary_does fits).mono fun _ _ => plain rfl rfl)
  | query => exact thenNext_lift_does ((query_does fits).mono fun _ _ => plain rfl rfl)
  | lookup => exact thenNext_lift_does ((lookup_does fits).mono fun _ _ => plain rfl rfl)
  | push => exact thenNext_lift_does ((pushArgument_does fits).mono fun _ _ => plain rfl rfl)
  | dup => exact thenNext_lift_does ((dup_does fits).mono fun _ _ => plain rfl rfl)
  | swap => exact thenNext_lift_does ((swap_does fits).mono fun _ _ => plain rfl rfl)
  | inspect => exact thenNext_does ((inspect_does fits).mono fun _ _ _ => plain rfl rfl)
  | selfBalance => exact thenNext_does ((selfBalance_does fits).mono fun _ _ _ => plain rfl rfl)
  | storageLoad => exact thenNext_does ((storageLoad_does fits).mono fun _ _ _ => plain rfl rfl)
  | storageStore => exact thenNext_does ((storageStore_does fits).mono fun _ _ _ => plain rfl rfl)
  | transientLoad =>
    exact thenNext_does ((transientLoad_does fits).mono fun _ _ _ => plain rfl rfl)
  | transientStore =>
    exact thenNext_does ((transientStore_does fits).mono fun _ _ _ => plain rfl rfl)
  | selfDestruct =>
    exact .bind ((selfDestruct_does fits).mono fun _ _ _ done => .done (plain rfl rfl done))
  | pop =>
    refine thenNext_does (.bind (.lift (.charge (.begin frame) fun _ stand => ?_)))
    refine .bind (.lift (.pop stand fits.enough fun left stand => .done ?_))
    exact plain rfl rfl ⟨[], _, rfl, stand⟩
  | jumpDest =>
    exact thenNext_lift_does
      (.charge (.begin frame) fun _ stand => plain rfl rfl ⟨[], _, rfl, stand⟩)
  | jump => exact .lift ((jump_does fits).mono fun _ _ done => plain rfl done.1 done.2)
  | jumpIf => exact .lift ((jumpIf_does fits).mono fun _ _ done => plain rfl done.1 done.2)
  | keccak => exact thenNext_lift_does (keccak_does fits)
  | copy => exact thenNext_lift_does (copy_does fits)
  | externalCodeCopy => exact thenNext_does (externalCodeCopy_does fits)
  | returnDataCopy => exact thenNext_lift_does (returnDataCopy_does fits)
  | memoryLoad => exact thenNext_lift_does (memoryLoad_does fits)
  | memoryStore => exact thenNext_lift_does (memoryStore_does fits)
  | memoryStore8 => exact thenNext_lift_does (memoryStore8_does fits)
  | memoryCopy => exact thenNext_lift_does (memoryCopy_does fits)
  | log => exact thenNext_lift_does (log_does fits)
  | create => exact create_does fits
  | call => exact call_does fits
  | ret => exact .lift (finish_does (.inl rfl) fits rfl)
  | revert => exact .lift (finish_does (.inr rfl) fits rfl)

section Steps

variable {env : Environment σ} {context : Context} {operation : Operation} {frame left : Frame}
  {host after : Host σ} {made control : Control}

theorem Operation.Footprint.report {view : View}
    (footprint : operation.Footprint env.fork context view frame left made)
    (same : control = made ∨ ∃ nested step, made = .call nested ∧
      control = .call { nested with resumption := { nested.resumption with step } }) :
    operation.Footprint env.fork context view frame left control := by
  obtain rfl | ⟨nested, step, rfl, rfl⟩ := same
  · exact footprint
  · refine ⟨footprint.words, footprint.within, footprint.size_eq, footprint.bytes_eq, ?_,
      footprint.pays, ?_⟩
    · have reads := footprint.reads
      cases operation with
      | create => rintro _ ⟨⟩; exact reads nested rfl
      | call => rintro _ ⟨⟩; exact reads nested rfl
      | _ => exact reads
    · rintro _ ⟨⟩
      exact footprint.asks nested rfl

theorem checkStack_iff :
    checkStack operation frame = .ok ((), left) ↔ operation.Fits frame.stack ∧ frame = left := by
  constructor
  · intro checks
    obtain ⟨rfl, enough, room⟩ := checkStack_ok checks
    exact ⟨⟨enough, room⟩, rfl⟩
  · rintro ⟨⟨enough, room⟩, rfl⟩
    refine FrameM.bind_ok.mpr ⟨frame, frame, rfl, ?_⟩
    rw [if_neg (by omega), if_neg (by omega)]
    rfl

theorem fits_of_step (next : context.operation? env.fork frame = some operation)
    (steps : step env context frame host = .ok (control, left) after) :
    operation.Fits frame.stack := by
  obtain ⟨instruction, fetched, enabled⟩ := Option.bind_eq_some_iff.mp next
  obtain ⟨_, _, _, reads, steps⟩ := InstructionM.bind_ok.mp steps
  obtain ⟨rfl, rfl, rfl⟩ := current_ok.mp reads
  simp only [fetched, enabled] at steps
  obtain ⟨_, _, _, checks, _⟩ := InstructionM.bind_ok.mp steps
  exact (checkStack_iff.mp (lift_ok.mp checks).1).1

theorem step_footprint (next : context.operation? env.fork frame = some operation)
    (steps : step env context frame host = .ok (control, left) after) :
    operation.Fits frame.stack ∧
      operation.Footprint env.fork context host.view frame left control := by
  have fits := fits_of_step next steps
  obtain ⟨instruction, made, between, executes, same⟩ := execute_of_step next steps
  have known : operation ≠ .invalid := by
    rintro rfl
    cases (lift_ok.mp executes).1
  exact ⟨fits, ((execute_does known fits).of_ok executes).report same⟩

namespace Execution

/-- What a turn has done that did not end its frame: its operation has left its footprint. -/
structure Trodden (env : Environment σ) (context : Context) (frame : Frame) (host : Host σ)
    (left : Frame) (control : Control) (operation : Operation) : Prop where
  next : context.operation? env.fork frame = some operation
  fits : operation.Fits frame.stack
  footprint : operation.Footprint env.fork context host.view frame left control

theorem step_trodden (steps : step env context frame host = .ok (control, left) after) :
    (context.operation? env.fork frame = none ∧ left = frame ∧ control = .halt .stop) ∨
      ∃ operation, Trodden env context frame host left control operation := by
  obtain ⟨past, _⟩ | ⟨_, operation, _, _, next, _⟩ := step_ok steps
  · rw [step_past past] at steps
    cases steps
    exact .inl ⟨by simp [Context.operation?, past], rfl, rfl⟩
  · obtain ⟨fits, footprint⟩ := step_footprint next steps
    exact .inr ⟨operation, next, fits, footprint⟩

theorem trodden_of_step (steps : step env context frame host = .ok (control, left) after)
    (going : control ≠ .halt .stop) :
    ∃ operation, Trodden env context frame host left control operation :=
  (step_trodden steps).resolve_left fun past => going past.2.2

theorem turn_goOn_trodden {next : Frame}
    (turns : turn env context frame host = .ok (.goOn next) after) :
    ∃ left control index operation, Trodden env context frame host left control operation ∧
      control.owed = 0 ∧ next = { left with index } := by
  unfold turn at turns
  cases steps : step env context frame host with
  | error interrupt between =>
    simp only [steps] at turns
    cases interrupt <;> cases turns
  | ok stepped between =>
    obtain ⟨control, left⟩ := stepped
    simp only [steps] at turns
    cases control <;> cases turns
    · obtain ⟨operation, trodden⟩ := trodden_of_step steps nofun
      exact ⟨left, _, _, operation, trodden, rfl, rfl⟩
    · obtain ⟨operation, trodden⟩ := trodden_of_step steps nofun
      exact ⟨left, _, _, operation, trodden, rfl, rfl⟩

theorem turn_ask_trodden {nested : NestedCall} {asking : Frame}
    (turns : turn env context frame host = .ok (.ask nested asking) after) :
    ∃ left index operation, Trodden env context frame host left (.call nested) operation ∧
      asking = { left with index } := by
  obtain ⟨left, steps, rfl⟩ := asks_of_turn turns
  obtain ⟨operation, trodden⟩ := trodden_of_step steps nofun
  exact ⟨left, _, operation, trodden, rfl⟩

theorem turn_finish_trodden {ended : Result}
    (turns : turn env context frame host = .ok (.finish ended) after) :
    (∃ left, ((∃ reason, ended = haltedResult left reason) ∨
        ended = revertedResult context.message left) ∧
      (context.operation? env.fork frame = none ∧ left = frame ∨
        ∃ control operation, Trodden env context frame host left control operation ∧
          control.owed = 0)) ∨
      ∃ cause, ended = .faulted context.message cause := by
  unfold turn at turns
  cases steps : step env context frame host with
  | error interrupt between =>
    simp only [steps] at turns
    cases interrupt with
    | fault cause =>
      cases turns
      exact .inr ⟨cause, rfl⟩
    | failure => cases turns
  | ok stepped between =>
    obtain ⟨control, left⟩ := stepped
    have walked : context.operation? env.fork frame = none ∧ left = frame ∨
        ∃ operation, Trodden env context frame host left control operation :=
      (step_trodden steps).imp_left fun past => ⟨past.1, past.2.1⟩
    simp only [steps] at turns
    cases control <;> cases turns
    · exact .inl ⟨left, .inl ⟨_, rfl⟩, walked.imp_right fun ⟨_, trodden⟩ => ⟨_, _, trodden, rfl⟩⟩
    · exact .inl ⟨left, .inr rfl, walked.imp_right fun ⟨_, trodden⟩ => ⟨_, _, trodden, rfl⟩⟩

end Execution

end Steps

/-- What an answer makes of the bytes of the memory: of its output goes into the room of a call as
much as both have. -/
def Receiver.filled (receiver : Receiver) (output : Bytes) (map : ByteMap) : ByteMap :=
  match receiver with
  | .call offset size _ => map.write offset (output.extract 0 (min size output.size))
  | .create => map

theorem Execution.resume_memory {env : Environment σ} {suspended : Suspended} {result : Result}
    {next : Frame} {host after : Host σ}
    (resumes : resume env suspended result host = .ok next after) :
    next.memory.size = suspended.frame.memory.size ∧
      next.memory.bytes =
        suspended.resumption.receiver.filled result.output suspended.frame.memory.bytes := by
  obtain ⟨_, receives, _⟩ := resume_ok resumes
  cases taker : suspended.resumption.receiver with
  | call offset size checkpoint =>
    rw [taker] at receives
    obtain ⟨_, fills⟩ := receive_call_ok receives
    obtain ⟨memory, stores, rfl⟩ := Option.map_eq_some_iff.mp fills
    have stores := Memory.Stores.of_store? stores
    exact ⟨stores.size_eq, stores.bytes_eq⟩
  | create =>
    rw [taker] at receives
    cases receives
    unfold receiveCreation
    split <;> exact ⟨rfl, rfl⟩

end Evm
