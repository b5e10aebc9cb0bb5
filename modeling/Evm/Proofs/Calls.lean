import Evm.Proofs.Boundary
import Evm.Proofs.Costs

/-!
# What calls and creations cost

A call pays its price, the growth of its memory and the gas that it gives along, and the nested
message gets the stipend on top. A call that is not made gets back what it gave along, stipend
included.
-/

namespace Evm.Instruction

open FrameM.Meets hiding bind

variable {σ : Type} {start frame : Frame} {spent : Nat} {memory : Memory} {fork : Fork}

theorem allButOne64th_le (gas : Nat) : Gas.allButOne64th gas ≤ gas := Nat.sub_le ..

structure CallOperands.Within (operands : CallOperands) : Prop where
  input : Memory.Within operands.input.1 operands.input.2
  room : Memory.Within operands.room.1 operands.room.2

theorem popValue_meets (mode : CallMode) {post : Word → Frame → Prop}
    (stage : Stage start spent memory frame)
    (holds : ∀ value after, Stage start spent memory after → post value after) :
    (popValue mode).Meets frame post := by
  unfold popValue
  split
  · exact pop stage holds
  · exact done (holds 0 frame stage)

theorem popCall_meets (mode : CallMode) {post : CallOperands → Frame → Prop}
    (stage : Stage start spent memory frame)
    (holds : ∀ operands after, operands.Within → Stage start spent memory after →
      post operands after) :
    (popCall mode).Meets frame post := by
  refine .bind (pop stage fun gas _ stage => ?_)
  refine .bind (popAddress stage fun target _ stage => ?_)
  refine .bind (popValue_meets mode stage fun value _ stage => ?_)
  refine .bind (pop stage fun inputOffset _ stage => ?_)
  refine .bind (pop stage fun inputSize _ stage => ?_)
  refine .bind (pop stage fun roomOffset _ stage => ?_)
  refine .bind (pop stage fun roomSize _ stage => ?_)
  refine .bind (region fun first length within same => ?_)
  refine .bind (region fun first' length' within' same' => ?_)
  exact done (holds _ _ ⟨within, within'⟩ stage)

theorem callExpansion_le (fork : Fork) (memory : Memory) {operands : CallOperands}
    (within : operands.Within) : callExpansion fork memory operands ≤ 1 <<< 46 :=
  Nat.max_le.mpr ⟨memory.expansionPrice_le fork within.input.end_le,
    memory.expansionPrice_le fork within.room.end_le⟩

/-- A frame that has paid for a call: its price, its memory, and the gas given along. -/
structure PaidCall (start : Frame) (fork : Fork) (operands : CallOperands) (price granted : Nat)
    (frame : Frame) : Prop where
  pays : start.gas.Pays (price + callExpansion fork start.memory operands + granted) frame.gas
  input_le : operands.input.1 + operands.input.2 ≤ frame.memory.size
  room_le : operands.room.1 + operands.room.2 ≤ frame.memory.size

theorem payCall_meets {operands : CallOperands} {price : Nat} {post : Nat → Frame → Prop}
    (within : operands.Within) (bounded : CallPrice fork operands.value price)
    (stage : Stage start 0 start.memory frame)
    (holds : ∀ granted after, PaidCall start fork operands price granted after →
      post (granted + stipend fork operands.value) after) :
    (payCall fork operands price).Meets frame post := by
  have price_le := bounded.le
  have stipend_lt := bounded.stipend_lt
  have expansion_le := callExpansion_le fork start.memory within
  refine .bind (current ?_)
  rw [stage.memory_eq]
  refine .bind (charge stage (by unfold machineLimit; omega) fun _ stage => ?_)
  refine .bind (grow stage fun _ stage => ?_)
  refine .bind (grow stage fun between stage => ?_)
  refine .bind (current ?_)
  let granted := min operands.gas.toNat (Gas.allButOne64th between.gas.remaining)
  have fits : granted < machineLimit := by
    have given : granted ≤ between.gas.remaining :=
      Nat.le_trans (Nat.min_le_right ..) (allButOne64th_le _)
    have limit_lt := stage.pays.sound.limit_lt
    unfold Meter.remaining at given
    omega
  refine .bind (charge stage fits fun paid stage => ?_)
  refine .bind (update ?_)
  have used_eq := stage.pays.used_eq
  have used_le := stage.pays.sound.used_le
  have limit_lt := stage.pays.sound.limit_lt
  have known : fits? (granted + stipend fork operands.value) =
      some (granted + stipend fork operands.value) := by
    unfold fits?
    rw [if_pos (by omega)]
  rw [known]
  refine done (holds granted _ ⟨?_, ?_, ?_⟩)
  · have pays := stage.pays
    rw [Nat.zero_add] at pays
    exact pays
  · have covers := (Memory.covers_expand start.memory within.input).1
    have grows := (Memory.covers_expand
      (start.memory.expand operands.input.1 operands.input.2) within.room).2
    rw [stage.memory_eq]
    omega
  · rw [stage.memory_eq]
    exact (Memory.covers_expand _ within.room).1

structure CallBill (fork : Fork) (mode : CallMode) (frame : Frame) (host : Host σ)
    (operands : CallOperands) (price : Nat) : Prop where
  pops : ∃ popped, popCall mode frame = .ok (operands, popped)
  prices : ∃ priced, callPrice fork mode operands.target operands.value host = .ok price priced
  bounded : CallPrice fork operands.value price

/-- What a call leaves to its frame: with the nested message all is paid, and without it only the
price and the memory, less the stipend. -/
def CallPaid (fork : Fork) (frame : Frame) (operands : CallOperands) (price : Nat)
    (after : Frame) : Control → Prop
  | .call nested => ∃ granted checkpoint,
    PaidCall frame fork operands price granted after ∧
    nested.message.gasLimit = granted + stipend fork operands.value ∧
    nested.resumption.gas = nested.message.gasLimit ∧
    nested.resumption.receiver = .call operands.room.1 operands.room.2 checkpoint
  | .next =>
    after.gas.limit = frame.gas.limit ∧ after.gas.Sound ∧
    after.gas.used + stipend fork operands.value =
      frame.gas.used + price + callExpansion fork frame.memory operands
  | _ => False

theorem CallPaid.next_or_call {operands : CallOperands} {price : Nat} {after : Frame}
    {control : Control} (paid : CallPaid fork frame operands price after control) :
    control = .next ∨ ∃ nested, control = .call nested := by
  cases control with
  | next => exact .inl rfl
  | call nested => exact .inr ⟨nested, rfl⟩
  | jump index => exact paid.elim
  | halt reason => exact paid.elim
  | revert => exact paid.elim

theorem refuseCall_meets {operands : CallOperands} {price granted : Nat}
    (bounded : CallPrice fork operands.value price)
    (paid : PaidCall start fork operands price granted frame) {post : Unit → Frame → Prop}
    (holds : ∀ after, CallPaid fork start operands price after .next → post () after) :
    (refuseCall (granted + stipend fork operands.value)).Meets frame post := by
  have limit_eq := paid.pays.limit_eq
  have used_eq := paid.pays.used_eq
  have stipend_lt := bounded.stipend_lt
  let refunded := { frame with gas := frame.gas.restore (granted + stipend fork operands.value) }
  have sound : refunded.gas.Sound := Meter.sound_restore paid.pays.sound
  refine .bind (update (push (Stage.begin sound) fun after stage => holds after ⟨?_, ?_, ?_⟩))
  · rw [stage.pays.limit_eq]
    exact limit_eq
  · exact stage.pays.sound
  · rw [stage.pays.used_eq]
    simp only [Meter.restore]
    omega

theorem prepareCall_meets {host : Host σ} (context : Context) (mode : CallMode)
    (sound : frame.gas.Sound) (inOrder : host.InOrder) :
    (prepareCall fork context mode).Meets frame host fun prepared after last =>
      last.InOrder ∧ ∃ operands price, CallBill fork mode frame host operands price ∧
        CallPaid fork frame operands price after (prepared.elim .next .call) := by
  have stage := Stage.begin sound
  refine .bind (.lift (.given (popCall_meets mode stage fun operands popped within stage pops => ?_)))
  refine .bind (.lift (faultIf fun mutable => ?_))
  refine .bind (.serveGiven (callPrice_serves fork mode operands.target operands.value) inOrder
    fun price priced prices inOrder bounded => ?_)
  have bill : CallBill fork mode frame host operands price := ⟨⟨_, pops⟩, ⟨_, prices⟩, bounded⟩
  refine .bind (.lift (payCall_meets within bounded stage fun granted paid pays => ?_))
  refine .bind (.serve (Host.account_serves context.self) inOrder fun account _ inOrder _ => ?_)
  split
  · refine .bind (.lift (refuseCall_meets bounded pays fun after refused => ?_))
    exact .done ⟨inOrder, operands, price, bill, refused⟩
  · have settled : Stage paid 0 paid.memory paid := Stage.begin pays.pays.sound
    refine .bind (.lift (readMemory settled pays.input_le fun data => ?_))
    refine .bind (.serve (Host.code_serves operands.target) inOrder fun code _ inOrder _ => ?_)
    refine .bind (.serve Host.checkpoint_serves inOrder fun checkpoint _ inOrder _ => ?_)
    refine .bind (.current (.done ⟨inOrder, operands, price, bill, ?_⟩))
    exact ⟨granted, checkpoint, pays, rfl, rfl, rfl⟩

theorem call_meets {host : Host σ} (context : Context) (mode : CallMode)
    (sound : frame.gas.Sound) (inOrder : host.InOrder) :
    (call fork context mode).Meets frame host fun control after _ =>
      ∃ operands price, CallBill fork mode frame host operands price ∧
        CallPaid fork frame operands price after control := by
  refine .bind (.mono (prepareCall_meets context mode sound inOrder) ?_)
  rintro prepared after last ⟨inOrder, paid⟩
  cases prepared with
  | none => exact .done paid
  | some nested =>
    exact .bind (.serve (sendValue_serves mode nested.message) inOrder fun _ _ _ _ => .done paid)

theorem popSalt_meets (salted : Bool) {post : Option Word → Frame → Prop}
    (stage : Stage start spent memory frame)
    (holds : ∀ salt after, Stage start spent memory after → post salt after) :
    (popSalt salted).Meets frame post := by
  unfold popSalt
  split
  · exact .bind (pop stage fun word after stage => done (holds (some word) after stage))
  · exact done (holds none frame stage)

theorem popCreate_meets (salted : Bool) {post : CreateOperands → Frame → Prop}
    (stage : Stage start spent memory frame)
    (holds : ∀ operands after, Memory.Within operands.code.1 operands.code.2 →
      Stage start spent memory after → post operands after) :
    (popCreate salted).Meets frame post := by
  refine .bind (pop stage fun value _ stage => ?_)
  refine .bind (pop stage fun offset _ stage => ?_)
  refine .bind (pop stage fun size _ stage => ?_)
  refine .bind (popSalt_meets salted stage fun salt _ stage => ?_)
  refine .bind (region fun first length within same => ?_)
  exact done (holds _ _ within stage)

theorem createPrice_bounds (fork : Fork) (salted : Bool) {offset size : Nat}
    (within : Memory.Within offset size) :
    1 ≤ createPrice fork salted size ∧ createPrice fork salted size < machineLimit := by
  have end_le := within.end_le
  have word_le : fork.fee .initCodeWord ≤ 2 := Fork.change_le (by omega) (by omega)
  have words : wordCount size ≤ 1 <<< 27 := by
    unfold wordCount
    unfold memoryLimit at end_le
    omega
  have init : fork.fee .initCodeWord * wordCount size ≤ 2 * (1 <<< 27) := Nat.mul_le_mul word_le words
  unfold createPrice machineLimit
  rw [show fork.fee .create = 32000 from rfl, show fork.fee .keccakWord = 6 from rfl]
  split <;> omega

def PaidCreate (start : Frame) (fork : Fork) (salted : Bool) (operands : CreateOperands)
    (granted : Nat) (frame : Frame) : Prop :=
  start.gas.Pays
    (createPrice fork salted operands.code.2 +
      start.memory.expansionPrice fork operands.code.1 operands.code.2 + granted) frame.gas

theorem payCreate_meets {salted : Bool} {operands : CreateOperands} {post : Bytes → Frame → Prop}
    (within : Memory.Within operands.code.1 operands.code.2)
    (stage : Stage start 0 start.memory frame)
    (holds : ∀ code after, PaidCreate start fork salted operands 0 after → post code after) :
    (payCreate fork salted operands).Meets frame post := by
  obtain ⟨_, bounded⟩ := createPrice_bounds fork salted within
  refine .bind (faultIf fun small => ?_)
  refine .bind (charge stage bounded fun _ stage => ?_)
  refine .bind (expand stage within fun _ stage covered => ?_)
  refine .bind (readMemory stage covered fun code => ?_)
  refine .bind (update (done (holds code _ ?_)))
  have pays := stage.pays
  rw [Nat.zero_add] at pays
  exact pays

/-- What a creation leaves to its frame. Without the nested message no gas was given along. -/
def CreatePaid (fork : Fork) (salted : Bool) (frame : Frame) (operands : CreateOperands)
    (after : Frame) : Control → Prop
  | .call nested =>
    PaidCreate frame fork salted operands nested.message.gasLimit after ∧
    nested.resumption.gas = nested.message.gasLimit ∧ nested.resumption.receiver = .create
  | .next => PaidCreate frame fork salted operands 0 after
  | _ => False

theorem CreatePaid.next_or_call {salted : Bool} {operands : CreateOperands} {after : Frame}
    {control : Control} (paid : CreatePaid fork salted frame operands after control) :
    control = .next ∨ ∃ nested, control = .call nested := by
  cases control with
  | next => exact .inl rfl
  | call nested => exact .inr ⟨nested, rfl⟩
  | jump index => exact paid.elim
  | halt reason => exact paid.elim
  | revert => exact paid.elim

theorem create_meets {host : Host σ} (context : Context) (salted : Bool)
    (sound : frame.gas.Sound) (inOrder : host.InOrder) :
    (create fork context salted).Meets frame host fun control after _ =>
      ∃ operands, Memory.Within operands.code.1 operands.code.2 ∧
        (∃ popped, popCreate salted frame = .ok (operands, popped)) ∧
        CreatePaid fork salted frame operands after control := by
  have stage := Stage.begin sound
  refine .bind (.lift (faultIf fun mutable => ?_))
  refine .bind (.lift (.given (popCreate_meets salted stage
    fun operands popped within stage pops => ?_)))
  refine .bind (.lift (payCreate_meets within stage fun code paid pays => ?_))
  refine .bind (.serve (Host.account_serves context.self) inOrder fun account _ inOrder _ => ?_)
  have settled : Stage paid 0 paid.memory paid := Stage.begin pays.sound
  split
  · refine .bind (.lift (push settled fun after stage => .done ⟨operands, within, ⟨_, pops⟩, ?_⟩))
    exact pays.trans stage.pays
  · refine .bind (.current ?_)
    have fits : Gas.allButOne64th paid.gas.remaining < machineLimit := by
      have given := allButOne64th_le paid.gas.remaining
      have limit_lt := pays.sound.limit_lt
      unfold Meter.remaining at given ⊢
      omega
    refine .bind (.lift (charge settled fits fun after stage => ?_))
    refine .bind (.current (.done ⟨operands, within, ⟨_, pops⟩, ?_, rfl, rfl⟩))
    have whole := pays.trans stage.pays
    rw [Nat.zero_add] at whole
    exact whole

end Evm.Instruction
