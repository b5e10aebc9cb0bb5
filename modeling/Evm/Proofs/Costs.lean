import Evm.Proofs.Metering

/-!
# What instructions cost

An instruction that lets its frame go on spends gas, and none breaks a bound of the machine.
-/

namespace Evm

variable {σ α : Type}

/-- The action spends at least so much gas, if it does not fault. -/
def FrameM.Costs (action : FrameM α) (least : Nat) (frame : Frame) : Prop :=
  action.Meets frame fun _ after => frame.gas.Spends least after.gas

def InstructionM.Costs (action : InstructionM σ α) (least : Nat) (frame : Frame) (host : Host σ) :
    Prop :=
  action.Meets frame host fun _ after _ => frame.gas.Spends least after.gas

namespace Instruction

open FrameM.Meets hiding bind

variable {frame : Frame} {fork : Fork}

theorem unary_costs (op : Unary) (sound : frame.gas.Sound) : (unary fork op).Costs 1 frame := by
  have stage := Stage.begin sound
  refine .bind (charge stage (fork.fee_lt .veryLow) fun _ stage => ?_)
  refine .bind (pop stage fun a _ stage => ?_)
  exact push stage fun _ stage => stage.spends (Nat.succ_pos _)

theorem binary_costs (op : Binary) (sound : frame.gas.Sound) : (binary fork op).Costs 1 frame := by
  have stage := Stage.begin sound
  refine .bind (pop stage fun a _ stage => ?_)
  refine .bind (pop stage fun b _ stage => ?_)
  obtain ⟨least, bounded⟩ := Binary.price_bounds fork op b
  refine .bind (charge stage bounded fun _ stage => ?_)
  exact push stage fun _ stage => stage.spends (by omega)

theorem ternary_costs (op : Ternary) (sound : frame.gas.Sound) :
    (ternary fork op).Costs 1 frame := by
  have stage := Stage.begin sound
  refine .bind (charge stage (fork.fee_lt .mid) fun _ stage => ?_)
  refine .bind (pop stage fun a _ stage => ?_)
  refine .bind (pop stage fun b _ stage => ?_)
  refine .bind (pop stage fun n _ stage => ?_)
  exact push stage fun _ stage => stage.spends (Nat.succ_pos _)

theorem query_costs (env : Environment σ) (context : Context) (pc : Nat) (what : Query)
    (sound : frame.gas.Sound) : (query env context pc what).Costs 1 frame := by
  have stage := Stage.begin sound
  refine .bind (charge stage (env.fork.fee_lt _) fun _ stage => ?_)
  refine .bind (current ?_)
  exact push stage fun _ stage => stage.spends (Nat.succ_pos _)

theorem lookup_costs (env : Environment σ) (context : Context) (what : Lookup)
    (sound : frame.gas.Sound) : (lookup env context what).Costs 1 frame := by
  have stage := Stage.begin sound
  refine .bind (charge stage (env.fork.fee_lt _) fun _ stage => ?_)
  refine .bind (pop stage fun index _ stage => ?_)
  refine push stage fun _ stage => stage.spends ?_
  cases what <;> exact Nat.succ_pos _

theorem keccak_costs (sound : frame.gas.Sound) : (keccak fork).Costs 1 frame := by
  have stage := Stage.begin sound
  refine .bind (pop stage fun offset _ stage => ?_)
  refine .bind (pop stage fun size _ stage => ?_)
  refine .bind (region fun start length within same => ?_)
  have words := fork.fee_le .keccakWord
  have bounded : fork.fee .keccak + fork.fee .keccakWord * wordCount length < machineLimit := by
    have end_le := within.end_le
    unfold memoryLimit at end_le
    unfold machineLimit wordCount
    rw [show fork.fee .keccak = 30 from rfl, show fork.fee .keccakWord = 6 from rfl]
    omega
  refine .bind (charge stage bounded fun _ stage => ?_)
  refine .bind (expand stage within fun _ stage covered => ?_)
  refine .bind (readMemory stage covered fun bytes => ?_)
  refine push stage fun _ stage => stage.spends ?_
  rw [show fork.fee .keccak = 30 from rfl]
  omega

theorem copyPrice_bounds (fork : Fork) {offset size : Nat} (within : Memory.Within offset size) :
    1 ≤ copyPrice fork .veryLow size ∧ copyPrice fork .veryLow size < machineLimit := by
  have end_le := within.end_le
  have fits : size ≤ memoryLimit := by omega
  have bounded : copyPrice fork .veryLow size ≤ 1 <<< 40 := copyPrice_le fits
  have least : 1 ≤ fork.fee .veryLow := Nat.succ_pos _
  unfold machineLimit
  refine ⟨?_, by omega⟩
  unfold copyPrice
  omega

theorem copy_costs (source : Bytes) (sound : frame.gas.Sound) : (copy fork source).Costs 1 frame := by
  have stage := Stage.begin sound
  refine .bind (pop stage fun target _ stage => ?_)
  refine .bind (pop stage fun first _ stage => ?_)
  refine .bind (pop stage fun size _ stage => ?_)
  refine .bind (region fun start length within same => ?_)
  obtain ⟨least, bounded⟩ := copyPrice_bounds fork within
  refine .bind (charge stage bounded fun _ stage => ?_)
  refine .bind (expand stage within fun _ stage covered => ?_)
  refine updateMemory stage (Memory.copyFrom?_isSome covered) fun _ _ stage => ?_
  exact stage.spends (by omega)

theorem returnDataCopy_costs (sound : frame.gas.Sound) : (returnDataCopy fork).Costs 1 frame := by
  have stage := Stage.begin sound
  refine .bind (pop stage fun target _ stage => ?_)
  refine .bind (pop stage fun first _ stage => ?_)
  refine .bind (pop stage fun size _ stage => ?_)
  refine .bind (current ?_)
  refine .bind (faultIf fun present => ?_)
  rw [stage.returnData_eq] at present
  refine .bind (region fun start length within same => ?_)
  obtain ⟨least, bounded⟩ := copyPrice_bounds fork within
  refine .bind (charge stage bounded fun _ stage => ?_)
  refine .bind (expand stage within fun _ stage covered => ?_)
  refine .bind (current ?_)
  have inside : slice? frame.returnData (first.toNat + size.toNat - length)
      (first.toNat + size.toNat) = some (frame.returnData.extract
        (first.toNat + size.toNat - length) (first.toNat + size.toNat)) := by
    unfold slice?
    rw [if_pos]
    exact ⟨by omega, Nat.not_lt.mp present⟩
  rw [stage.returnData_eq, inside]
  refine .bind (done ?_)
  refine updateMemory stage (Memory.store?_isSome ?_) fun _ _ stage => ?_
  · rw [Array.size_extract]
    omega
  · exact stage.spends (by omega)

theorem memoryLoad_costs (sound : frame.gas.Sound) : (memoryLoad fork).Costs 1 frame := by
  have stage := Stage.begin sound
  refine .bind (charge stage (fork.fee_lt .veryLow) fun _ stage => ?_)
  refine .bind (pop stage fun offset _ stage => ?_)
  refine .bind (region fun start length within same => ?_)
  have whole : length = 32 := by simpa using same
  rw [whole] at within
  refine .bind (expand stage within fun _ stage covered => ?_)
  refine .bind (current ?_)
  refine .bind (assured ?_ fun word _ => ?_)
  · rw [stage.memory_eq]
    exact Memory.load?_isSome covered
  · exact push stage fun _ stage => stage.spends (Nat.le_add_right_of_le (Nat.succ_pos _))

theorem memoryStore_costs (sound : frame.gas.Sound) : (memoryStore fork).Costs 1 frame := by
  have stage := Stage.begin sound
  refine .bind (charge stage (fork.fee_lt .veryLow) fun _ stage => ?_)
  refine .bind (pop stage fun offset _ stage => ?_)
  refine .bind (pop stage fun value _ stage => ?_)
  refine .bind (region fun start length within same => ?_)
  have whole : length = 32 := by simpa using same
  rw [whole] at within
  refine .bind (expand stage within fun _ stage covered => ?_)
  refine updateMemory stage (Memory.store?_isSome ?_) fun _ _ stage => ?_
  · rw [Word.size_toBytes]
    exact covered
  · exact stage.spends (Nat.le_add_right_of_le (Nat.succ_pos _))

theorem memoryStore8_costs (sound : frame.gas.Sound) : (memoryStore8 fork).Costs 1 frame := by
  have stage := Stage.begin sound
  refine .bind (charge stage (fork.fee_lt .veryLow) fun _ stage => ?_)
  refine .bind (pop stage fun offset _ stage => ?_)
  refine .bind (pop stage fun value _ stage => ?_)
  refine .bind (region fun start length within same => ?_)
  have whole : length = 1 := by simpa using same
  rw [whole] at within
  refine .bind (expand stage within fun _ stage covered => ?_)
  refine updateMemory stage (Memory.store?_isSome covered) fun _ _ stage => ?_
  exact stage.spends (Nat.le_add_right_of_le (Nat.succ_pos _))

/-- Memory grows for the range that ends last, which covers both. -/
theorem memoryCopy_costs (sound : frame.gas.Sound) : (memoryCopy fork).Costs 1 frame := by
  have stage := Stage.begin sound
  refine .bind (pop stage fun target _ stage => ?_)
  refine .bind (pop stage fun source _ stage => ?_)
  refine .bind (pop stage fun size _ stage => ?_)
  refine .bind (region fun written length within same => ?_)
  refine .bind (region fun read length' within' same' => ?_)
  obtain ⟨least, bounded⟩ := copyPrice_bounds fork within'
  have both : Memory.Within (max written read) length := by
    have end_le := within.end_le
    have end_le' := within'.end_le
    have offset_eq := within.offset_eq
    have offset_eq' := within'.offset_eq
    exact ⟨by omega, by omega⟩
  refine .bind (charge stage bounded fun _ stage => ?_)
  refine .bind (expand stage both fun _ stage covered => ?_)
  refine updateMemory stage (Memory.copyWithin?_isSome ?_ ?_) fun _ _ stage => ?_
  · omega
  · omega
  · exact stage.spends (by omega)

theorem pushArgument_costs (width : Fin 33) (argument : Bytes) (sound : frame.gas.Sound) :
    (pushArgument fork width argument).Costs 1 frame := by
  have stage := Stage.begin sound
  refine .bind (charge stage (fork.fee_lt _) fun _ stage => ?_)
  refine push stage fun _ stage => stage.spends ?_
  split <;> exact Nat.succ_pos _

theorem dup_costs {depth : Fin 16} (deep : depth.val < frame.stack.size)
    (sound : frame.gas.Sound) : (dup fork depth).Costs 1 frame := by
  have stage := Stage.begin sound
  refine .bind (chargeWithStack stage (fork.fee_lt .veryLow) fun _ stage same => ?_)
  refine .bind (current ?_)
  rw [← same] at deep
  refine .bind (assured (Stack.get?_isSome deep) fun word _ => ?_)
  exact push stage fun _ stage => stage.spends (Nat.succ_pos _)

theorem swap_costs {depth : Fin 16} (deep : depth.val + 1 < frame.stack.size)
    (sound : frame.gas.Sound) : (swap fork depth).Costs 1 frame := by
  have stage := Stage.begin sound
  refine .bind (chargeWithStack stage (fork.fee_lt .veryLow) fun _ stage same => ?_)
  refine .bind (current ?_)
  rw [← same] at deep
  refine .bind (assured (Stack.swap?_isSome deep) fun stack _ => ?_)
  exact update (stage.spends (Nat.succ_pos _))

theorem log_costs (context : Context) (count : Fin 5) (sound : frame.gas.Sound) :
    (log fork context count).Costs 1 frame := by
  have stage := Stage.begin sound
  refine .bind (faultIf fun mutable => ?_)
  refine .bind (pop stage fun offset _ stage => ?_)
  refine .bind (pop stage fun size _ stage => ?_)
  refine .bind (region fun start length within same => ?_)
  refine .bind (popMany count.val stage fun topics _ stage => ?_)
  have bounded : fork.fee .log + fork.fee .logTopic * count.val + fork.fee .logData * length <
      machineLimit := by
    have end_le := within.end_le
    unfold memoryLimit at end_le
    unfold machineLimit
    rw [show fork.fee .log = 375 from rfl, show fork.fee .logTopic = 375 from rfl,
      show fork.fee .logData = 8 from rfl]
    omega
  refine .bind (charge stage bounded fun _ stage => ?_)
  refine .bind (expand stage within fun _ stage covered => ?_)
  refine .bind (readMemory stage covered fun data => ?_)
  refine update (stage.spends ?_)
  rw [show fork.fee .log = 375 from rfl]
  omega

theorem jumpTo_meets (context : Context) (target : Word) {post : Control → Frame → Prop}
    (holds : ∀ index, post (.jump index) frame) :
    (jumpTo context target).Meets frame post := by
  unfold jumpTo
  cases context.code.jump? target.toNat with
  | some index => exact done (holds index)
  | none => exact fault .invalidJumpDestination

theorem jump_meets (context : Context) (sound : frame.gas.Sound) :
    (jump fork context).Meets frame fun control after =>
      (∃ index, control = .jump index) ∧ frame.gas.Spends 1 after.gas := by
  have stage := Stage.begin sound
  refine .bind (charge stage (fork.fee_lt .mid) fun _ stage => ?_)
  refine .bind (pop stage fun target _ stage => ?_)
  exact jumpTo_meets context target fun index => ⟨⟨index, rfl⟩, stage.spends (Nat.succ_pos _)⟩

theorem jumpIf_meets (context : Context) (sound : frame.gas.Sound) :
    (jumpIf fork context).Meets frame fun control after =>
      (control = .next ∨ ∃ index, control = .jump index) ∧ frame.gas.Spends 1 after.gas := by
  have stage := Stage.begin sound
  refine .bind (charge stage (fork.fee_lt .high) fun _ stage => ?_)
  refine .bind (pop stage fun target _ stage => ?_)
  refine .bind (pop stage fun condition _ stage => ?_)
  split
  · exact done ⟨.inl rfl, stage.spends (Nat.succ_pos _)⟩
  · exact jumpTo_meets context target fun index =>
      ⟨.inr ⟨index, rfl⟩, stage.spends (Nat.succ_pos _)⟩

theorem finish_meets (control : Control) (sound : frame.gas.Sound) :
    (finish fork control).Meets frame fun found after =>
      found = control ∧ frame.gas.Spends 0 after.gas := by
  have stage := Stage.begin sound
  refine .bind (pop stage fun offset _ stage => ?_)
  refine .bind (pop stage fun size _ stage => ?_)
  refine .bind (region fun start length within same => ?_)
  refine .bind (expand stage within fun _ stage covered => ?_)
  refine .bind (readMemory stage covered fun output => ?_)
  exact .bind (update (done ⟨rfl, stage.spends (Nat.zero_le _)⟩))

section World

variable {host : Host σ}

theorem inspect_costs (what : Inspection) (sound : frame.gas.Sound) (inOrder : host.InOrder) :
    (inspect fork what : InstructionM σ Unit).Costs 1 frame host := by
  have stage := Stage.begin sound
  refine .bind (.lift (popAddress stage fun address _ stage => ?_))
  refine .bind (.serve (Host.accessAddress_serves fork address) inOrder fun access _ inOrder price => ?_)
  obtain ⟨least, most⟩ : 1 ≤ fork.fee (inspectionFee what) + access ∧
      fork.fee (inspectionFee what) + access ≤ 200000 := by
    apply price.add_bounds
    cases what <;> simp [inspectionFee]
  refine .bind (.lift (charge stage (by unfold machineLimit; omega) fun _ stage => ?_))
  refine .bind (.serve (inspected_serves address what) inOrder fun value _ _ _ => ?_)
  exact .lift (push stage fun _ stage => stage.spends (by omega))

theorem selfBalance_costs (context : Context) (sound : frame.gas.Sound) (inOrder : host.InOrder) :
    (selfBalance fork context : InstructionM σ Unit).Costs 1 frame host := by
  have stage := Stage.begin sound
  refine .bind (.lift (charge stage (fork.fee_lt .low) fun _ stage => ?_))
  refine .bind (.serve (Host.account_serves context.self) inOrder fun account _ _ _ => ?_)
  exact .lift (push stage fun _ stage => stage.spends (Nat.succ_pos _))

theorem externalCodeCopy_costs (sound : frame.gas.Sound) (inOrder : host.InOrder) :
    (externalCodeCopy fork : InstructionM σ Unit).Costs 1 frame host := by
  have stage := Stage.begin sound
  refine .bind (.lift (popAddress stage fun address _ stage => ?_))
  refine .bind (.lift (pop stage fun target _ stage => ?_))
  refine .bind (.lift (pop stage fun first _ stage => ?_))
  refine .bind (.lift (pop stage fun size _ stage => ?_))
  refine .bind (.lift (region fun start length within same => ?_))
  refine .bind (.serve (Host.accessAddress_serves fork address) inOrder fun access _ inOrder price => ?_)
  have end_le := within.end_le
  obtain ⟨least, most⟩ : 1 ≤ fork.fee .extCodeCopy + access ∧
      fork.fee .extCodeCopy + access ≤ 200000 := price.add_bounds (by simp)
  have fits : copyPrice fork .extCodeCopy length ≤ 1 <<< 40 := copyPrice_le (by omega)
  have covers : 1 ≤ copyPrice fork .extCodeCopy length + access := by
    unfold copyPrice
    omega
  refine .bind (.lift (charge stage (by unfold machineLimit; omega) fun _ stage => ?_))
  refine .bind (.lift (expand stage within fun _ stage covered => ?_))
  refine .bind (.serve (Host.code_serves address) inOrder fun code _ _ _ => ?_)
  refine .lift (updateMemory stage (Memory.copyFrom?_isSome covered) fun _ _ stage => ?_)
  exact stage.spends (by omega)

theorem storageLoad_costs (context : Context) (sound : frame.gas.Sound) (inOrder : host.InOrder) :
    (storageLoad fork context : InstructionM σ Unit).Costs 1 frame host := by
  have stage := Stage.begin sound
  refine .bind (.lift (pop stage fun key _ stage => ?_))
  refine .bind (.serve (Host.accessSlot_serves fork context.self key) inOrder
    fun access _ inOrder price => ?_)
  obtain ⟨least, most⟩ : 1 ≤ fork.fee .sload + access ∧ fork.fee .sload + access ≤ 200000 :=
    price.add_bounds (by simp)
  refine .bind (.lift (charge stage (by unfold machineLimit; omega) fun _ stage => ?_))
  refine .bind (.serve (Host.slot_serves context.self key) inOrder fun value _ _ _ => ?_)
  exact .lift (push stage fun _ stage => stage.spends (by omega))

theorem storageStore_costs (context : Context) (sound : frame.gas.Sound) (inOrder : host.InOrder) :
    (storageStore fork context : InstructionM σ Unit).Costs 1 frame host := by
  have stage := Stage.begin sound
  refine .bind (.lift (faultIf fun mutable => ?_))
  refine .bind (.current ?_)
  refine .bind (.lift (faultIf fun enough => ?_))
  refine .bind (.lift (pop stage fun key _ stage => ?_))
  refine .bind (.lift (pop stage fun new _ stage => ?_))
  refine .bind (.serve (Host.slot_serves context.self key) inOrder fun current _ inOrder _ => ?_)
  refine .bind (.serve (Host.initialSlot_serves context.self key) inOrder
    fun initial _ inOrder _ => ?_)
  refine .bind (.serve (Host.accessColdSlot_serves fork context.self key) inOrder
    fun access _ inOrder price => ?_)
  obtain ⟨least, most⟩ := storePrice_bounds fork initial current new
  refine .bind (.lift (charge stage (by unfold machineLimit; omega) fun _ stage => ?_))
  refine .bind (.serve (writeSlot_serves context.self key current new) inOrder fun _ _ _ _ => ?_)
  exact .update (stage.spends (by omega))

theorem transientLoad_costs (context : Context) (sound : frame.gas.Sound)
    (inOrder : host.InOrder) :
    (transientLoad fork context : InstructionM σ Unit).Costs 1 frame host := by
  have stage := Stage.begin sound
  refine .bind (.lift (charge stage (fork.fee_lt .transientAccess) fun _ stage => ?_))
  refine .bind (.lift (pop stage fun key _ stage => ?_))
  refine .bind (.serve (Host.transientSlot_serves context.self key) inOrder fun value _ _ _ => ?_)
  exact .lift (push stage fun _ stage => stage.spends (Nat.succ_pos _))

theorem transientStore_costs (context : Context) (sound : frame.gas.Sound)
    (inOrder : host.InOrder) :
    (transientStore fork context : InstructionM σ Unit).Costs 1 frame host := by
  have stage := Stage.begin sound
  refine .bind (.lift (faultIf fun mutable => ?_))
  refine .bind (.lift (charge stage (fork.fee_lt .transientAccess) fun _ stage => ?_))
  refine .bind (.lift (pop stage fun key _ stage => ?_))
  refine .bind (.lift (pop stage fun value _ stage => ?_))
  refine .serve (Host.putTransient_serves context.self key value) inOrder fun _ _ _ _ => ?_
  exact stage.spends (Nat.succ_pos _)

/-- The frame ends with it, so that nothing is asked of its price. -/
theorem selfDestruct_costs (context : Context) (sound : frame.gas.Sound) (inOrder : host.InOrder) :
    (selfDestruct fork context : InstructionM σ Unit).Costs 0 frame host := by
  have stage := Stage.begin sound
  refine .bind (.lift (faultIf fun mutable => ?_))
  refine .bind (.lift (popAddress stage fun heir _ stage => ?_))
  refine .bind (.serve (Host.accessCold_serves fork heir) inOrder fun access _ inOrder bounded => ?_)
  refine .bind (.serve (Host.account_serves context.self) inOrder fun account _ inOrder _ => ?_)
  refine .bind (.serve (destructPrice_serves fork heir account.balance) inOrder
    fun price _ inOrder bounded' => ?_)
  refine .bind (.lift (charge stage (by unfold machineLimit; omega) fun _ stage => ?_))
  refine .bind (.serve (bequeath_serves context.self heir account.balance) inOrder
    fun _ _ _ _ => ?_)
  exact .update (stage.spends (Nat.zero_le _))

end World

end Instruction

end Evm
