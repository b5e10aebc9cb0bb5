import Evm.Proofs.ByteMaps

/-!
# Operands

An operation that finds its operands on the stack, and room for its results, is not stopped for want
of either. The rules follow a frame through an operation: how many operands it has taken, what it
has given, what it has spent, and what its memory has become.
-/

namespace Evm

variable {σ α β : Type}

/-- A fault that is ruled out by the checks before an operation, or before its nested message. -/
def Exception.isMisfit : Exception → Bool
  | .stackUnderflow | .stackOverflow | .invalidOpcode _ => true
  | .insufficientBalance | .nonceOverflow => true
  | _ => false

structure Memory.Names (offset size : Word) (range : Nat × Nat) : Prop where
  size_eq : range.2 = size.toNat
  start_eq : range.2 ≠ 0 → range.1 = offset.toNat
  end_le : range.1 + range.2 ≤ memoryLimit

namespace Memory.Names

variable {offset size : Word} {range : Nat × Nat}

theorem of_region? (names : region? offset size = some range) : Names offset size range := by
  unfold region? at names
  split at names
  · cases names
    subst size
    exact ⟨rfl, fun other => absurd rfl other, Nat.zero_le _⟩
  · split at names <;> cases names
    exact ⟨rfl, fun _ => rfl, ‹_›⟩

theorem apply (names : Names offset size range) {f : Nat → Nat → α}
    (empty : ∀ one two, f one 0 = f two 0) :
    f range.1 range.2 = f offset.toNat size.toNat := by
  by_cases none : range.2 = 0
  · rw [← names.size_eq, none]
    exact empty ..
  · rw [← names.size_eq, names.start_eq none]

theorem expand (names : Names offset size range) (memory : Memory) :
    memory.expand range.1 range.2 = memory.expand offset.toNat size.toNat :=
  names.apply fun _ _ => rfl

theorem expansionPrice (names : Names offset size range) (memory : Memory) (fork : Fork) :
    memory.expansionPrice fork range.1 range.2 =
      memory.expansionPrice fork offset.toNat size.toNat := by
  refine names.apply fun _ _ => ?_
  simp [Memory.expansionPrice]

theorem read (names : Names offset size range) (map : ByteMap) :
    map.read range.1 range.2 = map.read offset.toNat size.toNat :=
  names.apply fun _ _ => rfl

end Memory.Names

/-- How far an operation has come with a frame: the operands it has taken, the words it has given,
what it has spent, and the memory that it has. -/
structure Stand (start : Frame) (taken : Nat) (given : List Word) (spent : Nat) (memory : Memory)
    (frame : Frame) : Prop where
  words_eq : frame.stack.words = given ++ start.stack.words.drop taken
  used_eq : frame.gas.used = start.gas.used + spent
  memory_eq : frame.memory = memory
  returnData_eq : frame.returnData = start.returnData
  logs_eq : frame.logs = start.logs

namespace Stand

variable {start frame : Frame} {taken spent : Nat} {given : List Word} {memory : Memory}

theorem begin (start : Frame) : Stand start 0 [] 0 start.memory start :=
  ⟨by simp, rfl, rfl, rfl, rfl⟩

theorem size_eq (stand : Stand start taken given spent memory frame) :
    frame.stack.size = given.length + (start.stack.size - taken) := by
  rw [frame.stack.size_eq, stand.words_eq, start.stack.size_eq]
  simp

theorem pop (stand : Stand start taken [] spent memory frame) (enough : taken < start.stack.size) :
    ∃ after, FrameM.pop frame = .ok (start.operand taken, after) ∧
      Stand start (taken + 1) [] spent memory after := by
  have there : taken < start.stack.words.length := by rw [← start.stack.size_eq]; exact enough
  have words : frame.stack.words =
      start.operand taken :: start.stack.words.drop (taken + 1) := by
    rw [stand.words_eq, List.nil_append, List.drop_eq_getElem_cons there, Frame.operand,
      List.getD_eq_getElem?_getD, List.getElem?_eq_getElem there, Option.getD_some]
  obtain ⟨⟨_, _, _⟩, _, _, _, _, _, _, _, _⟩ := frame
  subst words
  exact ⟨_, rfl, rfl, stand.used_eq, stand.memory_eq, stand.returnData_eq, stand.logs_eq⟩

end Stand

namespace FrameM

/-- An action has ended with what meets `post`, or was stopped, though not for want of operands or
room. -/
def Met (post : α → Frame → Prop) : Except Interrupt (α × Frame) → Prop
  | .ok (value, after) => post value after
  | .error (.fault cause) => cause.isMisfit = false
  | .error (.failure _) => True

def Does (action : FrameM α) (frame : Frame) (post : α → Frame → Prop) : Prop :=
  Met post (action frame)

namespace Does

variable {start frame : Frame} {taken spent : Nat} {given : List Word} {memory : Memory}
  {post : α → Frame → Prop}

theorem bind {action : FrameM β} {next : β → FrameM α}
    (does : Does action frame fun value between => Does (next value) between post) :
    Does (action >>= next) frame post := by
  change Met _ (action frame) at does
  change Met post ((action >>= next) frame)
  rw [bind_run]
  generalize action frame = ended at does ⊢
  cases ended with
  | ok result => exact does
  | error interrupt => cases interrupt <;> exact does

theorem mono {stronger : α → Frame → Prop} {action : FrameM α} (does : Does action frame stronger)
    (implies : ∀ value after, stronger value after → post value after) :
    Does action frame post := by
  change Met _ (action frame) at does
  change Met post (action frame)
  generalize action frame = ended at does ⊢
  cases ended with
  | ok result => exact implies _ _ does
  | error interrupt => cases interrupt <;> exact does

theorem of_ok {action : FrameM α} {value : α} {after : Frame} (does : Does action frame post)
    (runs : action frame = .ok (value, after)) : post value after := by
  change Met post (action frame) at does
  rw [runs] at does
  exact does

theorem done {value : α} (holds : post value frame) : Does (pure value) frame post := holds

theorem fault {cause : Exception} (other : cause.isMisfit = false) :
    Does (FrameM.fault cause) frame post := other

theorem current {post : Frame → Frame → Prop} (holds : post frame frame) :
    Does get frame post := holds

theorem update {post : PUnit → Frame → Prop} {change : Frame → Frame}
    (holds : post ⟨⟩ (change frame)) : Does (modify change) frame post := holds

theorem faultIf {post : Unit → Frame → Prop} {condition : Prop} [Decidable condition]
    {cause : Exception} (other : cause.isMisfit = false) (holds : ¬ condition → post () frame) :
    Does (FrameM.faultIf condition cause) frame post := by
  unfold FrameM.faultIf
  split
  · exact fault other
  · exact done (holds ‹_›)

theorem assured {value : Option α} (holds : ∀ found, value = some found → post found frame) :
    Does (FrameM.assured value) frame post := by
  cases value with
  | some found => exact holds found rfl
  | none => trivial

theorem pop {post : Word → Frame → Prop} (stand : Stand start taken [] spent memory frame)
    (enough : taken < start.stack.size)
    (holds : ∀ after, Stand start (taken + 1) [] spent memory after →
      post (start.operand taken) after) :
    Does FrameM.pop frame post := by
  obtain ⟨after, runs, stand⟩ := stand.pop enough
  change Met post (FrameM.pop frame)
  rw [runs]
  exact holds after stand

theorem popAddress {post : Address → Frame → Prop} (stand : Stand start taken [] spent memory frame)
    (enough : taken < start.stack.size)
    (holds : ∀ after, Stand start (taken + 1) [] spent memory after →
      post (start.address taken) after) :
    Does FrameM.popAddress frame post :=
  bind (pop stand enough fun after stand => done (holds after stand))

theorem popMany {post : List Word → Frame → Prop} (count : Nat)
    (stand : Stand start taken [] spent memory frame) (enough : taken + count ≤ start.stack.size)
    (holds : ∀ after, Stand start (taken + count) [] spent memory after →
      post ((List.range count).map fun index => start.operand (index + taken)) after) :
    Does (FrameM.popMany count) frame post := by
  induction count generalizing frame taken post with
  | zero => exact done (holds frame stand)
  | succ count ih =>
    refine bind (pop stand (by omega) fun between stand => ?_)
    refine bind (ih stand (by omega) fun after stand => done ?_)
    rw [show taken + 1 + count = taken + (count + 1) by omega] at stand
    have held := holds after stand
    rw [List.range_succ_eq_map, List.map_cons, List.map_map] at held
    simpa [Function.comp_def, Nat.add_assoc, Nat.add_comm 1] using held

theorem push {post : Unit → Frame → Prop} {word : Word}
    (stand : Stand start taken [] spent memory frame) (room : start.stack.size - taken < stackLimit)
    (holds : ∀ after, Stand start taken [word] spent memory after → post () after) :
    Does (FrameM.push word) frame post := by
  change Met post (if frame.stack.size < stackLimit then _ else _)
  rw [if_pos (by rw [stand.size_eq]; simpa using room)]
  refine holds _ ⟨?_, stand.used_eq, stand.memory_eq, stand.returnData_eq, stand.logs_eq⟩
  show word :: frame.stack.words = _
  rw [stand.words_eq]
  rfl

theorem charge {post : Unit → Frame → Prop} {amount : Nat}
    (stand : Stand start taken given spent memory frame)
    (holds : ∀ after, Stand start taken given (spent + amount) memory after → post () after) :
    Does (FrameM.charge amount) frame post := by
  change Met post (FrameM.charge amount frame)
  unfold FrameM.charge
  by_cases large : machineLimit ≤ amount
  · rw [if_pos large]
    trivial
  rw [if_neg large]
  cases spends : frame.gas.spend? amount with
  | none => rfl
  | some gas =>
    unfold Meter.spend? at spends
    split at spends <;> cases spends
    refine holds _ ⟨stand.words_eq, ?_, stand.memory_eq, stand.returnData_eq, stand.logs_eq⟩
    rw [← Nat.add_assoc, ← stand.used_eq]

theorem region {post : Nat × Nat → Frame → Prop} {offset size : Word}
    (holds : ∀ range, Memory.Names offset size range → post range frame) :
    Does (FrameM.region offset size) frame post := by
  unfold FrameM.region
  cases names : Memory.region? offset size with
  | some range => exact done (holds range (.of_region? names))
  | none => exact fault rfl

theorem grow {post : PUnit → Frame → Prop} {offset size : Nat}
    (stand : Stand start taken given spent memory frame)
    (holds : ∀ after, Stand start taken given spent (memory.expand offset size) after →
      post ⟨⟩ after) :
    Does (FrameM.grow offset size) frame post := by
  refine update (holds _ ⟨stand.words_eq, stand.used_eq, ?_, stand.returnData_eq, stand.logs_eq⟩)
  rw [← stand.memory_eq]

theorem expand {post : Unit → Frame → Prop} {fork : Fork} {offset size : Nat}
    (stand : Stand start taken given spent memory frame)
    (holds : ∀ after,
      Stand start taken given (spent + memory.expansionPrice fork offset size)
        (memory.expand offset size) after →
      post () after) :
    Does (FrameM.expand fork offset size) frame post := by
  refine bind (current (bind ?_))
  rw [stand.memory_eq]
  exact charge stand fun between stand => grow stand holds

theorem readMemory {post : Bytes → Frame → Prop} {offset size : Nat}
    (stand : Stand start taken given spent memory frame)
    (holds : post (memory.bytes.read offset size) frame) :
    Does (FrameM.readMemory offset size) frame post := by
  refine bind (current (assured fun bytes reads => ?_))
  rw [stand.memory_eq] at reads
  rw [Memory.read?_read reads]
  exact holds

theorem updateMemory {post : Unit → Frame → Prop} {update : Memory → Option Memory}
    (stand : Stand start taken given spent memory frame)
    (holds : ∀ updated after, update memory = some updated →
      Stand start taken given spent updated after → post () after) :
    Does (FrameM.updateMemory update) frame post := by
  change Met post (FrameM.updateMemory update frame)
  unfold FrameM.updateMemory
  dsimp only
  cases updates : update frame.memory with
  | none => trivial
  | some updated =>
    rw [stand.memory_eq] at updates
    exact holds updated _ updates
      ⟨stand.words_eq, stand.used_eq, rfl, stand.returnData_eq, stand.logs_eq⟩

end Does

end FrameM

namespace InstructionM

def Met (post : α → Frame → Host σ → Prop) :
    EStateM.Result Interrupt (Host σ) (α × Frame) → Prop
  | .ok (value, after) last => post value after last
  | .error (.fault cause) _ => cause.isMisfit = false
  | .error (.failure _) _ => True

def Does (action : InstructionM σ α) (frame : Frame) (host : Host σ)
    (post : α → Frame → Host σ → Prop) : Prop :=
  Met post (action frame host)

namespace Does

variable {frame : Frame} {host : Host σ} {post : α → Frame → Host σ → Prop}

theorem bind {action : InstructionM σ β} {next : β → InstructionM σ α}
    (does : Does action frame host fun value between middle =>
      Does (next value) between middle post) :
    Does (action >>= next) frame host post := by
  change Met _ (action frame host) at does
  change Met post ((action >>= next) frame host)
  rw [bind_run]
  generalize action frame host = ended at does ⊢
  cases ended with
  | ok result middle => exact does
  | error interrupt middle => cases interrupt <;> exact does

theorem mono {stronger : α → Frame → Host σ → Prop} {action : InstructionM σ α}
    (does : Does action frame host stronger)
    (implies : ∀ value after last, stronger value after last → post value after last) :
    Does action frame host post := by
  change Met _ (action frame host) at does
  change Met post (action frame host)
  generalize action frame host = ended at does ⊢
  cases ended with
  | ok result last => exact implies _ _ _ does
  | error interrupt last => cases interrupt <;> exact does

theorem done {value : α} (holds : post value frame host) : Does (pure value) frame host post :=
  holds

theorem current {post : Frame → Frame → Host σ → Prop} (holds : post frame frame host) :
    Does get frame host post := holds

theorem update {post : PUnit → Frame → Host σ → Prop} {change : Frame → Frame}
    (holds : post ⟨⟩ (change frame) host) : Does (modify change) frame host post := holds

theorem lift {action : FrameM α}
    (does : action.Does frame fun value after => post value after host) :
    Does (liftM action) frame host post := by
  change FrameM.Met _ (action frame) at does
  change Met post ((liftM action : InstructionM σ α) frame host)
  rw [lift_run]
  generalize action frame = ended at does ⊢
  cases ended with
  | ok result => exact does
  | error interrupt => cases interrupt <;> exact does

theorem serve {action : HostM σ α}
    (holds : ∀ value last, action host = .ok value last → post value frame last) :
    Does (InstructionM.host action) frame host post := by
  change Met post (InstructionM.host action frame host)
  unfold InstructionM.host
  cases run : action host with
  | ok value last => exact holds value last run
  | error failure last => trivial

theorem of_ok {action : InstructionM σ α} {value : α} {after : Frame} {last : Host σ}
    (does : Does action frame host post) (runs : action frame host = .ok (value, after) last) :
    post value after last := by
  change Met post (action frame host) at does
  rw [runs] at does
  exact does

theorem of_fault {action : InstructionM σ α} {cause : Exception} {last : Host σ}
    (does : Does action frame host post) (runs : action frame host = .error (.fault cause) last) :
    cause.isMisfit = false := by
  change Met post (action frame host) at does
  rw [runs] at does
  exact does

end Does

end InstructionM

-- From here on the judgements are used by their rules; unfolding one would run its action.
attribute [irreducible] FrameM.Does InstructionM.Does

/-- One while a word is owed to the stack, which a nested message decides. -/
def Control.owed : Control → Nat
  | .call _ => 1
  | _ => 0

theorem Control.given_of_owed (control : Control) (goes : control.owed = 0) :
    control.given = 0 := by
  cases control with
  | call nested => cases goes
  | _ => rfl

namespace Operation

/-- The operation finds its operands, and room for what it gives. -/
structure Fits (operation : Operation) (stack : Stack) : Prop where
  enough : operation.inputs ≤ stack.size
  room : stack.size - operation.inputs + operation.outputs ≤ stackLimit

/-- An operation that leaves the memory alone has taken its operands and given its results. -/
def Plain (operation : Operation) (frame left : Frame) : Prop :=
  ∃ given spent, given.length = operation.outputs ∧
    Stand frame operation.inputs given spent frame.memory left

end Operation

theorem Stack.swap?_below {stack swapped : Stack} {depth : Nat}
    (swaps : stack.swap? depth = some swapped) :
    swapped.words.drop (depth + 2) = stack.words.drop (depth + 2) ∧
      swapped.words.length = stack.words.length := by
  obtain ⟨words, size, same⟩ := stack
  cases words with
  | nil => cases swaps
  | cons top words =>
    simp only [swap?] at swaps
    split at swaps <;> cases swaps
    refine ⟨?_, by simp⟩
    rw [List.drop_succ_cons, List.drop_succ_cons, List.drop_set_of_lt (Nat.lt_succ_self depth)]

namespace Instruction

open FrameM.Does hiding bind

variable {fork : Fork} {frame : Frame}

/-! ## Operations that leave the memory alone -/

theorem unary_does {op : Unary} (fits : (Operation.unary op).Fits frame.stack) :
    (unary fork op).Does frame fun _ left => (Operation.unary op).Plain frame left := by
  have enough : 1 ≤ frame.stack.size := fits.enough
  refine .bind (charge (.begin frame) fun _ stand => ?_)
  refine .bind (pop stand (by omega) fun _ stand => ?_)
  exact push stand fits.room fun left stand => ⟨_, _, rfl, stand⟩

theorem binary_does {op : Binary} (fits : (Operation.binary op).Fits frame.stack) :
    (binary fork op).Does frame fun _ left => (Operation.binary op).Plain frame left := by
  have enough : 2 ≤ frame.stack.size := fits.enough
  refine .bind (pop (.begin frame) (by omega) fun _ stand => ?_)
  refine .bind (pop stand (by omega) fun _ stand => ?_)
  refine .bind (charge stand fun _ stand => ?_)
  exact push stand fits.room fun left stand => ⟨_, _, rfl, stand⟩

theorem ternary_does {op : Ternary} (fits : (Operation.ternary op).Fits frame.stack) :
    (ternary fork op).Does frame fun _ left => (Operation.ternary op).Plain frame left := by
  have enough : 3 ≤ frame.stack.size := fits.enough
  refine .bind (charge (.begin frame) fun _ stand => ?_)
  refine .bind (pop stand (by omega) fun _ stand => ?_)
  refine .bind (pop stand (by omega) fun _ stand => ?_)
  refine .bind (pop stand (by omega) fun _ stand => ?_)
  exact push stand fits.room fun left stand => ⟨_, _, rfl, stand⟩

theorem query_does {env : Environment σ} {context : Context} {pc : Nat} {what : Query}
    (fits : (Operation.query what).Fits frame.stack) :
    (query env context pc what).Does frame fun _ left =>
      (Operation.query what).Plain frame left := by
  refine .bind (charge (.begin frame) fun _ stand => ?_)
  refine .bind (current ?_)
  exact push stand fits.room fun left stand => ⟨_, _, rfl, stand⟩

theorem lookup_does {env : Environment σ} {context : Context} {what : Lookup}
    (fits : (Operation.lookup what).Fits frame.stack) :
    (lookup env context what).Does frame fun _ left =>
      (Operation.lookup what).Plain frame left := by
  have enough : 1 ≤ frame.stack.size := fits.enough
  refine .bind (charge (.begin frame) fun _ stand => ?_)
  refine .bind (pop stand (by omega) fun _ stand => ?_)
  exact push stand fits.room fun left stand => ⟨_, _, rfl, stand⟩

theorem pushArgument_does {width : Fin 33} {argument : Bytes}
    (fits : (Operation.push width).Fits frame.stack) :
    (pushArgument fork width argument).Does frame fun _ left =>
      (Operation.push width).Plain frame left := by
  refine .bind (charge (.begin frame) fun _ stand => ?_)
  exact push stand fits.room fun left stand => ⟨_, _, rfl, stand⟩

theorem dup_does {depth : Fin 16} (fits : (Operation.dup depth).Fits frame.stack) :
    (dup fork depth).Does frame fun _ left => (Operation.dup depth).Plain frame left := by
  have enough : depth.val + 1 ≤ frame.stack.size := fits.enough
  have room : frame.stack.size - (depth.val + 1) + (depth.val + 2) ≤ stackLimit := fits.room
  refine .bind (charge (.begin frame) fun _ stand => ?_)
  refine .bind (current (.bind (assured fun word _ => ?_)))
  refine push stand (by omega) fun left stand => ?_
  refine ⟨word :: frame.stack.words.take (depth.val + 1), _, ?_, ?_, stand.used_eq, stand.memory_eq,
    stand.returnData_eq, stand.logs_eq⟩
  · show _ = depth.val + 2
    rw [frame.stack.size_eq] at enough
    simp only [List.length_cons, List.length_take]
    omega
  · show left.stack.words =
      word :: (frame.stack.words.take (depth.val + 1) ++ frame.stack.words.drop (depth.val + 1))
    rw [List.take_append_drop]
    exact stand.words_eq

theorem swap_does {depth : Fin 16} (fits : (Operation.swap depth).Fits frame.stack) :
    (swap fork depth).Does frame fun _ left => (Operation.swap depth).Plain frame left := by
  have enough : depth.val + 2 ≤ frame.stack.size := fits.enough
  refine .bind (charge (.begin frame) fun between stand => ?_)
  refine .bind (current (.bind (assured fun stack swaps => update ?_)))
  obtain ⟨below, length_eq⟩ := Stack.swap?_below swaps
  have words : between.stack.words = frame.stack.words := stand.words_eq
  rw [words] at below length_eq
  refine ⟨stack.words.take (depth.val + 2), _, ?_, ?_, stand.used_eq, stand.memory_eq,
    stand.returnData_eq, stand.logs_eq⟩
  · show _ = depth.val + 2
    rw [List.length_take, length_eq, ← frame.stack.size_eq]
    omega
  · show stack.words =
      stack.words.take (depth.val + 2) ++ frame.stack.words.drop (depth.val + 2)
    rw [← below, List.take_append_drop]

theorem jumpTo_does {context : Context} {target : Word} {post : Control → Frame → Prop}
    (holds : ∀ index, post (.jump index) frame) : (jumpTo context target).Does frame post := by
  unfold jumpTo
  split
  · exact done (holds _)
  · exact fault rfl

theorem jump_does {context : Context} (fits : Operation.jump.Fits frame.stack) :
    (jump fork context).Does frame fun control left =>
      control.owed = 0 ∧ Operation.jump.Plain frame left := by
  have enough : 1 ≤ frame.stack.size := fits.enough
  refine .bind (charge (.begin frame) fun _ stand => ?_)
  refine .bind (pop stand (by omega) fun _ stand => ?_)
  exact jumpTo_does fun index => ⟨rfl, _, _, rfl, stand⟩

theorem jumpIf_does {context : Context} (fits : Operation.jumpIf.Fits frame.stack) :
    (jumpIf fork context).Does frame fun control left =>
      control.owed = 0 ∧ Operation.jumpIf.Plain frame left := by
  have enough : 2 ≤ frame.stack.size := fits.enough
  refine .bind (charge (.begin frame) fun _ stand => ?_)
  refine .bind (pop stand (by omega) fun _ stand => ?_)
  refine .bind (pop stand (by omega) fun _ stand => ?_)
  split
  · exact done ⟨rfl, _, _, rfl, stand⟩
  · exact jumpTo_does fun index => ⟨rfl, _, _, rfl, stand⟩

variable {context : Context} {host : Host σ}

theorem inspect_does {what : Inspection} (fits : (Operation.inspect what).Fits frame.stack) :
    (inspect fork what).Does frame host fun _ left _ =>
      (Operation.inspect what).Plain frame left := by
  have enough : 1 ≤ frame.stack.size := fits.enough
  refine .bind (.lift (popAddress (.begin frame) (by omega) fun _ stand => ?_))
  refine .bind (.serve fun access _ _ => ?_)
  refine .bind (.lift (charge stand fun _ stand => ?_))
  refine .bind (.serve fun value _ _ => ?_)
  exact .lift (push stand fits.room fun left stand => ⟨_, _, rfl, stand⟩)

theorem selfBalance_does (fits : Operation.selfBalance.Fits frame.stack) :
    (selfBalance fork context).Does frame host fun _ left _ =>
      Operation.selfBalance.Plain frame left := by
  refine .bind (.lift (charge (.begin frame) fun _ stand => ?_))
  refine .bind (.serve fun account _ _ => ?_)
  exact .lift (push stand fits.room fun left stand => ⟨_, _, rfl, stand⟩)

theorem storageLoad_does (fits : Operation.storageLoad.Fits frame.stack) :
    (storageLoad fork context).Does frame host fun _ left _ =>
      Operation.storageLoad.Plain frame left := by
  have enough : 1 ≤ frame.stack.size := fits.enough
  refine .bind (.lift (pop (.begin frame) (by omega) fun _ stand => ?_))
  refine .bind (.serve fun access _ _ => ?_)
  refine .bind (.lift (charge stand fun _ stand => ?_))
  refine .bind (.serve fun value _ _ => ?_)
  exact .lift (push stand fits.room fun left stand => ⟨_, _, rfl, stand⟩)

theorem transientLoad_does (fits : Operation.transientLoad.Fits frame.stack) :
    (transientLoad fork context).Does frame host fun _ left _ =>
      Operation.transientLoad.Plain frame left := by
  have enough : 1 ≤ frame.stack.size := fits.enough
  refine .bind (.lift (charge (.begin frame) fun _ stand => ?_))
  refine .bind (.lift (pop stand (by omega) fun _ stand => ?_))
  refine .bind (.serve fun value _ _ => ?_)
  exact .lift (push stand fits.room fun left stand => ⟨_, _, rfl, stand⟩)

theorem storageStore_does (fits : Operation.storageStore.Fits frame.stack) :
    (storageStore fork context).Does frame host fun _ left _ =>
      Operation.storageStore.Plain frame left := by
  have enough : 2 ≤ frame.stack.size := fits.enough
  refine .bind (.lift (faultIf rfl fun mutable => ?_))
  refine .bind (.current (.bind (.lift (faultIf rfl fun rich => ?_))))
  refine .bind (.lift (pop (.begin frame) (by omega) fun _ stand => ?_))
  refine .bind (.lift (pop stand (by omega) fun _ stand => ?_))
  refine .bind (.serve fun current _ _ => .bind (.serve fun initial _ _ => ?_))
  refine .bind (.serve fun access _ _ => ?_)
  refine .bind (.lift (charge stand fun _ stand => ?_))
  exact .bind (.serve fun _ _ _ => .update ⟨[], _, rfl, stand.words_eq, stand.used_eq,
    stand.memory_eq, stand.returnData_eq, stand.logs_eq⟩)

theorem transientStore_does (fits : Operation.transientStore.Fits frame.stack) :
    (transientStore fork context).Does frame host fun _ left _ =>
      Operation.transientStore.Plain frame left := by
  have enough : 2 ≤ frame.stack.size := fits.enough
  refine .bind (.lift (faultIf rfl fun mutable => ?_))
  refine .bind (.lift (charge (.begin frame) fun _ stand => ?_))
  refine .bind (.lift (pop stand (by omega) fun _ stand => ?_))
  refine .bind (.lift (pop stand (by omega) fun _ stand => ?_))
  exact .serve fun _ _ _ => ⟨[], _, rfl, stand⟩

theorem selfDestruct_does (fits : Operation.selfDestruct.Fits frame.stack) :
    (selfDestruct fork context).Does frame host fun _ left _ =>
      Operation.selfDestruct.Plain frame left := by
  have enough : 1 ≤ frame.stack.size := fits.enough
  refine .bind (.lift (faultIf rfl fun mutable => ?_))
  refine .bind (.lift (popAddress (.begin frame) (by omega) fun _ stand => ?_))
  refine .bind (.serve fun access _ _ => .bind (.serve fun account _ _ => ?_))
  refine .bind (.serve fun price _ _ => ?_)
  refine .bind (.lift (charge stand fun _ stand => ?_))
  exact .bind (.serve fun _ _ _ => .update ⟨[], _, rfl, stand.words_eq, stand.used_eq,
    stand.memory_eq, stand.returnData_eq, stand.logs_eq⟩)

end Instruction

end Evm
