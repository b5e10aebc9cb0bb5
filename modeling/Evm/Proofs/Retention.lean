import Evm.Step

/-!
# What frames retain

The logs, the refund, the marked accounts and the gas limit of a frame are not changed by the steps
that instructions on the stack, the memory and the gas are made of. Its output does not become larger
than a memory can be.
-/

namespace Evm

variable {σ α β : Type}

/-- What a frame can lose or gain only by an instruction that writes. -/
structure Frame.Retains (frame after : Frame) : Prop where
  limit_eq : after.gas.limit = frame.gas.limit
  logs_eq : after.logs = frame.logs
  refund_eq : after.refund = frame.refund
  selfDestruct_eq : after.selfDestruct = frame.selfDestruct
  output_le : after.output.size ≤ max frame.output.size memoryLimit

namespace Frame.Retains

variable {frame between after : Frame}

theorem refl (frame : Frame) : frame.Retains frame := ⟨rfl, rfl, rfl, rfl, Nat.le_max_left ..⟩

theorem trans (first : frame.Retains between) (second : between.Retains after) :
    frame.Retains after where
  limit_eq := second.limit_eq.trans first.limit_eq
  logs_eq := second.logs_eq.trans first.logs_eq
  refund_eq := second.refund_eq.trans first.refund_eq
  selfDestruct_eq := second.selfDestruct_eq.trans first.selfDestruct_eq
  output_le := by
    have one := first.output_le
    have two := second.output_le
    omega

end Frame.Retains

namespace FrameM

theorem bind_run (action : FrameM α) (next : α → FrameM β) (frame : Frame) :
    (action >>= next) frame =
      match action frame with
      | .ok (value, between) => next value between
      | .error interrupt => .error interrupt := by
  simp only [bind, StateT.bind, Except.bind]
  cases action frame <;> rfl

theorem bind_ok {action : FrameM α} {next : α → FrameM β} {frame after : Frame} {value : β} :
    (action >>= next) frame = .ok (value, after) ↔
      ∃ middle between, action frame = .ok (middle, between) ∧
        next middle between = .ok (value, after) := by
  rw [bind_run]
  cases action frame with
  | ok result =>
    constructor
    · intro runs
      exact ⟨result.1, result.2, rfl, runs⟩
    · rintro ⟨_, _, ⟨⟩, runs⟩
      exact runs
  | error interrupt => simp

theorem region_size {offset size : Word} {frame after : Frame} {range : Nat × Nat}
    (runs : region offset size frame = .ok (range, after)) : range.2 ≤ memoryLimit := by
  unfold region at runs
  cases found : Memory.region? offset size with
  | none => rw [found] at runs; cases runs
  | some named =>
    rw [found] at runs
    cases runs
    unfold Memory.region? at found
    split at found
    · cases found
      exact Nat.zero_le _
    · split at found <;> cases found
      dsimp only
      omega

theorem readMemory_size {offset size : Nat} {frame after : Frame} {bytes : Bytes}
    (runs : readMemory offset size frame = .ok (bytes, after)) : bytes.size ≤ size := by
  obtain ⟨_, _, ⟨⟩, runs⟩ := bind_ok.mp runs
  unfold Memory.read? at runs
  split at runs
  · cases runs
    exact Nat.zero_le _
  · split at runs <;> cases runs
    rw [Array.size_extract]
    omega

def Retains (action : FrameM α) : Prop :=
  ∀ ⦃frame after : Frame⦄ ⦃value : α⦄, action frame = .ok (value, after) → frame.Retains after

namespace Retains

theorem bind {action : FrameM α} {next : α → FrameM β} (first : Retains action)
    (rest : ∀ value, Retains (next value)) : Retains (action >>= next) := by
  intro frame after value runs
  obtain ⟨middle, between, runs, runs'⟩ := bind_ok.mp runs
  exact (first runs).trans (rest middle runs')

theorem done (value : α) : Retains (pure value : FrameM α) := by
  rintro frame _ _ ⟨⟩
  exact .refl frame

theorem fault (cause : Exception) : Retains (FrameM.fault cause : FrameM α) := by
  rintro frame _ _ ⟨⟩

theorem current : Retains (get : FrameM Frame) := by
  rintro frame _ _ ⟨⟩
  exact .refl frame

theorem update {change : Frame → Frame} (retains : ∀ frame : Frame, frame.Retains (change frame)) :
    Retains (modify change : FrameM PUnit) := by
  rintro frame _ _ ⟨⟩
  exact retains frame

theorem faultIf (condition : Prop) [Decidable condition] (cause : Exception) :
    Retains (FrameM.faultIf condition cause) := by
  unfold FrameM.faultIf
  split
  · exact fault cause
  · exact done ()

theorem assured (value : Option α) : Retains (FrameM.assured value) := by
  cases value with
  | some value => exact done value
  | none => rintro frame _ _ ⟨⟩

theorem push (word : Word) : Retains (FrameM.push word) := by
  intro frame after _ runs
  unfold FrameM.push at runs
  split at runs <;> cases runs
  exact ⟨rfl, rfl, rfl, rfl, Nat.le_max_left ..⟩

theorem pop : Retains FrameM.pop := by
  intro frame after _ runs
  unfold FrameM.pop at runs
  split at runs <;> cases runs
  exact ⟨rfl, rfl, rfl, rfl, Nat.le_max_left ..⟩

theorem popAddress : Retains FrameM.popAddress := pop.bind fun _ => done _

theorem popMany (count : Nat) : Retains (FrameM.popMany count) := by
  induction count with
  | zero => exact done []
  | succ count ih => exact pop.bind fun _ => ih.bind fun _ => done _

theorem charge (amount : Nat) : Retains (FrameM.charge amount) := by
  intro frame after _ runs
  unfold FrameM.charge at runs
  split at runs
  · cases runs
  · split at runs <;> cases runs
    rename_i gas spends
    unfold Meter.spend? at spends
    split at spends <;> cases spends
    exact ⟨rfl, rfl, rfl, rfl, Nat.le_max_left ..⟩

theorem region (offset size : Word) : Retains (FrameM.region offset size) := by
  unfold FrameM.region
  split
  · exact done _
  · exact fault .outOfGas

theorem grow (offset size : Nat) : Retains (FrameM.grow offset size) :=
  update fun _ => ⟨rfl, rfl, rfl, rfl, Nat.le_max_left ..⟩

theorem expand (fork : Fork) (offset size : Nat) : Retains (FrameM.expand fork offset size) :=
  current.bind fun _ => (charge _).bind fun _ => grow offset size

theorem readMemory (offset size : Nat) : Retains (FrameM.readMemory offset size) :=
  current.bind fun _ => assured _

theorem updateMemory (change : Memory → Option Memory) : Retains (FrameM.updateMemory change) := by
  intro frame after _ runs
  unfold FrameM.updateMemory at runs
  dsimp only at runs
  split at runs <;> cases runs
  exact ⟨rfl, rfl, rfl, rfl, Nat.le_max_left ..⟩

end Retains

end FrameM

namespace Instruction

open FrameM.Retains hiding bind

variable {fork : Fork}

theorem unary_retains (op : Unary) : (unary fork op).Retains :=
  (charge _).bind fun _ => pop.bind fun _ => push _

theorem binary_retains (op : Binary) : (binary fork op).Retains :=
  pop.bind fun _ => pop.bind fun _ => (charge _).bind fun _ => push _

theorem ternary_retains (op : Ternary) : (ternary fork op).Retains :=
  (charge _).bind fun _ => pop.bind fun _ => pop.bind fun _ => pop.bind fun _ => push _

theorem query_retains (env : Environment σ) (context : Context) (pc : Nat) (what : Query) :
    (query env context pc what).Retains :=
  (charge _).bind fun _ => current.bind fun _ => push _

theorem lookup_retains (env : Environment σ) (context : Context) (what : Lookup) :
    (lookup env context what).Retains :=
  (charge _).bind fun _ => pop.bind fun _ => push _

theorem keccak_retains : (keccak fork).Retains := by
  refine pop.bind fun offset => pop.bind fun size => ?_
  refine (region offset size).bind fun range => ?_
  refine (charge _).bind fun _ => (expand fork _ _).bind fun _ => ?_
  exact (readMemory _ _).bind fun bytes => push _

theorem copy_retains (source : Bytes) : (copy fork source).Retains := by
  refine pop.bind fun target => pop.bind fun start => pop.bind fun size => ?_
  refine (region target size).bind fun range => ?_
  exact (charge _).bind fun _ => (expand fork _ _).bind fun _ => updateMemory _

theorem returnDataCopy_retains : (returnDataCopy fork).Retains := by
  refine pop.bind fun target => pop.bind fun start => pop.bind fun size => ?_
  refine current.bind fun frame => (faultIf _ _).bind fun _ => ?_
  refine (region target size).bind fun range => ?_
  refine (charge _).bind fun _ => (expand fork _ _).bind fun _ => current.bind fun frame => ?_
  exact (assured _).bind fun bytes => updateMemory _

theorem memoryLoad_retains : (memoryLoad fork).Retains := by
  refine (charge _).bind fun _ => pop.bind fun offset => (region offset 32).bind fun range => ?_
  refine (expand fork _ _).bind fun _ => current.bind fun frame => ?_
  exact (assured _).bind fun word => push word

theorem memoryStore_retains : (memoryStore fork).Retains := by
  refine (charge _).bind fun _ => pop.bind fun offset => pop.bind fun value => ?_
  exact (region offset 32).bind fun range => (expand fork _ _).bind fun _ => updateMemory _

theorem memoryStore8_retains : (memoryStore8 fork).Retains := by
  refine (charge _).bind fun _ => pop.bind fun offset => pop.bind fun value => ?_
  exact (region offset 1).bind fun range => (expand fork _ _).bind fun _ => updateMemory _

theorem memoryCopy_retains : (memoryCopy fork).Retains := by
  refine pop.bind fun target => pop.bind fun source => pop.bind fun size => ?_
  refine (region target size).bind fun written => (region source size).bind fun read => ?_
  exact (charge _).bind fun _ => (expand fork _ _).bind fun _ => updateMemory _

theorem pushArgument_retains (width : Fin 33) (argument : Bytes) :
    (pushArgument fork width argument).Retains :=
  (charge _).bind fun _ => push _

theorem dup_retains (depth : Fin 16) : (dup fork depth).Retains :=
  (charge _).bind fun _ => current.bind fun _ => (assured _).bind fun word => push word

theorem swap_retains (depth : Fin 16) : (swap fork depth).Retains := by
  refine (charge _).bind fun _ => current.bind fun _ => (assured _).bind fun stack => ?_
  exact update fun _ => ⟨rfl, rfl, rfl, rfl, Nat.le_max_left ..⟩

theorem jumpTo_retains (context : Context) (target : Word) : (jumpTo context target).Retains := by
  unfold jumpTo
  split
  · exact done _
  · exact fault .invalidJumpDestination

theorem jump_retains (context : Context) : (jump fork context).Retains :=
  (charge _).bind fun _ => pop.bind fun target => jumpTo_retains context target

theorem jumpIf_retains (context : Context) : (jumpIf fork context).Retains := by
  refine (charge _).bind fun _ => pop.bind fun target => pop.bind fun condition => ?_
  split
  · exact done _
  · exact jumpTo_retains context target

theorem finish_retains (control : Control) : (finish fork control).Retains := by
  intro frame after value runs
  obtain ⟨offset, _, popsOffset, runs⟩ := FrameM.bind_ok.mp runs
  obtain ⟨size, _, popsSize, runs⟩ := FrameM.bind_ok.mp runs
  obtain ⟨range, _, names, runs⟩ := FrameM.bind_ok.mp runs
  obtain ⟨_, _, expands, runs⟩ := FrameM.bind_ok.mp runs
  obtain ⟨output, left, reads, runs⟩ := FrameM.bind_ok.mp runs
  cases runs
  have small : output.size ≤ memoryLimit :=
    Nat.le_trans (FrameM.readMemory_size reads) (FrameM.region_size names)
  have taken := (pop popsOffset).trans ((pop popsSize).trans (region _ _ names))
  have retains := taken.trans ((expand _ _ _ expands).trans (readMemory _ _ reads))
  exact ⟨retains.limit_eq, retains.logs_eq, retains.refund_eq, retains.selfDestruct_eq,
    Nat.le_trans small (Nat.le_max_right ..)⟩

theorem popCall_retains (mode : CallMode) : (popCall mode).Retains := by
  have value : (popValue mode).Retains := by
    unfold popValue
    split
    · exact pop
    · exact done 0
  refine pop.bind fun gas => popAddress.bind fun target => value.bind fun value => ?_
  refine pop.bind fun inputOffset => pop.bind fun inputSize => ?_
  refine pop.bind fun roomOffset => pop.bind fun roomSize => ?_
  exact (region _ _).bind fun input => (region _ _).bind fun room => done _

theorem payCall_retains (operands : CallOperands) (price : Nat) :
    (payCall fork operands price).Retains := by
  refine current.bind fun _ => (charge _).bind fun _ => (grow _ _).bind fun _ => ?_
  refine (grow _ _).bind fun _ => current.bind fun _ => (charge _).bind fun _ => ?_
  refine FrameM.Retains.bind (update fun _ => ?_) fun _ => assured _
  exact ⟨rfl, rfl, rfl, rfl, Nat.le_max_left ..⟩

theorem refuseCall_retains (gas : Nat) : (refuseCall gas).Retains := by
  refine FrameM.Retains.bind (update fun _ => ?_) fun _ => push 0
  exact ⟨rfl, rfl, rfl, rfl, Nat.le_max_left ..⟩

theorem popCreate_retains (salted : Bool) : (popCreate salted).Retains := by
  have salt : (popSalt salted).Retains := by
    unfold popSalt
    split
    · exact pop.bind fun _ => done _
    · exact done none
  refine pop.bind fun value => pop.bind fun offset => pop.bind fun size => ?_
  exact salt.bind fun salt => (region offset size).bind fun code => done _

theorem payCreate_retains (salted : Bool) (operands : CreateOperands) :
    (payCreate fork salted operands).Retains := by
  refine (faultIf _ _).bind fun _ => (charge _).bind fun _ => (expand fork _ _).bind fun _ => ?_
  refine (readMemory _ _).bind fun code => ?_
  refine FrameM.Retains.bind (update fun _ => ?_) fun _ => done code
  exact ⟨rfl, rfl, rfl, rfl, Nat.le_max_left ..⟩

end Instruction

theorem checkStack_retains (operation : Operation) : (checkStack operation).Retains := by
  refine FrameM.Retains.current.bind fun frame => ?_
  dsimp only
  split
  · exact .fault .stackUnderflow
  · split
    · exact .fault .stackOverflow
    · exact .done ()

end Evm
