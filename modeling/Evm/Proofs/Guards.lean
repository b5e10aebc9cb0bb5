import Evm.Proofs.Checks
import Evm.Proofs.Passages
import Evm.Proofs.Termination

/-!
# Guards

Nothing that a run computes leaves its bounds. An instruction uses the stack where it has words, the
memory where it was paid for and the return data where there is some; what it charges, hands on or
deposits fits 64 bits; and every difference, quotient and slice on the way exists.
-/

namespace Evm

open Execution Checked

variable {σ : Type} {env : Environment σ} {message : Message} {pc : Nat} {host : Host σ}

def Frame.OutputFits (frame : Frame) : Prop := frame.output.size ≤ memoryLimit

theorem Frame.outputFits_lasts : InstructionM.Lasts Frame.OutputFits := by
  intro frame after retains fits
  have output_le := retains.output_le
  unfold OutputFits at fits ⊢
  omega

namespace Execution

variable {context : Context} {frame left next : Frame} {after : Host σ}

theorem Applies.outputFits (applies : Applies env context frame host left after)
    (fits : frame.OutputFits) : left.OutputFits := by
  cases applies with
  | past => exact fits
  | operation _ executes _ =>
    have writes : Instruction.WritesKeep Frame.OutputFits (fun _ _ : Host σ => True) env.fork
        context :=
      Instruction.writesKeep Host.stable_true Frame.outputFits_lasts env.fork context id id id
    have keeps := execute_keeps Host.stable_true.toSteady Frame.outputFits_lasts env writes
    exact ((keeps _ _).of_ok fits executes).1

theorem resume_output {suspended : Suspended} {answer : Result}
    (resumes : resume env suspended answer host = .ok next after) :
    next.output = suspended.frame.output := by
  obtain ⟨_, receives, _⟩ := resume_ok resumes
  cases taker : suspended.resumption.receiver with
  | call offset size checkpoint =>
    rw [taker] at receives
    obtain ⟨_, fills⟩ := receive_call_ok receives
    obtain ⟨memory, _, rfl⟩ := Option.map_eq_some_iff.mp fills
    cases success : answer.isSuccess <;> rfl
  | create =>
    rw [taker] at receives
    cases receives
    unfold receiveCreation
    split <;> rfl

/-- The output of the frame that runs, and of every frame that waits, fits a memory. -/
def OutputsFit : Execution → Prop
  | .running _ frame waiting => frame.OutputFits ∧ ∀ suspended ∈ waiting, suspended.frame.OutputFits
  | .returning _ waiting => ∀ suspended ∈ waiting, suspended.frame.OutputFits

theorem OutputsFit.opening {kind : MessageKind} {opening : Opening} {opened : Host σ}
    {waiting : List Suspended} (waits : ∀ suspended ∈ waiting, suspended.frame.OutputFits)
    (enters : enter env message kind pc host = .ok opening opened) :
    (ofOpening opening waiting).OutputsFit := by
  cases opening with
  | result result => exact waits
  | frame context frame =>
    obtain ⟨index, rfl⟩ := (start_of_enter enters).start
    exact ⟨Nat.zero_le _, waits⟩

theorem OutputsFit.advance {execution last : Execution} (fit : execution.OutputsFit)
    (moves : Execution.advance env execution host = .ok last after) : last.OutputsFit := by
  cases moves_of_advance moves with
  | goOn turns =>
    obtain ⟨left, index, applies, rfl⟩ := turn_goOn turns
    have fits : left.OutputFits := applies.outputFits fit.1
    exact ⟨fits, fit.2⟩
  | finish => exact fit.2
  | ask turns enters =>
    obtain ⟨left, index, applies, rfl⟩ := turn_ask turns
    have fits : left.OutputFits := applies.outputFits fit.1
    refine .opening ?_ enters
    rintro suspended member
    obtain rfl | member := List.mem_cons.mp member
    · exact fits
    · exact fit.2 suspended member
  | resume resumes =>
    refine ⟨?_, fun other member => fit other (List.mem_cons_of_mem _ member)⟩
    rw [Frame.OutputFits, resume_output resumes]
    exact fit _ (List.mem_cons_self ..)
  | rest => exact fit

theorem Reaches.outputsFit {execution : Execution} {reached : Host σ}
    (reaches : Reaches env message pc host execution reached) : execution.OutputsFit := by
  refine reaches.always ?_ fun _ _ moves fit => fit.advance moves
  intro _ opening opened _ enters
  exact .opening (by simp) enters

end Execution

/-- The computations that do not depend on the state of a run: with every operation checked, each
has the result that the machine goes on with. -/
structure Computes (fork : Fork) : Prop where
  /-- A range that was named is one that memory can hold; an empty one starts at zero. -/
  ranges : ∀ {offset size : Word} {range}, Memory.region? offset size = some range →
    range.1 + range.2 ≤ memoryLimit ∧ (range.2 = 0 → range.1 = 0)
  moves : ∀ {target source size : Word} {written read}, Memory.region? target size = some written →
    Memory.region? source size = some read → max written.1 read.1 + written.2 ≤ memoryLimit
  growth : ∀ (memory : Memory) {offset size}, offset + size ≤ memoryLimit →
    memory.expansionPrice? fork offset size = some (memory.expansionPrice fork offset size) ∧
      memory.expandedSize? offset size = some (memory.expand offset size).size
  /-- The part of the return data that is copied starts where it was asked for. -/
  returned : ∀ {target start size : Word} {range}, Memory.region? target size = some range →
    sub? (start.toNat + size.toNat) range.2 = some start.toNat
  decoding : ∀ {bytes : Bytes} {instruction}, bytes.size + 33 < machineLimit →
    instruction ∈ (Code.ofBytes bytes).instructions → instruction.offset < bytes.size ∧
      instruction.offset + 1 + instruction.argument.size < machineLimit
  windows : ∀ (bytes : Bytes) (start size : Nat),
    bytes.window? start size =
      if size < Bytes.allocationLimit then some (bytes.window start size) else none
  divisions : ∀ (op : Binary) (a b : Word), op.eval? a b = some (op.eval a b)
  remainders : ∀ (op : Ternary) (a b n : Word), op.eval? a b n = some (op.eval a b n)
  restored : ∀ initial, Instruction.restored? fork initial = some (if initial = 0
    then fork.fee .sstoreSet - fork.fee .sstoreDirty
    else fork.fee .sstoreReset - fork.fee .sstoreDirty)
  shares : ∀ gas, Gas.allButOne64th? gas = some (Gas.allButOne64th gas)
  contracts : ∀ (contract : Precompile) (data : Bytes), contract.price fork data < machineLimit
  /-- A power can be computed unless an operand is too large for a buffer. -/
  buffers : ∀ data : Bytes, ModExp.power? data = none ↔ ModExp.Overflows data
  /-- The price of a power, which is no wider than its modulus. -/
  powers : ∀ data : Bytes, let header := ModExp.header data
    (∀ head, ModExp.price? fork header.baseLength header.exponentLength header.modulusLength head =
      some (ModExp.price fork header.baseLength header.exponentLength header.modulusLength head)) ∧
    ∀ offset base exponent, let modulus := Bytes.toNat (data.window offset header.modulusLength)
      1 < modulus → Modular.pow modulus base exponent < 256 ^ header.modulusLength

theorem Fork.computes (fork : Fork) : Computes fork where
  ranges names := by
    obtain ⟨⟨end_le, offset_eq⟩, _⟩ := Memory.within_of_region? names
    exact ⟨end_le, offset_eq⟩
  moves := Memory.max_end_le
  growth memory _ _ within :=
    ⟨memory.expansionPrice?_eq fork within, memory.expandedSize?_eq within⟩
  returned names := by
    obtain ⟨_, same⟩ := Memory.within_of_region? names
    rw [sub?_of_le (by omega), same, Nat.add_sub_cancel]
  decoding room member := by
    obtain ⟨offset_lt, short⟩ := Code.offset_lt member
    exact ⟨offset_lt, by omega⟩
  windows := Bytes.window?_eq
  divisions := Binary.eval?_eq
  remainders := Ternary.eval?_eq
  restored := Instruction.restored?_eq fork
  shares := Gas.allButOne64th?_eq
  contracts contract data := contract.price_lt fork data
  buffers _ := ModExp.power?_eq_none
  powers data := by
    refine ⟨fun head => ?_, fun offset base exponent => ?_⟩
    · exact ModExp.price?_eq fork _ head (ModExp.readLength_lt data 0) (ModExp.readLength_lt data 64)
    · exact ModExp.pow_lt_width data offset _ base exponent

/-- Nothing that the run of a message computes leaves its bounds. -/
structure Guarded (env : Environment σ) (message : Message) (pc : Nat) (host : Host σ) : Prop where
  runs : ¬message.Overflows env.fork → ∃ result after, runMessage env message pc host = .ok result after
  /-- A message that asks for more than a buffer can hold breaks the machine. -/
  breaks : message.Overflows env.fork → ∃ after, runMessage env message pc host = .error .breach after
  advances : ∀ {execution reached}, Reaches env message pc host execution reached →
    ∃ next after, advance env execution reached = .ok next after
  /-- A step goes through, or faults for a cause that the code has. Any slot of the stack, range of
  memory or return data that it uses is there; whatever it charges or hands on fits 64 bits, and so
  does every part of a price, which is a sum of products. -/
  steps : ∀ {context frame waiting reached},
    Reaches env message pc host (.running context frame waiting) reached →
    (∃ control left last, step env context frame reached = .ok (control, left) last) ∨
      ∃ cause last, step env context frame reached = .error (.fault cause) last
  /-- The output of a nested message fits the memory that its caller has set aside. -/
  resumes : ∀ {result suspended waiting reached},
    Reaches env message pc host (.returning result (suspended :: waiting)) reached →
    Fits suspended.resumption.receiver suspended.frame result ∧
      ∃ next after, resume env suspended result reached = .ok next after
  /-- A frame can spend what is left to it without passing its limit, which fits 64 bits. -/
  meters : ∀ {context frame waiting reached},
    Reaches env message pc host (.running context frame waiting) reached →
    frame.gas.Sound ∧ context.message.depth + 1 < machineLimit
  /-- What a nested message is given, with a stipend, fits 64 bits. -/
  given : ∀ {context frame waiting reached nested asking asked},
    Reaches env message pc host (.running context frame waiting) reached →
    turn env context frame reached = .ok (.ask nested asking) asked →
    nested.message.gasLimit < machineLimit
  deposits : ∀ {context frame waiting reached ended turned},
    Reaches env message pc host (.running context frame waiting) reached →
    turn env context frame reached = .ok (.finish ended) turned → ended.isSuccess →
    (depositedGas? env.fork context.message ended).isSome
  computes : Computes env.fork

/-- A message that fits the machine is run without leaving its bounds, from any host in order. -/
theorem runMessage_guarded (env : Environment σ) (message : Message) (pc : Nat) (host : Host σ)
    (inOrder : host.InOrder) (bounded : message.gasLimit < machineLimit)
    (depth_lt : message.depth + 1 < machineLimit) : Guarded env message pc host where
  runs := runMessage_run env message pc host inOrder bounded
  breaks overflows := by
    obtain ⟨after, fails, _⟩ := runMessage_breach env pc host overflows
    exact ⟨after, fails⟩
  advances := by
    intro execution reached reaches
    by_cases above : execution.Above []
    · obtain ⟨ground, outermost, holds⟩ := reaches.holds inOrder bounded above
      obtain ⟨next, after, moves, _⟩ := holds.advances env (outermost ▸ above)
      exact ⟨next, after, moves⟩
    · cases execution with
      | running context frame waiting => exact absurd List.nil_suffix above
      | returning result waiting =>
        cases waiting with
        | nil => exact ⟨_, _, rfl⟩
        | cons suspended waiting => exact absurd ⟨_, _, rfl, List.nil_suffix⟩ above
  steps reaches := by
    obtain ⟨ground, _, holds⟩ := reaches.holds inOrder bounded List.nil_suffix
    obtain ⟨control, left, last, steps, _⟩ | faults :=
      (step_meets env _ holds.sound holds.inOrder).result
    · exact .inl ⟨control, left, last, steps⟩
    · exact .inr faults
  resumes reaches := by
    obtain ⟨ground, outermost, holds⟩ :=
      reaches.holds inOrder bounded ⟨_, _, rfl, List.nil_suffix⟩
    obtain ⟨_, _, moves, _⟩ := holds.advances env (outermost ▸ ⟨_, _, rfl, List.nil_suffix⟩)
    obtain ⟨next, after, resumes, _⟩ := bind_eq_ok.mp moves
    exact ⟨fits_of_resume resumes, next, after, resumes⟩
  meters reaches := by
    obtain ⟨ground, _, holds⟩ := reaches.holds inOrder bounded List.nil_suffix
    exact ⟨holds.sound, reaches.depth_lt depth_lt _ (List.mem_cons_self ..)⟩
  given reaches turns := by
    obtain ⟨ground, _, holds⟩ := reaches.holds inOrder bounded List.nil_suffix
    exact (holds.ready.serves turns).2
  deposits := by
    intro context frame waiting reached ended turned reaches turns success
    obtain ⟨ground, _, holds⟩ := reaches.holds inOrder bounded List.nil_suffix
    obtain ⟨_, fair⟩ := turn_costs holds.ready turns
    obtain ⟨left, reason, applies, rfl⟩ | ⟨_, rfl⟩ | ⟨_, rfl⟩ := turn_finish turns
    · have small := applies.outputFits reaches.outputsFit.1
      exact depositedGas?_isSome small fair.gasUsed_le (holds.limit_eq ▸ holds.sound.limit_lt)
    · cases success
    · cases success
  computes := env.fork.computes

/-- A word is copied within its bounds; where a buffer would be too large, that is known. -/
theorem runMessage_guarded_copying :
    (∃ result after,
      runMessage (.blank .byzantium) copyingMessage 0 (Host.start .empty ()) = .ok result after ∧
        result.output = Array.replicate 31 0 ++ #[7]) ∧
    ∃ after, runMessage (.blank .byzantium) overflowingMessage 0 (Host.start .empty ()) =
      .error .breach after := by
  constructor
  · have returns : ((runMessage (.blank .byzantium) copyingMessage 0).run'
        (Host.start .empty ())).map (·.output) = some (Array.replicate 31 0 ++ #[7]) := by
      decide +kernel
    have guarded := runMessage_guarded (.blank .byzantium) copyingMessage 0
      (Host.start .empty ()) World.empty_inOrder (by decide) (by decide)
    obtain ⟨result, after, runs⟩ := guarded.runs (Message.not_overflows_of_gasLimit (by decide))
    rw [run'_eq_some.mpr ⟨after, runs⟩, Option.map_some] at returns
    exact ⟨result, after, runs, Option.some.inj returns⟩
  · have guarded := runMessage_guarded (.blank .byzantium) overflowingMessage 0
      (Host.start .empty ()) World.empty_inOrder (by decide) (by decide)
    exact guarded.breaks overflowingMessage_overflows

end Evm
