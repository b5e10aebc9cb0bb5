import Evm.Proofs.Journal
import Evm.Proofs.Prices
import Evm.Proofs.Recording
import Evm.Proofs.Steps

/-!
# Metered steps

An action on a frame meets a condition if whatever it gives meets it, and if it can be stopped by
a fault only. The rules follow the frame from one part of an action to the next.
-/

namespace Evm

open HostM

variable {σ α β : Type}

/-- How far an instruction has come with a frame: what it has spent, the memory it has, and that
what the last nested message gave back is still there. -/
structure Stage (start : Frame) (spent : Nat) (memory : Memory) (frame : Frame) : Prop where
  pays : start.gas.Pays spent frame.gas
  memory_eq : frame.memory = memory
  returnData_eq : frame.returnData = start.returnData

namespace Stage

variable {start frame : Frame} {spent : Nat} {memory : Memory}

theorem begin (sound : start.gas.Sound) : Stage start 0 start.memory start :=
  ⟨⟨rfl, rfl, sound⟩, rfl, rfl⟩

theorem withStack {stack : Stack} (stage : Stage start spent memory frame) :
    Stage start spent memory { frame with stack } :=
  ⟨stage.pays, stage.memory_eq, stage.returnData_eq⟩

theorem spends {least : Nat} (stage : Stage start spent memory frame) (enough : least ≤ spent) :
    start.gas.Spends least frame.gas := stage.pays.spends enough

end Stage

namespace FrameM

/-- The action ends with what meets `post`, or with a fault. -/
def Meets (action : FrameM α) (frame : Frame) (post : α → Frame → Prop) : Prop :=
  match action frame with
  | .ok (value, after) => post value after
  | .error (.fault _) => True
  | .error (.failure _) => False

namespace Meets

variable {start frame : Frame} {spent : Nat} {memory : Memory} {post : α → Frame → Prop}

theorem bind {action : FrameM β} {next : β → FrameM α}
    (meets : Meets action frame fun value between => Meets (next value) between post) :
    Meets (action >>= next) frame post := by
  unfold Meets at meets ⊢
  rw [bind_run]
  cases run : action frame with
  | ok result =>
    simp only [run] at meets
    exact meets
  | error interrupt =>
    simp only [run] at meets
    cases interrupt <;> exact meets

theorem mono {stronger : α → Frame → Prop} {action : FrameM α}
    (meets : Meets action frame stronger)
    (implies : ∀ value after, stronger value after → post value after) :
    Meets action frame post := by
  unfold Meets at meets ⊢
  cases run : action frame with
  | ok result =>
    simp only [run] at meets
    exact implies _ _ meets
  | error interrupt =>
    simp only [run] at meets
    cases interrupt <;> exact meets

theorem given {action : FrameM α}
    (meets : Meets action frame fun value after => action frame = .ok (value, after) →
      post value after) :
    Meets action frame post := by
  unfold Meets at meets ⊢
  cases run : action frame with
  | ok result =>
    simp only [run] at meets
    exact meets trivial
  | error interrupt =>
    simp only [run] at meets
    cases interrupt <;> exact meets

theorem done {value : α} (holds : post value frame) : Meets (pure value) frame post := holds

theorem fault (cause : Exception) : Meets (FrameM.fault cause) frame post := trivial

theorem current {post : Frame → Frame → Prop} (holds : post frame frame) :
    Meets get frame post := holds

theorem update {post : PUnit → Frame → Prop} {change : Frame → Frame}
    (holds : post ⟨⟩ (change frame)) : Meets (modify change) frame post := holds

theorem faultIf {post : Unit → Frame → Prop} {condition : Prop} [Decidable condition]
    {cause : Exception} (holds : ¬ condition → post () frame) :
    Meets (FrameM.faultIf condition cause) frame post := by
  unfold FrameM.faultIf
  split
  · exact fault cause
  · exact done (holds ‹_›)

theorem assured {value : Option α} (exist : value.isSome)
    (holds : ∀ found, value = some found → post found frame) :
    Meets (FrameM.assured value) frame post := by
  obtain ⟨found, rfl⟩ := Option.isSome_iff_exists.mp exist
  exact holds found rfl

theorem pop {post : Word → Frame → Prop} (stage : Stage start spent memory frame)
    (holds : ∀ word after, Stage start spent memory after → post word after) :
    Meets FrameM.pop frame post := by
  unfold Meets FrameM.pop
  cases frame.stack.pop? with
  | some popped => exact holds popped.1 _ stage.withStack
  | none => trivial

theorem popAddress {post : Address → Frame → Prop} (stage : Stage start spent memory frame)
    (holds : ∀ address after, Stage start spent memory after → post address after) :
    Meets FrameM.popAddress frame post :=
  bind (pop stage fun _ after stage => done (holds _ after stage))

theorem popMany {post : List Word → Frame → Prop} (count : Nat)
    (stage : Stage start spent memory frame)
    (holds : ∀ words after, Stage start spent memory after → post words after) :
    Meets (FrameM.popMany count) frame post := by
  induction count generalizing frame post with
  | zero => exact done (holds [] frame stage)
  | succ count ih =>
    refine bind (pop stage fun word between stage => ?_)
    exact bind (ih stage fun words after stage => done (holds _ after stage))

theorem push {post : Unit → Frame → Prop} {word : Word} (stage : Stage start spent memory frame)
    (holds : ∀ after, Stage start spent memory after → post () after) :
    Meets (FrameM.push word) frame post := by
  unfold Meets FrameM.push
  by_cases room : frame.stack.size < stackLimit
  · rw [if_pos room]
    exact holds _ stage.withStack
  · rw [if_neg room]
    trivial

theorem chargeWithStack {post : Unit → Frame → Prop} {amount : Nat}
    (stage : Stage start spent memory frame) (bounded : amount < machineLimit)
    (holds : ∀ after, Stage start (spent + amount) memory after → after.stack = frame.stack →
      post () after) :
    Meets (FrameM.charge amount) frame post := by
  unfold Meets FrameM.charge
  rw [if_neg (Nat.not_le.mpr bounded)]
  cases spends : frame.gas.spend? amount with
  | some gas =>
    have pays := stage.pays.trans (Meter.pays_of_spend? stage.pays.sound spends)
    exact holds _ ⟨pays, stage.memory_eq, stage.returnData_eq⟩ rfl
  | none => trivial

theorem charge {post : Unit → Frame → Prop} {amount : Nat}
    (stage : Stage start spent memory frame) (bounded : amount < machineLimit)
    (holds : ∀ after, Stage start (spent + amount) memory after → post () after) :
    Meets (FrameM.charge amount) frame post :=
  chargeWithStack stage bounded fun after stage _ => holds after stage

theorem region {post : Nat × Nat → Frame → Prop} {offset size : Word}
    (holds : ∀ start length, Memory.Within start length → length = size.toNat →
      post (start, length) frame) :
    Meets (FrameM.region offset size) frame post := by
  unfold FrameM.region
  cases names : Memory.region? offset size with
  | some range =>
    obtain ⟨within, same⟩ := Memory.within_of_region? names
    exact done (holds range.1 range.2 within same)
  | none => exact fault .outOfGas

theorem grow {post : PUnit → Frame → Prop} {offset size : Nat}
    (stage : Stage start spent memory frame)
    (holds : ∀ after, Stage start spent (memory.expand offset size) after → post ⟨⟩ after) :
    Meets (FrameM.grow offset size) frame post := by
  refine update (holds _ ⟨stage.pays, ?_, stage.returnData_eq⟩)
  rw [← stage.memory_eq]

theorem expand {post : Unit → Frame → Prop} {fork : Fork} {offset size : Nat}
    (stage : Stage start spent memory frame) (within : Memory.Within offset size)
    (holds : ∀ after,
      Stage start (spent + memory.expansionPrice fork offset size) (memory.expand offset size)
        after →
      offset + size ≤ (memory.expand offset size).size → post () after) :
    Meets (FrameM.expand fork offset size) frame post := by
  have bounded := memory.expansionPrice_lt fork within
  refine bind (current (bind ?_))
  rw [stage.memory_eq]
  refine charge stage bounded fun between stage => ?_
  exact grow stage fun after stage => holds after stage (Memory.covers_expand memory within).1

theorem readMemory {post : Bytes → Frame → Prop} {offset size : Nat}
    (stage : Stage start spent memory frame) (covered : offset + size ≤ memory.size)
    (holds : ∀ bytes, post bytes frame) :
    Meets (FrameM.readMemory offset size) frame post := by
  refine bind (current (assured ?_ fun bytes _ => holds bytes))
  rw [stage.memory_eq]
  unfold Memory.read?
  rw [if_pos covered]
  split <;> rfl

theorem updateMemory {post : Unit → Frame → Prop} {update : Memory → Option Memory}
    (stage : Stage start spent memory frame) (possible : (update memory).isSome)
    (holds : ∀ memory after, Stage start spent memory after → post () after) :
    Meets (FrameM.updateMemory update) frame post := by
  obtain ⟨updated, updates⟩ := Option.isSome_iff_exists.mp possible
  rw [← stage.memory_eq] at updates
  unfold Meets FrameM.updateMemory
  simp only [updates]
  exact holds updated _ ⟨stage.pays, rfl, stage.returnData_eq⟩

end Meets

end FrameM

theorem Word.size_toBytes (word : Word) : word.toBytes.size = 32 := Array.size_ofFn

namespace Stack

variable {stack : Stack} {depth : Nat}

theorem get?_isSome (deep : depth < stack.size) : (stack.get? depth).isSome := by
  rw [stack.size_eq] at deep
  simp [get?, deep]

theorem swap?_isSome (deep : depth + 1 < stack.size) : (stack.swap? depth).isSome := by
  rw [stack.size_eq] at deep
  obtain ⟨words, size, same⟩ := stack
  cases words with
  | nil => cases deep
  | cons top words =>
    have below : depth < words.length := Nat.lt_of_succ_lt_succ deep
    simp [swap?, below]

end Stack

namespace Memory

variable {memory : Memory} {offset size : Nat}

theorem store?_isSome {bytes : Bytes} (covered : offset + bytes.size ≤ memory.size) :
    (memory.store? offset bytes).isSome := by
  unfold store?
  rw [if_pos covered]
  rfl

theorem load?_isSome (covered : offset + 32 ≤ memory.size) : (memory.load? offset).isSome := by
  unfold load? read?
  rw [if_neg (by decide), if_pos covered]
  rfl

theorem size_window (bytes : Bytes) (start size : Nat) : (bytes.window start size).size = size := by
  simp only [Bytes.window, Bytes.present, Bytes.zeros, Array.size_append, Array.size_extract,
    Array.size_replicate]
  omega

theorem copyFrom?_isSome {source : Bytes} {start : Word} (covered : offset + size ≤ memory.size) :
    (memory.copyFrom? offset source start size).isSome := by
  unfold copyFrom?
  split
  · rfl
  · apply store?_isSome
    rw [size_window]
    exact covered

theorem copyWithin?_isSome {source target : Nat} (reads : source + size ≤ memory.size)
    (writes : target + size ≤ memory.size) :
    (memory.copyWithin? source target size).isSome := by
  unfold copyWithin? read?
  rw [if_pos reads]
  split
  · rfl
  · rw [Option.bind_some]
    apply store?_isSome
    rw [Array.size_extract]
    omega

end Memory

namespace InstructionM

def Meets (action : InstructionM σ α) (frame : Frame) (host : Host σ)
    (post : α → Frame → Host σ → Prop) : Prop :=
  match action frame host with
  | .ok (value, after) last => post value after last
  | .error (.fault _) _ => True
  | .error (.failure _) _ => False

namespace Meets

variable {frame : Frame} {host : Host σ} {post : α → Frame → Host σ → Prop}

theorem bind {action : InstructionM σ β} {next : β → InstructionM σ α}
    (meets : Meets action frame host fun value between middle =>
      Meets (next value) between middle post) :
    Meets (action >>= next) frame host post := by
  unfold Meets at meets ⊢
  rw [bind_run]
  cases run : action frame host with
  | ok result middle =>
    simp only [run] at meets
    exact meets
  | error interrupt middle =>
    simp only [run] at meets
    cases interrupt <;> exact meets

theorem mono {stronger : α → Frame → Host σ → Prop} {action : InstructionM σ α}
    (meets : Meets action frame host stronger)
    (implies : ∀ value after last, stronger value after last → post value after last) :
    Meets action frame host post := by
  unfold Meets at meets ⊢
  cases run : action frame host with
  | ok result last =>
    simp only [run] at meets
    exact implies _ _ _ meets
  | error interrupt last =>
    simp only [run] at meets
    cases interrupt <;> exact meets

theorem done {value : α} (holds : post value frame host) : Meets (pure value) frame host post :=
  holds

theorem current {post : Frame → Frame → Host σ → Prop} (holds : post frame frame host) :
    Meets get frame host post := holds

theorem around {post : Host σ → Frame → Host σ → Prop} (holds : post host frame host) :
    Meets (getThe (Host σ)) frame host post := holds

theorem update {post : PUnit → Frame → Host σ → Prop} {change : Frame → Frame}
    (holds : post ⟨⟩ (change frame) host) : Meets (modify change) frame host post := holds

theorem lift {action : FrameM α} (meets : action.Meets frame fun value after => post value after host) :
    Meets (liftM action) frame host post := by
  unfold FrameM.Meets at meets
  unfold Meets
  rw [lift_run]
  cases run : action frame with
  | ok result =>
    simp only [run] at meets
    exact meets
  | error interrupt =>
    simp only [run] at meets
    cases interrupt <;> exact meets

theorem serveGiven {action : HostM σ α} {served : α → Prop} (serves : Serves action served)
    (inOrder : host.InOrder)
    (holds : ∀ value last, action host = .ok value last → last.InOrder → served value →
      post value frame last) :
    Meets (InstructionM.host action) frame host post := by
  obtain ⟨value, last, runs, extend, meets⟩ := serves host inOrder
  unfold Meets InstructionM.host
  simp only [runs]
  exact holds value last runs (extend.inOrder inOrder) meets

theorem serve {action : HostM σ α} {served : α → Prop} (serves : Serves action served)
    (inOrder : host.InOrder)
    (holds : ∀ value last, last.InOrder → served value → post value frame last) :
    Meets (InstructionM.host action) frame host post :=
  serveGiven serves inOrder fun value last _ => holds value last

theorem emit {env : Environment σ} {event : Event} {post : Unit → Frame → Host σ → Prop}
    (holds : ∀ last, post () frame last) :
    Meets (InstructionM.host (Host.emit env event)) frame host post := by
  unfold Meets
  exact holds _

theorem result {action : InstructionM σ α} (meets : Meets action frame host post) :
    (∃ value after last, action frame host = .ok (value, after) last ∧ post value after last) ∨
      ∃ cause last, action frame host = .error (.fault cause) last := by
  unfold Meets at meets
  cases run : action frame host with
  | ok result last =>
    simp only [run] at meets
    exact .inl ⟨_, _, last, rfl, meets⟩
  | error interrupt last =>
    simp only [run] at meets
    cases interrupt with
    | fault cause => exact .inr ⟨cause, last, rfl⟩
    | failure failure => exact meets.elim

theorem of_ok {action : InstructionM σ α} {value : α} {after : Frame} {last : Host σ}
    (meets : Meets action frame host post) (runs : action frame host = .ok (value, after) last) :
    post value after last := by
  unfold Meets at meets
  rw [runs] at meets
  exact meets

end Meets

end InstructionM

-- From here on the judgements are used by their rules; unfolding one would run its action.
attribute [irreducible] FrameM.Meets InstructionM.Meets

end Evm
