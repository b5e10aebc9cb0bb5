import Evm.Proofs.Books
import Evm.Proofs.Forks

/-!
# Memories and their maps

To each frame belongs a map with a byte for every offset, zero at first. What an operation or an
answer does to the memory of the frame is told of that map alone: one range is overwritten, or none
is. How large the memory is makes no difference to it.
-/

namespace Evm

open Execution Instruction

variable {σ : Type}

namespace ByteMap

variable {map : ByteMap}

theorem write_apply (map : ByteMap) (offset : Nat) (bytes : Bytes) (place : Nat) :
    map.write offset bytes place =
      if offset ≤ place ∧ place < offset + bytes.size then bytes[place - offset]?.getD 0
      else map place := rfl

theorem getElem?_read (map : ByteMap) (offset size index : Nat) :
    (map.read offset size)[index]? =
      if index < size then some (map (offset + index)) else none := by
  rw [read, Array.getElem?_ofFn]
  split <;> rfl

theorem write_read (map source : ByteMap) (offset start size place : Nat) :
    map.write offset (source.read start size) place =
      if offset ≤ place ∧ place < offset + size then source (start + (place - offset))
      else map place := by
  rw [write_apply, size_read]
  split
  · rw [getElem?_read, if_pos (by omega), Option.getD_some]
  · rfl

/-- Bytes that are copied over themselves, one place further. -/
example : ((ofBytes #[7, 8, 9]).write 1 ((ofBytes #[7, 8, 9]).read 0 2)) 2 = 8 := by decide

theorem ofBytes_toBytes (word : Word) : ofBytes word.toBytes = word.byteAt := by
  funext index
  simp only [ofBytes, Word.toBytes, Bytes.ofNat, Array.getElem?_ofFn, Word.byteAt]
  split <;> rfl

end ByteMap

/-- A range, with the byte that goes to each of its places. -/
structure Overwrite where
  offset : Nat
  size : Nat
  byte : Nat → UInt8

def Overwrite.apply (overwrite : Overwrite) (map : ByteMap) : ByteMap := fun place =>
  if overwrite.offset ≤ place ∧ place < overwrite.offset + overwrite.size then
    overwrite.byte (place - overwrite.offset)
  else map place

namespace Operation

/-- What the operation overwrites: by the bytes of a word, or by those of a source from a start on,
with zeros past its end. A copy within the memory takes all of its bytes from the map as it was. -/
def overwrite (context : Context) (view : View) (frame : Frame) (map : ByteMap) :
    Operation → Overwrite
  | .memoryStore => ⟨(frame.operand 0).toNat, 32, (frame.operand 1).byteAt⟩
  | .memoryStore8 => ⟨(frame.operand 0).toNat, 1, fun _ => UInt8.ofNat (frame.operand 1).toNat⟩
  | .copy source => ⟨(frame.operand 0).toNat, (frame.operand 2).toNat, fun index =>
      (copySource context source)[(frame.operand 1).toNat + index]?.getD 0⟩
  | .externalCodeCopy => ⟨(frame.operand 1).toNat, (frame.operand 3).toNat, fun index =>
      (view.code (frame.address 0))[(frame.operand 2).toNat + index]?.getD 0⟩
  | .returnDataCopy => ⟨(frame.operand 0).toNat, (frame.operand 2).toNat, fun index =>
      frame.returnData[(frame.operand 1).toNat + index]?.getD 0⟩
  | .memoryCopy => ⟨(frame.operand 0).toNat, (frame.operand 2).toNat, fun index =>
      map ((frame.operand 1).toNat + index)⟩
  | _ => ⟨0, 0, fun _ => 0⟩

theorem effect_eq_overwrite (context : Context) (view : View) (frame : Frame) (map : ByteMap)
    (operation : Operation) :
    operation.effect context view frame map =
      (operation.overwrite context view frame map).apply map := by
  funext place
  cases operation with
  | memoryStore =>
    unfold Overwrite.apply effect overwrite
    dsimp only
    rw [ByteMap.write, Word.size_toBytes, ByteMap.ofBytes_toBytes]
  | memoryStore8 =>
    unfold Overwrite.apply effect overwrite
    dsimp only
    rw [ByteMap.write_apply, Array.size_singleton]
    by_cases inside : (frame.operand 0).toNat ≤ place ∧ place < (frame.operand 0).toNat + 1
    · rw [if_pos inside, if_pos inside, show place - (frame.operand 0).toNat = 0 by omega]
      rfl
    · rw [if_neg inside, if_neg inside]
  | copy => exact ByteMap.write_read ..
  | externalCodeCopy => exact ByteMap.write_read ..
  | returnDataCopy => exact ByteMap.write_read ..
  | memoryCopy => exact ByteMap.write_read ..
  | _ => exact (if_neg fun inside => absurd inside.2 (Nat.not_lt_zero _)).symm

end Operation

namespace FrameM

variable {α β : Type}

/-- Whatever stops the action, it is not that return data was read past its end. -/
def StaysInside (action : FrameM α) : Prop :=
  ∀ frame, action frame ≠ .error (.fault .returnDataOutOfBounds)

namespace StaysInside

theorem bind {action : FrameM β} {next : β → FrameM α} (first : StaysInside action)
    (others : ∀ value, StaysInside (next value)) : StaysInside (action >>= next) := by
  intro frame
  have stays := first frame
  rw [bind_run]
  cases runs : action frame with
  | ok result => exact others result.1 result.2
  | error interrupt =>
    rw [runs] at stays
    rintro ⟨⟩
    exact stays rfl

theorem current : StaysInside (get : FrameM Frame) := nofun

theorem update (change : Frame → Frame) : StaysInside (modify change) := nofun

theorem assured (value : Option α) : StaysInside (FrameM.assured value) := by
  cases value <;> nofun

theorem charge (amount : Nat) : StaysInside (FrameM.charge amount) := by
  intro frame
  unfold FrameM.charge
  split
  · nofun
  · split <;> nofun

theorem region (offset size : Word) : StaysInside (FrameM.region offset size) := by
  unfold FrameM.region
  cases Memory.region? offset size <;> nofun

theorem expand (fork : Fork) (offset size : Nat) : StaysInside (FrameM.expand fork offset size) :=
  .bind .current fun _ => .bind (.charge _) fun _ => .update _

theorem storeMemory (offset : Nat) (bytes : Bytes) :
    StaysInside (FrameM.storeMemory offset bytes) := by
  intro frame
  unfold FrameM.storeMemory FrameM.updateMemory
  dsimp only
  split <;> nofun

theorem faults_iff {condition : Prop} [Decidable condition] {rest : Unit → FrameM α}
    (stays : StaysInside (rest ())) (frame : Frame) :
    (faultIf condition .returnDataOutOfBounds >>= rest) frame =
      .error (.fault .returnDataOutOfBounds) ↔ condition := by
  rw [bind_run]
  unfold faultIf
  by_cases holds : condition
  · rw [if_pos holds]
    exact iff_of_true rfl holds
  · rw [if_neg holds]
    exact iff_of_false (stays frame) holds

end StaysInside

end FrameM

namespace Instruction

open FrameM

/-- A copy of return data fails for its bounds where it is asked for more than there is, also when
it is asked for nothing. -/
theorem returnDataCopy_outOfBounds {frame : Frame} (fork : Fork)
    (fits : Operation.returnDataCopy.Fits frame.stack) :
    returnDataCopy fork frame = .error (.fault .returnDataOutOfBounds) ↔
      frame.returnData.size < (frame.operand 1).toNat + (frame.operand 2).toNat := by
  have enough : 3 ≤ frame.stack.size := fits.enough
  -- The operands are there, so the bounds are the first check that can fail.
  obtain ⟨one, takes, stand⟩ := (Stand.begin frame).pop (by omega)
  obtain ⟨two, takes', stand⟩ := stand.pop (by omega)
  obtain ⟨three, takes'', stand⟩ := stand.pop (by omega)
  unfold returnDataCopy
  have reads : (get : FrameM Frame) three = .ok (three, three) := rfl
  rw [bind_run, takes]
  dsimp only
  rw [bind_run, takes']
  dsimp only
  rw [bind_run, takes'']
  dsimp only
  rw [bind_run, reads]
  dsimp only
  rw [stand.returnData_eq]
  refine StaysInside.faults_iff ?_ three
  refine .bind (.region _ _) fun range => .bind (.charge _) fun _ => ?_
  refine .bind (.expand _ _ _) fun _ => .bind .current fun _ => ?_
  exact .bind (.assured _) fun _ => .storeMemory _ _

end Instruction

section Steps

open InstructionM

variable {env : Environment σ} {context : Context} {frame : Frame} {host last : Host σ}

theorem lift_error {α : Type} {action : FrameM α} {interrupt : Interrupt} :
    (liftM action : InstructionM σ α) frame host = .error interrupt last ↔
      action frame = .error interrupt ∧ host = last := by
  rw [lift_run]
  cases action frame <;> simp

theorem step_of_next {operation : Operation} (host : Host σ)
    (next : context.operation? env.fork frame = some operation)
    (fits : operation.Fits frame.stack) :
    ∃ instruction, step env context frame host =
      (execute env context instruction operation >>=
        report env context instruction operation frame.gas.used) frame host := by
  obtain ⟨instruction, fetched, enabled⟩ := Option.bind_eq_some_iff.mp next
  refine ⟨instruction, ?_⟩
  rw [step_run]
  simp only [fetched, enabled]
  rw [bind_run, lift_run, checkStack_iff.mpr ⟨fits, rfl⟩]
  rfl

theorem step_outOfBounds (next : context.operation? env.fork frame = some .returnDataCopy)
    (fits : Operation.returnDataCopy.Fits frame.stack) :
    step env context frame host = .error (.fault .returnDataOutOfBounds) host ↔
      frame.returnData.size < (frame.operand 1).toNat + (frame.operand 2).toNat := by
  obtain ⟨instruction, runs⟩ := step_of_next host next fits
  rw [runs, ← returnDataCopy_outOfBounds env.fork fits]
  constructor
  · intro faults
    obtain faults | ⟨_, _, _, _, faults⟩ := bind_error.mp faults
    · obtain faults | ⟨_, _, _, _, faults⟩ := bind_error.mp faults
      · exact (lift_error.mp faults).1
      · cases faults
    · exact absurd faults report_ne_error
  · intro faults
    exact bind_error.mpr (.inl (bind_error.mpr (.inl (lift_error.mpr ⟨faults, rfl⟩))))

end Steps

/-- The map of each frame: an operation, and the answer that the frame waits for, do to it what they
do to the bytes of a memory. -/
def mapBook (fork : Fork) : Book σ ByteMap where
  opened := fun _ => 0
  turned context frame host map :=
    (context.operation? fork frame).elim map (·.effect context host.view frame map)
  answered suspended result map := suspended.resumption.receiver.filled result.output map

section Runs

variable {env : Environment σ} {context : Context} {frame left : Frame} {host : Host σ}
  {operation : Operation} {control : Control}

theorem mapBook_turned (trodden : Trodden env context frame host left control operation) :
    left.memory.bytes = (mapBook env.fork).turned context frame host frame.memory.bytes := by
  simp only [mapBook, trodden.next, Option.elim]
  exact trodden.footprint.bytes_eq

theorem map_law (env : Environment σ) :
    Book.Law (mapBook env.fork) env (fun frame map => frame.memory.bytes = map)
      (fun suspended map => suspended.frame.memory.bytes = map) where
  opens _ _ := Memory.bytes_empty
  goesOn := by
    rintro context frame host next after _ rfl turns
    obtain ⟨left, control, index, operation, trodden, _, rfl⟩ := turn_goOn_trodden turns
    have same := mapBook_turned trodden
    exact same
  asks := by
    rintro context frame host nested asking after _ rfl turns
    obtain ⟨left, index, operation, trodden, rfl⟩ := turn_ask_trodden turns
    have same := mapBook_turned trodden
    exact same
  resumes := by
    rintro suspended result host next after _ rfl resumes
    exact (resume_memory resumes).2

theorem output_of_turn {ended : Result} {after : Host σ}
    (ends : operation = .ret ∨ operation = .revert)
    (next : context.operation? env.fork frame = some operation)
    (turns : turn env context frame host = .ok (.finish ended) after) :
    ended.output = frame.memory.bytes.read (frame.operand 0).toNat (frame.operand 1).toNat ∨
      ∃ cause, ended = .faulted context.message cause := by
  obtain ⟨left, same, walked⟩ | faults := turn_finish_trodden turns
  · obtain ⟨past, _⟩ | ⟨control, other, trodden, _⟩ := walked
    · rw [next] at past
      cases past
    · obtain rfl : operation = other := Option.some.inj (next.symm.trans trodden.next)
      have reads := trodden.footprint.reads
      have output_eq : ended.output = left.output := by
        obtain ⟨_, rfl⟩ | rfl := same <;> rfl
      rw [output_eq]
      obtain rfl | rfl := ends <;> exact .inl reads
  · exact .inr faults

end Runs

theorem Receiver.filled_call (map : ByteMap) (output : Bytes) (offset size checkpoint place : Nat) :
    (Receiver.call offset size checkpoint).filled output map place =
      if offset ≤ place ∧ place < offset + min size output.size then
        output[place - offset]?.getD 0
      else map place := by
  have taken : (output.extract 0 (min size output.size)).size = min size output.size := by
    rw [Array.size_extract]
    omega
  rw [filled, ByteMap.write_apply, taken]
  split
  · rw [Array.getElem?_extract, if_pos (by omega), Nat.zero_add]
  · rfl

structure MemoryMaps (env : Environment σ) (message : Message) (pc : Nat) (host : Host σ) :
    Prop where
  /-- Every state that is reached has a map for each of its frames, and only such a state has. -/
  mapped : ∀ {execution reached}, Reaches env message pc host execution reached ↔
    ∃ maps, (mapBook env.fork).Keeps env message pc host execution reached maps
  same : ∀ {execution reached maps},
    (mapBook env.fork).Keeps env message pc host execution reached maps →
    Book.Pairs (fun frame map => frame.memory.bytes = map)
      (fun suspended map => suspended.frame.memory.bytes = map) execution maps
  holds : ∀ {memory : Memory} {place}, memory.bytes place = memory.data[place]?.getD 0
  /-- An operation that goes through makes of the map what it should, and gives what it reads there
  to the stack, a log, the output or a nested message. -/
  applies : ∀ {context frame left control operation} {before after : Host σ},
    context.operation? env.fork frame = some operation →
    step env context frame before = .ok (control, left) after →
    left.memory.bytes = operation.effect context before.view frame frame.memory.bytes ∧
      operation.Reads context frame left control frame.memory.bytes
  overwrites : ∀ {operation : Operation} {context view frame map},
    operation.effect context view frame map =
      (operation.overwrite context view frame map).apply map
  /-- What is read are the bytes of the map, one after the other. -/
  reads : ∀ {map : ByteMap} {offset size index}, (map.read offset size)[index]? =
    if index < size then some (map (offset + index)) else none
  /-- The result of a frame that returns or reverts has what was read, unless that fails. -/
  outputs : ∀ {context frame operation ended} {before after : Host σ},
    operation = .ret ∨ operation = .revert →
    context.operation? env.fork frame = some operation →
    turn env context frame before = .ok (.finish ended) after →
    ended.output = frame.memory.bytes.read (frame.operand 0).toNat (frame.operand 1).toNat ∨
      ∃ cause, ended = .faulted context.message cause
  /-- A copy of return data fails just where it asks for more than there is. -/
  outOfBounds : ∀ {context frame} {before : Host σ},
    context.operation? env.fork frame = some .returnDataCopy →
    Operation.returnDataCopy.Fits frame.stack →
    (step env context frame before = .error (.fault .returnDataOutOfBounds) before ↔
      frame.returnData.size < (frame.operand 1).toNat + (frame.operand 2).toNat)
  /-- An answer fills the room that was left for it. -/
  answers : ∀ {suspended result next} {answered after : Host σ},
    resume env suspended result answered = .ok next after →
    next.memory.bytes =
      suspended.resumption.receiver.filled result.output suspended.frame.memory.bytes
  /-- For a call that is as much of its output as the room takes, and nothing for a creation. -/
  fills : ∀ {map output offset size checkpoint place},
    (Receiver.call offset size checkpoint).filled output map place =
        (if offset ≤ place ∧ place < offset + min size output.size then
          output[place - offset]?.getD 0
        else map place) ∧
      Receiver.create.filled output map = map
  grows : ∀ {memory : Memory} {offset size}, (memory.expand offset size).bytes = memory.bytes

/-- Every memory is a map of bytes, in every run. -/
theorem runMessage_mapsMemory (env : Environment σ) (message : Message) (pc : Nat)
    (host : Host σ) : MemoryMaps env message pc host where
  mapped := reaches_iff _
  same keeps := keeps.pairs (map_law env)
  holds := rfl
  applies next steps :=
    have footprint := (step_footprint next steps).2
    ⟨footprint.bytes_eq, footprint.reads⟩
  overwrites := Operation.effect_eq_overwrite ..
  reads := ByteMap.getElem?_read ..
  outputs := output_of_turn
  outOfBounds := step_outOfBounds
  answers resumes := (resume_memory resumes).2
  fills := ⟨Receiver.filled_call .., rfl⟩
  grows := Memory.bytes_expand ..

/-- When the code returns, its frame has the word that was stored and the copy of it. -/
theorem runMessage_mapsMemory_copying : ∃ context frame waiting reached map others,
    (mapBook .byzantium).Keeps (.blank .byzantium) copyingMessage 0 (Host.start .empty ())
        (.running context frame waiting) reached (map :: others) ∧
      context.operation? .byzantium frame = some .ret ∧
      frame.memory.bytes = map ∧ map 31 = 7 ∧ map 63 = 7 ∧ map 64 = 0 := by
  have maps := runMessage_mapsMemory (.blank .byzantium) copyingMessage 0 (Host.start .empty ())
  have sees : seenAfter (.blank .byzantium) copyingMessage 0 13
      (fun context frame _ =>
        (context.operation? .byzantium frame, [31, 63, 64].map frame.memory.bytes))
      (Host.start .empty ()) = some (some .ret, [7, 7, 0]) := by
    decide +kernel
  obtain ⟨context, frame, waiting, reached, reaches, seen⟩ := reaches_of_seenAfter 13 sees
  simp only [Prod.mk.injEq, List.map_cons, List.map_nil, List.cons.injEq] at seen
  obtain ⟨returns, stored, copied, blank, _⟩ := seen
  obtain ⟨_, keeps⟩ := maps.mapped.mp reaches
  obtain ⟨map, others, rfl, rfl, _⟩ := maps.same keeps
  exact ⟨context, frame, waiting, reached, _, others, keeps, returns, rfl, stored, copied, blank⟩

end Evm
