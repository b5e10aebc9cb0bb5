import Evm.Proofs.Operands
import Evm.Proofs.Recall
import Evm.Proofs.Turns

/-!
# What operations do to their frame

By its operands alone it is told which ranges of memory an operation reaches, what it stores there
and what it reads, what it is charged for growth, and how many words it takes and gives.
-/

namespace Evm

open Instruction

variable {σ : Type}

def Frame.range (frame : Frame) (offset size : Nat) : Nat × Nat :=
  ((frame.operand offset).toNat, (frame.operand size).toNat)

namespace Memory

def expandAll (memory : Memory) (ranges : List (Nat × Nat)) : Memory :=
  ranges.foldl (fun memory range => memory.expand range.1 range.2) memory

@[simp] theorem expandAll_nil (memory : Memory) : memory.expandAll [] = memory := rfl

@[simp] theorem expandAll_cons (memory : Memory) (range : Nat × Nat) (ranges : List (Nat × Nat)) :
    memory.expandAll (range :: ranges) = (memory.expand range.1 range.2).expandAll ranges := rfl

structure Stores (memory : Memory) (offset : Nat) (bytes : Bytes) (updated : Memory) : Prop where
  size_eq : updated.size = memory.size
  bytes_eq : updated.bytes = memory.bytes.write offset bytes

namespace Stores

variable {memory updated : Memory} {offset size : Nat} {bytes : Bytes}

theorem of_store? (stores : memory.store? offset bytes = some updated) :
    memory.Stores offset bytes updated := by
  obtain ⟨rfl, covered⟩ := store?_put stores
  exact ⟨size_put .., bytes_put covered⟩

theorem of_copyFrom? {source : Bytes} {start : Word}
    (copies : memory.copyFrom? offset source start size = some updated) :
    memory.Stores offset ((ByteMap.ofBytes source).read start.toNat size) updated := by
  unfold copyFrom? at copies
  split at copies
  · cases copies
    subst size
    exact ⟨rfl, (ByteMap.write_empty ..).symm⟩
  · rw [ByteMap.window_eq_read] at copies
    exact of_store? copies

theorem of_copyWithin? {source target : Nat}
    (copies : memory.copyWithin? source target size = some updated) :
    memory.Stores target (memory.bytes.read source size) updated := by
  unfold copyWithin? at copies
  split at copies
  · cases copies
    subst size
    exact ⟨rfl, (ByteMap.write_empty ..).symm⟩
  · obtain ⟨bytes, reads, stores⟩ := Option.bind_eq_some_iff.mp copies
    rw [← read?_read reads]
    exact of_store? stores

end Stores

theorem Names.start {offset size : Word} {range : Nat × Nat} (names : Names offset size range)
    (other : size.toNat ≠ 0) : range.1 = offset.toNat :=
  names.start_eq (names.size_eq ▸ other)

theorem Names.furthest {α : Type} {first second size : Word} {one two : Nat × Nat}
    (names : Names first size one) (names' : Names second size two) {f : Nat → Nat → α}
    (empty : ∀ offset offset', f offset 0 = f offset' 0) :
    f (max one.1 two.1) one.2 = f (max first.toNat second.toNat) size.toNat := by
  by_cases none : size.toNat = 0
  · rw [names.size_eq, none]
    exact empty ..
  · rw [names.start none, names'.start none, names.size_eq]

theorem size_expand_max (memory : Memory) (first second size : Nat) :
    (memory.expand (max first second) size).size =
      ((memory.expand first size).expand second size).size := by
  simp only [size_expand]
  split
  · rfl
  · unfold wordCount
    omega

theorem Names.within {offset size : Word} {range : Nat × Nat} (names : Names offset size range)
    (other : size.toNat ≠ 0) : offset.toNat + size.toNat ≤ memoryLimit := by
  have end_le := names.end_le
  rw [← names.size_eq] at other ⊢
  rwa [← names.start_eq other]

theorem Names.write {offset size : Word} {range : Nat × Nat} (names : Names offset size range)
    (map source : ByteMap) (start : Nat) :
    map.write range.1 (source.read start range.2) =
      map.write offset.toNat (source.read start size.toNat) := by
  refine names.apply (f := fun offset size => map.write offset (source.read start size)) ?_
  intro one two
  simp only [ByteMap.read_zero, ByteMap.write_empty]

end Memory

namespace Operation

def callValue (mode : CallMode) (frame : Frame) : Word :=
  if mode.hasValue then frame.operand 2 else 0

def callRanges (mode : CallMode) : Nat := if mode.hasValue then 3 else 2

def ranges (frame : Frame) : Operation → List (Nat × Nat)
  | .keccak | .log _ | .ret | .revert => [frame.range 0 1]
  | .copy _ | .returnDataCopy => [frame.range 0 2]
  | .externalCodeCopy => [frame.range 1 3]
  | .memoryLoad | .memoryStore => [((frame.operand 0).toNat, 32)]
  | .memoryStore8 => [((frame.operand 0).toNat, 1)]
  | .memoryCopy => [frame.range 0 2, frame.range 1 2]
  | .create _ => [frame.range 1 2]
  | .call mode =>
    let first := callRanges mode
    [frame.range first (first + 1), frame.range (first + 2) (first + 3)]
  | _ => []

def reaches : Operation → Bool
  | .keccak | .log _ | .ret | .revert | .copy _ | .returnDataCopy | .externalCodeCopy => true
  | .memoryLoad | .memoryStore | .memoryStore8 | .memoryCopy | .create _ | .call _ => true
  | _ => false

/-- What the operation is charged for the growth of the memory. For two ranges that is one charge:
a copy within the memory is charged for the one that starts later, a call for the dearer one. -/
def growth (fork : Fork) (frame : Frame) : Operation → Nat
  | .memoryCopy =>
    frame.memory.expansionPrice fork (max (frame.operand 0).toNat (frame.operand 1).toNat)
      (frame.operand 2).toNat
  | .call mode =>
    let first := callRanges mode
    let input := frame.range first (first + 1)
    let room := frame.range (first + 2) (first + 3)
    max (frame.memory.expansionPrice fork input.1 input.2)
      (frame.memory.expansionPrice fork room.1 room.2)
  | operation =>
    (operation.ranges frame).foldr
      (fun range sum => frame.memory.expansionPrice fork range.1 range.2 + sum) 0

/-- What an operation that can reach memory costs beside growth and the gas it gives along. -/
def ownPrice (fork : Fork) (view : View) (frame : Frame) : Operation → Nat
  | .keccak => fork.fee .keccak + fork.fee .keccakWord * wordCount (frame.operand 1).toNat
  | .log count =>
    fork.fee .log + fork.fee .logTopic * count.val + fork.fee .logData * (frame.operand 1).toNat
  | .copy _ | .returnDataCopy | .memoryCopy => copyPrice fork .veryLow (frame.operand 2).toNat
  | .externalCodeCopy =>
    copyPrice fork .extCodeCopy (frame.operand 3).toNat +
      fork.surcharge (view.isWarm (frame.address 0)) .coldAccountAccess (fork.fee .warmAccess)
  | .memoryLoad | .memoryStore | .memoryStore8 => fork.fee .veryLow
  | .create salted => createPrice fork salted (frame.operand 2).toNat
  | .call mode =>
    let value := callValue mode frame
    let creates := mode = .call ∧ (view.account (frame.address 1)).isEmpty
    fork.fee .call +
      fork.surcharge (view.isWarm (frame.address 1)) .coldAccountAccess (fork.fee .warmAccess) +
        if value = 0 then 0
        else fork.fee .callValue + if creates then fork.fee .newAccount else 0
  | _ => 0

/-- Gas that a call gives along and its frame does not pay. -/
def gift (fork : Fork) (frame : Frame) : Operation → Nat
  | .call mode => Instruction.stipend fork (callValue mode frame)
  | _ => 0

def effect (context : Context) (view : View) (frame : Frame) (map : ByteMap) :
    Operation → ByteMap
  | .memoryStore => map.write (frame.operand 0).toNat (frame.operand 1).toBytes
  | .memoryStore8 => map.write (frame.operand 0).toNat #[(frame.operand 1).byteAt 31]
  | .copy source =>
    map.write (frame.operand 0).toNat
      ((ByteMap.ofBytes (copySource context source)).read (frame.operand 1).toNat
        (frame.operand 2).toNat)
  | .externalCodeCopy =>
    map.write (frame.operand 1).toNat
      ((ByteMap.ofBytes (view.code (frame.address 0))).read (frame.operand 2).toNat
        (frame.operand 3).toNat)
  | .returnDataCopy =>
    map.write (frame.operand 0).toNat
      ((ByteMap.ofBytes frame.returnData).read (frame.operand 1).toNat (frame.operand 2).toNat)
  | .memoryCopy =>
    map.write (frame.operand 0).toNat
      (map.read (frame.operand 1).toNat (frame.operand 2).toNat)
  | _ => map

/-- What the operation takes from the bytes of the memory, and where it leaves that. -/
def Reads (context : Context) (frame left : Frame) (control : Control) (map : ByteMap) :
    Operation → Prop
  | .memoryLoad =>
    left.stack.words.head? = some (Word.ofBytes (map.read (frame.operand 0).toNat 32))
  | .keccak =>
    left.stack.words.head? =
      some (keccakWord (map.read (frame.operand 0).toNat (frame.operand 1).toNat))
  | .log count =>
    left.logs = frame.logs.push
      { address := context.self
        topics := (List.range count).map fun index => frame.operand (index + 2)
        data := map.read (frame.operand 0).toNat (frame.operand 1).toNat }
  | .ret | .revert =>
    left.output = map.read (frame.operand 0).toNat (frame.operand 1).toNat
  | .create _ => ∀ nested, control = .call nested →
    nested.message.code = map.read (frame.operand 1).toNat (frame.operand 2).toNat
  | .call mode => ∀ nested, control = .call nested →
    let first := callRanges mode
    nested.message.data = map.read (frame.operand first).toNat (frame.operand (first + 1)).toNat ∧
      ∃ room checkpoint, nested.resumption.receiver = .call room.1 room.2 checkpoint ∧
        Memory.Names (frame.operand (first + 2)) (frame.operand (first + 3)) room
  | _ => True

/-- What an operation that went through has done to its frame. -/
structure Footprint (fork : Fork) (context : Context) (view : View) (operation : Operation)
    (frame left : Frame) (control : Control) : Prop where
  words : ∃ given, left.stack.words = given ++ frame.stack.words.drop operation.inputs ∧
    given.length + control.owed = operation.outputs
  within : ∀ range ∈ operation.ranges frame, range.2 ≠ 0 → range.1 + range.2 ≤ memoryLimit
  size_eq : left.memory.size = (frame.memory.expandAll (operation.ranges frame)).size
  bytes_eq : left.memory.bytes = operation.effect context view frame frame.memory.bytes
  reads : operation.Reads context frame left control frame.memory.bytes
  pays : ∃ own, left.gas.used + operation.gift fork frame =
      frame.gas.used + own + operation.growth fork frame + control.given ∧
    operation.gift fork frame ≤ own ∧
    (operation.reaches → own = operation.ownPrice fork view frame)
  asks : ∀ nested, control = .call nested → nested.resumption.gas = nested.message.gasLimit

theorem idle {operation : Operation} (idle : operation.reaches = false) (fork : Fork)
    (context : Context) (view : View) (frame left : Frame) (control : Control) (map : ByteMap) :
    operation.ranges frame = [] ∧ operation.growth fork frame = 0 ∧
      operation.effect context view frame map = map ∧ operation.gift fork frame = 0 ∧
      operation.Reads context frame left control map := by
  cases operation <;> simp_all [reaches, ranges, growth, effect, gift, Reads]

theorem Plain.footprint {operation : Operation} {frame left : Frame} {control : Control}
    (plain : operation.Plain frame left) (fork : Fork) (context : Context) (view : View)
    (rests : operation.reaches = false) (goes : control.owed = 0) :
    operation.Footprint fork context view frame left control := by
  obtain ⟨given, spent, gives, stand⟩ := plain
  have given_eq := control.given_of_owed goes
  obtain ⟨ranges, growth, effect, gift, reads⟩ :=
    idle rests fork context view frame left control frame.memory.bytes
  constructor
  · exact ⟨given, stand.words_eq, by rw [goes]; exact gives⟩
  · simp [ranges]
  · rw [stand.memory_eq, ranges, Memory.expandAll_nil]
  · rw [stand.memory_eq, effect]
  · exact reads
  · refine ⟨spent, ?_, ?_, fun reaches => absurd reaches (by simp [rests])⟩
    · rw [stand.used_eq, given_eq, growth, gift]
    · rw [gift]
      exact Nat.zero_le _
  · rintro nested rfl
    cases goes

/-- An operation that goes on by itself, and grows the memory for the one range that it reaches. -/
theorem Footprint.of_range {operation : Operation} {frame left : Frame} {control : Control}
    {fork : Fork} {context : Context} {view : View} {given : List Word} {memory : Memory}
    {offset size : Nat} (lists : operation.ranges frame = [(offset, size)])
    (grows : operation.growth fork frame = frame.memory.expansionPrice fork offset size)
    (free : operation.gift fork frame = 0) (goes : control.owed = 0)
    (within : size ≠ 0 → offset + size ≤ memoryLimit)
    (words_eq : left.stack.words = given ++ frame.stack.words.drop operation.inputs)
    (used_eq : left.gas.used = frame.gas.used +
      (0 + operation.ownPrice fork view frame + frame.memory.expansionPrice fork offset size))
    (memory_eq : left.memory = memory)
    (gives : given.length = operation.outputs)
    (size_eq : memory.size = (frame.memory.expand offset size).size)
    (bytes_eq : memory.bytes = operation.effect context view frame frame.memory.bytes)
    (reads : operation.Reads context frame left control frame.memory.bytes) :
    operation.Footprint fork context view frame left control := by
  have given_eq := control.given_of_owed goes
  constructor
  · exact ⟨given, words_eq, by rw [goes]; exact gives⟩
  · rw [lists]
    exact List.forall_mem_singleton.mpr within
  · rw [memory_eq, lists, size_eq]
    rfl
  · rw [memory_eq, bytes_eq]
  · exact reads
  · refine ⟨_, ?_, ?_, fun _ => rfl⟩
    · rw [used_eq, free, given_eq, grows]
      omega
    · rw [free]
      exact Nat.zero_le _
  · rintro nested rfl
    cases goes

end Operation

namespace Host

variable {host after : Host σ} {address : Address}

theorem store_read_ok {α : Type} {query : World → Except Failure α} {value : α}
    (runs : Host.onStore (Store.read query) host = .ok value after) :
    query host.store.world = .ok value := by
  unfold Host.onStore at runs
  cases reads : Store.read query host.store with
  | error failure store =>
    simp only [reads] at runs
    cases runs
  | ok found store =>
    simp only [reads] at runs
    cases runs
    exact (Store.read_ok reads).1

theorem code_ok {code : Bytes} (runs : Host.code address host = .ok code after) :
    code = host.view.code address := by
  cases World.of_check (store_read_ok runs)
  rfl

theorem account_ok {account : Account} (runs : Host.account address host = .ok account after) :
    account = host.view.account address := by
  cases World.of_check (store_read_ok runs)
  rfl

end Host

@[simp] theorem View.touch_code (fork : Fork) (view : View) (address : Address) :
    (view.touch fork address).code = view.code := by
  unfold touch
  split <;> rfl

namespace Instruction

open FrameM.Does hiding bind

variable {fork : Fork} {frame : Frame}

variable {context : Context} {view : View}

theorem keccak_does (fits : Operation.keccak.Fits frame.stack) :
    (keccak fork).Does frame fun _ left =>
      Operation.keccak.Footprint fork context view frame left .next := by
  have enough : 2 ≤ frame.stack.size := fits.enough
  refine .bind (pop (.begin frame) (by omega) fun _ stand => ?_)
  refine .bind (pop stand (by omega) fun _ stand => ?_)
  refine .bind (region fun range names => ?_)
  refine .bind (charge stand fun _ stand => ?_)
  refine .bind (expand stand fun _ stand => ?_)
  refine .bind (readMemory stand ?_)
  refine push stand fits.room fun left stand => ?_
  rw [Memory.bytes_expand, names.read, names.expand, names.expansionPrice, names.size_eq] at stand
  refine .of_range rfl rfl rfl rfl names.within stand.words_eq stand.used_eq stand.memory_eq rfl rfl
    (Memory.bytes_expand ..) ?_
  show left.stack.words.head? = _
  rw [stand.words_eq]
  rfl

theorem copy_does {source : CopySource} (fits : (Operation.copy source).Fits frame.stack) :
    (copy fork (copySource context source)).Does frame fun _ left =>
      (Operation.copy source).Footprint fork context view frame left .next := by
  have enough : 3 ≤ frame.stack.size := fits.enough
  refine .bind (pop (.begin frame) (by omega) fun _ stand => ?_)
  refine .bind (pop stand (by omega) fun _ stand => ?_)
  refine .bind (pop stand (by omega) fun _ stand => ?_)
  refine .bind (region fun range names => ?_)
  refine .bind (charge stand fun _ stand => ?_)
  refine .bind (expand stand fun _ stand => ?_)
  refine updateMemory stand fun updated left copies stand => ?_
  have stores := Memory.Stores.of_copyFrom? copies
  rw [names.expand] at stores
  rw [names.expansionPrice, names.size_eq] at stand
  refine .of_range rfl rfl rfl rfl names.within stand.words_eq stand.used_eq stand.memory_eq rfl
    stores.size_eq ?_ trivial
  rw [stores.bytes_eq, Memory.bytes_expand, names.write]
  rfl

theorem returnDataCopy_does (fits : Operation.returnDataCopy.Fits frame.stack) :
    (returnDataCopy fork).Does frame fun _ left =>
      Operation.returnDataCopy.Footprint fork context view frame left .next := by
  have enough : 3 ≤ frame.stack.size := fits.enough
  refine .bind (pop (.begin frame) (by omega) fun _ stand => ?_)
  refine .bind (pop stand (by omega) fun _ stand => ?_)
  refine .bind (pop stand (by omega) fun _ stand => ?_)
  refine .bind (current (.bind (faultIf rfl fun inside => ?_)))
  refine .bind (region fun range names => ?_)
  refine .bind (charge stand fun _ stand => ?_)
  refine .bind (expand stand fun between stand => ?_)
  refine .bind (current (.bind (assured fun bytes cuts => ?_)))
  refine updateMemory stand fun updated left stores stand' => ?_
  have cut : bytes = (ByteMap.ofBytes frame.returnData).read (frame.operand 1).toNat range.2 := by
    have size_eq : range.2 = (frame.operand 2).toNat := names.size_eq
    simp only [slice?, stand.returnData_eq, size_eq, Nat.reduceAdd,
      Nat.add_sub_cancel_right] at cuts
    split at cuts <;> cases cuts
    rw [size_eq]
    exact ByteMap.extract_eq_read (‹_ ∧ _›).2 _ rfl
  subst cut
  have stores := Memory.Stores.of_store? stores
  rw [names.expand] at stores
  rw [names.expansionPrice, names.size_eq] at stand'
  refine .of_range rfl rfl rfl rfl names.within stand'.words_eq stand'.used_eq stand'.memory_eq
    rfl stores.size_eq ?_ trivial
  rw [stores.bytes_eq, Memory.bytes_expand, names.write]
  rfl

theorem memoryLoad_does (fits : Operation.memoryLoad.Fits frame.stack) :
    (memoryLoad fork).Does frame fun _ left =>
      Operation.memoryLoad.Footprint fork context view frame left .next := by
  have enough : 1 ≤ frame.stack.size := fits.enough
  refine .bind (charge (.begin frame) fun _ stand => ?_)
  refine .bind (pop stand (by omega) fun _ stand => ?_)
  refine .bind (region fun range names => ?_)
  refine .bind (expand stand fun between stand => ?_)
  refine .bind (current (.bind (assured fun word loads => ?_)))
  refine push stand fits.room fun left stand' => ?_
  rw [stand.memory_eq] at loads
  rw [names.start (by decide)] at stand' loads
  obtain ⟨bytes, reads, rfl⟩ := Option.map_eq_some_iff.mp loads
  refine .of_range rfl rfl rfl rfl names.within stand'.words_eq stand'.used_eq stand'.memory_eq
    rfl rfl (Memory.bytes_expand ..) ?_
  show left.stack.words.head? = _
  rw [stand'.words_eq, Memory.read?_read reads, Memory.bytes_expand]
  rfl

theorem storeMemory_does {operation : Operation} {popped : Frame} {offset size : Word}
    {bytes : Bytes} (other : size.toNat ≠ 0)
    (stand : Stand frame operation.inputs [] (0 + operation.ownPrice fork view frame)
      frame.memory popped)
    (lists : operation.ranges frame = [(offset.toNat, size.toNat)])
    (grows : operation.growth fork frame =
      frame.memory.expansionPrice fork offset.toNat size.toNat)
    (free : operation.gift fork frame = 0) (gives : operation.outputs = 0)
    (writes : operation.effect context view frame frame.memory.bytes =
      frame.memory.bytes.write offset.toNat bytes)
    (reads : ∀ left, operation.Reads context frame left .next frame.memory.bytes) :
    (do
      let (offset, _) ← FrameM.region offset size
      FrameM.expand fork offset size.toNat
      FrameM.storeMemory offset bytes : FrameM Unit).Does popped fun _ left =>
        operation.Footprint fork context view frame left .next := by
  refine .bind (region fun range names => ?_)
  refine .bind (expand stand fun between stand => ?_)
  refine updateMemory stand fun updated left stores stand => ?_
  rw [names.start other] at stand stores
  have stores := Memory.Stores.of_store? stores
  refine .of_range lists grows free rfl names.within stand.words_eq stand.used_eq stand.memory_eq
    gives.symm stores.size_eq ?_ (reads left)
  rw [stores.bytes_eq, Memory.bytes_expand, writes]

theorem memoryStore_does (fits : Operation.memoryStore.Fits frame.stack) :
    (memoryStore fork).Does frame fun _ left =>
      Operation.memoryStore.Footprint fork context view frame left .next := by
  have enough : 2 ≤ frame.stack.size := fits.enough
  refine .bind (charge (.begin frame) fun _ stand => ?_)
  refine .bind (pop stand (by omega) fun _ stand => ?_)
  refine .bind (pop stand (by omega) fun _ stand => ?_)
  exact storeMemory_does (by decide) stand rfl rfl rfl rfl rfl fun _ => trivial

theorem memoryStore8_does (fits : Operation.memoryStore8.Fits frame.stack) :
    (memoryStore8 fork).Does frame fun _ left =>
      Operation.memoryStore8.Footprint fork context view frame left .next := by
  have enough : 2 ≤ frame.stack.size := fits.enough
  refine .bind (charge (.begin frame) fun _ stand => ?_)
  refine .bind (pop stand (by omega) fun _ stand => ?_)
  refine .bind (pop stand (by omega) fun _ stand => ?_)
  exact storeMemory_does (by decide) stand rfl rfl rfl rfl rfl fun _ => trivial

theorem log_does {count : Fin 5} (fits : (Operation.log count).Fits frame.stack) :
    (log fork context count).Does frame fun _ left =>
      (Operation.log count).Footprint fork context view frame left .next := by
  have enough : count.val + 2 ≤ frame.stack.size := fits.enough
  refine .bind (faultIf rfl fun mutable => ?_)
  refine .bind (pop (.begin frame) (by omega) fun _ stand => ?_)
  refine .bind (pop stand (by omega) fun _ stand => ?_)
  refine .bind (region fun range names => ?_)
  refine .bind (popMany count.val stand (by omega) fun _ stand => ?_)
  refine .bind (charge stand fun _ stand => ?_)
  refine .bind (expand stand fun expanded stand => ?_)
  refine .bind (readMemory stand (update ?_))
  have words_eq := stand.words_eq
  rw [show 0 + 1 + 1 + count.val = count.val + 2 by omega] at words_eq
  rw [Memory.bytes_expand, names.read, stand.logs_eq]
  rw [names.expand, names.expansionPrice, names.size_eq] at stand
  exact .of_range rfl rfl rfl rfl names.within words_eq stand.used_eq stand.memory_eq rfl rfl
    (Memory.bytes_expand ..) rfl

theorem finish_does {operation : Operation} {control : Control}
    (ends : operation = .ret ∨ operation = .revert) (fits : operation.Fits frame.stack)
    (goes : control.owed = 0) :
    (finish fork control).Does frame fun made left =>
      operation.Footprint fork context view frame left made := by
  have enough : 2 ≤ frame.stack.size := by rcases ends with rfl | rfl <;> exact fits.enough
  refine .bind (pop (.begin frame) (by omega) fun _ stand => ?_)
  refine .bind (pop stand (by omega) fun _ stand => ?_)
  refine .bind (region fun range names => ?_)
  refine .bind (expand stand fun _ stand => ?_)
  refine .bind (readMemory stand (.bind (update (done ?_))))
  rw [Memory.bytes_expand, names.read]
  rw [names.expand, names.expansionPrice] at stand
  rcases ends with rfl | rfl <;>
    exact .of_range rfl rfl rfl goes names.within stand.words_eq stand.used_eq stand.memory_eq rfl
      rfl (Memory.bytes_expand ..) rfl

theorem memoryCopy_does (fits : Operation.memoryCopy.Fits frame.stack) :
    (memoryCopy fork).Does frame fun _ left =>
      Operation.memoryCopy.Footprint fork context view frame left .next := by
  have enough : 3 ≤ frame.stack.size := fits.enough
  refine .bind (pop (.begin frame) (by omega) fun _ stand => ?_)
  refine .bind (pop stand (by omega) fun _ stand => ?_)
  refine .bind (pop stand (by omega) fun _ stand => ?_)
  refine .bind (region fun target writes => ?_)
  refine .bind (region fun source reads => ?_)
  refine .bind (charge stand fun _ stand => ?_)
  refine .bind (expand stand fun _ stand => ?_)
  refine updateMemory stand fun updated left copies stand => ?_
  have stores := Memory.Stores.of_copyWithin? copies
  have written := writes.write frame.memory.bytes frame.memory.bytes (frame.operand 1).toNat
  rw [writes.size_eq] at written
  rw [Memory.bytes_expand, reads.read] at stores
  constructor
  · exact ⟨[], stand.words_eq, rfl⟩
  · exact List.forall_mem_cons.mpr ⟨writes.within, List.forall_mem_singleton.mpr reads.within⟩
  · have grown := writes.furthest reads fun offset offset' =>
      (rfl : frame.memory.expand offset 0 = frame.memory.expand offset' 0)
    rw [stand.memory_eq, stores.size_eq, grown, Memory.size_expand_max]
    rfl
  · rw [stand.memory_eq, stores.bytes_eq, Memory.bytes_expand]
    exact written
  · trivial
  · refine ⟨_, ?_, Nat.zero_le _, fun _ => rfl⟩
    have price_eq := writes.furthest reads fun offset offset' =>
      (by simp [Memory.expansionPrice] : frame.memory.expansionPrice fork offset 0 =
        frame.memory.expansionPrice fork offset' 0)
    rw [stand.used_eq, price_eq, reads.size_eq]
    simp only [Operation.gift, Operation.ownPrice, Operation.growth, Control.given,
      Nat.reduceAdd]
    omega
  · rintro _ ⟨⟩

variable {host : Host σ}

theorem externalCodeCopy_does (fits : Operation.externalCodeCopy.Fits frame.stack) :
    (externalCodeCopy fork).Does frame host fun _ left _ =>
      Operation.externalCodeCopy.Footprint fork context host.view frame left .next := by
  have enough : 4 ≤ frame.stack.size := fits.enough
  refine .bind (.lift (popAddress (.begin frame) (by omega) fun _ stand => ?_))
  refine .bind (.lift (pop stand (by omega) fun _ stand => ?_))
  refine .bind (.lift (pop stand (by omega) fun _ stand => ?_))
  refine .bind (.lift (pop stand (by omega) fun _ stand => ?_))
  refine .bind (.lift (region fun range names => ?_))
  refine .bind (.serve fun access touched touches => ?_)
  refine .bind (.lift (charge stand fun _ stand => ?_))
  refine .bind (.lift (expand stand fun _ stand => ?_))
  refine .bind (.serve fun code read reads => .lift ?_)
  refine updateMemory stand fun updated left copies stand => ?_
  have stores := Memory.Stores.of_copyFrom? copies
  obtain ⟨rfl, shows⟩ := Host.accessAddress_shows touches
  obtain rfl := Host.code_ok reads
  rw [names.expand] at stores
  rw [names.expansionPrice, names.size_eq] at stand
  refine .of_range rfl rfl rfl rfl names.within stand.words_eq stand.used_eq stand.memory_eq rfl
    stores.size_eq ?_ trivial
  rw [stores.bytes_eq, Memory.bytes_expand, names.write, shows.view_eq, View.touch_code]
  rfl

end Instruction

end Evm
