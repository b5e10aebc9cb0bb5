import Evm.Proofs.Books
import Evm.Proofs.Checks
import Mathlib.Data.List.Perm.Basic

/-!
# What memory costs

Growth is charged by what the price of the memory rises. So the charges of a frame sum up to the
price of the memory that it has, which is what the furthest of the ranges needs that it has reached:
their order does not count, nor how they overlap, and where one charge stands for two ranges it is
what both would be charged in turn. The sum stays spent when a nested message gives gas back.
-/

namespace Evm

open Execution

variable {σ : Type}

namespace Memory

variable {fork : Fork} {memory : Memory}

def stop (range : Nat × Nat) : Nat := if range.2 = 0 then 0 else range.1 + range.2

def reach (ranges : List (Nat × Nat)) : Nat := (ranges.map stop).foldr max 0

def priceAll (fork : Fork) : Memory → List (Nat × Nat) → Nat
  | _, [] => 0
  | memory, range :: ranges =>
    memory.expansionPrice fork range.1 range.2 +
      priceAll fork (memory.expand range.1 range.2) ranges

@[simp] theorem reach_nil : reach [] = 0 := rfl

@[simp] theorem reach_cons (range : Nat × Nat) (ranges : List (Nat × Nat)) :
    reach (range :: ranges) = max (stop range) (reach ranges) := rfl

theorem reach_append (one two : List (Nat × Nat)) :
    reach (one ++ two) = max (reach one) (reach two) := by
  induction one with
  | nil => exact (Nat.zero_max _).symm
  | cons range one ih => rw [List.cons_append, reach_cons, ih, reach_cons, Nat.max_assoc]

theorem reach_perm {one two : List (Nat × Nat)} (perm : one.Perm two) : reach one = reach two :=
  (perm.map stop).foldr_eq 0

theorem reach_le {ranges : List (Nat × Nat)} {limit : Nat}
    (within : ∀ range ∈ ranges, range.2 ≠ 0 → range.1 + range.2 ≤ limit) :
    reach ranges ≤ limit := by
  induction ranges with
  | nil => exact Nat.zero_le _
  | cons range ranges ih =>
    obtain ⟨first, others⟩ := List.forall_mem_cons.mp within
    rw [reach_cons, Nat.max_le]
    refine ⟨?_, ih others⟩
    unfold stop
    split
    · exact Nat.zero_le _
    · exact first ‹_›

theorem wordCount_max (one two : Nat) :
    wordCount (max one two) = max (wordCount one) (wordCount two) := by
  unfold wordCount
  omega

theorem size_expand_stop (memory : Memory) (range : Nat × Nat) :
    (memory.expand range.1 range.2).size = max memory.size (32 * wordCount (stop range)) := by
  rw [size_expand]
  unfold stop
  split
  · exact (Nat.max_zero _).symm
  · rfl

theorem size_expandAll (memory : Memory) (ranges : List (Nat × Nat)) :
    (memory.expandAll ranges).size = max memory.size (32 * wordCount (reach ranges)) := by
  induction ranges generalizing memory with
  | nil => exact (Nat.max_zero _).symm
  | cons range ranges ih =>
    rw [expandAll_cons, ih, size_expand_stop, reach_cons, wordCount_max]
    omega

theorem expansionPrice_add (fork : Fork) (memory : Memory) (range : Nat × Nat) :
    memory.expansionPrice fork range.1 range.2 + price fork (memory.size / 32) =
      price fork ((memory.expand range.1 range.2).size / 32) := by
  rw [size_expand]
  unfold expansionPrice
  by_cases covered : range.2 = 0 ∨ wordCount (range.1 + range.2) ≤ memory.size / 32
  · rw [if_pos covered, Nat.zero_add]
    split
    · rfl
    · congr 1
      omega
  · rw [not_or] at covered
    have rises := price_mono fork (Nat.le_of_not_ge covered.2)
    have words : max memory.size (32 * wordCount (range.1 + range.2)) / 32 =
      wordCount (range.1 + range.2) := by omega
    rw [if_neg (not_or.mpr covered), if_neg covered.1, words]
    omega

theorem priceAll_add (fork : Fork) (memory : Memory) (ranges : List (Nat × Nat)) :
    memory.priceAll fork ranges + price fork (memory.size / 32) =
      price fork ((memory.expandAll ranges).size / 32) := by
  induction ranges generalizing memory with
  | nil => exact Nat.zero_add _
  | cons range ranges ih =>
    have first := expansionPrice_add fork memory range
    have others := ih (memory.expand range.1 range.2)
    rw [expandAll_cons, priceAll]
    omega

/-- Two words are paid for, and a range within them is free. -/
example : Memory.empty.priceAll .berlin [(0, 40), (16, 8)] = 6 := by decide

theorem ext_bytes {one two : Memory} (sizes : one.size = two.size) (bytes : one.bytes = two.bytes) :
    one = two := by
  obtain ⟨one⟩ := one
  obtain ⟨two⟩ := two
  congr 1
  refine Array.ext sizes fun index inside inside' => ?_
  have same := congrFun bytes index
  simp only [Memory.bytes, ByteMap.ofBytes, Array.getElem?_eq_getElem inside,
    Array.getElem?_eq_getElem inside', Option.getD_some] at same
  exact same

@[simp] theorem bytes_expandAll (memory : Memory) (ranges : List (Nat × Nat)) :
    (memory.expandAll ranges).bytes = memory.bytes := by
  induction ranges generalizing memory with
  | nil => rfl
  | cons range ranges ih => rw [expandAll_cons, ih, bytes_expand]

/-- What is charged for ranges, and what they make of the memory, is a matter of their furthest
end. -/
theorem expandAll_of_reach (fork : Fork) (memory : Memory) {one two : List (Nat × Nat)}
    (same : reach one = reach two) :
    memory.expandAll one = memory.expandAll two ∧
      memory.priceAll fork one = memory.priceAll fork two := by
  have grown : memory.expandAll one = memory.expandAll two :=
    ext_bytes (by simp only [size_expandAll, same]) (by simp only [bytes_expandAll])
  refine ⟨grown, ?_⟩
  have first := priceAll_add fork memory one
  have second := priceAll_add fork memory two
  rw [← grown] at second
  omega

theorem expand_max (fork : Fork) (memory : Memory) (first second size : Nat) :
    memory.expand (max first second) size = memory.expandAll [(first, size), (second, size)] ∧
      memory.expansionPrice fork (max first second) size =
        memory.priceAll fork [(first, size), (second, size)] := by
  have same : reach [(max first second, size)] = reach [(first, size), (second, size)] := by
    simp only [reach_cons, reach_nil, stop]
    split <;> omega
  exact expandAll_of_reach fork memory same

theorem max_expansionPrice (fork : Fork) (memory : Memory) (one two : Nat × Nat) :
    max (memory.expansionPrice fork one.1 one.2) (memory.expansionPrice fork two.1 two.2) =
      memory.priceAll fork [one, two] := by
  have first := expansionPrice_add fork memory one
  have second := expansionPrice_add fork memory two
  have both := priceAll_add fork memory [one, two]
  rw [size_expand_stop] at first second
  rw [size_expandAll, reach_cons, reach_cons, reach_nil, Nat.max_zero, wordCount_max] at both
  -- The range that ends later is the dearer one, and the other is free once that is paid.
  obtain le | le := Nat.le_total (wordCount (stop one)) (wordCount (stop two))
  · have rises := price_mono fork (show max memory.size (32 * wordCount (stop one)) / 32 ≤
      max memory.size (32 * wordCount (stop two)) / 32 by omega)
    rw [Nat.max_eq_right le] at both
    omega
  · have rises := price_mono fork (show max memory.size (32 * wordCount (stop two)) / 32 ≤
      max memory.size (32 * wordCount (stop one)) / 32 by omega)
    rw [Nat.max_eq_left le] at both
    omega

end Memory

/-- An operation is charged what it would be charged for its ranges in turn. -/
theorem Operation.growth_eq (operation : Operation) (fork : Fork) (frame : Frame) :
    operation.growth fork frame = frame.memory.priceAll fork (operation.ranges frame) := by
  cases operation with
  | memoryCopy => exact (Memory.expand_max fork frame.memory _ _ _).2
  | call mode => exact Memory.max_expansionPrice fork frame.memory _ _
  | _ => rfl

/-- What a frame was charged for its memory, and the ranges that it has reached. -/
structure Toll where
  paid : Nat
  touched : List (Nat × Nat)

def Toll.after (toll : Toll) (fork : Fork) (frame : Frame) (operation : Operation) : Toll :=
  ⟨toll.paid + operation.growth fork frame, toll.touched ++ operation.ranges frame⟩

/-- The toll of each frame. The answer to a nested message does not add to it. -/
def tollBook (fork : Fork) : Book σ Toll where
  opened := ⟨0, []⟩
  turned context frame _ toll :=
    (context.operation? fork frame).elim toll (toll.after fork frame)
  answered _ _ toll := toll

/-- The memory is what the ranges need that were reached, and its price is what was paid. -/
structure Toll.Settles (toll : Toll) (fork : Fork) (memory : Memory) : Prop where
  whole : 32 ∣ memory.size
  le_limit : memory.size ≤ memoryLimit
  size_eq : memory.size = 32 * wordCount (Memory.reach toll.touched)
  paid_eq : toll.paid = Memory.price fork (memory.size / 32)

namespace Toll

variable {fork : Fork} {toll : Toll}

theorem settles_start (fork : Fork) : Settles ⟨0, []⟩ fork .empty :=
  ⟨⟨0, rfl⟩, Nat.zero_le _, rfl, by simp [Memory.price, Memory.empty, Memory.size]⟩

theorem Settles.after {context : Context} {view : View} {operation : Operation}
    {frame left : Frame} {control : Control} (settles : toll.Settles fork frame.memory)
    (footprint : operation.Footprint fork context view frame left control) :
    (toll.after fork frame operation).Settles fork left.memory := by
  have within := Memory.reach_le footprint.within
  have size_eq := footprint.size_eq
  have grown := Memory.priceAll_add fork frame.memory (operation.ranges frame)
  rw [← size_eq, ← operation.growth_eq] at grown
  rw [Memory.size_expandAll, settles.size_eq] at size_eq
  -- The memory covers what was reached before, so all ranges together decide its size.
  have reach_eq : left.memory.size =
      32 * wordCount (Memory.reach (toll.touched ++ operation.ranges frame)) := by
    rw [Memory.reach_append, Memory.wordCount_max, size_eq]
    omega
  have before := settles.le_limit
  rw [settles.size_eq] at before
  refine ⟨⟨_, reach_eq⟩, ?_, reach_eq, ?_⟩
  · rw [size_eq]
    unfold wordCount memoryLimit at *
    omega
  · rw [← grown, ← settles.paid_eq]
    exact Nat.add_comm ..

end Toll

variable {env : Environment σ} {context : Context} {frame left : Frame} {host : Host σ}
  {operation : Operation} {control : Control}

theorem tollBook_turned (trodden : Trodden env context frame host left control operation)
    (toll : Toll) :
    (tollBook env.fork).turned context frame host toll = toll.after env.fork frame operation := by
  simp only [tollBook, trodden.next, Option.elim]

/-- What was paid for memory stays spent, and so does what is paid for it now. -/
theorem Execution.Trodden.paid_le (trodden : Trodden env context frame host left control operation)
    {toll : Toll} (paid_le : toll.paid ≤ frame.gas.used) :
    (toll.after env.fork frame operation).paid + control.given ≤ left.gas.used := by
  obtain ⟨own, used_eq, gift_le, _⟩ := trodden.footprint.pays
  unfold Toll.after
  dsimp only
  omega

theorem toll_law (env : Environment σ) :
    Book.Law (tollBook env.fork) env
      (fun frame toll => toll.Settles env.fork frame.memory ∧ toll.paid ≤ frame.gas.used)
      (fun suspended toll => toll.Settles env.fork suspended.frame.memory ∧
        toll.paid + suspended.resumption.gas ≤ suspended.frame.gas.used) where
  opens _ _ := ⟨Toll.settles_start env.fork, Nat.zero_le _⟩
  goesOn := by
    rintro context frame host next after toll ⟨settles, paid_le⟩ turns
    obtain ⟨left, control, index, operation, trodden, _, rfl⟩ := turn_goOn_trodden turns
    rw [tollBook_turned trodden]
    have settled := settles.after trodden.footprint
    exact ⟨settled, Nat.le_of_add_right_le (trodden.paid_le paid_le)⟩
  asks := by
    rintro context frame host nested asking after toll ⟨settles, paid_le⟩ turns
    obtain ⟨left, index, operation, trodden, rfl⟩ := turn_ask_trodden turns
    rw [tollBook_turned trodden]
    have settled := settles.after trodden.footprint
    refine ⟨settled, ?_⟩
    rw [trodden.footprint.asks nested rfl]
    exact trodden.paid_le paid_le
  resumes := by
    rintro suspended result host next after toll ⟨settles, paid_le⟩ resumes
    obtain ⟨size_eq, _⟩ := resume_memory resumes
    obtain ⟨whole, le_limit, reach_eq, paid_eq⟩ := settles
    rw [← size_eq] at whole le_limit reach_eq paid_eq
    refine ⟨⟨whole, le_limit, reach_eq, paid_eq⟩, ?_⟩
    -- What comes back was set aside beside the toll.
    rw [resume_gas resumes]
    simp only [Meter.restore, tollBook]
    omega

theorem toll_finish {ended : Result} {after : Host σ} {toll : Toll}
    (settles : toll.Settles env.fork frame.memory) (paid_le : toll.paid ≤ frame.gas.used)
    (turns : turn env context frame host = .ok (.finish ended) after) :
    let last := (tollBook env.fork).turned context frame host toll
    (∃ left, ((∃ reason, ended = haltedResult left reason) ∨
        ended = revertedResult context.message left) ∧
      last.Settles env.fork left.memory ∧ last.paid ≤ left.gas.used) ∨
      ∃ cause, ended = .faulted context.message cause := by
  obtain ⟨left, ends, walked⟩ | faults := turn_finish_trodden turns
  · refine .inl ⟨left, ends, ?_⟩
    obtain ⟨past, rfl⟩ | ⟨control, operation, trodden, _⟩ := walked
    · simp only [tollBook, past, Option.elim]
      exact ⟨settles, paid_le⟩
    · rw [tollBook_turned trodden]
      exact ⟨settles.after trodden.footprint, Nat.le_of_add_right_le (trodden.paid_le paid_le)⟩
  · exact .inr faults

/-- How the frames of a run pay for their memory. -/
structure MemoryTolls (env : Environment σ) (message : Message) (pc : Nat) (host : Host σ) :
    Prop where
  counted : ∀ {execution reached}, Reaches env message pc host execution reached ↔
    ∃ tolls, (tollBook env.fork).Keeps env message pc host execution reached tolls
  /-- A toll is the price of the memory, and a part of what the frame has spent for good: a frame
  that waits has set aside beside it whatever its nested message may give back. -/
  settled : ∀ {execution reached tolls},
    (tollBook env.fork).Keeps env message pc host execution reached tolls →
    Book.Pairs (fun frame toll => toll.Settles env.fork frame.memory ∧ toll.paid ≤ frame.gas.used)
      (fun suspended toll => toll.Settles env.fork suspended.frame.memory ∧
        toll.paid + suspended.resumption.gas ≤ suspended.frame.gas.used)
      execution tolls
  ends : ∀ {context frame waiting reached toll others ended after},
    (tollBook env.fork).Keeps env message pc host (.running context frame waiting) reached
      (toll :: others) →
    turn env context frame reached = .ok (.finish ended) after →
    let last := (tollBook env.fork).turned context frame reached toll
    (∃ left, ((∃ reason, ended = haltedResult left reason) ∨
        ended = revertedResult context.message left) ∧
      last.Settles env.fork left.memory ∧ last.paid ≤ left.gas.used) ∨
      ∃ cause, ended = .faulted context.message cause
  /-- An operation is charged its growth once, beside its own price and what it gives along. -/
  charges : ∀ {context frame left control operation} {before after : Host σ},
    context.operation? env.fork frame = some operation →
    step env context frame before = .ok (control, left) after →
    ∃ own, left.gas.used + operation.gift env.fork frame =
        frame.gas.used + own + operation.growth env.fork frame + control.given ∧
      operation.gift env.fork frame ≤ own ∧
      (operation.reaches → own = operation.ownPrice env.fork before.view frame)
  /-- An operation grows the memory for its ranges, and is charged what the price rises by that. -/
  grows : ∀ {context frame left control operation} {before after : Host σ},
    context.operation? env.fork frame = some operation →
    step env context frame before = .ok (control, left) after →
    left.memory.size = (frame.memory.expandAll (operation.ranges frame)).size ∧
      frame.memory.size ≤ left.memory.size ∧
      operation.growth env.fork frame + Memory.price env.fork (frame.memory.size / 32) =
        Memory.price env.fork (left.memory.size / 32)
  rests : ∀ {suspended result next} {answered after : Host σ},
    resume env suspended result answered = .ok next after →
    next.memory.size = suspended.frame.memory.size
  inTurn : ∀ {fork} {operation : Operation} {frame : Frame},
    operation.growth fork frame = frame.memory.priceAll fork (operation.ranges frame)
  /-- A copy within the memory grows it for the range that starts later, and so for both. -/
  copies : ∀ {fork memory first second size},
    Memory.expand memory (max first second) size =
        memory.expandAll [(first, size), (second, size)] ∧
      memory.expansionPrice fork (max first second) size =
        memory.priceAll fork [(first, size), (second, size)]
  /-- A call is charged the dearer of its ranges, which is what both are charged in turn. -/
  calls : ∀ {fork memory operands}, Instruction.callExpansion fork memory operands =
    memory.priceAll fork [operands.input, operands.room]
  anyOrder : ∀ {fork memory one two},
    (List.Perm one two ∨ Memory.reach one = Memory.reach two) →
    Memory.expandAll memory one = memory.expandAll two ∧
      memory.priceAll fork one = memory.priceAll fork two

/-- Memory is paid for once, in every run. -/
theorem runMessage_paysMemory (env : Environment σ) (message : Message) (pc : Nat)
    (host : Host σ) : MemoryTolls env message pc host where
  counted := reaches_iff _
  settled keeps := keeps.pairs (toll_law env)
  ends keeps turns := by
    obtain ⟨_, _, ⟨⟩, ⟨settles, paid_le⟩, _⟩ := keeps.pairs (toll_law env)
    exact toll_finish settles paid_le turns
  charges next steps := (step_footprint next steps).2.pays
  grows := by
    intro context frame left control operation before after next steps
    have size_eq := (step_footprint next steps).2.size_eq
    have rises := Memory.priceAll_add env.fork frame.memory (operation.ranges frame)
    refine ⟨size_eq, ?_, ?_⟩
    · rw [size_eq, Memory.size_expandAll]
      exact Nat.le_max_left ..
    · rw [operation.growth_eq, rises, size_eq]
  rests resumes := (resume_memory resumes).1
  inTurn := Operation.growth_eq ..
  copies := Memory.expand_max ..
  calls := Memory.max_expansionPrice ..
  anyOrder alike := Memory.expandAll_of_reach _ _ (alike.elim Memory.reach_perm id)

/-- When the code returns, its frame has paid for two words of memory. -/
theorem runMessage_paysMemory_copying : ∃ context frame waiting reached toll others,
    (tollBook .byzantium).Keeps (.blank .byzantium) copyingMessage 0 (Host.start .empty ())
        (.running context frame waiting) reached (toll :: others) ∧
      context.operation? .byzantium frame = some .ret ∧ frame.memory.size = 64 ∧
      toll.paid = 6 ∧ 6 ≤ frame.gas.used := by
  have pays := runMessage_paysMemory (.blank .byzantium) copyingMessage 0 (Host.start .empty ())
  have sees : seenAfter (.blank .byzantium) copyingMessage 0 13
      (fun context frame _ => (context.operation? .byzantium frame, frame.memory.size))
      (Host.start .empty ()) = some (some .ret, 64) := by
    decide +kernel
  obtain ⟨context, frame, waiting, reached, reaches, seen⟩ := reaches_of_seenAfter 13 sees
  obtain ⟨returns, size⟩ := Prod.mk.inj seen
  obtain ⟨_, keeps⟩ := pays.counted.mp reaches
  obtain ⟨toll, others, rfl, ⟨settles, paid_le⟩, _⟩ := pays.settled keeps
  have paid : toll.paid = 6 := by
    rw [settles.paid_eq, size]
    decide
  exact ⟨context, frame, waiting, reached, toll, others, keeps, returns, size, paid, paid ▸ paid_le⟩

end Evm
