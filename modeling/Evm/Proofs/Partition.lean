import Evm.Code
import Mathlib.Data.List.Basic

/-!
# Code cut into instructions

The instructions of a code stand one behind the other from its first byte on, each with the bytes
that belong to it, so every byte either starts an instruction or is part of an argument. What is
looked up by its offset is told from that alone.
-/

namespace Evm

def pushLength (byte : UInt8) : Nat :=
  if 0x60 ≤ byte.toNat ∧ byte.toNat ≤ 0x7f then byte.toNat - 0x5f else 0

namespace Operation

theorem argumentWidth_ofByte? (byte : UInt8) :
    ((ofByte? byte).map argumentWidth).getD 0 = pushLength byte := by
  have all : ∀ bits : BitVec 8,
      ((ofByte? ⟨bits⟩).map argumentWidth).getD 0 = pushLength ⟨bits⟩ := by decide +kernel
  exact all byte.toBitVec

theorem ofByte?_eq_jumpDest (byte : UInt8) : ofByte? byte = some .jumpDest ↔ byte = 0x5b := by
  have all : ∀ bits : BitVec 8, ofByte? ⟨bits⟩ = some .jumpDest ↔ (⟨bits⟩ : UInt8) = 0x5b := by
    decide +kernel
  exact all byte.toBitVec

end Operation

namespace Instruction

variable {offset start stop : Nat} {bytes rest : List UInt8} {byte : UInt8}
  {instructions : List Instruction} {instruction one two : Instruction}

def encoding (instruction : Instruction) : List UInt8 :=
  instruction.byte :: instruction.argument.toList

/-! ## Reading one instruction -/

theorem read_argument (offset : Nat) (byte : UInt8) (rest : List UInt8) :
    (read offset byte rest).argument.toList =
      rest.take (pushLength byte) ++ List.replicate (pushLength byte - rest.length) 0 := by
  simp only [read, Operation.argumentWidth_ofByte?, Bytes.zeros]
  simp
  omega

theorem read_size (offset : Nat) (byte : UInt8) (rest : List UInt8) :
    (read offset byte rest).argument.size = pushLength byte := by
  rw [← Array.length_toList, read_argument]
  simp
  omega

/-! ## Reading all of them -/

theorem split_append (offset : Nat) (bytes : List UInt8) (found more : Array Instruction) :
    split offset bytes (found ++ more) = found ++ split offset bytes more := by
  fun_induction split offset bytes more with
  | case1 => rw [split]
  | case2 offset more byte rest made width ih => rw [split, ← ih, Array.append_push]

def parts (offset : Nat) (bytes : List UInt8) : List Instruction := (split offset bytes #[]).toList

theorem parts_nil (offset : Nat) : parts offset [] = [] := by simp [parts, split]

theorem parts_cons (offset : Nat) (byte : UInt8) (rest : List UInt8) :
    parts offset (byte :: rest) = read offset byte rest ::
      parts (offset + 1 + pushLength byte) (rest.drop (pushLength byte)) := by
  have splits := split_append (offset + 1 + pushLength byte) (rest.drop (pushLength byte))
    #[read offset byte rest] #[]
  rw [Array.append_empty] at splits
  unfold parts
  rw [split, read_size, List.push_toArray, List.nil_append, splits]
  simp

@[elab_as_elim]
theorem parts_induction {motive : Nat → List UInt8 → Prop}
    (nil : ∀ offset, motive offset [])
    (cons : ∀ offset byte rest,
      motive (offset + 1 + pushLength byte) (rest.drop (pushLength byte)) →
      motive offset (byte :: rest))
    (offset : Nat) (bytes : List UInt8) : motive offset bytes := by
  induction offset, bytes, (#[] : Array Instruction) using split.induct with
  | case1 offset => exact nil offset
  | case2 offset found byte rest made width ih =>
    simp only [width, made, read_size] at ih
    exact cons offset byte rest ih

theorem of_mem_parts (member : instruction ∈ parts offset bytes) :
    offset ≤ instruction.offset ∧ ∃ rest,
      bytes.drop (instruction.offset - offset) = instruction.byte :: rest ∧
        instruction = read instruction.offset instruction.byte rest := by
  induction offset, bytes using parts_induction with
  | nil => simp [parts_nil] at member
  | cons offset byte rest ih =>
    rw [parts_cons] at member
    obtain rfl | member := List.mem_cons.mp member
    · exact ⟨Nat.le_refl offset, rest, by simp [read], rfl⟩
    · obtain ⟨later, left, drops, reads⟩ := ih member
      refine ⟨by omega, left, ?_, reads⟩
      rw [← drops, List.drop_drop, show instruction.offset - offset =
        (pushLength byte + (instruction.offset - (offset + 1 + pushLength byte))) + 1 by omega,
        List.drop_succ_cons]

/-- Written one behind the other, the instructions give back the bytes, with zeros where the last
argument runs past their end. -/
theorem parts_encoding (offset : Nat) (bytes : List UInt8) :
    ∃ past, (parts offset bytes).flatMap encoding = bytes ++ List.replicate past 0 := by
  induction offset, bytes using parts_induction with
  | nil => exact ⟨0, by simp [parts_nil]⟩
  | cons offset byte rest ih =>
    obtain ⟨past, written⟩ := ih
    rw [parts_cons, List.flatMap_cons, written, encoding, read_argument]
    by_cases long : pushLength byte ≤ rest.length
    · refine ⟨past, ?_⟩
      simp [read, Nat.sub_eq_zero_of_le long, ← List.append_assoc]
    · refine ⟨pushLength byte - rest.length + past, ?_⟩
      rw [List.take_of_length_le (by omega), List.drop_of_length_le (by omega)]
      simp [read, List.append_assoc, List.replicate_append_replicate]

/-! ## Instructions one behind the other -/

/-- The instructions stand one behind the other, without a gap, from one offset to another. -/
def Fill : Nat → List Instruction → Nat → Prop
  | start, [], stop => start = stop
  | start, instruction :: rest, stop =>
    instruction.offset = start ∧ Fill (start + 1 + instruction.argument.size) rest stop

theorem fill_parts (offset : Nat) (bytes : List UInt8) :
    Fill offset (parts offset bytes) (offset + ((parts offset bytes).flatMap encoding).length) := by
  induction offset, bytes using parts_induction with
  | nil => simp [parts_nil, Fill]
  | cons offset byte rest ih =>
    rw [parts_cons, List.flatMap_cons]
    refine ⟨rfl, ?_⟩
    rw [read_size]
    convert ih using 1
    simp only [encoding, List.length_append, List.length_cons, Array.length_toList, read_size]
    omega

namespace Fill

theorem within (fill : Fill start instructions stop) :
    start ≤ stop ∧ ∀ instruction ∈ instructions,
      start ≤ instruction.offset ∧ instruction.offset + instruction.argument.size < stop := by
  induction instructions generalizing start with
  | nil => exact ⟨Nat.le_of_eq fill, by simp⟩
  | cons first rest ih =>
    obtain ⟨rfl, fill⟩ := fill
    obtain ⟨later, inside⟩ := ih fill
    refine ⟨by omega, fun instruction member => ?_⟩
    obtain rfl | member := List.mem_cons.mp member
    · omega
    · have := inside instruction member
      omega

theorem covers (fill : Fill start instructions stop) (after : start ≤ offset)
    (before : offset < stop) :
    ∃ instruction ∈ instructions, instruction.offset ≤ offset ∧
      offset ≤ instruction.offset + instruction.argument.size := by
  induction instructions generalizing start with
  | nil =>
    obtain rfl : start = stop := fill
    omega
  | cons first rest ih =>
    obtain ⟨rfl, fill⟩ := fill
    by_cases own : offset ≤ first.offset + first.argument.size
    · exact ⟨first, List.mem_cons_self, after, own⟩
    · obtain ⟨instruction, member, belongs⟩ := ih fill (by omega)
      exact ⟨instruction, List.mem_cons_of_mem _ member, belongs⟩

theorem apart (fill : Fill start instructions stop) (first : one ∈ instructions)
    (second : two ∈ instructions) :
    two.offset ≤ one.offset ∨ one.offset + one.argument.size < two.offset := by
  induction instructions generalizing start with
  | nil => cases first
  | cons head rest ih =>
    obtain ⟨rfl, fill⟩ := fill
    obtain rfl | later := List.mem_cons.mp first
    · obtain rfl | behind := List.mem_cons.mp second
      · exact .inl (Nat.le_refl _)
      · have := fill.within.2 two behind
        omega
    · obtain rfl | behind := List.mem_cons.mp second
      · have := fill.within.2 one later
        omega
      · exact ih fill later behind

theorem pairwise (fill : Fill start instructions stop) :
    instructions.Pairwise fun one two => one.offset < two.offset := by
  induction instructions generalizing start with
  | nil => exact .nil
  | cons first rest ih =>
    obtain ⟨rfl, fill⟩ := fill
    refine .cons (fun instruction member => ?_) (ih fill)
    have := fill.within.2 instruction member
    omega

theorem next {index : Nat} (fill : Fill start instructions stop)
    (first : instructions[index]? = some one) (second : instructions[index + 1]? = some two) :
    two.offset = one.offset + 1 + one.argument.size := by
  induction instructions generalizing start index with
  | nil => simp at first
  | cons head rest ih =>
    obtain ⟨rfl, fill⟩ := fill
    cases index with
    | succ index => exact ih fill first second
    | zero =>
      cases rest with
      | nil => simp at second
      | cons neighbour rest =>
        cases first
        cases second
        exact fill.1

theorem last (fill : Fill start instructions stop) (ends : instructions.getLast? = some one) :
    stop = one.offset + 1 + one.argument.size := by
  induction instructions generalizing start with
  | nil => simp at ends
  | cons head rest ih =>
    obtain ⟨rfl, fill⟩ := fill
    cases rest with
    | nil =>
      cases ends
      exact fill.symm
    | cons neighbour rest => exact ih fill (by simpa using ends)

end Fill

/-! ## The table of what starts where -/

/-- For every offset of the instructions, the index of the one that starts there. -/
def marks (count : Nat) (instructions : List Instruction) : List (Option Nat) :=
  (instructions.zipIdx count).flatMap fun (instruction, index) =>
    some index :: List.replicate instruction.argument.size none

theorem marks_cons (count : Nat) (instruction : Instruction) (rest : List Instruction) :
    marks count (instruction :: rest) =
      some count :: (List.replicate instruction.argument.size none ++ marks (count + 1) rest) := by
  simp [marks]

/-- The table tells of the instructions that start at an offset, and of no other. -/
theorem Fill.lookup (fill : Fill start instructions stop) (count ahead index : Nat) :
    (marks count instructions)[ahead]?.join = some index ↔
      ∃ place instruction, index = count + place ∧ instructions[place]? = some instruction ∧
        instruction.offset = start + ahead := by
  induction instructions generalizing start count ahead with
  | nil => simp [marks]
  | cons first rest ih =>
    obtain ⟨rfl, fill⟩ := fill
    have later := fill.within.2
    rw [marks_cons]
    cases ahead with
    | zero =>
      constructor
      · rintro ⟨⟩
        exact ⟨0, first, rfl, rfl, rfl⟩
      · rintro ⟨place, instruction, rfl, found, starts⟩
        cases place with
        | zero => rfl
        | succ place =>
          have := later instruction (List.mem_of_getElem? found)
          omega
    | succ ahead =>
      rw [List.getElem?_cons_succ]
      by_cases own : ahead < first.argument.size
      · rw [List.getElem?_append_left (by simpa using own), List.getElem?_replicate, if_pos own]
        constructor
        · rintro ⟨⟩
        · rintro ⟨place, instruction, rfl, found, starts⟩
          cases place with
          | zero =>
            cases found
            omega
          | succ place =>
            have := later instruction (List.mem_of_getElem? found)
            omega
      · rw [List.getElem?_append_right (by simpa using own), List.length_replicate, ih fill]
        constructor
        · rintro ⟨place, instruction, rfl, found, starts⟩
          exact ⟨place + 1, instruction, by omega, found, by omega⟩
        · rintro ⟨place, instruction, rfl, found, starts⟩
          cases place with
          | zero =>
            cases found
            omega
          | succ place => exact ⟨place, instruction, by omega, found, by omega⟩

end Instruction

namespace Code

variable {code : Code} {bytes : Bytes} {instruction : Instruction} {index offset : Nat}

/-- The instruction of that index starts at the offset. -/
def StartsAt (code : Code) (index offset : Nat) : Prop :=
  ∃ instruction, code.instructions[index]? = some instruction ∧ instruction.offset = offset

def InArgument (code : Code) (offset : Nat) : Prop :=
  offset < code.bytes.size ∧ ∃ instruction ∈ code.instructions,
    instruction.offset < offset ∧ offset ≤ instruction.offset + instruction.argument.size

theorem toList_instructions (bytes : Bytes) :
    (ofBytes bytes).instructions.toList = Instruction.parts 0 bytes.toList := rfl

theorem toList_starts (bytes : Bytes) :
    (ofBytes bytes).starts.toList = Instruction.marks 0 (Instruction.parts 0 bytes.toList) := by
  rw [← toList_instructions, Instruction.marks]
  simp [ofBytes, Array.toList_flatMap]

theorem fill (bytes : Bytes) : ∃ past,
    Instruction.Fill 0 (ofBytes bytes).instructions.toList (bytes.size + past) ∧
      (ofBytes bytes).instructions.toList.flatMap Instruction.encoding =
        bytes.toList ++ List.replicate past 0 := by
  obtain ⟨past, written⟩ := Instruction.parts_encoding 0 bytes.toList
  have fill := Instruction.fill_parts 0 bytes.toList
  rw [written] at fill
  rw [Nat.zero_add, List.length_append, List.length_replicate, Array.length_toList] at fill
  exact ⟨past, fill, written⟩

theorem of_mem (member : instruction ∈ (ofBytes bytes).instructions) :
    bytes[instruction.offset]? = some instruction.byte ∧
      instruction.operation = Operation.ofByte? instruction.byte ∧
      instruction.argument.size = pushLength instruction.byte ∧
      instruction.argument.toList =
        (bytes.toList.drop (instruction.offset + 1)).take (pushLength instruction.byte) ++
          List.replicate
            (pushLength instruction.byte - (bytes.size - (instruction.offset + 1))) 0 := by
  obtain ⟨-, rest, drops, reads⟩ := Instruction.of_mem_parts (Array.mem_toList_iff.mpr member)
  rw [Nat.sub_zero] at drops
  have behind : bytes.toList.drop (instruction.offset + 1) = rest := by
    rw [← List.drop_drop, drops, List.drop_succ_cons, List.drop_zero]
  refine ⟨?_, ?_, ?_, ?_⟩
  · rw [← Array.getElem?_toList, ← List.head?_drop, drops, List.head?_cons]
  · rw [reads]
    rfl
  · rw [reads, Instruction.read_size]
    rfl
  · have length_eq := congrArg List.length behind
    rw [List.length_drop, Array.length_toList] at length_eq
    rw [behind, length_eq]
    conv_lhs => rw [reads, Instruction.read_argument]

theorem starts_iff (bytes : Bytes) (index offset : Nat) :
    ((ofBytes bytes).starts[offset]?).join = some index ↔
      (ofBytes bytes).StartsAt index offset := by
  obtain ⟨past, fill, _⟩ := fill bytes
  rw [← Array.getElem?_toList, toList_starts, ← toList_instructions, fill.lookup]
  constructor
  · rintro ⟨place, instruction, rfl, found, starts⟩
    rw [Array.getElem?_toList] at found
    rw [Nat.zero_add] at starts ⊢
    exact ⟨instruction, found, starts⟩
  · rintro ⟨instruction, found, rfl⟩
    rw [← Array.getElem?_toList] at found
    exact ⟨index, instruction, (Nat.zero_add _).symm, found, (Nat.zero_add _).symm⟩

theorem StartsAt.byte (starts : (ofBytes bytes).StartsAt index offset) : offset < bytes.size := by
  obtain ⟨instruction, found, rfl⟩ := starts
  obtain ⟨byte, -⟩ := of_mem (Array.mem_of_getElem? found)
  exact (Array.getElem?_eq_some_iff.mp byte).1

/-- A byte of the code starts an instruction or is part of an argument, and not both. -/
theorem startsAt_or_inArgument (inside : offset < bytes.size) :
    (∃ index, (ofBytes bytes).StartsAt index offset) ↔ ¬ (ofBytes bytes).InArgument offset := by
  obtain ⟨past, fill, _⟩ := fill bytes
  constructor
  · rintro ⟨index, two, found, rfl⟩ ⟨-, one, member, after, before⟩
    have := fill.apart (Array.mem_toList_iff.mpr member)
      (Array.mem_toList_iff.mpr (Array.mem_of_getElem? found))
    omega
  · intro other
    obtain ⟨instruction, member, after, before⟩ :=
      fill.covers (Nat.zero_le offset) (Nat.lt_add_right past inside)
    have member := Array.mem_toList_iff.mp member
    obtain ⟨index, found⟩ := Array.getElem?_of_mem member
    refine ⟨index, instruction, found, ?_⟩
    by_contra differs
    exact other ⟨inside, instruction, member, by omega, before⟩

theorem isJumpDest_iff (member : instruction ∈ (ofBytes bytes).instructions) :
    instruction.isJumpDest ↔ bytes[instruction.offset]? = some 0x5b := by
  obtain ⟨byte, operation, -⟩ := of_mem member
  simp only [Instruction.isJumpDest, operation, byte, beq_iff_eq, Option.some.injEq,
    Operation.ofByte?_eq_jumpDest]

theorem jump?_iff (bytes : Bytes) (index offset : Nat) :
    (ofBytes bytes).jump? offset = some index ↔
      (ofBytes bytes).StartsAt index offset ∧ bytes[offset]? = some 0x5b := by
  rw [← starts_iff, jump?, Option.bind_eq_bind, Option.bind_eq_some_iff]
  constructor
  · rintro ⟨found, marked, looks⟩
    obtain ⟨instruction, fetched, starts⟩ := (starts_iff bytes found offset).mp marked
    simp only [fetched, Option.bind_eq_bind, Option.bind_some] at looks
    split at looks <;> cases looks
    rw [← starts]
    exact ⟨starts ▸ marked, (isJumpDest_iff (Array.mem_of_getElem? fetched)).mp ‹_›⟩
  · rintro ⟨marked, byte⟩
    obtain ⟨instruction, fetched, starts⟩ := (starts_iff bytes index offset).mp marked
    rw [← starts] at byte
    refine ⟨index, marked, ?_⟩
    simp [fetched, (isJumpDest_iff (Array.mem_of_getElem? fetched)).mpr byte]

theorem jump?_none_iff (bytes : Bytes) (offset : Nat) :
    (ofBytes bytes).jump? offset = none ↔
      bytes.size ≤ offset ∨ (ofBytes bytes).InArgument offset ∨ bytes[offset]? ≠ some 0x5b := by
  rw [Option.eq_none_iff_forall_ne_some]
  simp only [ne_eq, jump?_iff, not_and]
  by_cases inside : offset < bytes.size
  · have starts := startsAt_or_inArgument inside
    grind
  · have idle : ∀ index, ¬ (ofBytes bytes).StartsAt index offset :=
      fun index starts => inside starts.byte
    simp [idle, Nat.not_lt.mp inside]

theorem indexOf?_iff (bytes : Bytes) (index offset : Nat) :
    (ofBytes bytes).indexOf? offset = some index ↔
      (ofBytes bytes).StartsAt index offset ∨
        bytes.size ≤ offset ∧ index = (ofBytes bytes).instructions.size := by
  unfold indexOf?
  show (if offset < bytes.size then _ else _) = _ ↔ _
  split
  next inside =>
    rw [starts_iff]
    exact ⟨.inl, fun found => found.resolve_right fun past => absurd inside (by omega)⟩
  next past =>
    rw [Option.some.injEq, eq_comm]
    constructor
    · exact fun same => .inr ⟨Nat.not_lt.mp past, same⟩
    · rintro (starts | ⟨-, same⟩)
      · exact absurd starts.byte past
      · exact same

theorem indexOf?_none_iff (bytes : Bytes) (offset : Nat) :
    (ofBytes bytes).indexOf? offset = none ↔ (ofBytes bytes).InArgument offset := by
  rw [Option.eq_none_iff_forall_ne_some]
  simp only [ne_eq, indexOf?_iff, not_or]
  by_cases inside : offset < bytes.size
  · have starts := startsAt_or_inArgument inside
    grind
  · constructor
    · exact fun none => absurd ⟨Nat.not_lt.mp inside, rfl⟩ (none _).2
    · exact fun inArgument => absurd inArgument.1 inside

/-! ## Searching -/

/-- What a search in keys that grow promises: the place of the key, or none if it is not there. -/
def Finds (find : List Nat → Nat → Option Nat) : Prop :=
  ∀ keys : List Nat, keys.Pairwise (· < ·) → ∀ key place,
    find keys key = some place ↔ keys[place]? = some key

example : Finds fun keys key => keys.idxOf? key := by
  intro keys sorted key place
  rw [List.idxOf?_eq_some_iff, List.getElem?_eq_some_iff]
  constructor
  · rintro ⟨inside, same, -⟩
    exact ⟨inside, same⟩
  · rintro ⟨inside, rfl⟩
    refine ⟨inside, rfl, fun earlier before => Nat.ne_of_lt ?_⟩
    exact List.pairwise_iff_getElem.mp sorted earlier place (by omega) inside before

def offsets (code : Code) : List Nat := code.instructions.toList.map Instruction.offset

def jumpOffsets (code : Code) : List Nat := code.jumpTable.toList.map Prod.fst

theorem offsets_pairwise (bytes : Bytes) : (ofBytes bytes).offsets.Pairwise (· < ·) := by
  obtain ⟨past, fill, _⟩ := fill bytes
  exact List.pairwise_map.mpr fill.pairwise

theorem toList_jumpTable (code : Code) :
    code.jumpTable.toList = code.instructions.toList.zipIdx.filterMap fun (instruction, index) =>
      if instruction.isJumpDest then some (instruction.offset, index) else none := by
  simp [jumpTable]

theorem jumpOffsets_pairwise (bytes : Bytes) :
    (ofBytes bytes).jumpOffsets.Pairwise (· < ·) := by
  obtain ⟨past, fill, _⟩ := fill bytes
  have indexed : ((ofBytes bytes).instructions.toList.zipIdx.map Prod.fst).Pairwise
      fun one two => one.offset < two.offset := by
    rw [List.zipIdx_map_fst]
    exact fill.pairwise
  rw [List.pairwise_map] at indexed
  rw [jumpOffsets, toList_jumpTable, List.pairwise_map, List.pairwise_filterMap]
  refine indexed.imp fun before => ?_
  grind

theorem mem_jumpTable (bytes : Bytes) (index offset : Nat) :
    (offset, index) ∈ (ofBytes bytes).jumpTable.toList ↔
      (ofBytes bytes).jump? offset = some index := by
  rw [toList_jumpTable, List.mem_filterMap, jump?_iff]
  simp only [Prod.exists, List.mem_zipIdx_iff_getElem?, Array.getElem?_toList,
    Option.ite_none_right_eq_some, Option.some.injEq, Prod.mk.injEq]
  constructor
  · rintro ⟨instruction, _, fetched, jumps, rfl, rfl⟩
    exact ⟨⟨instruction, fetched, rfl⟩, (isJumpDest_iff (Array.mem_of_getElem? fetched)).mp jumps⟩
  · rintro ⟨⟨instruction, fetched, rfl⟩, byte⟩
    exact ⟨instruction, index, fetched, (isJumpDest_iff (Array.mem_of_getElem? fetched)).mpr byte,
      rfl, rfl⟩

theorem indexOf?_eq_find {find : List Nat → Nat → Option Nat} (finds : Finds find) (bytes : Bytes)
    (offset : Nat) :
    (ofBytes bytes).indexOf? offset =
      if bytes.size ≤ offset then some (ofBytes bytes).instructions.size
      else find (ofBytes bytes).offsets offset := by
  split
  next past => exact (indexOf?_iff bytes _ offset).mpr (.inr ⟨past, rfl⟩)
  next inside =>
    ext index
    have starts : (ofBytes bytes).StartsAt index offset ↔
        (ofBytes bytes).offsets[index]? = some offset := by
      simp [offsets, StartsAt]
    rw [indexOf?_iff, finds _ (offsets_pairwise bytes), starts]
    exact or_iff_left fun past => inside past.1

theorem jump?_eq_find {find : List Nat → Nat → Option Nat} (finds : Finds find) (bytes : Bytes)
    (offset : Nat) :
    (ofBytes bytes).jump? offset =
      (find (ofBytes bytes).jumpOffsets offset).bind fun place =>
        (ofBytes bytes).jumpTable[place]?.map Prod.snd := by
  ext index
  rw [← mem_jumpTable, List.mem_iff_getElem?, Option.bind_eq_some_iff]
  simp only [finds _ (jumpOffsets_pairwise bytes)]
  simp only [jumpOffsets, List.getElem?_map, Option.map_eq_some_iff, Array.getElem?_toList]
  constructor
  · rintro ⟨place, found⟩
    exact ⟨place, ⟨_, found, rfl⟩, _, found, rfl⟩
  · rintro ⟨place, ⟨entry, found, rfl⟩, _, found', rfl⟩
    rw [found] at found'
    cases found'
    exact ⟨place, found⟩

end Code

/-- A code is cut into its instructions, and what is looked up by an offset is the instruction that
starts there. -/
structure Code.Cut (code : Code) : Prop where
  first : ∀ {instruction}, code.instructions[0]? = some instruction → instruction.offset = 0
  next : ∀ {index one two}, code.instructions[index]? = some one →
    code.instructions[index + 1]? = some two → two.offset = one.offset + 1 + pushLength one.byte
  last : ∀ {instruction}, code.instructions.back? = some instruction →
    instruction.offset < code.bytes.size ∧
      code.bytes.size ≤ instruction.offset + 1 + pushLength instruction.byte
  empty_iff : code.instructions = #[] ↔ code.bytes = #[]
  reads : ∀ instruction ∈ code.instructions,
    instruction.operation = Operation.ofByte? instruction.byte ∧
      instruction.argument.size = pushLength instruction.byte
  /-- Written one behind the other, the instructions give back the code. -/
  written : (code.instructions.toList.flatMap Instruction.encoding).take code.bytes.size =
    code.bytes.toList
  padded : ∀ instruction ∈ code.instructions, ∀ ahead < instruction.argument.size,
    code.bytes.size ≤ instruction.offset + 1 + ahead → instruction.argument[ahead]? = some 0
  jump_some : ∀ offset index, code.jump? offset = some index ↔
    code.StartsAt index offset ∧ code.bytes[offset]? = some 0x5b
  jump_none : ∀ offset, code.jump? offset = none ↔
    code.bytes.size ≤ offset ∨ code.InArgument offset ∨ code.bytes[offset]? ≠ some 0x5b
  index_some : ∀ offset index, code.indexOf? offset = some index ↔
    code.StartsAt index offset ∨ code.bytes.size ≤ offset ∧ index = code.instructions.size
  index_none : ∀ offset, code.indexOf? offset = none ↔ code.InArgument offset
  /-- The keys of both tables grow, so whatever finds a key in such a table looks up the same. -/
  sorted : code.offsets.Pairwise (· < ·) ∧ code.jumpOffsets.Pairwise (· < ·)
  searched : ∀ find, Code.Finds find → ∀ offset,
    (code.indexOf? offset = if code.bytes.size ≤ offset then some code.instructions.size
      else find code.offsets offset) ∧
    code.jump? offset = (find code.jumpOffsets offset).bind fun place =>
      code.jumpTable[place]?.map Prod.snd

/-- Every byte string is kept as it is, and cut into instructions. -/
theorem Code.ofBytes_cut (bytes : Bytes) :
    (Code.ofBytes bytes).bytes = bytes ∧ (Code.ofBytes bytes).Cut := by
  obtain ⟨past, fill, written⟩ := Code.fill bytes
  refine ⟨rfl, ?_⟩
  constructor
  case first =>
    intro instruction found
    rw [← Array.getElem?_toList] at found
    cases listed : (ofBytes bytes).instructions.toList with
    | nil => simp [listed] at found
    | cons head rest =>
      rw [listed] at fill found
      cases found
      exact fill.1
  case next =>
    intro index one two first second
    obtain ⟨-, -, size, -⟩ := of_mem (Array.mem_of_getElem? first)
    rw [← size]
    exact fill.next (by simpa using first) (by simpa using second)
  case last =>
    intro instruction ends
    have member := Array.mem_of_back? ends
    obtain ⟨byte, -, size, -⟩ := of_mem member
    have stops := fill.last (by simpa using ends)
    rw [← size]
    exact ⟨(Array.getElem?_eq_some_iff.mp byte).1, by show bytes.size ≤ _; omega⟩
  case empty_iff =>
    constructor
    · intro none
      rw [none] at written
      have := (List.append_eq_nil_iff.mp written.symm).1
      exact Array.toList_eq_nil_iff.mp this
    · intro none
      obtain rfl : bytes = #[] := none
      exact Array.toList_eq_nil_iff.mp (Instruction.parts_nil 0)
  case reads =>
    intro instruction member
    obtain ⟨-, operation, size, -⟩ := of_mem member
    exact ⟨operation, size⟩
  case written =>
    rw [written]
    exact List.take_left' Array.length_toList
  case padded =>
    intro instruction member ahead inside past
    obtain ⟨-, -, size, argument⟩ := of_mem member
    have past : bytes.size ≤ instruction.offset + 1 + ahead := past
    have present : ((bytes.toList.drop (instruction.offset + 1)).take
        (pushLength instruction.byte)).length = bytes.size - (instruction.offset + 1) := by
      rw [List.length_take, List.length_drop, Array.length_toList]
      omega
    rw [← Array.getElem?_toList, argument, List.getElem?_append_right (by omega), present,
      List.getElem?_replicate, if_pos (by omega)]
  case jump_some => exact fun offset index => jump?_iff bytes index offset
  case jump_none => exact jump?_none_iff bytes
  case index_some => exact fun offset index => indexOf?_iff bytes index offset
  case index_none => exact indexOf?_none_iff bytes
  case sorted => exact ⟨offsets_pairwise bytes, jumpOffsets_pairwise bytes⟩
  case searched =>
    exact fun find finds offset =>
      ⟨indexOf?_eq_find finds bytes offset, jump?_eq_find finds bytes offset⟩

end Evm
