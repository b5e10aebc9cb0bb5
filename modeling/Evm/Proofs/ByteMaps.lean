import Evm.Proofs.Logs

/-!
# Memory as a map of bytes

A memory holds a byte at every offset: zero where nothing is stored. Growing does not change that
map, a store overwrites one range of it, and a read gives a range back.
-/

namespace Evm

abbrev ByteMap := Nat → UInt8

namespace ByteMap

/-- The bytes of a string, with zeros past its end. -/
def ofBytes (bytes : Bytes) : ByteMap := fun offset => bytes[offset]?.getD 0

def read (map : ByteMap) (offset size : Nat) : Bytes :=
  Array.ofFn fun i : Fin size => map (offset + i.val)

def write (map : ByteMap) (offset : Nat) (bytes : Bytes) : ByteMap := fun place =>
  if offset ≤ place ∧ place < offset + bytes.size then ofBytes bytes (place - offset) else map place

variable {map : ByteMap} {offset size : Nat} {bytes : Bytes}

@[simp] theorem size_read (map : ByteMap) (offset size : Nat) :
    (map.read offset size).size = size :=
  Array.size_ofFn

theorem read_zero (map : ByteMap) (offset : Nat) : map.read offset 0 = #[] := rfl

theorem write_empty (map : ByteMap) (offset : Nat) : map.write offset #[] = map := by
  funext place
  exact if_neg fun inside => absurd inside.2 (Nat.not_lt.mpr inside.1)

theorem window_eq_read (bytes : Bytes) (start size : Nat) :
    bytes.window start size = (ofBytes bytes).read start size := by
  apply Array.ext_getElem?
  intro index
  simp only [Bytes.window, Bytes.present, Bytes.zeros, read, ofBytes, Array.getElem?_append,
    Array.getElem?_extract, Array.size_extract, Array.getElem?_replicate, Array.getElem?_ofFn]
  by_cases inside : index < size
  · rw [dif_pos inside]
    by_cases present : start + index < bytes.size
    · rw [if_pos (by omega), if_pos (by omega), Array.getElem?_eq_getElem present, Option.getD_some]
    · rw [if_neg (by omega), if_pos (by omega), Array.getElem?_eq_none (by omega), Option.getD_none]
  · rw [dif_neg inside]
    split
    · omega
    · rw [if_neg (by omega)]

theorem extract_eq_read {start stop : Nat} (covered : stop ≤ bytes.size) (size : Nat)
    (stops : stop = start + size) :
    bytes.extract start stop = (ofBytes bytes).read start size := by
  subst stop
  apply Array.ext_getElem?
  intro index
  simp only [read, ofBytes, Array.getElem?_extract, Array.getElem?_ofFn]
  by_cases inside : index < size
  · rw [if_pos (by omega), dif_pos inside, Array.getElem?_eq_getElem (by omega), Option.getD_some]
  · rw [if_neg (by omega), dif_neg inside]

end ByteMap

namespace Bytes

theorem size_fold (target : Bytes) (offset : Nat) (byte : Nat → UInt8) (count : Nat) :
    (Nat.fold count (fun i _ bytes => bytes.setIfInBounds (offset + i) (byte i)) target).size =
      target.size := by
  induction count with
  | zero => rfl
  | succ count ih => rw [Nat.fold_succ, Array.size_setIfInBounds, ih]

theorem getElem?_fold (target : Bytes) (offset : Nat) (byte : Nat → UInt8) (count place : Nat) :
    (Nat.fold count (fun i _ bytes => bytes.setIfInBounds (offset + i) (byte i)) target)[place]? =
      if offset ≤ place ∧ place < offset + count ∧ place < target.size then
        some (byte (place - offset))
      else target[place]? := by
  induction count with
  | zero => rw [Nat.fold_zero, if_neg (by omega)]
  | succ count ih =>
    rw [Nat.fold_succ, Array.getElem?_setIfInBounds, ih, size_fold]
    by_cases last : offset + count = place
    · subst last
      rw [if_pos rfl]
      by_cases inside : offset + count < target.size
      · rw [if_pos inside, if_pos (by omega), Nat.add_sub_cancel_left]
      · rw [if_neg inside, if_neg (by omega), Array.getElem?_eq_none (by omega)]
    · rw [if_neg last]
      by_cases inside : offset ≤ place ∧ place < offset + count ∧ place < target.size
      · rw [if_pos inside, if_pos (by omega)]
      · rw [if_neg inside, if_neg (by omega)]

theorem overwrite_eq_fold (target : Bytes) (offset : Nat) (source : Bytes) :
    target.overwrite offset source = Nat.fold source.size
      (fun i _ bytes => bytes.setIfInBounds (offset + i) (ByteMap.ofBytes source i)) target := by
  have same : (fun i (h : i < source.size) (bytes : Bytes) =>
      bytes.setIfInBounds (offset + i) source[i]) =
        fun i _ bytes => bytes.setIfInBounds (offset + i) (ByteMap.ofBytes source i) := by
    funext i h bytes
    rw [ByteMap.ofBytes, Array.getElem?_eq_getElem h, Option.getD_some]
  rw [overwrite, same]

theorem getElem?_overwrite (target : Bytes) (offset : Nat) (source : Bytes) (place : Nat) :
    (target.overwrite offset source)[place]? =
      if offset ≤ place ∧ place < offset + source.size ∧ place < target.size then
        some (ByteMap.ofBytes source (place - offset))
      else target[place]? := by
  rw [overwrite_eq_fold, getElem?_fold]

theorem size_overwrite (target : Bytes) (offset : Nat) (source : Bytes) :
    (target.overwrite offset source).size = target.size := by
  rw [overwrite_eq_fold, size_fold]

end Bytes

namespace Memory

def bytes (memory : Memory) : ByteMap := .ofBytes memory.data

def put (memory : Memory) (offset : Nat) (bytes : Bytes) : Memory :=
  ⟨memory.data.overwrite offset bytes⟩

variable {memory updated : Memory} {offset size : Nat} {bytes : Bytes}

@[simp] theorem size_put (memory : Memory) (offset : Nat) (bytes : Bytes) :
    (memory.put offset bytes).size = memory.size :=
  Bytes.size_overwrite ..

theorem bytes_empty : Memory.empty.bytes = fun _ => 0 := rfl

@[simp] theorem bytes_expand (memory : Memory) (offset size : Nat) :
    (memory.expand offset size).bytes = memory.bytes := by
  funext place
  unfold expand
  split
  · rfl
  · simp only [Memory.bytes, ByteMap.ofBytes, Bytes.zeros, Array.getElem?_append,
      Array.getElem?_replicate]
    split
    · rfl
    · rw [Array.getElem?_eq_none (by omega)]
      split <;> rfl

theorem bytes_put (covered : offset + bytes.size ≤ memory.size) :
    (memory.put offset bytes).bytes = memory.bytes.write offset bytes := by
  funext place
  unfold Memory.size at covered
  simp only [Memory.bytes, put, ByteMap.write, ByteMap.ofBytes, Bytes.getElem?_overwrite]
  by_cases inside : offset ≤ place ∧ place < offset + bytes.size
  · rw [if_pos ⟨inside.1, inside.2, by omega⟩, if_pos inside, Option.getD_some]
  · rw [if_neg (by omega), if_neg inside]

theorem store?_put (stores : memory.store? offset bytes = some updated) :
    updated = memory.put offset bytes ∧ offset + bytes.size ≤ memory.size := by
  unfold store? at stores
  split at stores <;> cases stores
  exact ⟨rfl, ‹_›⟩

theorem read?_read (reads : memory.read? offset size = some bytes) :
    bytes = memory.bytes.read offset size := by
  unfold read? at reads
  split at reads
  · cases reads
    subst size
    rfl
  · split at reads <;> cases reads
    exact ByteMap.extract_eq_read ‹_› size rfl

end Memory

end Evm
