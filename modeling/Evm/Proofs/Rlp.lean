import Evm.Proofs.Numerals

/-!
# Recursive-length form

Items are strings of bytes and lists of items. In the form of an item the size of its payload goes
before it. The reader takes no form but the shortest, so that an item has one form, and a form has
one item.
-/

namespace Evm

inductive Rlp where
  | string (bytes : List UInt8)
  | list (items : List Rlp)

namespace Rlp

def isSmall : List UInt8 → Bool
  | [byte] => byte.toNat < 0x80
  | _ => false

/-- What goes before a payload. A size that the tag has no room for is spelt behind it. -/
def header (base size : Nat) : List UInt8 :=
  if size < 56 then [UInt8.ofNat (base + size)]
  else UInt8.ofNat (base + 55 + (Bytes.minimal size).size) :: (Bytes.minimal size).toList

mutual

def encode : Rlp → List UInt8
  | .string bytes => if isSmall bytes then bytes else header 0x80 bytes.length ++ bytes
  | .list items => header 0xc0 (encodeAll items).length ++ encodeAll items

def encodeAll : List Rlp → List UInt8
  | [] => []
  | item :: items => encode item ++ encodeAll items

end

/-- The size that a tag tells, and what is behind it. A size that is spelt out must not fit the tag,
nor have a shorter spelling. -/
def size? (tag : Nat) (bytes : List UInt8) : Option (Nat × List UInt8) :=
  if tag < 56 then some (tag, bytes)
  else
    let numeral : Bytes := ⟨bytes.take (tag - 55)⟩
    if numeral.size = tag - 55 ∧ numeral.Stripped ∧ 56 ≤ numeral.toNat then
      some (numeral.toNat, bytes.drop (tag - 55))
    else none

/-- The first item of some bytes, as far as its payload, and what is behind it. -/
inductive Part where
  | string (payload rest : List UInt8)
  | list (payload rest : List UInt8)

def payload? (tag : Nat) (bytes : List UInt8) : Option (List UInt8 × List UInt8) :=
  (size? tag bytes).bind fun (size, behind) =>
    if size ≤ behind.length then some (behind.take size, behind.drop size) else none

def split? : List UInt8 → Option Part
  | [] => none
  | byte :: bytes =>
    if byte.toNat < 0x80 then some (.string [byte] bytes)
    else if byte.toNat < 0xc0 then
      (payload? (byte.toNat - 0x80) bytes).bind fun (payload, rest) =>
        if isSmall payload then none else some (.string payload rest)
    else (payload? (byte.toNat - 0xc0) bytes).map fun (payload, rest) => .list payload rest

variable {tag base size : Nat} {bytes behind payload rest : List UInt8}

theorem header_size? (base : Nat) (fits : size < 256 ^ 8) : ∃ tag spelt, tag < 64 ∧
    header base size = UInt8.ofNat (base + tag) :: spelt ∧
      ∀ rest, size? tag (spelt ++ rest) = some (size, rest) := by
  by_cases short : size < 56
  · exact ⟨size, [], by omega, if_pos short, fun rest => if_pos short⟩
  · have few := Bytes.size_minimal_le fits
    have some : 1 ≤ (Bytes.minimal size).size := by
      have spelt := Bytes.lt_pow_size_minimal size
      by_contra none
      rw [show (Bytes.minimal size).size = 0 by omega, Nat.pow_zero] at spelt
      omega
    refine ⟨55 + (Bytes.minimal size).size, (Bytes.minimal size).toList, by omega, ?_, ?_⟩
    · rw [header, if_neg short, Nat.add_assoc]
    · intro rest
      have front : ((Bytes.minimal size).toList ++ rest).take
          (55 + (Bytes.minimal size).size - 55) = (Bytes.minimal size).toList :=
        List.take_left' (by rw [Array.length_toList]; omega)
      have back : ((Bytes.minimal size).toList ++ rest).drop
          (55 + (Bytes.minimal size).size - 55) = rest :=
        List.drop_left' (by rw [Array.length_toList]; omega)
      have number : Bytes.toNat ⟨(Bytes.minimal size).toList⟩ = size := Bytes.toNat_minimal size
      have fills : (Bytes.minimal size).size = 55 + (Bytes.minimal size).size - 55 := by omega
      unfold size?
      rw [if_neg (by omega), front, back]
      dsimp only
      rw [number, if_pos ⟨fills, Bytes.minimal_stripped size, by omega⟩]

theorem header_of_size? (reads : size? tag bytes = some (size, behind)) :
    header base size ++ behind = UInt8.ofNat (base + tag) :: bytes := by
  unfold size? at reads
  dsimp only at reads
  split at reads
  · cases reads
    rw [header, if_pos ‹_›]
    rfl
  split at reads <;> cases reads
  rename_i long spelt
  obtain ⟨fills, stripped, large⟩ := spelt
  rw [header, if_neg (by omega), Bytes.minimal_toNat stripped, fills]
  have tags : base + 55 + (tag - 55) = base + tag := by omega
  rw [tags, List.cons_append, List.take_append_drop]

theorem payload?_eq (reads : size? tag bytes = some (payload.length, payload ++ rest)) :
    payload? tag bytes = some (payload, rest) := by
  rw [payload?, reads, Option.bind_some]
  dsimp only
  rw [if_pos (by rw [List.length_append]; omega), List.take_left', List.drop_left'] <;> rfl

theorem header_of_payload? (reads : payload? tag bytes = some (payload, rest)) :
    header base payload.length ++ (payload ++ rest) = UInt8.ofNat (base + tag) :: bytes := by
  obtain ⟨⟨size, behind⟩, sizes, cuts⟩ := Option.bind_eq_some_iff.mp reads
  dsimp only at cuts
  split at cuts <;> cases cuts
  rw [List.length_take, Nat.min_eq_left ‹_›, List.take_append_drop, header_of_size? sizes]

theorem split?_string (fits : payload.length < 256 ^ 8) (rest : List UInt8) :
    split? (encode (.string payload) ++ rest) = some (.string payload rest) := by
  rw [encode]
  by_cases small : isSmall payload
  · rw [if_pos small]
    obtain _ | ⟨byte, _ | ⟨_, _⟩⟩ := payload
    · cases small
    · exact if_pos (of_decide_eq_true small)
    · cases small
  · obtain ⟨tag, spelt, narrow, writes, reads⟩ := header_size? 0x80 fits
    have byte : (UInt8.ofNat (0x80 + tag)).toNat = 0x80 + tag := by
      rw [UInt8.toNat_ofNat', Nat.mod_eq_of_lt (by omega)]
    have takes := payload?_eq (reads (payload ++ rest))
    rw [if_neg small, writes, List.cons_append, List.cons_append, List.append_assoc, split?, byte,
      if_neg (by omega), if_pos (by omega), Nat.add_sub_cancel_left, takes, Option.bind_some]
    exact if_neg small

theorem split?_list (fits : payload.length < 256 ^ 8) (rest : List UInt8) :
    split? (header 0xc0 payload.length ++ payload ++ rest) = some (.list payload rest) := by
  obtain ⟨tag, spelt, narrow, writes, reads⟩ := header_size? 0xc0 fits
  have byte : (UInt8.ofNat (0xc0 + tag)).toNat = 0xc0 + tag := by
    rw [UInt8.toNat_ofNat', Nat.mod_eq_of_lt (by omega)]
  have takes := payload?_eq (reads (payload ++ rest))
  rw [writes, List.cons_append, List.cons_append, List.append_assoc, split?, byte,
    if_neg (by omega), if_neg (by omega), Nat.add_sub_cancel_left, takes]
  rfl

theorem byte_eq {byte : UInt8} (above : base ≤ byte.toNat) :
    UInt8.ofNat (base + (byte.toNat - base)) = byte := by
  rw [Nat.add_sub_cancel' above, UInt8.ofNat_toNat]

theorem encode_of_split? (splits : split? bytes = some (.string payload rest)) :
    encode (.string payload) ++ rest = bytes := by
  obtain _ | ⟨byte, bytes⟩ := bytes
  · cases splits
  rw [split?] at splits
  split at splits
  · cases splits
    have small : isSmall [byte] = true := decide_eq_true ‹_›
    rw [encode, if_pos small]
    rfl
  split at splits
  · obtain ⟨⟨payload, rest⟩, takes, plain⟩ := Option.bind_eq_some_iff.mp splits
    dsimp only at plain
    split at plain <;> cases plain
    rw [encode, if_neg ‹_›, List.append_assoc, header_of_payload? takes, byte_eq (by omega)]
  · obtain ⟨_, _, same⟩ := Option.map_eq_some_iff.mp splits
    cases same

theorem header_of_split? (splits : split? bytes = some (.list payload rest)) :
    header 0xc0 payload.length ++ payload ++ rest = bytes := by
  obtain _ | ⟨byte, bytes⟩ := bytes
  · cases splits
  rw [split?] at splits
  split at splits
  · cases splits
  split at splits
  · obtain ⟨_, _, plain⟩ := Option.bind_eq_some_iff.mp splits
    dsimp only at plain
    split at plain <;> cases plain
  · obtain ⟨_, takes, same⟩ := Option.map_eq_some_iff.mp splits
    cases same
    rw [List.append_assoc, header_of_payload? takes, byte_eq (by omega)]

theorem length_header_pos (base size : Nat) : 0 < (header base size).length := by
  unfold header
  split <;> simp

theorem length_encode_pos (item : Rlp) : 0 < (encode item).length := by
  cases item with
  | string bytes =>
    rw [encode]
    split
    · obtain _ | ⟨_, _⟩ := bytes
      · contradiction
      · exact Nat.succ_pos _
    · have := length_header_pos 0x80 bytes.length
      rw [List.length_append]
      omega
  | list items =>
    have := length_header_pos 0xc0 (encodeAll items).length
    rw [encode, List.length_append]
    omega

theorem split?_string_length (splits : split? bytes = some (.string payload rest)) :
    rest.length < bytes.length := by
  have := length_encode_pos (.string payload)
  rw [← encode_of_split? splits, List.length_append]
  omega

theorem split?_list_length (splits : split? bytes = some (.list payload rest)) :
    payload.length < bytes.length ∧ rest.length < bytes.length := by
  have := length_header_pos 0xc0 payload.length
  rw [← header_of_split? splits, List.length_append, List.length_append]
  omega

def decodeAll (bytes : List UInt8) : Option (List Rlp) :=
  match splits : split? bytes with
  | none => if bytes.isEmpty then some [] else none
  | some (.string payload rest) =>
    have := split?_string_length splits
    (decodeAll rest).map (.string payload :: ·)
  | some (.list payload rest) =>
    have := split?_list_length splits
    do return .list (← decodeAll payload) :: (← decodeAll rest)
termination_by bytes.length
decreasing_by all_goals omega

theorem decodeAll_nil : decodeAll [] = some [] := by
  unfold decodeAll
  rfl

theorem decodeAll_string (splits : split? bytes = some (.string payload rest)) :
    decodeAll bytes = (decodeAll rest).map (.string payload :: ·) := by
  rw [decodeAll]
  split <;> simp_all

theorem decodeAll_list (splits : split? bytes = some (.list payload rest)) :
    decodeAll bytes = do return .list (← decodeAll payload) :: (← decodeAll rest) := by
  rw [decodeAll]
  split <;> simp_all

mutual

theorem decodeAll_encode (item : Rlp) {rest : List UInt8} {items : List Rlp}
    (fits : (encode item).length < 256 ^ 8) (others : decodeAll rest = some items) :
    decodeAll (encode item ++ rest) = some (item :: items) := by
  cases item with
  | string payload =>
    have short : payload.length < 256 ^ 8 := by
      rw [encode] at fits
      split at fits
      · exact fits
      · rw [List.length_append] at fits
        omega
    rw [decodeAll_string (split?_string short rest), others]
    rfl
  | list inner =>
    have short : (encodeAll inner).length < 256 ^ 8 := by
      rw [encode, List.length_append] at fits
      omega
    rw [encode, decodeAll_list (split?_list short rest), decodeAll_encodeAll inner short, others]
    rfl

theorem decodeAll_encodeAll (items : List Rlp) (fits : (encodeAll items).length < 256 ^ 8) :
    decodeAll (encodeAll items) = some items := by
  cases items with
  | nil => exact decodeAll_nil
  | cons item items =>
    rw [encodeAll, List.length_append] at fits
    rw [encodeAll]
    exact decodeAll_encode item (by omega) (decodeAll_encodeAll items (by omega))

end

theorem encodeAll_of_decodeAll {items : List Rlp} (decodes : decodeAll bytes = some items) :
    encodeAll items = bytes := by
  -- The reader recurses on the payload of a list and on what is behind it.
  induction bytes using decodeAll.induct generalizing items with
  | case1 bytes splits empty =>
    rw [List.isEmpty_iff] at empty
    subst empty
    cases decodeAll_nil.symm.trans decodes
    rfl
  | case2 bytes splits some =>
    unfold decodeAll at decodes
    split at decodes <;> simp_all
  | case3 bytes payload rest splits shorter ih =>
    rw [decodeAll_string splits] at decodes
    obtain ⟨others, reads, rfl⟩ := Option.map_eq_some_iff.mp decodes
    rw [encodeAll, ih reads, encode_of_split? splits]
  | case4 bytes payload rest splits shorter ih ih' =>
    rw [decodeAll_list splits] at decodes
    obtain ⟨inner, reads, decodes⟩ := Option.bind_eq_some_iff.mp decodes
    obtain ⟨others, reads', decodes⟩ := Option.bind_eq_some_iff.mp decodes
    cases decodes
    rw [encodeAll, encode, ih reads, ih' reads', header_of_split? splits]

def decode (bytes : List UInt8) : Option Rlp :=
  match decodeAll bytes with
  | some [item] => some item
  | _ => none

theorem decode_encode (item : Rlp) (fits : (encode item).length < 256 ^ 8) :
    decode (encode item) = some item := by
  have reads := decodeAll_encode item fits decodeAll_nil
  rw [List.append_nil] at reads
  rw [decode, reads]

theorem encode_of_decode {item : Rlp} (decodes : decode bytes = some item) :
    encode item = bytes := by
  unfold decode at decodes
  split at decodes <;> cases decodes
  have whole := encodeAll_of_decodeAll ‹_›
  rwa [encodeAll, encodeAll, List.append_nil] at whole

end Rlp

end Evm
