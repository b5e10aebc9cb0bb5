import Evm.Execution
import Evm.Proofs.Rlp

/-!
# Preimages of addresses

What is hashed for the address of a contract tells where it comes from: its creator and the
creator's nonce in recursive-length form, or its creator, a salt and a digest of its code, each at a
fixed place. The first byte tells the two apart.
-/

namespace Evm

namespace Address

variable {creator other : Address} {nonce nonce' : Nat}

def creation (creator : Address) (nonce : Nat) : Rlp :=
  .list [.string creator.toBytes.toList, .string (Bytes.minimal nonce).toList]

def ofCreation? : Rlp → Option (Address × Nat)
  | .list [.string creator, .string nonce] => some (ofBytes ⟨creator⟩, Bytes.toNat ⟨nonce⟩)
  | _ => none

theorem toBytes_inj (same : creator.toBytes = other.toBytes) : creator = other := by
  rw [← ofBytes_toBytes creator, same, ofBytes_toBytes]

theorem ofCreation?_creation (creator : Address) (nonce : Nat) :
    ofCreation? (creation creator nonce) = some (creator, nonce) := by
  have whole (bytes : Bytes) : (⟨bytes.toList⟩ : Bytes) = bytes := rfl
  rw [creation, ofCreation?, whole, whole, ofBytes_toBytes, Bytes.toNat_minimal]

theorem isSmall_minimal (n : Nat) :
    Rlp.isSmall (Bytes.minimal n).toList = true ↔ (Bytes.minimal n).size = 1 ∧ n < 0x80 := by
  have number := Bytes.toNat_minimal n
  generalize Bytes.minimal n = bytes at number ⊢
  obtain ⟨_ | ⟨byte, _ | ⟨_, _⟩⟩⟩ := bytes
  · exact iff_of_false nofun nofun
  · have value : byte.toNat = n := by
      rw [← number, Bytes.toNat_cons]
      simp [Bytes.toNat]
    rw [← value]
    simp [Rlp.isSmall]
  · simp [Rlp.isSmall]

theorem numberItem_eq {n : Nat} (fits : n < 256 ^ 8) :
    (numberItem n).toList = (Rlp.string (Bytes.minimal n).toList).encode := by
  have few := Bytes.size_minimal_le fits
  rw [Rlp.encode]
  by_cases small : (Bytes.minimal n).size = 1 ∧ n < 0x80
  · rw [if_pos ((isSmall_minimal n).mpr small), numberItem, if_pos small]
  · rw [if_neg (mt (isSmall_minimal n).mp small), numberItem, if_neg small, Rlp.header,
      Array.length_toList, if_pos (by omega)]
    simp

theorem encode_toBytes (address : Address) :
    (Rlp.string address.toBytes.toList).encode = 0x94 :: address.toBytes.toList := by
  have long : Rlp.isSmall address.toBytes.toList = false := by
    have length : address.toBytes.toList.length = 20 := size_toBytes address
    unfold Rlp.isSmall
    split
    · rename_i one
      rw [one] at length
      cases length
    · rfl
  rw [Rlp.encode, if_neg (by rw [long]; exact nofun), Array.length_toList, size_toBytes]
  rfl

theorem size_numberItem_le {n : Nat} (fits : n < 256 ^ 8) : (numberItem n).size ≤ 9 := by
  have few := Bytes.size_minimal_le fits
  unfold numberItem
  dsimp only
  split
  · omega
  · rw [Array.size_append]
    simp
    omega

theorem createPreimage_eq (creator : Address) (fits : nonce < 256 ^ 8) :
    (createPreimage creator nonce).toList = (creation creator nonce).encode := by
  have few := size_numberItem_le fits
  have length : (0x94 :: creator.toBytes.toList ++ (numberItem nonce).toList).length =
      1 + 20 + (numberItem nonce).size := by
    rw [List.length_append, List.length_cons, Array.length_toList, Array.length_toList,
      size_toBytes]
  rw [creation, Rlp.encode, Rlp.encodeAll, Rlp.encodeAll, Rlp.encodeAll, List.append_nil,
    encode_toBytes, ← numberItem_eq fits, length, Rlp.header, if_pos (by omega), createPreimage]
  simp

theorem decode_createPreimage (creator : Address) (fits : nonce < 256 ^ 8) :
    Rlp.decode (createPreimage creator nonce).toList = some (creation creator nonce) := by
  have few := size_numberItem_le fits
  have short : (createPreimage creator nonce).size ≤ 31 := by
    simp only [createPreimage, Array.size_append, size_toBytes]
    simp
    omega
  rw [createPreimage_eq creator fits]
  apply Rlp.decode_encode
  rw [← createPreimage_eq creator fits, Array.length_toList]
  omega

theorem createPreimage_inj (fits : nonce < 256 ^ 8) (fits' : nonce' < 256 ^ 8)
    (same : createPreimage creator nonce = createPreimage other nonce') :
    creator = other ∧ nonce = nonce' := by
  have reads := decode_createPreimage creator fits
  rw [same, decode_createPreimage other fits', Option.some_inj] at reads
  have pair := ofCreation?_creation other nonce'
  rw [reads, ofCreation?_creation creator nonce, Option.some_inj] at pair
  exact ⟨congrArg Prod.fst pair, congrArg Prod.snd pair⟩

def saltedPreimage (hash : Bytes → Bytes) (creator : Address) (salt : Word) (code : Bytes) :
    Bytes :=
  #[0xff] ++ creator.toBytes ++ salt.toBytes ++ hash code

theorem saltedPreimage_inj {hash : Bytes → Bytes} {salt salt' : Word} {code code' : Bytes}
    (same : saltedPreimage hash creator salt code = saltedPreimage hash other salt' code') :
    creator = other ∧ salt = salt' ∧ hash code = hash code' := by
  have size (address : Address) (salt : Word) :
      (#[0xff] ++ address.toBytes ++ salt.toBytes : Bytes).size = 1 + 20 + 32 := by
    rw [Array.size_append, Array.size_append, size_toBytes, Word.toBytes, Bytes.size_ofNat]
    rfl
  obtain ⟨front, digests⟩ := Array.append_inj same (by rw [size, size])
  obtain ⟨creators, salts⟩ := Array.append_inj front
    (by rw [Array.size_append, Array.size_append, size_toBytes, size_toBytes])
  obtain ⟨-, creators⟩ := Array.append_inj creators rfl
  refine ⟨toBytes_inj creators, BitVec.eq_of_toNat_eq ?_, digests⟩
  exact Bytes.ofNat_inj (show _ < 256 ^ 32 from salt.isLt) (show _ < 256 ^ 32 from salt'.isLt) salts

/-- The first byte tells which kind a preimage is of. -/
theorem createPreimage_ne (hash : Bytes → Bytes) (creator other : Address) (fits : nonce < 256 ^ 8)
    (salt : Word) (code : Bytes) :
    createPreimage creator nonce ≠ saltedPreimage hash other salt code := by
  intro same
  -- The tag of a list is below 0xff, since the list is short.
  have few := size_numberItem_le fits
  have heads : UInt8.ofNat (0xc0 + (1 + 20 + (numberItem nonce).size)) = 0xff := by
    have first := congrArg (·.toList.head?) same
    simpa [createPreimage, saltedPreimage] using first
  have values := congrArg UInt8.toNat heads
  rw [UInt8.toNat_ofNat', Nat.mod_eq_of_lt (by omega),
    show UInt8.toNat 0xff = 0xff from rfl] at values
  omega

/-- What is hashed for the address of a creation, when its creator has this nonce. -/
def preimage (message : Message) (nonce : Nat) : Bytes :=
  match message.salt with
  | some salt => saltedPreimage keccak256 message.caller salt message.code
  | none => createPreimage message.caller nonce

theorem newAddress_eq (message : Message) (nonce : Nat) :
    Execution.newAddress message nonce = ofBytes (keccak256 (preimage message nonce)) := by
  unfold Execution.newAddress preimage
  cases message.salt <;> rfl

/-- What the preimages of addresses tell, whatever digests the code. -/
structure TellsCreation (hash : Bytes → Bytes) : Prop where
  hashed : ∀ (message : Message) (nonce : Nat),
    Execution.newAddress message nonce = ofBytes (keccak256 (preimage message nonce))
  minimal : ∀ nonce : Nat,
    (Bytes.minimal nonce).toNat = nonce ∧ (Bytes.minimal nonce)[0]? ≠ some 0
  encodes : ∀ (creator : Address) {nonce : Nat}, nonce < machineLimit →
    (createPreimage creator nonce).toList = (creation creator nonce).encode
  canonical : ∀ (creator : Address) {nonce : Nat} {bytes : List UInt8}, nonce < machineLimit →
    (Rlp.decode bytes = some (creation creator nonce) ↔
      bytes = (createPreimage creator nonce).toList)
  reads : ∀ (creator : Address) {nonce : Nat}, nonce < machineLimit →
    (Rlp.decode (createPreimage creator nonce).toList).bind ofCreation? = some (creator, nonce)
  injective : ∀ {creator other : Address} {nonce nonce' : Nat},
    nonce < machineLimit → nonce' < machineLimit →
      createPreimage creator nonce = createPreimage other nonce' → creator = other ∧ nonce = nonce'
  determines : ∀ {creator other : Address} {salt salt' : Word} {code code' : Bytes},
    saltedPreimage hash creator salt code = saltedPreimage hash other salt' code' →
      creator = other ∧ salt = salt' ∧ hash code = hash code'
  apart : ∀ (creator other : Address) {nonce : Nat} (salt : Word) (code : Bytes),
    nonce < machineLimit → createPreimage creator nonce ≠ saltedPreimage hash other salt code

theorem preimages_tellCreation (hash : Bytes → Bytes) : TellsCreation hash where
  hashed := newAddress_eq
  minimal nonce := ⟨Bytes.toNat_minimal nonce, Bytes.minimal_stripped nonce⟩
  encodes creator _ fits := createPreimage_eq creator fits
  canonical := by
    intro creator nonce bytes fits
    constructor
    · intro decodes
      rw [createPreimage_eq creator fits, Rlp.encode_of_decode decodes]
    · rintro rfl
      exact decode_createPreimage creator fits
  reads := by
    intro creator nonce fits
    rw [decode_createPreimage creator fits, Option.bind_some, ofCreation?_creation]
  injective := createPreimage_inj
  determines := saltedPreimage_inj
  apart creator other _ salt code fits := createPreimage_ne hash creator other fits salt code

/-- Nonces below and above the bound of a single byte are told apart, and from a salt. -/
theorem preimages_tellCreation_nonces :
    (Rlp.decode (createPreimage 0xaa 128).toList).bind ofCreation? = some (0xaa, 128) ∧
      createPreimage 0xaa 127 ≠ createPreimage 0xaa 128 ∧
      createPreimage 0xaa 128 ≠ saltedPreimage keccak256 0xaa 128 #[] := by
  have tells := preimages_tellCreation keccak256
  have short : 127 < machineLimit := by decide
  have long : 128 < machineLimit := by decide
  refine ⟨tells.reads 0xaa long, fun same => ?_, tells.apart 0xaa 0xaa 128 #[] long⟩
  obtain ⟨_, nonces⟩ := tells.injective short long same
  cases nonces

end Address

end Evm
