import Evm.Address
import Evm.Decimal
import Mathlib.Data.List.Basic
import Mathlib.Data.String.Basic

/-!
# Texts

Byte strings, words, addresses and decimal numbers are read back from the texts they are written
as. A word goes without leading zeros, a byte string and an address with two digits for each byte.
-/

namespace Evm

namespace Hex

theorem digit?_digit : ∀ n < 16, digit? (digit n) = some n := by decide

theorem utf8Size_digit : ∀ n < 16, (digit n).utf8Size = 1 := by decide

theorem digit?_digitChar : ∀ n < 16, digit? n.digitChar = some n := by decide

theorem dropMarks_mark (text : String) :
    dropMarks ("0x" ++ text).toList = dropMarks text.toList := by
  rw [String.toList_append]
  rfl

theorem dropMarks_digits {text : List Char} (digits : ∀ c ∈ text, (digit? c).isSome) :
    dropMarks text = text := by
  unfold dropMarks
  split
  · exact absurd (digits 'x' (by simp)) (by decide)
  · rfl

theorem digits_toDigits (n : Nat) : ∀ c ∈ Nat.toDigits 16 n, (digit? c).isSome := by
  induction n using Nat.strongRecOn with
  | ind n ih =>
    intro c mem
    rw [Nat.toDigits_eq_if (by decide)] at mem
    split at mem
    · rw [List.mem_singleton.mp mem, digit?_digitChar n ‹_›, Option.isSome_some]
    · rcases List.mem_append.mp mem with mem | mem
      · exact ih (n / 16) (by omega) c mem
      · rw [List.mem_singleton.mp mem, digit?_digitChar _ (Nat.mod_lt _ (by decide)),
          Option.isSome_some]

def pair (byte : UInt8) : List Char := [digit (byte.toNat / 16), digit (byte.toNat % 16)]

theorem toNat_div_lt (byte : UInt8) : byte.toNat / 16 < 16 := by
  have := byte.toNat_lt
  omega

theorem toNat_mod_lt (byte : UInt8) : byte.toNat % 16 < 16 := Nat.mod_lt _ (by decide)

theorem toList_encode (bytes : Bytes) : (encode bytes).toList = bytes.toList.flatMap pair := by
  have rest : ∀ (list : List UInt8) (text : String), (list.foldl (fun text byte =>
      (text.push (digit (byte.toNat / 16))).push (digit (byte.toNat % 16))) text).toList =
        text.toList ++ list.flatMap pair := by
    intro list
    induction list with
    | nil => simp
    | cons byte list ih => intro text; simp [ih, pair]
  rw [encode, ← Array.foldl_toList, rest]
  rfl

theorem digits_pairs (list : List UInt8) : ∀ c ∈ list.flatMap pair, (digit? c).isSome := by
  intro c mem
  obtain ⟨byte, -, mem⟩ := List.mem_flatMap.mp mem
  simp only [pair, List.mem_cons, List.not_mem_nil, or_false] at mem
  rcases mem with rfl | rfl
  · rw [digit?_digit _ (toNat_div_lt byte), Option.isSome_some]
  · rw [digit?_digit _ (toNat_mod_lt byte), Option.isSome_some]

theorem decodePairs_pairs (list : List UInt8) (position : Nat) (bytes : Bytes) :
    decodePairs position bytes (list.flatMap pair) = .ok (bytes ++ list.toArray) := by
  induction list generalizing position bytes with
  | nil => simp [decodePairs]
  | cons byte list ih =>
    have whole : 16 * (byte.toNat / 16) + byte.toNat % 16 = byte.toNat := Nat.div_add_mod _ _
    simp only [List.flatMap_cons, pair, List.cons_append, List.nil_append, decodePairs,
      digit?_digit _ (toNat_div_lt byte), digit?_digit _ (toNat_mod_lt byte), whole,
      UInt8.ofNat_toNat]
    exact (ih _ _).trans (by simp)

theorem utf8Len_pairs (list : List UInt8) :
    String.utf8Len (list.flatMap pair) = 2 * list.length := by
  induction list with
  | nil => rfl
  | cons byte list ih =>
    simp only [List.flatMap_cons, String.utf8Len_append, ih, pair, String.utf8Len,
      utf8Size_digit _ (toNat_div_lt byte), utf8Size_digit _ (toNat_mod_lt byte), List.length_cons]
    omega

end Hex

theorem Text.byteLength_eq (text : List Char) : byteLength text = String.utf8Len text := by
  have rest : ∀ (text : List Char) (length : Nat),
      text.foldl (fun length c => length + c.utf8Size) length = length + String.utf8Len text := by
    intro text
    induction text with
    | nil => simp
    | cons c text ih => intro length; simp [ih]; omega
  rw [byteLength, rest, Nat.zero_add]

namespace Bytes

theorem decode_toText (bytes : Bytes) :
    Hex.decode (Hex.dropMarks bytes.toText.toList) = .ok bytes := by
  rw [toText, Hex.dropMarks_mark, Hex.toList_encode, Hex.dropMarks_digits (Hex.digits_pairs _),
    Hex.decode, Text.byteLength_eq, Hex.utf8Len_pairs, if_pos (Nat.mul_mod_right _ _),
    Hex.decodePairs_pairs]
  simp

theorem utf8ByteSize_toText (bytes : Bytes) : bytes.toText.utf8ByteSize = 2 + 2 * bytes.size := by
  rw [toText, String.utf8ByteSize_append, ← String.ofList_toList (s := Hex.encode bytes),
    Hex.toList_encode, String.utf8ByteSize_ofList, String.utf8ByteSize_ofList, Hex.utf8Len_pairs,
    Array.length_toList]
  rfl

theorem ofNat_succ (width value : Nat) :
    ofNat (width + 1) value = (ofNat width (value / 256)).push (UInt8.ofNat value) := by
  rw [ofNat, Array.ofFn_succ]
  congr 2
  · funext i
    have above : 8 * (width + 1 - 1 - i.val) = 8 + 8 * (width - 1 - i.val) := by omega
    rw [Fin.val_castSucc, above, Nat.shiftRight_add, Nat.shiftRight_eq_div_pow value 8]
  · simp

theorem toNat_ofNat (width value : Nat) : toNat (ofNat width value) = value % 256 ^ width := by
  induction width generalizing value with
  | zero => simp [ofNat, toNat, Nat.mod_one]
  | succ width ih =>
    rw [ofNat_succ, toNat, Array.foldl_push, ← toNat, ih, UInt8.toNat_ofNat',
      show 256 ^ (width + 1) = 256 * 256 ^ width from Nat.pow_succ', Nat.mod_mul]
    omega

end Bytes

namespace Address

theorem size_toBytes (address : Address) : address.toBytes.size = 20 := Array.size_ofFn

theorem toNat_toBytes (address : Address) : address.toBytes.toNat = address.toNat := by
  rw [toBytes, Bytes.toNat_ofNat]
  exact Nat.mod_eq_of_lt address.isLt

theorem ofBytes_toBytes (address : Address) : ofBytes address.toBytes = address := by
  rw [ofBytes, toNat_toBytes, BitVec.ofNat_toNat, BitVec.setWidth_eq]

theorem ofText_toText (address : Address) : ofText address.toText = .ok address := by
  rw [ofText, toText, if_pos (.inr (by rw [Bytes.utf8ByteSize_toText, size_toBytes])),
    Bytes.decode_toText]
  show ofBytes? address.toBytes = .ok address
  rw [ofBytes?, if_pos (size_toBytes address), ofBytes_toBytes]

end Address

namespace Word

theorem values_toDigits (n : Nat) : ∃ values, (Nat.toDigits 16 n).mapM Hex.digit? = some values ∧
    values.foldl (fun value digit => 16 * value + digit) 0 = n := by
  induction n using Nat.strongRecOn with
  | ind n ih =>
    rw [Nat.toDigits_eq_if (by decide)]
    split
    · exact ⟨[n], by simp [Hex.digit?_digitChar n ‹_›], by simp⟩
    · obtain ⟨values, read, value⟩ := ih (n / 16) (by omega)
      refine ⟨values ++ [n % 16], ?_, ?_⟩
      · simp [List.mapM_append, read, Hex.digit?_digitChar _ (Nat.mod_lt n (by decide : 16 > 0))]
      · rw [List.foldl_append, value]
        exact Nat.div_add_mod n 16

theorem ofText_toText (word : Word) : ofText word.toText = .ok word := by
  obtain ⟨values, read, value⟩ := values_toDigits word.toNat
  have short : (Nat.toDigits 16 word.toNat).length ≤ 64 :=
    (Nat.length_toDigits_le_iff (by decide) (by decide)).mpr word.isLt
  rw [ofText, toText, Hex.dropMarks_mark, Word.digits, String.toList_ofList,
    Hex.dropMarks_digits (Hex.digits_toDigits _)]
  simp only [read, if_pos short, value, BitVec.ofNat_toNat, BitVec.setWidth_eq]

end Word

namespace Decimal

/-- A number other than zero has no zero for its first digit. -/
theorem head_toDigits {n : Nat} (zero : (Nat.toDigits 10 n).head? = some '0') : n = 0 := by
  induction n using Nat.strongRecOn with
  | ind n ih =>
    rw [Nat.toDigits_eq_if (by decide)] at zero
    split at zero
    · simpa using zero
    · rw [List.head?_append_of_ne_nil _ Nat.toDigits_ne_nil] at zero
      have tens : n / 10 = 0 := ih (n / 10) (by omega) zero
      omega

theorem readDigits_of_lt {limit value : Nat} {text : List Char} (digits : ∀ c ∈ text, c.isDigit)
    (below : Nat.ofDigitChars 10 text value < limit) :
    readDigits limit value text = .ok (Nat.ofDigitChars 10 text value) := by
  induction text generalizing value with
  | nil => rfl
  | cons c rest ih =>
    rw [Nat.ofDigitChars_cons] at below ⊢
    have next : 10 * value + (c.toNat - 48) < limit := by
      refine Nat.lt_of_le_of_lt ?_ below
      rw [Nat.ofDigitChars_eq_ofDigitChars_zero]
      exact Nat.le_add_right_of_le (Nat.le_mul_of_pos_left _ (Nat.pow_pos (by decide)))
    rw [readDigits, if_pos (digits c (by simp)), if_pos next]
    exact ih (fun c mem => digits c (by simp [mem])) below

theorem canonical?_repr {limit n : Nat} (below : n < limit) :
    canonical? limit n.repr = some n := by
  have read : readDigits limit 0 (Nat.toDigits 10 n) = .ok n := by
    rw [readDigits_of_lt (fun c => Nat.isDigit_of_mem_toDigits (by decide) (by decide)),
      Nat.ofDigitChars_ten_toDigits]
    rwa [Nat.ofDigitChars_ten_toDigits]
  rw [canonical?, Nat.repr_eq_ofList_toDigits, String.toList_ofList]
  split
  · exact absurd ‹_› Nat.toDigits_ne_nil
  · next eq =>
    have zero : n = 0 := head_toDigits (by rw [eq]; rfl)
    rw [zero] at eq
    simp at eq
  · rw [read]
    rfl

end Decimal

end Evm
