import Evm.Proofs.ModularPowers
import Mathlib.Tactic.Ring

/-!
# Numerals

A byte string is a number, most significant byte first. Strings of one size are ordered as their
numbers are, and no two of them are one number. A number has a single string that does not start
with a zero, and that is its shortest.
-/

namespace Evm

namespace Bytes

variable {value count width : Nat} {bytes other : Bytes}

@[simp] theorem size_ofNat (width value : Nat) : (ofNat width value).size = width := Array.size_ofFn

theorem toNat_ofList (bytes : List UInt8) :
    toNat ⟨bytes⟩ = bytes.foldl (fun value byte => value * 256 + byte.toNat) 0 :=
  (Array.foldl_toList _).symm

theorem foldl_eq (bytes : List UInt8) (value : Nat) :
    bytes.foldl (fun value byte => value * 256 + byte.toNat) value =
      value * 256 ^ bytes.length + toNat ⟨bytes⟩ := by
  induction bytes generalizing value with
  | nil => simp [toNat]
  | cons byte bytes ih =>
    rw [toNat_ofList, List.foldl_cons, List.foldl_cons, ih, ih, List.length_cons, Nat.pow_succ']
    ring

theorem toNat_append (high low : Bytes) :
    toNat (high ++ low) = toNat high * 256 ^ low.size + toNat low := by
  obtain ⟨high⟩ := high
  obtain ⟨low⟩ := low
  have whole : toNat (⟨high⟩ ++ ⟨low⟩) = toNat ⟨high ++ low⟩ := by simp
  rw [whole, toNat_ofList, List.foldl_append, foldl_eq, ← toNat_ofList]
  rfl

theorem toNat_cons (byte : UInt8) (bytes : List UInt8) :
    toNat ⟨byte :: bytes⟩ = byte.toNat * 256 ^ bytes.length + toNat ⟨bytes⟩ := by
  rw [toNat_ofList, List.foldl_cons, foldl_eq, Nat.zero_mul, Nat.zero_add]

theorem mul_add_lt_iff {unit high low high' low' : Nat} (small : low < unit)
    (small' : low' < unit) :
    high * unit + low < high' * unit + low' ↔ high < high' ∨ high = high' ∧ low < low' := by
  rcases Nat.lt_trichotomy high high' with less | rfl | more
  · have apart := Nat.mul_le_mul_right unit less
    rw [Nat.succ_mul] at apart
    omega
  · omega
  · have apart := Nat.mul_le_mul_right unit more
    rw [Nat.succ_mul] at apart
    omega

theorem lt_iff (same : bytes.size = other.size) : bytes < other ↔ toNat bytes < toNat other := by
  obtain ⟨bytes⟩ := bytes
  obtain ⟨other⟩ := other
  change bytes.length = other.length at same
  change bytes < other ↔ _
  -- The two are of one size, so that their first bytes weigh the same.
  induction bytes generalizing other with
  | nil =>
    obtain rfl := List.length_eq_zero_iff.mp same.symm
    simp
  | cons byte bytes ih =>
    cases other with
    | nil => cases same
    | cons byte' other =>
      have same : bytes.length = other.length := Nat.succ.inj same
      have below : toNat ⟨bytes⟩ < 256 ^ other.length := same ▸ toNat_lt ⟨bytes⟩
      rw [List.cons_lt_cons_iff, ih other same, toNat_cons, toNat_cons, same,
        mul_add_lt_iff below (toNat_lt ⟨other⟩), UInt8.lt_iff_toNat_lt, UInt8.toNat_inj]

theorem toNat_inj (same : bytes.size = other.size) (value : toNat bytes = toNat other) :
    bytes = other := by
  have most : ¬ other < bytes := by
    rw [lt_iff same.symm, value]
    exact Nat.lt_irrefl _
  have least : ¬ bytes < other := by
    rw [lt_iff same, value]
    exact Nat.lt_irrefl _
  exact Array.le_antisymm most least

theorem ofNat_toNat (bytes : Bytes) : ofNat bytes.size (toNat bytes) = bytes := by
  apply toNat_inj (size_ofNat ..)
  rw [toNat_ofNat, Nat.mod_eq_of_lt (toNat_lt bytes)]

theorem ofNat_inj {one two : Nat} (small : one < 256 ^ width) (small' : two < 256 ^ width)
    (same : ofNat width one = ofNat width two) : one = two := by
  have values := congrArg toNat same
  rwa [toNat_ofNat, toNat_ofNat, Nat.mod_eq_of_lt small, Nat.mod_eq_of_lt small'] at values

section Parts

variable {high low : Bytes} {size : Nat}

theorem extract_first (fills : high.size = size) : (high ++ low).extract 0 size = high := by
  rw [← fills, Array.extract_append_left, Array.extract_size]

theorem extract_rest (fills : high.size = size) (start stop : Nat) :
    (high ++ low).extract (size + start) (size + stop) = low.extract start stop := by
  have none : high.extract (size + start) (size + stop) = #[] :=
    Array.extract_empty_of_size_le_start (by omega)
  rw [Array.extract_append, none, Array.empty_append, fills, Nat.add_sub_cancel_left,
    Nat.add_sub_cancel_left]

theorem extract_whole (fills : high.size = size) : high.extract 0 size = high := by
  rw [← fills, Array.extract_size]

end Parts

theorem pow_256 (count : Nat) : 256 ^ count = 2 ^ (8 * count) := (Nat.pow_mul 2 8 count).symm

theorem lt_pow_size_minimal (value : Nat) : value < 256 ^ (minimal value).size := by
  rw [minimal, size_ofNat, pow_256]
  split
  · omega
  · exact (Nat.log2_lt ‹_›).mp (by omega)

theorem pow_size_minimal_le (some : value ≠ 0) : 256 ^ ((minimal value).size - 1) ≤ value := by
  rw [minimal, size_ofNat, if_neg some, pow_256]
  calc 2 ^ (8 * (value.log2 / 8 + 1 - 1)) ≤ 2 ^ value.log2 :=
        Nat.pow_le_pow_right (by decide) (by omega)
    _ ≤ value := Nat.log2_self_le some

theorem toNat_minimal (value : Nat) : toNat (minimal value) = value := by
  have fits := lt_pow_size_minimal value
  rw [minimal, size_ofNat] at fits
  rw [minimal, toNat_ofNat, Nat.mod_eq_of_lt fits]

theorem size_minimal_le (fits : value < 256 ^ width) : (minimal value).size ≤ width := by
  by_cases zero : value = 0
  · subst zero
    exact Nat.zero_le width
  · have below := Nat.lt_of_le_of_lt (pow_size_minimal_le zero) fits
    have less := (Nat.pow_lt_pow_iff_right (by decide)).mp below
    omega

def Stripped (bytes : Bytes) : Prop := bytes[0]? ≠ some 0

instance (bytes : Bytes) : Decidable bytes.Stripped := inferInstanceAs (Decidable (_ ≠ _))

theorem Stripped.pow_le (stripped : bytes.Stripped) (some : bytes.size ≠ 0) :
    256 ^ (bytes.size - 1) ≤ toNat bytes := by
  obtain ⟨_ | ⟨byte, bytes⟩⟩ := bytes
  · exact absurd rfl some
  · have positive : 0 < byte.toNat := by
      rw [Nat.pos_iff_ne_zero]
      intro zero
      apply stripped
      rw [show byte = 0 from UInt8.toNat_inj.mp zero]
      rfl
    rw [toNat_cons]
    calc 256 ^ bytes.length ≤ byte.toNat * 256 ^ bytes.length := Nat.le_mul_of_pos_left _ positive
      _ ≤ _ := Nat.le_add_right ..

theorem minimal_stripped (value : Nat) : (minimal value).Stripped := by
  by_cases zero : value = 0
  · subst zero
    exact nofun
  have fills := pow_size_minimal_le zero
  have number := toNat_minimal value
  generalize minimal value = bytes at fills number
  obtain ⟨_ | ⟨byte, bytes⟩⟩ := bytes
  · exact nofun
  · -- A zero in front would leave the value to a byte less.
    intro starts
    obtain rfl : byte = 0 := Option.some.inj starts
    have below := toNat_lt ⟨bytes⟩
    rw [toNat_cons, show UInt8.toNat 0 = 0 from rfl, Nat.zero_mul, Nat.zero_add] at number
    exact absurd fills (Nat.not_le.mpr (number ▸ below))

theorem minimal_toNat (stripped : bytes.Stripped) : minimal (toNat bytes) = bytes := by
  refine toNat_inj (Nat.le_antisymm (size_minimal_le (toNat_lt bytes)) ?_) (toNat_minimal _)
  by_cases some : bytes.size = 0
  · omega
  have below := Nat.lt_of_le_of_lt (stripped.pow_le some) (lt_pow_size_minimal (toNat bytes))
  have less := (Nat.pow_lt_pow_iff_right (by decide)).mp below
  omega

end Bytes

end Evm
