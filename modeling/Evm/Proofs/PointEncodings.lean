import Evm.Precompile.CurveBackend
import Evm.Proofs.Numerals

/-!
# Encodings of points

Bytes are read as a point of the first group exactly if they are the encoding of one that lies on
the curve, so that every point has one encoding. Adding infinity to a point, or taking it once,
gives back the bytes that it was read from.
-/

namespace Evm

open CurveField

theorem Modular.inverse_one {prime : Nat} (proper : 1 < prime) : inverse prime 1 = 1 := by
  rw [inverse, pow_eq, Nat.one_pow, Nat.mod_eq_of_lt proper]

namespace Jacobian

variable {F : Type} [CurveField F] [DecidableEq F] {p : Jacobian F}

theorem infinity_add (p : Jacobian F) : infinity.add p = p := if_pos rfl

theorem add_infinity (finite : p.z ≠ zero) : p.add infinity = p :=
  (if_neg finite).trans (if_pos rfl)

theorem mul_zero (p : Jacobian F) : p.mul 0 = infinity := by
  rw [mul, addMul, dif_pos rfl]

theorem mul_one (p : Jacobian F) : p.mul 1 = p := by
  rw [mul, addMul, dif_neg Nat.one_ne_zero, if_pos rfl, addMul, dif_pos rfl, infinity_add]

end Jacobian

namespace Bn254

variable {bytes other : Bytes} {x y : Fq} {point : Point Fq}

theorem val_inverse (x : Fq) : (inverse x).val = Modular.inverse modulus x.val % modulus := rfl

theorem inverse_one : inverse (one : Fq) = one := by
  have value : (one : Fq).val = 1 := rfl
  apply Fin.ext
  rw [val_inverse, value, Modular.inverse_one (by decide), Nat.mod_eq_of_lt (by decide)]

theorem one_ne_zero : (one : Fq) ≠ zero := by decide

theorem toPoint_ofPoint (point : Point Fq) : (Jacobian.ofPoint point).toPoint = point := by
  cases point with
  | infinity => exact if_pos rfl
  | affine x y =>
    have unit (a : Fq) : a * one = a := Fin.mul_one a
    rw [Jacobian.ofPoint, Jacobian.toPoint, if_neg one_ne_zero]
    simp only [inverse_one, square, unit]

structure GroupLaws (add : Point Fq → Point Fq → Point Fq) (mul : Point Fq → Nat → Point Fq) :
    Prop where
  add_infinity : ∀ {point}, point.isOn b1 → add point .infinity = point
  infinity_add : ∀ {point}, point.isOn b1 → add .infinity point = point
  mul_one : ∀ {point}, point.isOn b1 → mul point 1 = point
  mul_zero : ∀ {point}, point.isOn b1 → mul point 0 = .infinity

theorem point_groupLaws : GroupLaws Point.add Point.mul where
  add_infinity := by
    intro point _
    cases point with
    | infinity => rfl
    | affine x y =>
      rw [Point.add]
      exact (congrArg _ (Jacobian.add_infinity one_ne_zero)).trans (toPoint_ofPoint _)
  infinity_add := by
    intro point _
    exact (congrArg _ (Jacobian.infinity_add _)).trans (toPoint_ofPoint point)
  mul_one := by
    intro point _
    rw [Point.mul, Jacobian.mul_one, toPoint_ofPoint]
  mul_zero := by
    intro point _
    rw [Point.mul, Jacobian.mul_zero]
    exact if_pos rfl

theorem modulus_lt : modulus < 256 ^ 32 := by decide

theorem size_encodeField (x : Fq) : (encodeField x).size = 32 := Bytes.size_ofNat ..

theorem toNat_encodeField (x : Fq) : (encodeField x).toNat = x.val := by
  rw [encodeField, Bytes.toNat_ofNat, Nat.mod_eq_of_lt (x.isLt.trans modulus_lt)]

theorem decodeField_eq_some_iff : decodeField bytes = some x ↔ encodeField x = bytes := by
  unfold decodeField
  dsimp only
  constructor
  · intro decodes
    split at decodes
    · cases decodes
      assumption
    · cases decodes
  · rintro rfl
    have back : Fin.ofNat modulus (encodeField x).toNat = x :=
      Fin.ext (by rw [toNat_encodeField, Fin.val_ofNat, Nat.mod_eq_of_lt x.isLt])
    rw [back, if_pos rfl]

theorem encodeField_eq_iff (size : bytes.size = 32) :
    encodeField x = bytes ↔ x.val = bytes.toNat := by
  constructor
  · rintro rfl
    exact (toNat_encodeField x).symm
  · intro value
    exact Bytes.toNat_inj ((size_encodeField x).trans size.symm)
      ((toNat_encodeField x).trans value)

theorem isOn_affine_iff : (Point.affine x y).isOn b1 = true ↔
    y.val ^ 2 % modulus = (x.val ^ 3 + 3) % modulus := by
  have square : (y * y).val = y.val ^ 2 % modulus := by rw [Fin.val_mul, Nat.pow_two]
  have cube : (x * x * x + b1).val = (x.val ^ 3 + 3) % modulus := by
    rw [Fin.val_add, Fin.val_mul, Fin.val_mul, Nat.mod_mul_mod, Nat.mod_add_mod, Nat.pow_succ,
      Nat.pow_two]
    rfl
  rw [Point.isOn, decide_eq_true_iff, Fin.ext_iff, ← square, ← cube]
  rfl

theorem isZero_iff : isZero bytes = true ↔ bytes = Bytes.zeros bytes.size := by
  rw [isZero, Bytes.zeros, Array.eq_replicate_iff, Array.all_eq_true']
  simp

/-- Only infinity is all zeros, since the curve does not meet the origin. -/
theorem encodeG1_affine_ne (on : (Point.affine x y).isOn b1 = true) :
    encodeG1 (.affine x y) ≠ Bytes.zeros 64 := by
  intro zeros
  have sum := congrArg Bytes.toNat zeros
  rw [encodeG1, Bytes.toNat_append, Bytes.toNat_zeros, toNat_encodeField, toNat_encodeField,
    size_encodeField] at sum
  have first : x.val = 0 := by omega
  have second : y.val = 0 := by omega
  rw [isOn_affine_iff, first, second] at on
  exact absurd on (by decide)

theorem size_encodeG1 (point : Point Fq) : (encodeG1 point).size = 64 := by
  cases point with
  | infinity => exact Array.size_replicate
  | affine x y => rw [encodeG1, Array.size_append, size_encodeField, size_encodeField]

theorem first_affine (x y : Fq) : (encodeG1 (.affine x y)).extract 0 32 = encodeField x :=
  Bytes.extract_first (size_encodeField x)

theorem second_affine (x y : Fq) : (encodeG1 (.affine x y)).extract 32 64 = encodeField y := by
  rw [encodeG1, Bytes.extract_rest (size_encodeField x) 0 32,
    Bytes.extract_whole (size_encodeField y)]

theorem decodeG1_encodeG1 (on : point.isOn b1 = true) :
    decodeG1 (encodeG1 point) = some point := by
  cases point with
  | infinity =>
    have first : (encodeG1 .infinity).extract 0 32 = Bytes.zeros 32 := rfl
    have second : (encodeG1 .infinity).extract 32 64 = Bytes.zeros 32 := rfl
    have whole := Bytes.extract_whole (size_encodeG1 .infinity)
    have none : isZero (encodeG1 .infinity) = true := isZero_iff.mpr rfl
    have half : decodeField (Bytes.zeros 32) = some 0 := decodeField_eq_some_iff.mpr rfl
    rw [decodeG1, first, second, whole, half, Option.bind_eq_bind, Option.bind_some,
      Option.bind_some, if_pos none]
  | affine x y =>
    have whole := Bytes.extract_whole (size_encodeG1 (.affine x y))
    have some : ¬ isZero (encodeG1 (.affine x y)) = true := by
      rw [isZero_iff, size_encodeG1]
      exact encodeG1_affine_ne on
    rw [decodeG1, first_affine, second_affine, whole, decodeField_eq_some_iff.mpr rfl,
      decodeField_eq_some_iff.mpr rfl, Option.bind_eq_bind, Option.bind_some, Option.bind_some,
      if_neg some, if_pos on]

theorem decodeG1_zeros : decodeG1 (Bytes.zeros 64) = some .infinity :=
  show decodeG1 (encodeG1 .infinity) = some .infinity from decodeG1_encodeG1 rfl

theorem halves (size : bytes.size = 64) :
    bytes.extract 0 32 ++ bytes.extract 32 64 = bytes :=
  Array.extract_append_extract.trans (Bytes.extract_whole size)

theorem decodeG1_eq_some_iff (size : bytes.size = 64) :
    decodeG1 bytes = some point ↔ point.isOn b1 = true ∧ encodeG1 point = bytes := by
  constructor
  · intro decodes
    simp only [decodeG1, Option.bind_eq_bind, Option.bind_eq_some_iff, decodeField_eq_some_iff,
      Bytes.extract_whole size] at decodes
    obtain ⟨x, first, y, second, decodes⟩ := decodes
    split at decodes
    · rename_i zeros
      cases decodes
      rw [isZero_iff, size] at zeros
      exact ⟨rfl, zeros.symm⟩
    · split at decodes
      · rename_i on
        cases decodes
        exact ⟨on, by rw [encodeG1, first, second, halves size]⟩
      · cases decodes
  · rintro ⟨on, rfl⟩
    exact decodeG1_encodeG1 on

def xOf (bytes : Bytes) : Nat := Bytes.toNat (bytes.extract 0 32)

def yOf (bytes : Bytes) : Nat := Bytes.toNat (bytes.extract 32 64)

/-- Both halves are below the modulus, and make a point of the curve unless they are all zeros. -/
structure Canonical (bytes : Bytes) : Prop where
  x_lt : xOf bytes < modulus
  y_lt : yOf bytes < modulus
  on : bytes = Bytes.zeros 64 ∨ yOf bytes ^ 2 % modulus = (xOf bytes ^ 3 + 3) % modulus

theorem canonical_encodeG1 (on : point.isOn b1 = true) : Canonical (encodeG1 point) := by
  cases point with
  | infinity => exact ⟨by decide, by decide, .inl rfl⟩
  | affine x y =>
    have first : xOf (encodeG1 (.affine x y)) = x.val := by
      rw [xOf, first_affine, toNat_encodeField]
    have second : yOf (encodeG1 (.affine x y)) = y.val := by
      rw [yOf, second_affine, toNat_encodeField]
    refine ⟨first ▸ x.isLt, second ▸ y.isLt, .inr ?_⟩
    rw [first, second]
    exact isOn_affine_iff.mp on

theorem Canonical.exists_point (size : bytes.size = 64) (canonical : Canonical bytes) :
    ∃ point : Point Fq, point.isOn b1 = true ∧ encodeG1 point = bytes := by
  obtain ⟨below, below', zeros | on⟩ := canonical
  · exact ⟨.infinity, rfl, zeros.symm⟩
  · have size₁ : (bytes.extract 0 32).size = 32 := by rw [Array.size_extract, size]; rfl
    have size₂ : (bytes.extract 32 64).size = 32 := by rw [Array.size_extract, size]; rfl
    have first := (encodeField_eq_iff (x := ⟨_, below⟩) size₁).mpr rfl
    have second := (encodeField_eq_iff (x := ⟨_, below'⟩) size₂).mpr rfl
    exact ⟨.affine ⟨_, below⟩ ⟨_, below'⟩, isOn_affine_iff.mpr on,
      by rw [encodeG1, first, second, halves size]⟩

theorem isSome_decodeG1_iff (size : bytes.size = 64) :
    (decodeG1 bytes).isSome ↔ Canonical bytes := by
  rw [Option.isSome_iff_exists]
  simp only [decodeG1_eq_some_iff size]
  constructor
  · rintro ⟨point, on, rfl⟩
    exact canonical_encodeG1 on
  · exact Canonical.exists_point size

variable {add : Point Fq → Point Fq → Point Fq} {mul : Point Fq → Nat → Point Fq}

theorem addBytesBy_append (first : bytes.size = 64) (second : other.size = 64) :
    addBytesBy add (bytes ++ other) =
      ((decodeG1 bytes).bind fun p =>
        (decodeG1 other).map fun q => encodeG1 (add p q)).getD #[] := by
  rw [addBytesBy, Bytes.extract_first first, Bytes.extract_rest first 0 64,
    Bytes.extract_whole second]
  cases decodeG1 bytes <;> cases decodeG1 other <;> rfl

theorem mulBytesBy_append {scalar : Nat} (size : bytes.size = 64) (small : scalar < order) :
    mulBytesBy mul (bytes ++ Bytes.ofNat 32 scalar) =
      ((decodeG1 bytes).map fun p => encodeG1 (mul p scalar)).getD #[] := by
  have fits : order < 256 ^ 32 := by decide
  rw [mulBytesBy, Bytes.extract_first size, Bytes.extract_rest size 0 32,
    Bytes.extract_whole (Bytes.size_ofNat ..), Bytes.toNat_ofNat,
    Nat.mod_eq_of_lt (small.trans fits), Nat.mod_eq_of_lt small]
  cases decodeG1 bytes <;> rfl

/-- Infinity is neutral in the sums of byte strings, and a point is taken once and not at all. -/
structure Neutral (sum multiple : Bytes → Bytes) : Prop where
  last : ∀ {bytes : Bytes}, bytes.size = 64 → (decodeG1 bytes).isSome →
    sum (bytes ++ Bytes.zeros 64) = bytes
  first : ∀ {bytes : Bytes}, bytes.size = 64 → (decodeG1 bytes).isSome →
    sum (Bytes.zeros 64 ++ bytes) = bytes
  once : ∀ {bytes : Bytes}, bytes.size = 64 → (decodeG1 bytes).isSome →
    multiple (bytes ++ Bytes.ofNat 32 1) = bytes
  never : ∀ {bytes : Bytes}, bytes.size = 64 → (decodeG1 bytes).isSome →
    multiple (bytes ++ Bytes.ofNat 32 0) = Bytes.zeros 64
  rejected : ∀ {bytes : Bytes}, bytes.size = 64 → decodeG1 bytes = none →
    sum (bytes ++ Bytes.zeros 64) = #[] ∧ sum (Bytes.zeros 64 ++ bytes) = #[] ∧
      multiple (bytes ++ Bytes.ofNat 32 1) = #[] ∧ multiple (bytes ++ Bytes.ofNat 32 0) = #[]

theorem GroupLaws.neutral (laws : GroupLaws add mul) :
    Neutral (addBytesBy add) (mulBytesBy mul) := by
  have infinity := decodeG1_zeros
  have size₀ : (Bytes.zeros 64).size = 64 := Array.size_replicate
  have read {bytes : Bytes} (size : bytes.size = 64) (reads : (decodeG1 bytes).isSome) :
      ∃ point, decodeG1 bytes = some point ∧ point.isOn b1 = true ∧ encodeG1 point = bytes := by
    obtain ⟨point, decodes⟩ := Option.isSome_iff_exists.mp reads
    exact ⟨point, decodes, (decodeG1_eq_some_iff size).mp decodes⟩
  have one : 1 < order := by decide
  have zero : 0 < order := by decide
  constructor
  case last =>
    intro bytes size reads
    obtain ⟨point, decodes, on, encodes⟩ := read size reads
    rw [addBytesBy_append size size₀, decodes, infinity]
    exact (congrArg encodeG1 (laws.add_infinity on)).trans encodes
  case first =>
    intro bytes size reads
    obtain ⟨point, decodes, on, encodes⟩ := read size reads
    rw [addBytesBy_append size₀ size, decodes, infinity]
    exact (congrArg encodeG1 (laws.infinity_add on)).trans encodes
  case once =>
    intro bytes size reads
    obtain ⟨point, decodes, on, encodes⟩ := read size reads
    rw [mulBytesBy_append size one, decodes]
    exact (congrArg encodeG1 (laws.mul_one on)).trans encodes
  case never =>
    intro bytes size reads
    obtain ⟨point, decodes, on, -⟩ := read size reads
    rw [mulBytesBy_append size zero, decodes]
    exact congrArg encodeG1 (laws.mul_zero on)
  case rejected =>
    intro bytes size rejects
    rw [addBytesBy_append size size₀, addBytesBy_append size₀ size, mulBytesBy_append size one,
      mulBytesBy_append size zero, rejects, infinity]
    exact ⟨rfl, rfl, rfl, rfl⟩

theorem backend_neutral : Neutral backend.add backend.mul := by
  unfold backend addBytes mulBytes
  dsimp only
  exact point_groupLaws.neutral

structure PointsEncodedOnce : Prop where
  accepts : ∀ {bytes : Bytes}, bytes.size = 64 → ((decodeG1 bytes).isSome ↔ Canonical bytes)
  encodes : ∀ {bytes : Bytes} {point : Point Fq}, bytes.size = 64 →
    decodeG1 bytes = some point → encodeG1 point = bytes
  once : ∀ {bytes other : Bytes} {point : Point Fq}, bytes.size = 64 → other.size = 64 →
    decodeG1 bytes = some point → decodeG1 other = some point → bytes = other
  /-- No point of the curve is without an encoding. -/
  covers : ∀ {point : Point Fq}, point.isOn b1 →
    (encodeG1 point).size = 64 ∧ decodeG1 (encodeG1 point) = some point
  /-- Whatever forms sums and multiples, as long as infinity is neutral. -/
  neutral : ∀ {add : Point Fq → Point Fq → Point Fq} {mul : Point Fq → Nat → Point Fq},
    GroupLaws add mul → Neutral (addBytesBy add) (mulBytesBy mul)
  backend : Neutral backend.add backend.mul

theorem points_encodedOnce : PointsEncodedOnce where
  accepts := isSome_decodeG1_iff
  encodes size decodes := ((decodeG1_eq_some_iff size).mp decodes).2
  once := by
    intro bytes other point size size' decodes decodes'
    have same := ((decodeG1_eq_some_iff size).mp decodes).2
    exact same.symm.trans ((decodeG1_eq_some_iff size').mp decodes').2
  covers on := ⟨size_encodeG1 _, decodeG1_encodeG1 on⟩
  neutral laws := laws.neutral
  backend := backend_neutral

def generator : Point Fq := .affine 1 2

/-- The generator is read from its encoding, but not from one with the modulus added. -/
theorem points_encodedOnce_generator :
    backend.add (encodeG1 generator ++ Bytes.zeros 64) = encodeG1 generator ∧
      backend.mul (encodeG1 generator ++ Bytes.ofNat 32 1) = encodeG1 generator ∧
      ¬ (decodeG1 (Bytes.ofNat 32 (1 + modulus) ++ Bytes.ofNat 32 2)).isSome := by
  have on : generator.isOn b1 = true := by decide
  obtain ⟨size, reads⟩ := points_encodedOnce.covers on
  have isSome := Option.isSome_of_mem reads
  refine ⟨points_encodedOnce.backend.last size isSome, points_encodedOnce.backend.once size isSome,
    ?_⟩
  rw [points_encodedOnce.accepts (by simp)]
  rintro ⟨below, -, -⟩
  rw [xOf, Bytes.extract_first (Bytes.size_ofNat ..), Bytes.toNat_ofNat] at below
  exact absurd below (by decide)

end Bn254

end Evm
