import Evm.Proofs.Numerals
import Evm.Proofs.RoundTrips
import Mathlib.Data.List.TakeWhile

/-!
# Grammars of texts

Which texts are read as words, addresses and byte strings, and as which. Their digits are in base 16
and of either case, behind marks; the kinds differ in how many marks and digits they take, and in
whether blanks may stand around them.
-/

namespace Evm

/-! ## Digits -/

namespace Hex

variable {c : Char} {text other digits : List Char} {bytes all : Bytes}

def alphabet : List Char := "0123456789abcdefABCDEF".toList

def IsDigit (c : Char) : Prop := c ∈ alphabet

instance : DecidablePred IsDigit := fun c => inferInstanceAs (Decidable (c ∈ alphabet))

/-- The value of a digit; a capital weighs as its small letter does. -/
def weight (c : Char) : Nat := alphabet.idxOf c.toLower

def number : List Char → Nat
  | [] => 0
  | c :: rest => weight c * 16 ^ rest.length + number rest

def lowerDigit (c : Char) : Char := if IsDigit c then c.toLower else c

theorem forall_of_all {P : Char → Prop} [DecidablePred P] (all : text.all (P ·) = true) :
    ∀ c ∈ text, P c :=
  fun c mem => of_decide_eq_true (List.all_eq_true.mp all c mem)

theorem digit?_of_isDigit : ∀ c, IsDigit c → digit? c = some (weight c) :=
  forall_of_all (by decide)

theorem weight_lt : ∀ c, IsDigit c → weight c < 16 := forall_of_all (by decide)

theorem isDigit_of_digit? {value : Nat} (reads : digit? c = some value) : IsDigit c := by
  have places : ∀ n < 103, (48 ≤ n ∧ n ≤ 57) ∨ (97 ≤ n ∧ n ≤ 102) ∨ (65 ≤ n ∧ n ≤ 70) →
      Char.ofNat n ∈ alphabet := by decide +kernel
  have inside : (48 ≤ c.toNat ∧ c.toNat ≤ 57) ∨ (97 ≤ c.toNat ∧ c.toNat ≤ 102) ∨
      (65 ≤ c.toNat ∧ c.toNat ≤ 70) := by
    unfold digit? at reads
    grind
  have known := places c.toNat (by omega) inside
  rwa [Char.ofNat_toNat] at known

theorem digit?_eq_some_iff {value : Nat} :
    digit? c = some value ↔ IsDigit c ∧ value = weight c := by
  constructor
  · intro reads
    have digit := isDigit_of_digit? reads
    exact ⟨digit, Option.some.inj (reads.symm.trans (digit?_of_isDigit c digit))⟩
  · rintro ⟨digit, rfl⟩
    exact digit?_of_isDigit c digit

theorem number_lt (digits : ∀ c ∈ text, IsDigit c) : number text < 16 ^ text.length := by
  induction text with
  | nil => exact Nat.one_pos
  | cons c rest ih =>
    have below := ih fun c mem => digits c (List.mem_cons_of_mem _ mem)
    have weighs := weight_lt c (digits c List.mem_cons_self)
    have first := Nat.mul_le_mul_right (16 ^ rest.length) weighs
    rw [Nat.succ_mul] at first
    rw [number, List.length_cons, Nat.pow_succ']
    omega

/-! ## Marks -/

def Marked (text digits : List Char) : Prop :=
  (∃ count, text = (List.replicate count ['0', 'x']).flatten ++ digits) ∧ ∀ c ∈ digits, IsDigit c

theorem dropMarks_marks (count : Nat) (digits : ∀ c ∈ text, IsDigit c) :
    dropMarks ((List.replicate count ['0', 'x']).flatten ++ text) = text := by
  induction count with
  | zero =>
    exact dropMarks_digits fun c mem => by
      rw [digit?_of_isDigit c (digits c mem), Option.isSome_some]
  | succ count ih => exact ih

theorem marks_dropMarks (text : List Char) :
    ∃ count, text = (List.replicate count ['0', 'x']).flatten ++ dropMarks text := by
  fun_induction dropMarks text with
  | case1 rest ih =>
    obtain ⟨count, marks⟩ := ih
    exact ⟨count + 1, congrArg ('0' :: 'x' :: ·) marks⟩
  | case2 text unmarked => exact ⟨0, rfl⟩

theorem marked_iff : Marked text digits ↔ dropMarks text = digits ∧ ∀ c ∈ digits, IsDigit c := by
  constructor
  · rintro ⟨⟨count, rfl⟩, all⟩
    exact ⟨dropMarks_marks count all, all⟩
  · rintro ⟨rfl, all⟩
    exact ⟨marks_dropMarks text, all⟩

/-! ## Case -/

theorem lowerDigit_cases {P : Char → Char → Prop} (same : ∀ c, P c c)
    (digit : ∀ c, IsDigit c → P c (lowerDigit c)) (c : Char) : P c (lowerDigit c) := by
  by_cases known : IsDigit c
  · exact digit c known
  · rw [lowerDigit, if_neg known]
    exact same c

theorem isDigit_lowerDigit (c : Char) : IsDigit (lowerDigit c) ↔ IsDigit c :=
  lowerDigit_cases (P := fun c d => IsDigit d ↔ IsDigit c) (fun _ => Iff.rfl)
    (forall_of_all (by decide)) c

theorem weight_lowerDigit (c : Char) : weight (lowerDigit c) = weight c :=
  lowerDigit_cases (P := fun c d => weight d = weight c) (fun _ => rfl)
    (forall_of_all (by decide)) c

theorem isBlank_lowerDigit (c : Char) : Text.isBlank (lowerDigit c) = Text.isBlank c :=
  lowerDigit_cases (P := fun c d => Text.isBlank d = Text.isBlank c) (fun _ => rfl)
    (forall_of_all (by decide)) c

theorem lowerDigit_eq_mark (c : Char) :
    (lowerDigit c = '0' → c = '0') ∧ (lowerDigit c = 'x' → c = 'x') :=
  lowerDigit_cases (P := fun c d => (d = '0' → c = '0') ∧ (d = 'x' → c = 'x'))
    (fun _ => ⟨id, id⟩) (forall_of_all (by decide)) c

theorem dropMarks_map (text : List Char) :
    dropMarks (text.map lowerDigit) = (dropMarks text).map lowerDigit := by
  fun_induction dropMarks text with
  | case1 rest ih => exact ih
  | case2 text unmarked =>
    unfold dropMarks
    split
    · rename_i rest lowered
      obtain ⟨zero, text, rfl, isZero, lowered⟩ := List.map_eq_cons_iff.mp lowered
      obtain ⟨cross, text, rfl, isCross, lowered⟩ := List.map_eq_cons_iff.mp lowered
      obtain rfl := (lowerDigit_eq_mark zero).1 isZero
      obtain rfl := (lowerDigit_eq_mark cross).2 isCross
      exact absurd rfl (unmarked text)
    · rfl

/-- The same characters, but for the case of digits. -/
def Alike (text other : List Char) : Prop := text.map lowerDigit = other.map lowerDigit

theorem Alike.symm (alike : Alike text other) : Alike other text := Eq.symm alike

theorem Alike.length_eq (alike : Alike text other) : text.length = other.length := by
  rw [← List.length_map lowerDigit, alike, List.length_map]

theorem number_map (text : List Char) : number (text.map lowerDigit) = number text := by
  induction text with
  | nil => rfl
  | cons c rest ih => rw [List.map_cons, number, number, weight_lowerDigit, List.length_map, ih]

theorem Alike.number_eq (alike : Alike text other) : number text = number other := by
  rw [← number_map, alike, number_map]

theorem Alike.isDigit (alike : Alike text other) (digits : ∀ c ∈ text, IsDigit c) :
    ∀ c ∈ other, IsDigit c := by
  intro c mem
  have lowered : lowerDigit c ∈ text.map lowerDigit := alike ▸ List.mem_map_of_mem mem
  obtain ⟨d, mem, same⟩ := List.mem_map.mp lowered
  rw [← isDigit_lowerDigit, ← same, isDigit_lowerDigit]
  exact digits d mem

theorem Alike.marked (alike : Alike text other) (marked : Marked text digits) :
    ∃ digits', Marked other digits' ∧ Alike digits digits' := by
  obtain ⟨rfl, all⟩ := marked_iff.mp marked
  have rest : Alike (dropMarks text) (dropMarks other) := by
    rw [Alike, ← dropMarks_map, alike, dropMarks_map]
  exact ⟨_, marked_iff.mpr ⟨rfl, rest.isDigit all⟩, rest⟩

/-! ## Values of digits -/

theorem mapM_digit?_iff {values : List Nat} :
    text.mapM digit? = some values ↔ (∀ c ∈ text, IsDigit c) ∧ values = text.map weight := by
  induction text generalizing values with
  | nil => simp [eq_comm]
  | cons c rest ih =>
    simp only [List.mapM_cons, Option.bind_eq_bind, Option.bind_eq_some_iff, digit?_eq_some_iff, ih,
      List.forall_mem_cons, List.map_cons]
    constructor
    · rintro ⟨_, ⟨digit, rfl⟩, _, ⟨digits, rfl⟩, whole⟩
      exact ⟨⟨digit, digits⟩, (Option.some.inj whole).symm⟩
    · rintro ⟨⟨digit, digits⟩, rfl⟩
      exact ⟨_, ⟨digit, rfl⟩, _, ⟨digits, rfl⟩, rfl⟩

theorem foldl_weight (text : List Char) (value : Nat) :
    (text.map weight).foldl (fun value digit => 16 * value + digit) value =
      value * 16 ^ text.length + number text := by
  induction text generalizing value with
  | nil => simp [number]
  | cons c rest ih =>
    rw [List.map_cons, List.foldl_cons, ih, number, List.length_cons, Nat.pow_succ']
    ring

/-- The bytes that digits denote: one for each two digits, with the same value. -/
def Denotes (digits : List Char) (bytes : Bytes) : Prop :=
  digits.length = 2 * bytes.size ∧ bytes.toNat = number digits

theorem Denotes.unique {bytes' : Bytes} (denotes : Denotes digits bytes)
    (denotes' : Denotes digits bytes') : bytes = bytes' := by
  obtain ⟨length, value⟩ := denotes
  obtain ⟨length', value'⟩ := denotes'
  exact Bytes.toNat_inj (by omega) (value.trans value'.symm)

theorem Denotes.cons {c d : Char} {byte : UInt8} {more : List UInt8}
    (denotes : Denotes text ⟨more⟩) (value : byte.toNat = 16 * weight c + weight d) :
    Denotes (c :: d :: text) ⟨byte :: more⟩ := by
  obtain ⟨length, rest⟩ := denotes
  change text.length = 2 * more.length at length
  constructor
  · change text.length + 1 + 1 = 2 * (more.length + 1)
    omega
  · rw [Bytes.toNat_cons, value, rest, number, number, List.length_cons, Nat.pow_succ', length,
      Nat.pow_mul]
    ring

theorem decodePairs_of_digits (position : Nat) (bytes : Bytes) (digits : ∀ c ∈ text, IsDigit c)
    (even : text.length % 2 = 0) : ∃ all, decodePairs position bytes text = .ok all := by
  fun_induction decodePairs position bytes text with
  | case1 => exact ⟨_, rfl⟩
  | case2 | case3 => cases even
  | case4 _ _ c _ _ unread =>
    rw [digit?_of_isDigit c (digits c (by simp))] at unread
    cases unread
  | case5 _ _ _ d _ _ unread _ =>
    rw [digit?_of_isDigit d (digits d (by simp))] at unread
    cases unread
  | case6 _ _ _ _ _ _ _ _ _ ih =>
    rw [List.length_cons, List.length_cons] at even
    exact ih (fun e mem => digits e (by simp [mem])) (by omega)

theorem digits_of_decodePairs {position : Nat} (reads : decodePairs position bytes text = .ok all) :
    (∀ c ∈ text, IsDigit c) ∧ ∃ more, all = bytes ++ more.toArray ∧ Denotes text ⟨more⟩ := by
  fun_induction decodePairs position bytes text with
  | case1 =>
    cases reads
    exact ⟨nofun, [], by simp, rfl, rfl⟩
  | case6 position bytes c d rest high low isLow isHigh ih =>
    obtain ⟨digits, more, rfl, denotes⟩ := ih reads
    obtain ⟨isDigit, rfl⟩ := digit?_eq_some_iff.mp isHigh
    obtain ⟨isDigit', rfl⟩ := digit?_eq_some_iff.mp isLow
    have few := weight_lt c isDigit
    have few' := weight_lt d isDigit'
    have value : (UInt8.ofNat (16 * weight c + weight d)).toNat = 16 * weight c + weight d := by
      rw [UInt8.toNat_ofNat', Nat.mod_eq_of_lt (by omega)]
    exact ⟨by simpa using ⟨isDigit, isDigit', digits⟩, _ :: more, by simp, denotes.cons value⟩
  | _ => cases reads

theorem utf8Len_of_digits (digits : ∀ c ∈ text, IsDigit c) :
    String.utf8Len text = text.length := by
  have sizes : ∀ c ∈ alphabet, c.utf8Size = 1 := forall_of_all (by decide)
  induction text with
  | nil => rfl
  | cons c rest ih =>
    rw [String.utf8Len, ih fun c mem => digits c (List.mem_cons_of_mem _ mem),
      sizes c (digits c List.mem_cons_self), List.length_cons]

theorem length_marks (count : Nat) :
    (List.replicate count ['0', 'x']).flatten.length = 2 * count := by
  simp [Nat.mul_comm]

theorem utf8Len_of_marked (marked : Marked text digits) : String.utf8Len text = text.length := by
  obtain ⟨⟨count, rfl⟩, all⟩ := marked
  have marks : String.utf8Len (List.replicate count ['0', 'x']).flatten = 2 * count := by
    induction count with
    | zero => rfl
    | succ count ih =>
      rw [List.replicate_succ, List.flatten_cons, String.utf8Len_append, ih]
      exact (Nat.add_comm 2 _).trans (Nat.mul_succ 2 count).symm
  rw [String.utf8Len_append, marks, utf8Len_of_digits all, List.length_append, length_marks]

theorem decode_eq_ok_iff :
    decode text = .ok bytes ↔ (∀ c ∈ text, IsDigit c) ∧ Denotes text bytes := by
  have sound {bytes : Bytes} (reads : decodePairs 0 #[] text = .ok bytes) :
      (∀ c ∈ text, IsDigit c) ∧ Denotes text bytes := by
    obtain ⟨digits, more, rfl, denotes⟩ := digits_of_decodePairs reads
    exact ⟨digits, by simpa using denotes⟩
  constructor
  · intro reads
    unfold decode at reads
    split at reads
    · exact sound reads
    · cases reads
  · rintro ⟨digits, denotes⟩
    have even : text.length % 2 = 0 := by rw [denotes.1, Nat.mul_mod_right]
    obtain ⟨all, reads⟩ := decodePairs_of_digits 0 #[] digits even
    rw [decode, Text.byteLength_eq, utf8Len_of_digits digits, if_pos even, reads,
      denotes.unique (sound reads).2]

end Hex

/-! ## Blanks -/

namespace Text

variable {text other core digits : List Char} {Form : List Char → List Char → Prop}

def Padded (Form : List Char → List Char → Prop) (text digits : List Char) : Prop :=
  ∃ before core after, text = before ++ core ++ after ∧
    (∀ c ∈ before, isBlank c) ∧ (∀ c ∈ after, isBlank c) ∧ Form core digits

theorem dropWhile_solid (solid : ∀ c ∈ core, isBlank c = false) :
    core.dropWhile isBlank = core := by
  cases core with
  | nil => rfl
  | cons c rest =>
    exact List.dropWhile_cons_of_neg (by rw [solid c List.mem_cons_self]; exact nofun)

theorem trim_padded {before after : List Char} (blank : ∀ c ∈ before, isBlank c)
    (blank' : ∀ c ∈ after, isBlank c) (solid : ∀ c ∈ core, isBlank c = false) :
    trim (before ++ core ++ after) = core := by
  have front : (core ++ after).reverse.dropWhile isBlank = core.reverse := by
    rw [List.reverse_append,
      List.dropWhile_append_of_pos fun c mem => blank' c (List.mem_reverse.mp mem),
      dropWhile_solid fun c mem => solid c (List.mem_reverse.mp mem)]
  rw [trim, List.append_assoc, List.dropWhile_append_of_pos blank]
  cases core with
  | nil =>
    have none : after.dropWhile isBlank = [] := List.dropWhile_eq_nil_iff.mpr blank'
    rw [List.nil_append, none]
    rfl
  | cons c rest =>
    have head : ((c :: rest) ++ after).dropWhile isBlank = (c :: rest) ++ after :=
      List.dropWhile_cons_of_neg (by rw [solid c List.mem_cons_self]; exact nofun)
    rw [head, front, List.reverse_reverse]

theorem blanks_trim (text : List Char) : ∃ before after, text = before ++ trim text ++ after ∧
    (∀ c ∈ before, isBlank c) ∧ (∀ c ∈ after, isBlank c) := by
  refine ⟨text.takeWhile isBlank, ((text.dropWhile isBlank).reverse.takeWhile isBlank).reverse,
    ?_, fun c mem => List.mem_takeWhile_imp mem,
    fun c mem => List.mem_takeWhile_imp (List.mem_reverse.mp mem)⟩
  rw [trim, List.append_assoc, ← List.reverse_append, List.takeWhile_append_dropWhile,
    List.reverse_reverse, List.takeWhile_append_dropWhile]

theorem padded_iff (solid : ∀ {core}, Form core digits → ∀ c ∈ core, isBlank c = false) :
    Padded Form text digits ↔ Form (trim text) digits := by
  constructor
  · rintro ⟨before, core, after, rfl, blank, blank', form⟩
    rwa [trim_padded blank blank' (solid form)]
  · intro form
    obtain ⟨before, after, whole, blank, blank'⟩ := blanks_trim text
    exact ⟨before, trim text, after, whole, blank, blank', form⟩

theorem trim_map (text : List Char) :
    trim (text.map Hex.lowerDigit) = (trim text).map Hex.lowerDigit := by
  have same : isBlank ∘ Hex.lowerDigit = isBlank := funext Hex.isBlank_lowerDigit
  rw [trim, List.dropWhile_map, same, ← List.map_reverse, List.dropWhile_map, same,
    ← List.map_reverse]
  rfl

end Text

/-! ## Readers -/

open Hex

/-- How the values of a kind stand in texts, for a reader and a writer of them. -/
structure Spelling {α : Type} (Reads : String → α → Prop) (write : α → String)
    (Form : List Char → List Char → Prop) (Denotes : List Char → α → Prop) : Prop where
  reads_iff : ∀ {text : String} {value : α},
    Reads text value ↔ ∃ digits, Form text.toList digits ∧ Denotes digits value
  /-- A text of the form is read, and no other. -/
  accepts : ∀ text : String, (∃ value, Reads text value) ↔ ∃ digits, Form text.toList digits
  caseless : ∀ {text other : String} {value : α},
    Alike text.toList other.toList → (Reads text value ↔ Reads other value)
  written : ∀ value : α, Reads (write value) value

theorem toOption_eq_some_iff {ε α : Type} {result : Except ε α} {value : α} :
    result.toOption = some value ↔ result = .ok value := by
  cases result with
  | ok => rw [Except.ok.injEq, Except.toOption, Option.some_inj]
  | error => exact iff_of_false nofun nofun

namespace Spelling

variable {α : Type} {Reads Reads' : String → α → Prop} {write : α → String}
  {Form : List Char → List Char → Prop} {Denotes : List Char → α → Prop}

/-- The digits of a form have a value, and a change of case keeps the form and the value. -/
theorem of_reads_iff
    (reads_iff : ∀ {text value},
      Reads text value ↔ ∃ digits, Form text.toList digits ∧ Denotes digits value)
    (valued : ∀ {text digits}, Form text digits → ∃ value, Denotes digits value)
    (form : ∀ {text other digits}, Alike text other → Form text digits →
      ∃ digits', Form other digits' ∧ Alike digits digits')
    (same : ∀ {digits digits' value}, Alike digits digits' → Denotes digits value →
      Denotes digits' value)
    (written : ∀ value, Reads (write value) value) : Spelling Reads write Form Denotes where
  reads_iff := reads_iff
  accepts := by
    intro text
    constructor
    · rintro ⟨value, reads⟩
      obtain ⟨digits, spelled, -⟩ := reads_iff.mp reads
      exact ⟨digits, spelled⟩
    · rintro ⟨digits, spelled⟩
      obtain ⟨value, denotes⟩ := valued spelled
      exact ⟨value, reads_iff.mpr ⟨digits, spelled, denotes⟩⟩
  caseless := by
    have onward {text other : String} {value : α} (alike : Alike text.toList other.toList)
        (reads : Reads text value) : Reads other value := by
      obtain ⟨digits, spelled, denotes⟩ := reads_iff.mp reads
      obtain ⟨digits', spelled', alike'⟩ := form alike spelled
      exact reads_iff.mpr ⟨digits', spelled', same alike' denotes⟩
    intro text other value alike
    exact ⟨onward alike, onward alike.symm⟩
  written := written

theorem congr (spelling : Spelling Reads write Form Denotes)
    (same : ∀ {text value}, Reads' text value ↔ Reads text value) :
    Spelling Reads' write Form Denotes where
  reads_iff := same.trans spelling.reads_iff
  accepts text := (exists_congr fun _ => same).trans (spelling.accepts text)
  caseless alike := same.trans ((spelling.caseless alike).trans same.symm)
  written value := same.mpr (spelling.written value)

end Spelling

namespace Word

def Form (text digits : List Char) : Prop := Marked text digits ∧ digits.length ≤ 64

theorem number_lt_of_form {text digits : List Char} (form : Form text digits) :
    number digits < 2 ^ 256 := by
  obtain ⟨⟨-, all⟩, short⟩ := form
  calc number digits < 16 ^ digits.length := number_lt all
    _ ≤ 16 ^ 64 := Nat.pow_le_pow_right (by decide) short

theorem ofText_eq_ok_iff {text : String} {word : Word} :
    ofText text = .ok word ↔ ∃ digits, Form text.toList digits ∧ word.toNat = number digits := by
  constructor
  · intro reads
    unfold ofText at reads
    dsimp only at reads
    split at reads
    · rename_i values each
      obtain ⟨all, rfl⟩ := mapM_digit?_iff.mp each
      split at reads
      · rename_i short
        have form : Form text.toList (dropMarks text.toList) := ⟨marked_iff.mpr ⟨rfl, all⟩, short⟩
        cases reads
        refine ⟨_, form, ?_⟩
        rw [BitVec.toNat_ofNat, foldl_weight, Nat.zero_mul, Nat.zero_add,
          Nat.mod_eq_of_lt (number_lt_of_form form)]
      · cases reads
    · cases reads
  · rintro ⟨digits, ⟨marked, short⟩, value⟩
    obtain ⟨rest, all⟩ := marked_iff.mp marked
    unfold ofText
    simp only [rest, mapM_digit?_iff.mpr ⟨all, rfl⟩, if_pos short, foldl_weight, Nat.zero_mul,
      Nat.zero_add, ← value, BitVec.ofNat_toNat, BitVec.setWidth_eq]

theorem ofText_spelling :
    Spelling (fun text word => ofText text = .ok word) toText Form
      (fun digits word => word.toNat = number digits) := by
  refine .of_reads_iff ofText_eq_ok_iff ?_ ?_ ?_ ofText_toText
  · intro text digits form
    refine ⟨BitVec.ofNat 256 (number digits), ?_⟩
    rw [BitVec.toNat_ofNat, Nat.mod_eq_of_lt (number_lt_of_form form)]
  · rintro text other digits alike ⟨marked, short⟩
    obtain ⟨digits', marked', alike'⟩ := alike.marked marked
    exact ⟨digits', ⟨marked', alike'.length_eq ▸ short⟩, alike'⟩
  · intro digits digits' word alike value
    rw [value, alike.number_eq]

end Word

namespace Bytes

/-- Any number of marks, and two digits for each byte. -/
def Form (text digits : List Char) : Prop := Marked text digits ∧ digits.length % 2 = 0

theorem form_alike {text other digits : List Char} (alike : Alike text other)
    (form : Form text digits) : ∃ digits', Form other digits' ∧ Alike digits digits' := by
  obtain ⟨marked, even⟩ := form
  obtain ⟨digits', marked', alike'⟩ := alike.marked marked
  exact ⟨digits', ⟨marked', alike'.length_eq ▸ even⟩, alike'⟩

theorem exists_denotes {text digits : List Char} (form : Form text digits) :
    ∃ bytes, Denotes digits bytes := by
  obtain ⟨⟨-, all⟩, even⟩ := form
  have length : digits.length = 2 * (digits.length / 2) := by omega
  have small : number digits < 256 ^ (digits.length / 2) := by
    have below := number_lt all
    rwa [length, Nat.pow_mul] at below
  refine ⟨ofNat (digits.length / 2) (number digits), ?_, ?_⟩
  · rwa [size_ofNat]
  · rw [toNat_ofNat, Nat.mod_eq_of_lt small]

theorem denotes_alike {digits digits' : List Char} {bytes : Bytes} (alike : Alike digits digits')
    (denotes : Denotes digits bytes) : Denotes digits' bytes :=
  ⟨alike.length_eq ▸ denotes.1, alike.number_eq ▸ denotes.2⟩

theorem decode_dropMarks_iff {text : List Char} {bytes : Bytes} :
    decode (dropMarks text) = .ok bytes ↔ ∃ digits, Form text digits ∧ Denotes digits bytes := by
  rw [decode_eq_ok_iff]
  constructor
  · rintro ⟨all, denotes⟩
    exact ⟨_, ⟨marked_iff.mpr ⟨rfl, all⟩, by rw [denotes.1, Nat.mul_mod_right]⟩, denotes⟩
  · rintro ⟨digits, ⟨marked, -⟩, denotes⟩
    obtain ⟨rfl, all⟩ := marked_iff.mp marked
    exact ⟨all, denotes⟩

theorem form_solid {text digits : List Char} (form : Form text digits) :
    ∀ c ∈ text, Text.isBlank c = false := by
  have solid : ∀ c ∈ alphabet, Text.isBlank c = false := forall_of_all (by decide)
  obtain ⟨⟨⟨count, rfl⟩, all⟩, -⟩ := form
  intro c mem
  rcases List.mem_append.mp mem with mem | mem
  · obtain ⟨mark, marks, mem⟩ := List.mem_flatten.mp mem
    rw [List.eq_of_mem_replicate marks, List.mem_cons, List.mem_singleton] at mem
    rcases mem with rfl | rfl <;> rfl
  · exact solid c (all c mem)

theorem ofJson?_spelling :
    Spelling (fun text bytes => ofJson? (.str text) = some bytes) toText Form Denotes := by
  refine .of_reads_iff ?_ exists_denotes form_alike denotes_alike ofJson?_toJson
  intro text bytes
  rw [← decode_dropMarks_iff]
  exact toOption_eq_some_iff

theorem ofText_eq_ok_iff {text : String} {bytes : Bytes} :
    ofText text = .ok bytes ↔
      ∃ digits, Text.Padded Form text.toList digits ∧ Denotes digits bytes := by
  simp only [Text.padded_iff form_solid, ← decode_dropMarks_iff]
  unfold ofText
  split
  · rename_i reads
    rw [reads, Except.ok.injEq, Except.ok.injEq]
  · rename_i reads
    rw [reads]
    exact iff_of_false nofun nofun

theorem ofText_toText (bytes : Bytes) : ofText bytes.toText = .ok bytes := by
  obtain ⟨digits, form, denotes⟩ := ofJson?_spelling.reads_iff.mp (ofJson?_toJson bytes)
  have bare : Text.Padded Form bytes.toText.toList digits :=
    ⟨[], _, [], (List.append_nil _).symm, nofun, nofun, form⟩
  exact ofText_eq_ok_iff.mpr ⟨digits, bare, denotes⟩

theorem ofText_spelling :
    Spelling (fun text bytes => ofText text = .ok bytes) toText (Text.Padded Form) Denotes := by
  refine .of_reads_iff ofText_eq_ok_iff ?_ ?_ denotes_alike ofText_toText
  · intro text digits padded
    exact exists_denotes ((Text.padded_iff form_solid).mp padded)
  · intro text other digits alike padded
    simp only [Text.padded_iff form_solid] at padded ⊢
    refine form_alike ?_ padded
    rw [Alike, ← Text.trim_map, alike, Text.trim_map]

end Bytes

namespace Address

/-- 40 digits, with at most one mark. -/
def Form (text digits : List Char) : Prop :=
  (text = digits ∨ text = '0' :: 'x' :: digits) ∧ (∀ c ∈ digits, IsDigit c) ∧ digits.length = 40

/-- The length of a text tells how many marks it has. -/
theorem form_iff {text digits : List Char} : Form text digits ↔
    Marked text digits ∧ digits.length = 40 ∧ (text.length = 40 ∨ text.length = 42) := by
  constructor
  · rintro ⟨marks, all, length⟩
    rcases marks with rfl | rfl
    · exact ⟨⟨⟨0, rfl⟩, all⟩, length, .inl length⟩
    · exact ⟨⟨⟨1, rfl⟩, all⟩, length, .inr (congrArg (· + 2) length)⟩
  · rintro ⟨⟨⟨count, rfl⟩, all⟩, length, size⟩
    rw [List.length_append, length_marks, length] at size
    refine ⟨?_, all, length⟩
    rcases size with none | one
    · obtain rfl : count = 0 := by omega
      exact .inl rfl
    · obtain rfl : count = 1 := by omega
      exact .inr rfl

theorem number_lt_of_form {text digits : List Char} (form : Form text digits) :
    number digits < 2 ^ 160 := by
  obtain ⟨-, all, length⟩ := form
  have below := number_lt all
  rwa [length] at below

theorem ofBytes?_eq_ok_iff {bytes : Bytes} {address : Address} :
    ofBytes? bytes = .ok address ↔ bytes = address.toBytes := by
  unfold ofBytes?
  constructor
  · intro reads
    split at reads
    · rename_i size
      cases reads
      have small : bytes.toNat < 2 ^ 160 := by
        have below := Bytes.toNat_lt bytes
        rw [size] at below
        exact below
      apply Bytes.toNat_inj (size.trans (size_toBytes _).symm)
      rw [toNat_toBytes, ofBytes, BitVec.toNat_ofNat, Nat.mod_eq_of_lt small]
    · cases reads
  · rintro rfl
    rw [if_pos (size_toBytes address), ofBytes_toBytes]

theorem ofText_eq_ok_iff_decode {text : String} {address : Address} :
    ofText text = .ok address ↔
      (String.utf8Len text.toList = 40 ∨ String.utf8Len text.toList = 42) ∧
        decode (dropMarks text.toList) = .ok address.toBytes := by
  have size : text.utf8ByteSize = String.utf8Len text.toList := by
    rw [← String.utf8ByteSize_ofList, String.ofList_toList]
  rw [← size, ofText]
  by_cases fits : text.utf8ByteSize = 40 ∨ text.utf8ByteSize = 42
  · rw [if_pos fits, and_iff_right fits]
    cases decode (dropMarks text.toList) with
    | ok bytes => exact ofBytes?_eq_ok_iff.trans (by rw [Except.ok.injEq])
    | error => simp only [reduceCtorEq]
  · simp only [fits, if_false, reduceCtorEq, false_and]

theorem ofText_eq_ok_iff {text : String} {address : Address} :
    ofText text = .ok address ↔
      ∃ digits, Form text.toList digits ∧ address.toNat = number digits := by
  rw [ofText_eq_ok_iff_decode, decode_eq_ok_iff, Denotes, size_toBytes, toNat_toBytes]
  constructor
  · rintro ⟨size, all, length, value⟩
    have marked : Marked text.toList (dropMarks text.toList) := marked_iff.mpr ⟨rfl, all⟩
    rw [utf8Len_of_marked marked] at size
    exact ⟨_, form_iff.mpr ⟨marked, length, size⟩, value⟩
  · rintro ⟨digits, form, value⟩
    obtain ⟨marked, length, size⟩ := form_iff.mp form
    obtain ⟨rfl, all⟩ := marked_iff.mp marked
    rw [utf8Len_of_marked marked]
    exact ⟨size, all, length, value⟩

theorem ofText_spelling :
    Spelling (fun text address => ofText text = .ok address) toText Form
      (fun digits address => address.toNat = number digits) := by
  refine .of_reads_iff ofText_eq_ok_iff ?_ ?_ ?_ ofText_toText
  · intro text digits form
    refine ⟨BitVec.ofNat 160 (number digits), ?_⟩
    rw [BitVec.toNat_ofNat, Nat.mod_eq_of_lt (number_lt_of_form form)]
  · intro text other digits alike form
    obtain ⟨marked, length, size⟩ := form_iff.mp form
    obtain ⟨digits', marked', alike'⟩ := alike.marked marked
    rw [alike'.length_eq] at length
    rw [alike.length_eq] at size
    exact ⟨digits', form_iff.mpr ⟨marked', length, size⟩, alike'⟩
  · intro digits digits' address alike value
    rw [value, alike.number_eq]

/-! ## Addresses as words -/

theorem ofWord_toWord (address : Address) : ofWord address.toWord = address := by
  rw [ofWord, toWord, BitVec.setWidth_setWidth_of_le _ (by decide), BitVec.setWidth_eq]

theorem toNat_toWord_ofWord (word : Word) :
    (ofWord word).toWord.toNat = word.toNat % 2 ^ 160 := by
  have small : word.toNat % 2 ^ 160 < 2 ^ 160 := Nat.mod_lt _ (by decide)
  rw [toWord, ofWord, BitVec.toNat_setWidth, BitVec.toNat_setWidth, Nat.mod_eq_of_lt (by omega)]

theorem toWord_eq (address : Address) :
    address.toWord = Word.ofBytes (Bytes.zeros 12 ++ address.toBytes) := by
  rw [Word.ofBytes, Bytes.toNat_append, Bytes.toNat_zeros, Nat.zero_mul, Nat.zero_add,
    toNat_toBytes, BitVec.ofNat_toNat]
  rfl

theorem ofWord_eq (word : Word) : ofWord word = ofBytes (word.toBytes.extract 12 32) := by
  have size : word.toBytes.size = 32 := Word.size_toBytes word
  have rest : (word.toBytes.extract 12 32).size = 20 := by
    rw [Array.size_extract, size]
    rfl
  have parts : word.toBytes = word.toBytes.extract 0 12 ++ word.toBytes.extract 12 32 := by
    rw [Array.extract_append_extract]
    exact (Bytes.extract_whole size).symm
  have value : word.toBytes.toNat = word.toNat := by
    rw [Word.toBytes, Bytes.toNat_ofNat]
    exact Nat.mod_eq_of_lt word.isLt
  rw [parts, Bytes.toNat_append, rest] at value
  have unit : 2 ^ 160 = 256 ^ 20 := by decide
  apply BitVec.eq_of_toNat_eq
  rw [ofWord, ofBytes, BitVec.toNat_setWidth, BitVec.toNat_ofNat, ← value, unit,
    Nat.mul_add_mod_self_right]

end Address

/-! ## All texts -/

structure TextsSpelled : Prop where
  word : Spelling (fun text word => Word.ofText text = .ok word) Word.toText Word.Form
    fun digits word => word.toNat = number digits
  wordForm : Spelling (fun text word => Word.ofJson? (.str text) = some word) Word.toText Word.Form
    fun digits word => word.toNat = number digits
  address : Spelling (fun text address => Address.ofText text = .ok address) Address.toText
    Address.Form fun digits address => address.toNat = number digits
  addressForm : Spelling (fun text address => Address.ofJson? (.str text) = some address)
    Address.toText Address.Form fun digits address => address.toNat = number digits
  bytes : Spelling (fun text bytes => Bytes.ofText text = .ok bytes) Bytes.toText
    (Text.Padded Bytes.Form) Denotes
  bytesForm : Spelling (fun text bytes => Bytes.ofJson? (.str text) = some bytes) Bytes.toText
    Bytes.Form Denotes
  /-- An address is kept by the word that it is put into. -/
  widened : ∀ address : Address,
    address.toWord = Word.ofBytes (Bytes.zeros 12 ++ address.toBytes) ∧
      Address.ofWord address.toWord = address
  narrowed : ∀ word : Word,
    Address.ofWord word = Address.ofBytes (word.toBytes.extract 12 32) ∧
      (Address.ofWord word).toWord.toNat = word.toNat % 2 ^ 160

theorem texts_spelled : TextsSpelled where
  word := Word.ofText_spelling
  wordForm := Word.ofText_spelling.congr toOption_eq_some_iff
  address := Address.ofText_spelling
  addressForm := Address.ofText_spelling.congr toOption_eq_some_iff
  bytes := Bytes.ofText_spelling
  bytesForm := Bytes.ofJson?_spelling
  widened address := ⟨Address.toWord_eq address, Address.ofWord_toWord address⟩
  narrowed word := ⟨Address.ofWord_eq word, Address.toNat_toWord_ofWord word⟩

/-- A text of 42 characters, with two marks. -/
def twiceMarked : String := "0x0x000000000000000000000000000000000000cC"

/-- It is a word, but no address. -/
theorem texts_spelled_twiceMarked :
    Word.ofText twiceMarked = .ok 0xcc ∧ ¬ ∃ address, Address.ofText twiceMarked = .ok address := by
  constructor
  · have form : Word.Form twiceMarked.toList (List.replicate 36 '0' ++ ['c', 'C']) :=
      ⟨⟨⟨2, rfl⟩, forall_of_all (by decide)⟩, by decide⟩
    exact texts_spelled.word.reads_iff.mpr ⟨_, form, by decide⟩
  · rw [texts_spelled.address.accepts]
    rintro ⟨digits, same | behind, all, length⟩
    · rw [← same] at length
      exact absurd length (by decide)
    · obtain rfl : digits = twiceMarked.toList.drop 2 := by rw [behind]; rfl
      exact absurd (all 'x' (by decide)) (by decide)

end Evm
