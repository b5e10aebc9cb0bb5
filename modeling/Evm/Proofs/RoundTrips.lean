import Evm.Json.Codec
import Evm.Proofs.Texts
import Mathlib.Data.List.Basic

/-!
# Reading JSON forms back

Every value is read back from the form it is written as; of a result only the counts have to go into
their 64 bits. So a value that was read from any other form, such as an array, a set out of order or
a block without its fees, is not changed when it is written and read again.
-/

namespace Evm

namespace Json

variable {α : Type} {write : α → Json} {read? : Json → Option α}

/-- What is written is read back, for the values that fit and for all that are read themselves. -/
structure ReadsBack (fits : α → Prop) (write : α → Json) (read? : Json → Option α) : Prop where
  written {value : α} : fits value → read? (write value) = some value
  /-- A value read from any form is read again from the form written for it. -/
  again {json : Json} {value : α} : read? json = some value → read? (write value) = some value

theorem ReadsBack.of_all (all : ∀ value, read? (write value) = some value) :
    ReadsBack (fun _ => True) write read? where
  written _ := all _
  again _ := all _

theorem ReadsBack.of_fits {fits : α → Prop}
    (written : ∀ {value}, fits value → read? (write value) = some value)
    (fit : ∀ {json value}, read? json = some value → fits value) :
    ReadsBack fits write read? where
  written := written
  again read := written (fit read)

theorem natBelow?_ofNat {bound n : Nat} (below : n < bound) :
    (ofNat n).natBelow? bound = some n := by
  simp [ofNat, natBelow?, below]

theorem lt_of_natBelow? {bound n : Nat} {json : Json} (read : json.natBelow? bound = some n) :
    n < bound := by
  cases json with
  | int value =>
    obtain ⟨⟨least, below⟩, rfl⟩ := by simpa [natBelow?] using read
    omega
  | _ => cases read

theorem int?_int {value : Int} (least : -signedLimit ≤ value) (below : value < signedLimit) :
    (int value).int? = some value :=
  if_pos ⟨least, below⟩

theorem bounds_of_int? {value : Int} {json : Json} (read : json.int? = some value) :
    -signedLimit ≤ value ∧ value < signedLimit := by
  cases json with
  | int number =>
    obtain ⟨bounds, rfl⟩ := by simpa [int?] using read
    exact bounds
  | _ => cases read

@[simp] theorem uint64?_ofNat (n : UInt64) : uint64? (ofNat n.toNat) = some n := by
  rw [uint64?, nat?, natBelow?_ofNat (by simpa using n.toNat_lt), Option.map_some,
    UInt64.ofNat_toNat]

theorem list?_map (all : ∀ value, read? (write value) = some value) (values : List α) :
    list? read? (.arr (values.map write)) = some values := by
  have each : read? ∘ write = fun value => pure (id value) := funext all
  rw [list?, List.mapM_map, each, List.mapM_pure, List.map_id]
  rfl

variable {name other : String} {json : Json} {fields : List (String × Json)} {default : α}

@[simp] theorem field?_cons_self : field? ((name, json) :: fields) name read? = read? json := by
  simp [field?]

@[simp] theorem field?_cons_of_ne (ne : name ≠ other) :
    field? ((other, json) :: fields) name read? = field? fields name read? := by
  simp [field?, List.lookup_cons, beq_false_of_ne ne]

@[simp] theorem fieldD?_nil : fieldD? [] name read? default = some default := rfl

@[simp] theorem fieldD?_cons_self :
    fieldD? ((name, json) :: fields) name read? default = read? json := by
  simp [fieldD?]

@[simp] theorem fieldD?_cons_of_ne (ne : name ≠ other) :
    fieldD? ((other, json) :: fields) name read? default = fieldD? fields name read? default := by
  simp [fieldD?, List.lookup_cons, beq_false_of_ne ne]

end Json

open Json

@[simp] theorem Word.ofJson?_toJson (word : Word) : ofJson? word.toJson = some word := by
  rw [toJson, ofJson?, ofText_toText]
  rfl

@[simp] theorem Address.ofJson?_toJson (address : Address) :
    ofJson? address.toJson = some address := by
  rw [toJson, ofJson?, ofText_toText]
  rfl

@[simp] theorem Bytes.ofJson?_toJson (bytes : Bytes) : ofJson? bytes.toJson = some bytes := by
  rw [toJson, ofJson?, decode_toText]
  rfl

attribute [ext] AddressSet BlockHashes

namespace AddressSet

variable {address : Address} {list : List Address}

theorem insertSorted_of_lt (above : ∀ x ∈ list, x < address) :
    insertSorted address list = list ++ [address] := by
  induction list with
  | nil => rfl
  | cons first rest ih =>
    have less : first < address := above first (by simp)
    rw [insertSorted, if_neg (BitVec.not_lt.mpr (BitVec.le_of_lt less)), if_pos less,
      ih fun x mem => above x (by simp [mem])]
    rfl

theorem toList_foldl_insert (set : AddressSet) (list : List Address)
    (ascending : (set.toList ++ list).Pairwise (· < ·)) :
    (list.foldl insert set).toList = set.toList ++ list := by
  induction list generalizing set with
  | nil => simp
  | cons address rest ih =>
    have last : (set.insert address).toList = set.toList ++ [address] :=
      insertSorted_of_lt fun x mem =>
        (List.pairwise_append.mp ascending).2.2 x mem address List.mem_cons_self
    rw [List.foldl_cons, ih _ (by simpa [last] using ascending), last]
    simp

theorem ofList_toList (set : AddressSet) : ofList set.toList = set := by
  ext1
  exact toList_foldl_insert empty set.toList set.ascending

@[simp] theorem ofJson?_toJson (set : AddressSet) : ofJson? set.toJson = some set := by
  rw [toJson, ofJson?, list?_map Address.ofJson?_toJson, Option.map_some, ofList_toList]

end AddressSet

namespace BlockHashes

variable {number : UInt64} {hash : Word} {list : List (UInt64 × Word)}

theorem insertSorted_of_lt (above : ∀ x ∈ list, x.1 < number) :
    insertSorted number hash list = list ++ [(number, hash)] := by
  induction list with
  | nil => rfl
  | cons first rest ih =>
    have less : first.1 < number := above first (by simp)
    rw [insertSorted, if_neg (UInt64.not_lt.mpr (UInt64.le_of_lt less)), if_pos less,
      ih fun x mem => above x (by simp [mem])]
    rfl

@[simp] theorem number?_repr (number : UInt64) : number? number.toNat.repr = some number := by
  rw [number?, Decimal.canonical?_repr (by simpa [machineLimit] using number.toNat_lt),
    Option.map_some, UInt64.ofNat_toNat]

theorem ofFields?_map (hashes : BlockHashes) (list : List (UInt64 × Word))
    (ascending : (hashes.entries ++ list).Pairwise fun a b => a.1 < b.1) :
    ∃ after, hashes.ofFields? (list.map fun (number, hash) => (number.toNat.repr, hash.toJson)) =
      some after ∧ after.entries = hashes.entries ++ list := by
  induction list generalizing hashes with
  | nil => exact ⟨hashes, rfl, by simp⟩
  | cons entry rest ih =>
    obtain ⟨number, hash⟩ := entry
    have last : (hashes.insert number hash).entries = hashes.entries ++ [(number, hash)] :=
      insertSorted_of_lt fun x mem =>
        (List.pairwise_append.mp ascending).2.2 x mem (number, hash) List.mem_cons_self
    obtain ⟨after, read, entries⟩ :=
      ih (hashes.insert number hash) (by simpa [last] using ascending)
    exact ⟨after, by simpa [ofFields?] using read, by simpa [last] using entries⟩

@[simp] theorem ofJson?_toJson (hashes : BlockHashes) : ofJson? hashes.toJson = some hashes := by
  obtain ⟨after, read, entries⟩ := ofFields?_map empty hashes.entries hashes.ascending
  rw [toJson, ofJson?, read, BlockHashes.ext entries]

end BlockHashes

@[simp] theorem Account.ofJson?_toJson (account : Account) :
    ofJson? account.toJson = some account := by
  simp [ofJson?, toJson, record?]

@[simp] theorem Transaction.ofJson?_toJson (tx : Transaction) : ofJson? tx.toJson = some tx := by
  simp [ofJson?, toJson, record?]

@[simp] theorem Log.ofJson?_toJson (log : Log) : ofJson? log.toJson = some log := by
  simp [ofJson?, toJson, record?, list?_map Word.ofJson?_toJson]

@[simp] theorem Block.ofJson?_toJson (block : Block) : ofJson? block.toJson = some block := by
  rw [ofJson?, toJson, record?, Option.bind_eq_bind, Option.bind_some]
  simp [list?_map Word.ofJson?_toJson]

theorem Exception.read?_toJson {caseName : Json → Option String}
    (plain : ∀ name, caseName (.str name) = some name) (cause : Exception) :
    read? caseName cause.toJson = some cause := by
  cases cause with
  | invalidOpcode byte => simp [read?, toJson, natBelow?_ofNat byte.toNat_lt]
  | _ => simp only [read?, toJson, plain]; rfl

theorem Halt.read?_toJson {caseName : Json → Option String}
    (plain : ∀ name, caseName (.str name) = some name) (reason : Halt) :
    read? caseName reason.toJson = some reason := by
  cases reason <;> simp only [read?, toJson, plain] <;> rfl

@[simp] theorem Exception.ofJson?_toJson (cause : Exception) : ofJson? cause.toJson = some cause :=
  read?_toJson (fun _ => rfl) cause

@[simp] theorem Outcome.ofJson?_toJson (outcome : Outcome) :
    ofJson? outcome.toJson = some outcome := by
  have plain : ∀ name, looseCaseName? (.str name) = some name := fun _ => rfl
  cases outcome with
  | halted reason =>
    simp [ofJson?, toJson, record?, statusName?, reasonName?, caseName?, Halt.read?_toJson plain]
  | reverted => rfl
  | faulted cause =>
    simp [ofJson?, toJson, record?, statusName?, reasonName?, caseName?,
      Exception.read?_toJson plain]

namespace Result

variable {result : Result}

/-- The gas used goes into 64 bits, and the refund into 64 bits with a sign. -/
structure Fits (result : Result) : Prop where
  gasUsed : result.gasUsed < machineLimit
  least : -signedLimit ≤ result.gasRefund
  refund : result.gasRefund < signedLimit

theorem nullable?_address (address : Address) :
    nullable? Address.ofJson? address.toJson = some (some address) := by
  rw [nullable?, Address.ofJson?_toJson, Option.map_some]
  exact fun null => nomatch null

theorem ofJson?_toJson (fits : result.Fits) : ofJson? result.toJson = some result := by
  have used : nat? (ofNat result.gasUsed) = some result.gasUsed := natBelow?_ofNat fits.gasUsed
  have refund := int?_int fits.least fits.refund
  obtain ⟨gasUsed, gasRefund, output, outcome, logs, selfDestruct, created⟩ := result
  rw [ofJson?, toJson, record?, Option.bind_eq_bind, Option.bind_some]
  cases created with
  | none => simp [used, refund, list?_map Log.ofJson?_toJson]
  | some address => simp [used, refund, list?_map Log.ofJson?_toJson, nullable?_address]

theorem fits_of_ofJson? {json : Json} (read : ofJson? json = some result) : result.Fits := by
  simp only [ofJson?, Option.bind_eq_bind, Option.bind_eq_some_iff] at read
  obtain ⟨fields, -, gasUsed, used, gasRefund, refund, _, -, _, -, _, -, _, -, _, -, made⟩ := read
  obtain rfl := Option.some.inj made
  obtain ⟨used, -, below⟩ := Option.bind_eq_some_iff.mp used
  obtain ⟨refund, -, bounds⟩ := Option.bind_eq_some_iff.mp refund
  exact ⟨lt_of_natBelow? below, (bounds_of_int? bounds).1, (bounds_of_int? bounds).2⟩

end Result

structure FormsReadBack : Prop where
  exception : ReadsBack (fun _ => True) Exception.toJson Exception.ofJson?
  outcome : ReadsBack (fun _ => True) Outcome.toJson Outcome.ofJson?
  log : ReadsBack (fun _ => True) Log.toJson Log.ofJson?
  account : ReadsBack (fun _ => True) Account.toJson Account.ofJson?
  transaction : ReadsBack (fun _ => True) Transaction.toJson Transaction.ofJson?
  /-- With any blob hashes and any hashes of earlier blocks. -/
  block : ReadsBack (fun _ => True) Block.toJson Block.ofJson?
  result : ReadsBack Result.Fits Result.toJson Result.ofJson?

theorem forms_readBack : FormsReadBack where
  exception := .of_all Exception.ofJson?_toJson
  outcome := .of_all Outcome.ofJson?_toJson
  log := .of_all Log.ofJson?_toJson
  account := .of_all Account.ofJson?_toJson
  transaction := .of_all Transaction.ofJson?_toJson
  block := .of_all Block.ofJson?_toJson
  result := .of_fits Result.ofJson?_toJson Result.fits_of_ofJson?

/-- A creation with a log and a negative refund that destroyed two other accounts. -/
def createdResult : Result where
  gasUsed := 53000
  gasRefund := -4800
  output := #[]
  outcome := .halted .ret
  logs := #[⟨0xc0de, [0x1, 0], #[0xff, 0x0a]⟩]
  selfDestruct := .ofList [0xaa, 0xbb]
  created := some 0xc0de

def faultForm : Json := .arr [.str "faulted", .obj [("invalid_opcode", .int 254)]]

theorem forms_readBack_created :
    Result.ofJson? createdResult.toJson = some createdResult ∧
      Outcome.ofJson? faultForm = some (.faulted (.invalidOpcode 254)) ∧
      Outcome.ofJson? (Outcome.faulted (.invalidOpcode 254)).toJson =
        some (.faulted (.invalidOpcode 254)) := by
  have read : Outcome.ofJson? faultForm = some (.faulted (.invalidOpcode 254)) := rfl
  exact ⟨forms_readBack.result.written ⟨by decide, by decide, by decide⟩, read,
    forms_readBack.outcome.again read⟩

end Evm
