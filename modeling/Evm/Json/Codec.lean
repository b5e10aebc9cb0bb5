import Evm.Account
import Evm.Block
import Evm.Decimal
import Evm.Event
import Evm.Json.Basic

/-!
# JSON forms

How the values of the machine are written as JSON and read back. A record is an object of its
fields, in which unknown fields are ignored, or the array of its fields in order. A case without
a payload is its name, or an object with its name as the one field and `null` in it.
-/

namespace Evm

namespace Json

/-- The fields of a record with the given names, of which the first `required` stand also in an
array. -/
def record? (names : List String) (required : Nat) : Json → Option (List (String × Json))
  | .obj fields => some fields
  | .arr items =>
    if required ≤ items.length ∧ items.length ≤ names.length then some (names.zip items) else none
  | _ => none

def caseName? : Json → Option String
  | .str name => some name
  | .obj [(name, .null)] => some name
  | _ => none

/-- The name of a case without a payload, where an object without fields may stand for `null`. -/
def looseCaseName? : Json → Option String
  | .obj [(name, .obj [])] => some name
  | json => json.caseName?

def field? {α : Type} (fields : List (String × Json)) (name : String) (decode : Json → Option α) :
    Option α :=
  (fields.lookup name).bind decode

def fieldD? {α : Type} (fields : List (String × Json)) (name : String)
    (decode : Json → Option α) (default : α) : Option α :=
  match fields.lookup name with
  | some json => decode json
  | none => some default

def list? {α : Type} (decode : Json → Option α) : Json → Option (List α)
  | .arr items => items.mapM decode
  | _ => none

def uint64? (json : Json) : Option UInt64 := json.nat?.map UInt64.ofNat

end Json

open Json

namespace Word

def toJson (word : Word) : Json := .str word.toText

def ofJson? : Json → Option Word
  | .str text => (ofText text).toOption
  | _ => none

end Word

namespace Address

def toJson (address : Address) : Json := .str address.toText

def ofJson? : Json → Option Address
  | .str text => (ofText text).toOption
  | _ => none

end Address

namespace Bytes

def toJson (bytes : Bytes) : Json := .str bytes.toText

/-- Here no blanks are allowed around the digits. -/
def ofJson? : Json → Option Bytes
  | .str text => (Hex.decode (Hex.dropMarks text.toList)).toOption
  | _ => none

end Bytes

namespace Fork

def toJson (fork : Fork) : Json := .str fork.name

def ofJson? (json : Json) : Option Fork := json.caseName?.bind ofName?

end Fork

namespace Account

def toJson (account : Account) : Json :=
  .obj [("balance", account.balance.toJson), ("nonce", .ofNat account.nonce.toNat),
    ("codeHash", account.codeHash.toJson)]

def ofJson? (json : Json) : Option Account := do
  let fields ← json.record? ["balance", "nonce", "codeHash"] 3
  let balance ← field? fields "balance" Word.ofJson?
  let nonce ← field? fields "nonce" uint64?
  let codeHash ← field? fields "codeHash" Word.ofJson?
  return ⟨balance, nonce, codeHash⟩

end Account

namespace Transaction

def toJson (tx : Transaction) : Json :=
  .obj [("gasPrice", tx.gasPrice.toJson), ("origin", tx.origin.toJson)]

def ofJson? (json : Json) : Option Transaction := do
  let fields ← json.record? ["gasPrice", "origin"] 2
  let gasPrice ← field? fields "gasPrice" Word.ofJson?
  let origin ← field? fields "origin" Address.ofJson?
  return ⟨gasPrice, origin⟩

end Transaction

namespace BlockHashes

def number? (name : String) : Option UInt64 :=
  (Decimal.canonical? machineLimit name).map UInt64.ofNat

def toJson (hashes : BlockHashes) : Json :=
  .obj (hashes.entries.map fun (number, hash) => (number.toNat.repr, hash.toJson))

def ofFields? (hashes : BlockHashes) : List (String × Json) → Option BlockHashes
  | [] => some hashes
  | (name, json) :: rest => do
    let number ← number? name
    let hash ← Word.ofJson? json
    ofFields? (hashes.insert number hash) rest

def ofJson? : Json → Option BlockHashes
  | .obj fields => ofFields? .empty fields
  | _ => none

end BlockHashes

namespace Block

def fieldNames : List String :=
  ["number", "timestamp", "coinbase", "gasLimit", "mixHash", "baseFeePerGas", "chainId",
   "blobBaseFee", "blobVersionedHashes", "hashes"]

def toJson (block : Block) : Json :=
  .obj [("number", .ofNat block.number.toNat), ("timestamp", .ofNat block.timestamp.toNat),
    ("coinbase", block.coinbase.toJson), ("gasLimit", .ofNat block.gasLimit.toNat),
    ("mixHash", block.mixHash.toJson), ("baseFeePerGas", block.baseFee.toJson),
    ("chainId", .ofNat block.chainId.toNat), ("blobBaseFee", block.blobBaseFee.toJson),
    ("blobVersionedHashes", .arr (block.blobHashes.map Word.toJson)),
    ("hashes", block.hashes.toJson)]

/-- The fees and the hashes may be missing, for zero and none. -/
def ofJson? (json : Json) : Option Block := do
  let fields ← json.record? fieldNames 7
  let number ← field? fields "number" uint64?
  let timestamp ← field? fields "timestamp" uint64?
  let coinbase ← field? fields "coinbase" Address.ofJson?
  let gasLimit ← field? fields "gasLimit" uint64?
  let mixHash ← field? fields "mixHash" Word.ofJson?
  let baseFee ← fieldD? fields "baseFeePerGas" Word.ofJson? 0
  let chainId ← field? fields "chainId" uint64?
  let blobBaseFee ← fieldD? fields "blobBaseFee" Word.ofJson? 0
  let blobHashes ← fieldD? fields "blobVersionedHashes" (list? Word.ofJson?) []
  let hashes ← fieldD? fields "hashes" BlockHashes.ofJson? .empty
  return { number, timestamp, coinbase, gasLimit, mixHash, baseFee, chainId, blobBaseFee,
           blobHashes, hashes }

end Block

namespace Exception

def plain : List Exception :=
  [.outOfGas, .stackUnderflow, .stackOverflow, .invalidJumpDestination,
   .staticStateChangeViolation, .returnDataOutOfBounds, .createCollision, .codeSizeExceeded,
   .reservedCode, .initCodeSizeExceeded, .insufficientBalance, .nonceOverflow]

def name : Exception → String
  | .outOfGas => "out_of_gas"
  | .invalidOpcode _ => "invalid_opcode"
  | .stackUnderflow => "stack_underflow"
  | .stackOverflow => "stack_overflow"
  | .invalidJumpDestination => "invalid_jump_destination"
  | .staticStateChangeViolation => "static_state_change_violation"
  | .returnDataOutOfBounds => "return_data_out_of_bounds"
  | .createCollision => "create_collision"
  | .codeSizeExceeded => "code_size_exceeded"
  | .reservedCode => "invalid_code_prefix"
  | .initCodeSizeExceeded => "init_code_size_exceeded"
  | .insufficientBalance => "insufficient_balance"
  | .nonceOverflow => "nonce_overflow"

def toJson : Exception → Json
  | .invalidOpcode byte => .obj [("invalid_opcode", .ofNat byte.toNat)]
  | cause => .str cause.name

/-- Reads a cause; `caseName` gives the name of one without a payload. -/
def read? (caseName : Json → Option String) : Json → Option Exception
  | .obj [("invalid_opcode", json)] => (json.natBelow? 256).map fun n => .invalidOpcode (.ofNat n)
  | json => (caseName json).bind fun name => plain.find? fun cause => cause.name == name

def ofJson? : Json → Option Exception := read? caseName?

end Exception

namespace Halt

def name : Halt → String
  | .stop => "stop"
  | .ret => "return"
  | .selfDestruct => "selfdestruct"

def toJson (halt : Halt) : Json := .str halt.name

def read? (caseName : Json → Option String) (json : Json) : Option Halt :=
  (caseName json).bind fun name =>
    [Halt.stop, .ret, .selfDestruct].find? fun halt => halt.name == name

end Halt

namespace Outcome

def toJson : Outcome → Json
  | .halted reason => .obj [("status", .str "halted"), ("reason", reason.toJson)]
  | .reverted => .obj [("status", .str "reverted")]
  | .faulted cause => .obj [("status", .str "faulted"), ("reason", cause.toJson)]

/-- The name of a status. In an array it is a plain string. -/
def statusName? : Json → Json → Option String
  | .obj _ => caseName?
  | _ => str?

/-- The name of a reason. In an array an object without fields is no payload. -/
def reasonName? : Json → Json → Option String
  | .obj _ => looseCaseName?
  | _ => caseName?

/-- A reverted frame has no reason, or `null` for one. -/
def ofJson? (json : Json) : Option Outcome := do
  let fields ← json.record? ["status", "reason"] 2
  let status ← field? fields "status" (statusName? json)
  match status with
  | "halted" => (field? fields "reason" (Halt.read? (reasonName? json))).map .halted
  | "faulted" => (field? fields "reason" (Exception.read? (reasonName? json))).map .faulted
  | "reverted" =>
    match fields.lookup "reason" with
    | none | some .null => some .reverted
    | _ => none
  | _ => none

end Outcome

namespace Log

def toJson (log : Log) : Json :=
  .obj [("address", log.address.toJson), ("topics", .arr (log.topics.map Word.toJson)),
    ("data", log.data.toJson)]

def ofJson? (json : Json) : Option Log := do
  let fields ← json.record? ["address", "topics", "data"] 3
  let address ← field? fields "address" Address.ofJson?
  let topics ← field? fields "topics" (list? Word.ofJson?)
  let data ← field? fields "data" Bytes.ofJson?
  return ⟨address, topics, data⟩

end Log

namespace AddressSet

def toJson (set : AddressSet) : Json := .arr (set.toList.map Address.toJson)

def ofJson? (json : Json) : Option AddressSet :=
  (list? Address.ofJson? json).map ofList

end AddressSet

namespace Result

def fieldNames : List String :=
  ["gasUsed", "gasRefund", "returnValue", "outcome", "logs", "selfdestruct", "createdAddress"]

/-- The address is written only after a creation. -/
def toJson (result : Result) : Json :=
  .obj ([("gasUsed", .ofNat result.gasUsed), ("gasRefund", .int result.gasRefund),
    ("returnValue", result.output.toJson), ("outcome", result.outcome.toJson),
    ("logs", .arr (result.logs.toList.map Log.toJson)),
    ("selfdestruct", result.selfDestruct.toJson)] ++
    match result.created with
    | some address => [("createdAddress", address.toJson)]
    | none => [])

def nullable? {α : Type} (decode : Json → Option α) : Json → Option (Option α)
  | .null => some none
  | json => (decode json).map some

def ofJson? (json : Json) : Option Result := do
  let fields ← json.record? fieldNames 7
  let gasUsed ← field? fields "gasUsed" nat?
  let gasRefund ← field? fields "gasRefund" int?
  let output ← field? fields "returnValue" Bytes.ofJson?
  let outcome ← field? fields "outcome" Outcome.ofJson?
  let logs ← field? fields "logs" (list? Log.ofJson?)
  let selfDestruct ← field? fields "selfdestruct" AddressSet.ofJson?
  let created ← fieldD? fields "createdAddress" (nullable? Address.ofJson?) none
  return { gasUsed, gasRefund, output, outcome, logs := logs.toArray, selfDestruct, created }

end Result

namespace Event

def dataToJson : EventData → Json
  | .call kind caller target value gas data =>
    .obj [("event", .str "call"), ("type", .str kind.name), ("from", caller.toJson),
      ("to", (target.map Address.toJson).getD .null), ("value", value.toJson),
      ("gas", .ofNat gas), ("data", data.toJson)]
  | .step pc byte name gasCost gasUsed gasRemaining =>
    .obj [("event", .str "step"), ("pc", .ofNat pc), ("op", .ofNat byte.toNat),
      ("name", .str name), ("gas_cost", .ofNat gasCost), ("gas_used", .ofNat gasUsed),
      ("gas_remaining", .ofNat gasRemaining)]
  | .precompile address gasUsed success =>
    .obj [("event", .str "precompile"), ("address", address.toJson),
      ("gas_used", .ofNat gasUsed), ("success", .bool success)]
  | .exit gasUsed outcome =>
    .obj [("event", .str "exit"), ("gas_used", .ofNat gasUsed), ("outcome", outcome.toJson)]

def toJson (event : Event) : Json :=
  .obj [("data", dataToJson event.data), ("depth", .ofNat event.depth)]

end Event

end Evm
