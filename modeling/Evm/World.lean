import Evm.Account
import Std.Data.HashMap

/-!
# The world

Accounts with their code and storage. An address without an entry reads as a blank account
without code, and a slot without an entry as zero. A world can be out of order for some accesses,
by their kind, their address and how many came before; such an access fails and changes nothing.
-/

namespace Evm

inductive Access where
  | account
  | putAccount
  | code
  | putCode
  | storage
  | putStorage
  deriving DecidableEq, Repr

namespace Access

def all : List Access := [.account, .putAccount, .code, .putCode, .storage, .putStorage]

def name : Access → String
  | .account => "account"
  | .putAccount => "put_account"
  | .code => "code"
  | .putCode => "put_code"
  | .storage => "storage"
  | .putStorage => "put_storage"

def ofName? (name : String) : Option Access := all.find? fun access => access.name == name

end Access

inductive Failure where
  | outage (access : Access) (address : Address)
  /-- A bound that the machine relies on was broken. -/
  | breach
  | unfinished
  deriving DecidableEq, Repr

structure Entry where
  account : Account
  code : Bytes
  storage : Std.HashMap Word Word

namespace Entry

def blank : Entry := ⟨.blank, #[], ∅⟩

instance : Inhabited Entry := ⟨blank⟩

def slot (entry : Entry) (key : Word) : Word := entry.storage.getD key 0

/-- Puts a value into a slot. A slot with zero is not kept. -/
def put (entry : Entry) (key value : Word) : Entry :=
  { entry with
    storage := if value = 0 then entry.storage.erase key else entry.storage.insert key value }

end Entry

structure World where
  entries : Std.HashMap Address Entry
  /-- Whether the access that comes after so many others fails. Without it none does. -/
  isDown : Option (Nat → Access → Address → Bool)

namespace World

def empty : World := ⟨∅, none⟩

instance : Inhabited World := ⟨empty⟩

def entry (world : World) (address : Address) : Entry := world.entries.getD address .blank

def setEntry (world : World) (address : Address) (entry : Entry) : World :=
  { world with entries := world.entries.insert address entry }

/-- Whether an access fails that comes after so many others. -/
def fails (world : World) (count : Nat) (access : Access) (address : Address) : Bool :=
  world.isDown.any fun isDown => isDown count access address

/-- One access less is to come. -/
def tick (world : World) : World :=
  { world with isDown := world.isDown.map fun isDown count => isDown (count + 1) }

def check (world : World) (access : Access) (address : Address) : Except Failure Unit :=
  if world.fails 0 access address then .error (.outage access address) else .ok ()

def account (world : World) (address : Address) : Except Failure Account := do
  world.check .account address
  return (world.entry address).account

def putAccount (world : World) (address : Address) (account : Account) : Except Failure World := do
  world.check .putAccount address
  return world.setEntry address { world.entry address with account }

def code (world : World) (address : Address) : Except Failure Bytes := do
  world.check .code address
  return (world.entry address).code

/-- Stores code only; the account keeps its code hash. -/
def putCode (world : World) (address : Address) (code : Bytes) : Except Failure World := do
  world.check .putCode address
  return world.setEntry address { world.entry address with code }

def storage (world : World) (address : Address) (key : Word) : Except Failure Word := do
  world.check .storage address
  return (world.entry address).slot key

def putStorage (world : World) (address : Address) (key value : Word) :
    Except Failure World := do
  world.check .putStorage address
  return world.setEntry address ((world.entry address).put key value)

def installCode (world : World) (address : Address) (code : Bytes) : World :=
  let entry := world.entry address
  world.setEntry address
    { entry with code, account := { entry.account with codeHash := keccakWord code } }

end World

end Evm
