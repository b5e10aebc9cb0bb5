import Evm.Block
import Evm.Event
import Evm.Precompile
import Evm.Store
import Std.Data.HashSet

/-!
# Host

What the frames of an execution share: the store, the addresses and slots that were touched, the
transient storage, and the journal of changes by which a failed frame is undone.
-/

namespace Evm

/-- What stays the same throughout an execution. -/
structure Environment (σ : Type) where
  fork : Fork
  block : Block
  transaction : Transaction
  curve : CurveBackend
  tracer : Tracer σ

/-- A change that was made, with what it replaced. -/
inductive Change where
  | account (address : Address) (previous : Account)
  | code (address : Address) (previous : Bytes)
  | storage (address : Address) (key previous : Word)
  | transient (address : Address) (key previous : Word)
  | warmAddress (address : Address)
  | warmSlot (address : Address) (key : Word)
  deriving DecidableEq, Repr

structure Host (σ : Type) where
  store : Store
  warmAddresses : Std.HashSet Address
  warmSlots : Std.HashSet (Address × Word)
  /-- Slots that hold other than zero. -/
  transient : Std.HashMap (Address × Word) Word
  /-- Oldest change first. -/
  journal : Array Change
  trace : σ

/-- Runs on the host; a failure keeps what was done before it. -/
abbrev HostM (σ : Type) := EStateM Failure (Host σ)

namespace Host

variable {σ α : Type}

def start (world : World) (trace : σ) : Host σ where
  store := .ofWorld world
  warmAddresses := ∅
  warmSlots := ∅
  transient := ∅
  journal := #[]
  trace := trace

def onStore (action : Store.Action α) : HostM σ α := fun host =>
  match action host.store with
  | .ok value store => .ok value { host with store }
  | .error failure store => .error failure { host with store }

def emit (env : Environment σ) (event : Event) : HostM σ Unit :=
  modify fun host => { host with trace := env.tracer.record event host.trace }

def note (change : Change) : HostM σ Unit :=
  modify fun host => { host with journal := host.journal.push change }

def account (address : Address) : HostM σ Account := onStore (Store.account address)

def code (address : Address) : HostM σ Bytes := onStore (Store.code address)

def slot (address : Address) (key : Word) : HostM σ Word := onStore (Store.get address key)

def initialSlot (address : Address) (key : Word) : HostM σ Word :=
  onStore (Store.initial address key)

def putAccount (address : Address) (account : Account) : HostM σ Unit := do
  let previous ← Host.account address
  note (.account address previous)
  onStore (Store.putAccount address account)

def putCode (address : Address) (code : Bytes) : HostM σ Unit := do
  let previous ← Host.code address
  note (.code address previous)
  onStore (Store.putCode address code)

def putSlot (address : Address) (key value : Word) : HostM σ Unit := do
  let previous ← slot address key
  note (.storage address key previous)
  onStore (Store.put address key value)

def transientSlot (address : Address) (key : Word) : HostM σ Word := do
  return (← get).transient.getD (address, key) 0

def setTransient (address : Address) (key value : Word) : HostM σ Unit :=
  modify fun host =>
    { host with
      transient :=
        if value = 0 then host.transient.erase (address, key)
        else host.transient.insert (address, key) value }

def putTransient (address : Address) (key value : Word) : HostM σ Unit := do
  let previous ← transientSlot address key
  setTransient address key value
  note (.transient address key previous)

/-- Makes an address warm; tells whether it was cold. -/
def touchAddress (address : Address) : HostM σ Bool := do
  if (← get).warmAddresses.contains address then return false
  else
    modify fun host => { host with warmAddresses := host.warmAddresses.insert address }
    note (.warmAddress address)
    return true

def touchSlot (address : Address) (key : Word) : HostM σ Bool := do
  if (← get).warmSlots.contains (address, key) then return false
  else
    modify fun host => { host with warmSlots := host.warmSlots.insert (address, key) }
    note (.warmSlot address key)
    return true

def accessAddress (fork : Fork) (address : Address) : HostM σ Nat := do
  if fork.hasAccessLists then
    if ← touchAddress address then return fork.fee .coldAccountAccess
    else return fork.fee .warmAccess
  else return 0

/-- Touches an address that costs nothing if it is warm. -/
def accessCold (fork : Fork) (address : Address) : HostM σ Nat := do
  if fork.hasAccessLists then
    if ← touchAddress address then return fork.fee .coldAccountAccess else return 0
  else return 0

def accessSlot (fork : Fork) (address : Address) (key : Word) : HostM σ Nat := do
  if fork.hasAccessLists then
    if ← touchSlot address key then return fork.fee .coldSload else return fork.fee .warmAccess
  else return 0

def accessColdSlot (fork : Fork) (address : Address) (key : Word) : HostM σ Nat := do
  if fork.hasAccessLists then
    if ← touchSlot address key then return fork.fee .coldSload else return 0
  else return 0

/-- Moves value between accounts; tells whether the sender had it. -/
def transfer (sender recipient : Address) (value : Word) : HostM σ Bool := do
  if value = 0 then return true
  let account ← Host.account sender
  match account.balance.sub? value with
  | none => return false
  | some balance =>
    if sender = recipient then return true
    putAccount sender { account with balance }
    let account ← Host.account recipient
    putAccount recipient { account with balance := account.balance + value }
    return true

def checkpoint : HostM σ Nat := do
  return (← get).journal.size

def undo : Change → HostM σ Unit
  | .account address previous => onStore (Store.putAccount address previous)
  | .code address previous => onStore (Store.putCode address previous)
  | .storage address key previous => onStore (Store.put address key previous)
  | .transient address key previous => setTransient address key previous
  | .warmAddress address =>
    modify fun host => { host with warmAddresses := host.warmAddresses.erase address }
  | .warmSlot address key =>
    modify fun host => { host with warmSlots := host.warmSlots.erase (address, key) }

def undoAll : List Change → HostM σ Unit
  | [] => return ()
  | change :: older => do
    undo change
    undoAll older

/-- Undoes every change made since the checkpoint, newest first. -/
def rollback (checkpoint : Nat) : HostM σ Unit := do
  let journal := (← get).journal
  modify fun host => { host with journal := journal.take checkpoint }
  undoAll (journal.toList.drop checkpoint).reverse

end Host

end Evm
