import Evm.World

/-!
# Store

The world as one execution sees it. The store remembers of every slot the first value that was
read from it or found under the first write: its initial value.
-/

namespace Evm

structure Store where
  world : World
  initials : Std.HashMap (Address × Word) Word

namespace Store

def ofWorld (world : World) : Store := ⟨world, ∅⟩

/-- Runs on a store; a failure keeps what was done to the store before it. -/
abbrev Action := EStateM Failure Store

def tick (store : Store) : Store := { store with world := store.world.tick }

def read (query : World → Except Failure α) : Action α := fun store =>
  match query store.world with
  | .ok value => .ok value store.tick
  | .error failure => .error failure store.tick

def write (update : World → Except Failure World) : Action Unit := fun store =>
  match update store.world with
  | .ok world => .ok () { store with world := world.tick }
  | .error failure => .error failure store.tick

/-- Remembers the value of a slot, unless one is known. -/
def observe (address : Address) (key value : Word) : Action Unit :=
  modify fun store =>
    { store with initials := store.initials.insertIfNew (address, key) value }

def account (address : Address) : Action Account := read fun world => world.account address

def putAccount (address : Address) (account : Account) : Action Unit :=
  write fun world => world.putAccount address account

def code (address : Address) : Action Bytes := read fun world => world.code address

def putCode (address : Address) (code : Bytes) : Action Unit :=
  write fun world => world.putCode address code

def get (address : Address) (key : Word) : Action Word := do
  let value ← read fun world => world.storage address key
  observe address key value
  return value

/-- The value of a slot before this execution wrote to it. -/
def initial (address : Address) (key : Word) : Action Word := do
  let store ← getThe Store
  match store.initials[(address, key)]? with
  | some value => return value
  | none => get address key

def put (address : Address) (key value : Word) : Action Unit := do
  let _ ← initial address key
  write fun world => world.putStorage address key value

end Store

end Evm
