import Evm.Instruction.Local

/-!
# World instructions

The instructions that read or write accounts, storage and transient storage.
-/

namespace Evm.Instruction

open FrameM InstructionM

variable {σ : Type}

def inspectionFee : Inspection → Fee
  | .balance => .balance
  | .codeSize => .extCodeSize
  | .codeHash => .extCodeHash

/-- What an account shows of itself. An empty account has no code hash. -/
def inspected (address : Address) : Inspection → HostM σ Word
  | .balance => do return (← Host.account address).balance
  | .codeSize => do return BitVec.ofNat 256 (← Host.code address).size
  | .codeHash => do
    let account ← Host.account address
    return if account.isEmpty then 0 else account.codeHash

def inspect (fork : Fork) (what : Inspection) : InstructionM σ Unit := do
  let address ← popAddress
  let access ← host (Host.accessAddress fork address)
  charge (fork.fee (inspectionFee what) + access)
  let value ← host (inspected address what)
  push value

def selfBalance (fork : Fork) (context : Context) : InstructionM σ Unit := do
  charge (fork.fee .low)
  let account ← host (Host.account context.self)
  push account.balance

def externalCodeCopy (fork : Fork) : InstructionM σ Unit := do
  let address ← popAddress
  let target ← pop
  let start ← pop
  let size ← pop
  let (target, size) ← region target size
  let access ← host (Host.accessAddress fork address)
  charge (copyPrice fork .extCodeCopy size + access)
  expand fork target size
  let code ← host (Host.code address)
  updateMemory fun memory => memory.copyFrom? target code start size

def storageLoad (fork : Fork) (context : Context) : InstructionM σ Unit := do
  let key ← pop
  let access ← host (Host.accessSlot fork context.self key)
  charge (fork.fee .sload + access)
  let value ← host (Host.slot context.self key)
  push value

structure StorePrice where
  gas : Nat
  refund : Int
  deriving DecidableEq, Repr

def plainStorePrice (fork : Fork) (current new : Word) : StorePrice :=
  { gas := if current = 0 ∧ new ≠ 0 then fork.fee .sstoreSet else fork.fee .sstoreReset
    refund := if current ≠ 0 ∧ new = 0 then fork.fee .sstoreClearRefund else 0 }

/-- The price of a store by the initial, the present and the new value. What was paid for a
slot comes back when it gets its initial value again. -/
def netStorePrice (fork : Fork) (initial current new : Word) : StorePrice :=
  let set := fork.fee .sstoreSet
  let reset := fork.fee .sstoreReset
  let dirty := fork.fee .sstoreDirty
  let clear : Int := fork.fee .sstoreClearRefund
  if current = new then ⟨dirty, 0⟩
  else if initial = current then
    ⟨if initial = 0 then set else reset, if initial ≠ 0 ∧ new = 0 then clear else 0⟩
  else
    let cleared : Int :=
      if initial = 0 then 0 else if current = 0 then -clear else if new = 0 then clear else 0
    let restored : Int :=
      if initial = new then (if initial = 0 then set - dirty else reset - dirty : Nat) else 0
    ⟨dirty, cleared + restored⟩

def storePrice (fork : Fork) (initial current new : Word) : StorePrice :=
  if fork.hasPlainStores then plainStorePrice fork current new
  else netStorePrice fork initial current new

/-- Stores a word, for more than the stipend of a call from Istanbul on. -/
def storageStore (fork : Fork) (context : Context) : InstructionM σ Unit := do
  ensureMutable context.message
  faultIf (.istanbul ≤ fork ∧ (← get).gas.remaining ≤ fork.fee .sstoreSentry) .outOfGas
  let key ← pop
  let new ← pop
  let current ← host (Host.slot context.self key)
  let initial ← host (Host.initialSlot context.self key)
  let price := storePrice fork initial current new
  let access ← host (Host.accessColdSlot fork context.self key)
  charge (price.gas + access)
  host (if current = new then return () else Host.putSlot context.self key new)
  modify fun frame => { frame with refund := frame.refund + price.refund }

def transientLoad (fork : Fork) (context : Context) : InstructionM σ Unit := do
  charge (fork.fee .transientAccess)
  let key ← pop
  let value ← host (Host.transientSlot context.self key)
  push value

def transientStore (fork : Fork) (context : Context) : InstructionM σ Unit := do
  ensureMutable context.message
  charge (fork.fee .transientAccess)
  let key ← pop
  let value ← pop
  host (Host.putTransient context.self key value)

/-- What a destruction costs beside the access. Giving a balance to an empty account costs more. -/
def destructPrice (fork : Fork) (heir : Address) (balance : Word) : HostM σ Nat := do
  if balance = 0 then return fork.fee .selfDestruct
  else
    let creates := (← Host.account heir).isEmpty
    return fork.fee .selfDestruct + if creates then fork.fee .newAccount else 0

def bequeath (self heir : Address) (balance : Word) : HostM σ Unit := do
  if heir ≠ self ∧ balance ≠ 0 then
    let _ ← Host.transfer self heir balance

/-- Marks an account for destruction, with a refund for the first time. -/
def markDestroyed (fork : Fork) (self : Address) (frame : Frame) : Frame :=
  { frame with
    refund :=
      if frame.selfDestruct.contains self then frame.refund
      else frame.refund + fork.fee .selfDestructRefund
    selfDestruct := frame.selfDestruct.insert self }

def selfDestruct (fork : Fork) (context : Context) : InstructionM σ Unit := do
  ensureMutable context.message
  let heir ← popAddress
  let access ← host (Host.accessCold fork heir)
  let account ← host (Host.account context.self)
  let price ← host (destructPrice fork heir account.balance)
  charge (price + access)
  host (bequeath context.self heir account.balance)
  modify (markDestroyed fork context.self)

end Evm.Instruction
