import Evm.Address
import Evm.Hash.Blake2
import Evm.Hash.Ripemd160
import Evm.Hash.Sha256
import Evm.Precompile.CurveBackend
import Evm.Precompile.EcRecover
import Evm.Precompile.ModExp

/-!
# Precompiled contracts

Routines at the lowest addresses. Each has its own order of checks on the gas that is offered, the
form of the input and what comes out; a routine that fails takes the whole offer.
-/

namespace Evm

namespace Blake2

def readWords (data : Bytes) (offset count : Nat) : Array UInt64 :=
  Array.ofFn fun i : Fin count =>
    UInt64.ofNat (Bytes.toNatLE (data.window (offset + 8 * i.val) 8))

def rounds (data : Bytes) : Nat := Bytes.toNat (data.window 0 4)

def isLast? (data : Bytes) : Option Bool :=
  match data.getD 212 0 with
  | 0 => some false
  | 1 => some true
  | _ => none

def compressed (data : Bytes) (isLast : Bool) : Bytes :=
  let state := compress (rounds data) (readWords data 4 8) (readWords data 68 16)
    (readWords data 196 2) isLast
  state.flatMap fun word => Bytes.ofNatLE 8 word.toNat

end Blake2

inductive Precompile where
  | ecRecover
  | sha256
  | ripemd160
  | identity
  | modExp
  | ecAdd
  | ecMul
  | ecPairing
  | blake2
  deriving DecidableEq, Repr

structure PrecompileInput where
  data : Bytes
  gasLimit : Nat
  fork : Fork

structure PrecompileAnswer where
  gasUsed : Nat
  output : Bytes
  success : Bool
  deriving DecidableEq, Repr

namespace PrecompileAnswer

def ok (gasUsed : Nat) (output : Bytes) : PrecompileAnswer := ⟨gasUsed, output, true⟩

/-- Every failure looks like running out of gas: the whole offer is gone. -/
def outOfGas (gasLimit : Nat) : PrecompileAnswer := ⟨gasLimit, #[], false⟩

end PrecompileAnswer

namespace Routine

def ecRecover (input : PrecompileInput) : PrecompileAnswer :=
  let gas := input.fork.fee .ecRecover
  if input.gasLimit < gas then .outOfGas input.gasLimit
  else .ok gas (EcRecover.signer EcRecover.recoverKey input.data)

def chargeWords (input : PrecompileInput) (fixed word : Fee) : Option Nat :=
  let gas := Gas.perWord input.fork fixed word input.data.size
  if gas ≤ input.gasLimit then some gas else none

def byWord (fixed word : Fee) (compute : Bytes → Bytes) (input : PrecompileInput) :
    PrecompileAnswer :=
  match chargeWords input fixed word with
  | some gas => .ok gas (compute input.data)
  | none => .outOfGas input.gasLimit

def onPoints (fee : Fee) (width : Nat) (compute : Bytes → Bytes) (input : PrecompileInput) :
    PrecompileAnswer :=
  let gas := input.fork.fee fee
  if input.gasLimit < gas then .outOfGas input.gasLimit
  else
    let output := compute (input.data.window 0 width)
    if output.size ≠ 64 then .outOfGas input.gasLimit else .ok gas output

def ecPairing (curve : CurveBackend) (input : PrecompileInput) : PrecompileAnswer :=
  let pairs := input.data.size / 192
  let gas := Gas.saturate
    (input.fork.fee .ecPairing + Gas.saturate (input.fork.fee .ecPairingPair * pairs))
  if input.gasLimit < gas ∨ input.data.size % 192 ≠ 0 then .outOfGas input.gasLimit
  else
    let output := curve.pairing input.data
    if output.size ≠ 32 then .outOfGas input.gasLimit else .ok gas output

/-- Nothing where the power is too large to be held. -/
def modExp? (input : PrecompileInput) : Option PrecompileAnswer := do
  let gas := ModExp.priceOf input.fork input.data
  if input.gasLimit < gas then return .outOfGas input.gasLimit
  else return .ok gas (← ModExp.power? input.data)

/-- Here the size of the input is checked before the gas, since it tells the price. -/
def blake2 (input : PrecompileInput) : PrecompileAnswer :=
  if input.data.size ≠ 213 then .outOfGas input.gasLimit
  else
    let gas := input.fork.fee .blake2Round * Blake2.rounds input.data
    if input.gasLimit < gas then .outOfGas input.gasLimit
    else
      match Blake2.isLast? input.data with
      | some isLast => .ok gas (Blake2.compressed input.data isLast)
      | none => .outOfGas input.gasLimit

end Routine

namespace Precompile

/-- How many contracts a fork has. They stand at the lowest addresses but zero. -/
def count (fork : Fork) : Nat := if .istanbul ≤ fork then 9 else 8

def addresses (fork : Fork) : List Address :=
  (List.range (count fork)).map fun i => BitVec.ofNat 160 (i + 1)

def number (address : Address) : Nat := (address.toBytes.getD 19 0).toNat

/-- Whether an address is that of a contract: only its last byte is not zero, and that numbers one
of the fork. -/
def contains (fork : Fork) (address : Address) : Bool :=
  address.toBytes.extract 0 19 = Bytes.zeros 19 ∧
    1 ≤ number address ∧ number address ≤ count fork

def numbered? : Nat → Option Precompile
  | 1 => some .ecRecover
  | 2 => some .sha256
  | 3 => some .ripemd160
  | 4 => some .identity
  | 5 => some .modExp
  | 6 => some .ecAdd
  | 7 => some .ecMul
  | 8 => some .ecPairing
  | 9 => some .blake2
  | _ => none

def at? (fork : Fork) (address : Address) : Option Precompile :=
  if contains fork address then numbered? (number address) else none

def run? (contract : Precompile) (curve : CurveBackend) (input : PrecompileInput) :
    Option PrecompileAnswer :=
  match contract with
  | .ecRecover => some (Routine.ecRecover input)
  | .sha256 => some (Routine.byWord .sha256 .sha256Word Evm.sha256 input)
  | .ripemd160 =>
    some (Routine.byWord .ripemd160 .ripemd160Word
      (fun data => Bytes.zeros 12 ++ Evm.ripemd160 data) input)
  | .identity => some (Routine.byWord .identity .identityWord id input)
  | .modExp => Routine.modExp? input
  | .ecAdd => some (Routine.onPoints .ecAdd 128 curve.add input)
  | .ecMul => some (Routine.onPoints .ecMul 96 curve.mul input)
  | .ecPairing => some (Routine.ecPairing curve input)
  | .blake2 => some (Routine.blake2 input)

end Precompile

end Evm
