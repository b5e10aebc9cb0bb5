import Evm.Execution

/-!
# Runs

One run of code over a world, by options most of which may be left out.
-/

namespace Evm

structure RunOptions where
  block : Option Block := none
  transaction : Option Transaction := none
  gasPrice : Option Word := none
  origin : Option Address := none
  /-- A message as a whole; it wins over all its parts below. -/
  message : Option Message := none
  caller : Option Address := none
  code : Option Bytes := none
  data : Option Bytes := none
  gasLimit : Option Nat := none
  value : Option Word := none
  depth : Option Nat := none
  isStatic : Option Bool := none
  selfDestruct : Option AddressSet := none
  address : Option Address := none
  pc : Option Nat := none

namespace RunOptions

/-- Without an origin the caller stands for it. -/
def toTransaction (options : RunOptions) : Transaction :=
  options.transaction.getD
    ⟨options.gasPrice.getD 0, (options.origin <|> options.caller).getD 0⟩

def toMessage (options : RunOptions) : Message :=
  options.message.getD
    { caller := options.caller.getD 0
      target := some (options.address.getD 0)
      codeSource := none
      value := options.value.getD 0
      data := options.data.getD #[]
      code := options.code.getD #[]
      gasLimit := options.gasLimit.getD defaultGasLimit
      depth := options.depth.getD 0
      isStatic := options.isStatic.getD false
      salt := none
      selfDestruct := options.selfDestruct.getD .empty }

end RunOptions

structure Machine where
  world : World
  fork : Fork
  curve : CurveBackend

namespace Machine

variable {σ : Type}

def ofWorld (world : World) : Machine := ⟨world, default, Bn254.backend⟩

def environment (machine : Machine) (options : RunOptions) (tracer : Tracer σ) :
    Environment σ where
  fork := machine.fork
  block := options.block.getD .blank
  transaction := options.toTransaction
  curve := machine.curve
  tracer := tracer

structure Trial (σ : Type) where
  result : Except Failure Result
  world : World
  trace : σ

/-- Runs code from a fresh host. A failure leaves the world as it was when it came up. -/
def run (machine : Machine) (options : RunOptions) (tracer : Tracer σ) (trace : σ) : Trial σ :=
  let env := machine.environment options tracer
  match runMessage env options.toMessage (options.pc.getD 0) (.start machine.world trace) with
  | .ok result host => ⟨.ok result, host.store.world, host.trace⟩
  | .error failure host => ⟨.error failure, host.store.world, host.trace⟩

end Machine

end Evm
