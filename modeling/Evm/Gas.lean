import Evm.Schedule
import Evm.Word

/-!
# Gas

The meter of one frame, and the share of its gas that a frame may hand on.
-/

namespace Evm

structure Meter where
  limit : Nat
  used : Nat
  deriving DecidableEq, Repr

namespace Meter

def ofLimit (limit : Nat) : Meter := ⟨limit, 0⟩

def remaining (meter : Meter) : Nat := meter.limit - meter.used

def spend? (meter : Meter) (amount : Nat) : Option Meter :=
  if amount ≤ meter.remaining then some { meter with used := meter.used + amount } else none

/-- Takes back gas that a nested message did not spend. -/
def restore (meter : Meter) (amount : Nat) : Meter :=
  { meter with used := meter.used - amount }

end Meter

namespace Gas

def allButOne64th (gas : Nat) : Nat := gas - gas / 64

/-- A number, or the largest one of 64 bits. -/
def saturate (amount : Nat) : Nat := min amount (machineLimit - 1)

def perWord (fork : Fork) (fixed word : Fee) (length : Nat) : Nat :=
  saturate (fork.fee fixed + saturate (fork.fee word * wordCount length))

end Gas

end Evm
