import Evm.Address

/-!
# Accounts
-/

namespace Evm

structure Account where
  balance : Word
  nonce : UInt64
  codeHash : Word
  deriving DecidableEq, Repr

namespace Account

/-- The account of an address that nothing was ever written to. -/
def blank : Account := ⟨0, 0, emptyHash⟩

instance : Inhabited Account := ⟨blank⟩

def ofBalance (balance : Word) : Account := { blank with balance }

def hasCode (account : Account) : Bool :=
  account.codeHash != 0 && account.codeHash != emptyHash

def isEmpty (account : Account) : Bool :=
  !account.hasCode && account.nonce == 0 && account.balance == 0

end Account

end Evm
