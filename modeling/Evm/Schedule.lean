import Evm.Fork

/-!
# Gas schedule

What the machine and the precompiled contracts charge under each fork, and the limits they keep.
-/

namespace Evm

inductive Fee where
  | zero | base | veryLow | low | mid | high
  | jumpDest
  | exp | expByte
  | keccak | keccakWord
  | copy
  | memory | quadCoeffDiv
  | balance | extCodeSize | extCodeCopy | extCodeHash | blockHash
  | sload
  | sstoreSet | sstoreReset | sstoreDirty | sstoreClearRefund | sstoreSentry
  | warmAccess | coldAccountAccess | coldSload
  | transientAccess
  | log | logTopic | logData
  | create | codeDeposit | initCodeWord
  | call | callValue | callStipend | newAccount
  | selfDestruct | selfDestructRefund
  | ecRecover
  | sha256 | sha256Word
  | ripemd160 | ripemd160Word
  | identity | identityWord
  | modExpMin | modExpDivisor
  | ecAdd | ecMul | ecPairing | ecPairingPair
  | blake2Round
  deriving DecidableEq, Repr

namespace Fee

def all : List Fee :=
  [.zero, .base, .veryLow, .low, .mid, .high, .jumpDest, .exp, .expByte, .keccak, .keccakWord,
   .copy, .memory, .quadCoeffDiv, .balance, .extCodeSize, .extCodeCopy, .extCodeHash, .blockHash,
   .sload, .sstoreSet, .sstoreReset, .sstoreDirty, .sstoreClearRefund, .sstoreSentry,
   .warmAccess, .coldAccountAccess, .coldSload, .transientAccess, .log, .logTopic, .logData,
   .create, .codeDeposit, .initCodeWord, .call, .callValue, .callStipend, .newAccount,
   .selfDestruct, .selfDestructRefund, .ecRecover, .sha256, .sha256Word, .ripemd160,
   .ripemd160Word, .identity, .identityWord, .modExpMin, .modExpDivisor, .ecAdd, .ecMul,
   .ecPairing, .ecPairingPair, .blake2Round]

def name : Fee → String
  | .zero => "Zero"
  | .base => "Base"
  | .veryLow => "VeryLow"
  | .low => "Low"
  | .mid => "Mid"
  | .high => "High"
  | .jumpDest => "JumpDest"
  | .exp => "Exp"
  | .expByte => "ExpByte"
  | .keccak => "Keccak"
  | .keccakWord => "KeccakWord"
  | .copy => "Copy"
  | .memory => "Memory"
  | .quadCoeffDiv => "QuadCoeffDiv"
  | .balance => "Balance"
  | .extCodeSize => "ExtCodeSize"
  | .extCodeCopy => "ExtCodeCopy"
  | .extCodeHash => "ExtCodeHash"
  | .blockHash => "BlockHash"
  | .sload => "Sload"
  | .sstoreSet => "SstoreSet"
  | .sstoreReset => "SstoreReset"
  | .sstoreDirty => "SstoreDirty"
  | .sstoreClearRefund => "SstoreClearRefund"
  | .sstoreSentry => "SstoreSentry"
  | .warmAccess => "WarmAccess"
  | .coldAccountAccess => "ColdAccountAccess"
  | .coldSload => "ColdSload"
  | .transientAccess => "TransientAccess"
  | .log => "Log"
  | .logTopic => "LogTopic"
  | .logData => "LogData"
  | .create => "Create"
  | .codeDeposit => "CodeDeposit"
  | .initCodeWord => "InitCodeWord"
  | .call => "Call"
  | .callValue => "CallValue"
  | .callStipend => "CallStipend"
  | .newAccount => "NewAccount"
  | .selfDestruct => "SelfDestruct"
  | .selfDestructRefund => "SelfDestructRefund"
  | .ecRecover => "EcRecover"
  | .sha256 => "Sha256"
  | .sha256Word => "Sha256Word"
  | .ripemd160 => "Ripemd160"
  | .ripemd160Word => "Ripemd160Word"
  | .identity => "Identity"
  | .identityWord => "IdentityWord"
  | .modExpMin => "ModExpMin"
  | .modExpDivisor => "ModExpDivisor"
  | .ecAdd => "EcAdd"
  | .ecMul => "EcMul"
  | .ecPairing => "EcPairing"
  | .ecPairingPair => "EcPairingPair"
  | .blake2Round => "Blake2Round"

def ofName? (name : String) : Option Fee := all.find? fun fee => fee.name == name

end Fee

namespace Fork

def change (fork first : Fork) (old new : Nat) : Nat := if first ≤ fork then new else old

/-- The price of a fee. With access lists most of what touches an account or a slot has no
price of its own and is paid by the access. -/
def fee (fork : Fork) : Fee → Nat
  | .zero => 0
  | .base => 2
  | .veryLow => 3
  | .low => 5
  | .mid => 8
  | .high => 10
  | .jumpDest => 1
  | .exp => 10
  | .expByte => 50
  | .keccak => 30
  | .keccakWord => 6
  | .copy => 3
  | .memory => 3
  | .quadCoeffDiv => 512
  | .balance => fork.change .berlin (fork.change .istanbul 400 700) 0
  | .extCodeSize => fork.change .berlin 700 0
  | .extCodeCopy => fork.change .berlin 700 0
  | .extCodeHash => fork.change .berlin (fork.change .istanbul 400 700) 0
  | .blockHash => 20
  | .sload => fork.change .berlin (fork.change .istanbul 200 800) 0
  | .sstoreSet => 20000
  | .sstoreReset => fork.change .berlin 5000 2900
  | .sstoreDirty => fork.change .berlin (fork.change .istanbul 200 800) 100
  | .sstoreClearRefund => fork.change .london 15000 4800
  | .sstoreSentry => 2300
  | .warmAccess => fork.change .berlin 0 100
  | .coldAccountAccess => fork.change .berlin 0 2600
  | .coldSload => fork.change .berlin 0 2100
  | .transientAccess => 100
  | .log => 375
  | .logTopic => 375
  | .logData => 8
  | .create => 32000
  | .codeDeposit => 200
  | .initCodeWord => fork.change .shanghai 0 2
  | .call => fork.change .berlin 700 0
  | .callValue => 9000
  | .callStipend => 2300
  | .newAccount => 25000
  | .selfDestruct => 5000
  | .selfDestructRefund => fork.change .london 24000 0
  | .ecRecover => 3000
  | .sha256 => 60
  | .sha256Word => 12
  | .ripemd160 => 600
  | .ripemd160Word => 120
  | .identity => 15
  | .identityWord => 3
  | .modExpMin => fork.change .berlin 0 200
  | .modExpDivisor => fork.change .berlin 20 3
  | .ecAdd => fork.change .istanbul 500 150
  | .ecMul => fork.change .istanbul 40000 6000
  | .ecPairing => fork.change .istanbul 100000 45000
  | .ecPairingPair => fork.change .istanbul 80000 34000
  | .blake2Round => 1

end Fork

def stackLimit : Nat := 1024

def depthLimit : Nat := 1024

def codeLimit : Nat := 0x6000

def initCodeLimit : Nat := 2 * codeLimit

/-- Most bytes of memory; what lies beyond cannot be paid for. -/
def memoryLimit : Nat := 1 <<< 32

def defaultGasLimit : Nat := 0xffffff

def wordCount (size : Nat) : Nat := (size + 31) / 32

end Evm
