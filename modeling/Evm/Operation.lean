import Evm.Schedule

/-!
# Instruction set

The operations a byte of code can name, grouped by what they do to the stack, with the words
they take and give and the fork they first appear in.
-/

namespace Evm

inductive Unary where
  | isZero | not
  deriving DecidableEq, Repr

inductive Binary where
  | add | mul | sub | div | sdiv | mod | smod | exp | signExtend
  | lt | gt | slt | sgt | eq | and | or | xor | byte | shl | shr | sar
  deriving DecidableEq, Repr

inductive Ternary where
  | addMod | mulMod
  deriving DecidableEq, Repr

/-- What the frame, its message, the transaction or the block tell without an operand. -/
inductive Query where
  | address | origin | caller | callValue | callDataSize | codeSize | gasPrice | returnDataSize
  | coinbase | timestamp | number | difficulty | gasLimit | chainId | baseFee | blobBaseFee
  | pc | memorySize | gas
  deriving DecidableEq, Repr

/-- What the message or the block tell of an index. -/
inductive Lookup where
  | callData | blockHash | blobHash
  deriving DecidableEq, Repr

/-- What the world tells of an account. -/
inductive Inspection where
  | balance | codeSize | codeHash
  deriving DecidableEq, Repr

inductive CopySource where
  | callData | code
  deriving DecidableEq, Repr

inductive CallMode where
  | call | code | delegate | static
  deriving DecidableEq, Repr

def CallMode.hasValue : CallMode → Bool
  | .call | .code => true
  | .delegate | .static => false

/-- How a message came about. A creation with a salt does not use the creator's nonce. -/
inductive MessageKind where
  | call (mode : CallMode)
  | create (salted : Bool)
  deriving DecidableEq, Repr

def MessageKind.name : MessageKind → String
  | .call .call => "call"
  | .call .code => "code"
  | .call .static => "static"
  | .call .delegate => "delegate"
  | .create false => "create"
  | .create true => "create2"

inductive Operation where
  | stop
  | unary (op : Unary)
  | binary (op : Binary)
  | ternary (op : Ternary)
  | keccak
  | query (what : Query)
  | lookup (what : Lookup)
  | inspect (what : Inspection)
  | selfBalance
  | copy (source : CopySource)
  | externalCodeCopy
  | returnDataCopy
  | pop
  | memoryLoad
  | memoryStore
  | memoryStore8
  | memoryCopy
  | storageLoad
  | storageStore
  | transientLoad
  | transientStore
  | jump
  | jumpIf
  | jumpDest
  | push (width : Fin 33)
  | dup (depth : Fin 16)
  | swap (depth : Fin 16)
  | log (topics : Fin 5)
  | create (salted : Bool)
  | call (mode : CallMode)
  | ret
  | revert
  | invalid
  | selfDestruct
  deriving DecidableEq, Repr

namespace Operation

/-- The operation a byte names under some fork. -/
def ofByte? (byte : UInt8) : Option Operation :=
  let n := byte.toNat
  if n < 0x20 then
    match n with
    | 0x00 => some .stop
    | 0x01 => some (.binary .add)
    | 0x02 => some (.binary .mul)
    | 0x03 => some (.binary .sub)
    | 0x04 => some (.binary .div)
    | 0x05 => some (.binary .sdiv)
    | 0x06 => some (.binary .mod)
    | 0x07 => some (.binary .smod)
    | 0x08 => some (.ternary .addMod)
    | 0x09 => some (.ternary .mulMod)
    | 0x0a => some (.binary .exp)
    | 0x0b => some (.binary .signExtend)
    | 0x10 => some (.binary .lt)
    | 0x11 => some (.binary .gt)
    | 0x12 => some (.binary .slt)
    | 0x13 => some (.binary .sgt)
    | 0x14 => some (.binary .eq)
    | 0x15 => some (.unary .isZero)
    | 0x16 => some (.binary .and)
    | 0x17 => some (.binary .or)
    | 0x18 => some (.binary .xor)
    | 0x19 => some (.unary .not)
    | 0x1a => some (.binary .byte)
    | 0x1b => some (.binary .shl)
    | 0x1c => some (.binary .shr)
    | 0x1d => some (.binary .sar)
    | _ => none
  else if n < 0x50 then
    match n with
    | 0x20 => some .keccak
    | 0x30 => some (.query .address)
    | 0x31 => some (.inspect .balance)
    | 0x32 => some (.query .origin)
    | 0x33 => some (.query .caller)
    | 0x34 => some (.query .callValue)
    | 0x35 => some (.lookup .callData)
    | 0x36 => some (.query .callDataSize)
    | 0x37 => some (.copy .callData)
    | 0x38 => some (.query .codeSize)
    | 0x39 => some (.copy .code)
    | 0x3a => some (.query .gasPrice)
    | 0x3b => some (.inspect .codeSize)
    | 0x3c => some .externalCodeCopy
    | 0x3d => some (.query .returnDataSize)
    | 0x3e => some .returnDataCopy
    | 0x3f => some (.inspect .codeHash)
    | 0x40 => some (.lookup .blockHash)
    | 0x41 => some (.query .coinbase)
    | 0x42 => some (.query .timestamp)
    | 0x43 => some (.query .number)
    | 0x44 => some (.query .difficulty)
    | 0x45 => some (.query .gasLimit)
    | 0x46 => some (.query .chainId)
    | 0x47 => some .selfBalance
    | 0x48 => some (.query .baseFee)
    | 0x49 => some (.lookup .blobHash)
    | 0x4a => some (.query .blobBaseFee)
    | _ => none
  else if n < 0x5f then
    match n with
    | 0x50 => some .pop
    | 0x51 => some .memoryLoad
    | 0x52 => some .memoryStore
    | 0x53 => some .memoryStore8
    | 0x54 => some .storageLoad
    | 0x55 => some .storageStore
    | 0x56 => some .jump
    | 0x57 => some .jumpIf
    | 0x58 => some (.query .pc)
    | 0x59 => some (.query .memorySize)
    | 0x5a => some (.query .gas)
    | 0x5b => some .jumpDest
    | 0x5c => some .transientLoad
    | 0x5d => some .transientStore
    | 0x5e => some .memoryCopy
    | _ => none
  else if n < 0x80 then some (.push (Fin.ofNat 33 (n - 0x5f)))
  else if n < 0x90 then some (.dup (Fin.ofNat 16 (n - 0x80)))
  else if n < 0xa0 then some (.swap (Fin.ofNat 16 (n - 0x90)))
  else if n < 0xa5 then some (.log (Fin.ofNat 5 (n - 0xa0)))
  else
    match n with
    | 0xf0 => some (.create false)
    | 0xf1 => some (.call .call)
    | 0xf2 => some (.call .code)
    | 0xf3 => some .ret
    | 0xf4 => some (.call .delegate)
    | 0xf5 => some (.create true)
    | 0xfa => some (.call .static)
    | 0xfd => some .revert
    | 0xfe => some .invalid
    | 0xff => some .selfDestruct
    | _ => none

def since : Operation → Fork
  | .binary .shl | .binary .shr | .binary .sar => .constantinople
  | .inspect .codeHash => .constantinople
  | .create true => .constantinople
  | .query .chainId | .selfBalance => .istanbul
  | .query .baseFee => .london
  | .push 0 => .shanghai
  | .lookup .blobHash | .query .blobBaseFee => .cancun
  | .transientLoad | .transientStore | .memoryCopy => .cancun
  | _ => .byzantium

def enabled? (fork : Fork) (byte : UInt8) : Option Operation :=
  (ofByte? byte).filter fun op => op.since ≤ fork

def inputs : Operation → Nat
  | .stop | .query _ | .selfBalance | .jumpDest | .push _ | .invalid => 0
  | .unary _ | .lookup _ | .inspect _ | .pop | .memoryLoad | .storageLoad | .transientLoad => 1
  | .jump | .selfDestruct => 1
  | .binary _ | .keccak | .memoryStore | .memoryStore8 | .storageStore | .transientStore => 2
  | .jumpIf | .ret | .revert => 2
  | .ternary _ | .copy _ | .returnDataCopy | .memoryCopy | .create false => 3
  | .externalCodeCopy | .create true => 4
  | .call .delegate | .call .static => 6
  | .call .call | .call .code => 7
  | .dup depth => depth.val + 1
  | .swap depth => depth.val + 2
  | .log topics => topics.val + 2

def outputs : Operation → Nat
  | .stop | .invalid | .pop | .memoryStore | .memoryStore8 | .memoryCopy | .copy _ => 0
  | .externalCodeCopy | .returnDataCopy | .storageStore | .transientStore => 0
  | .jump | .jumpIf | .jumpDest | .log _ | .ret | .revert | .selfDestruct => 0
  | .dup depth => depth.val + 2
  | .swap depth => depth.val + 2
  | _ => 1

/-- Bytes of code after the operation that belong to it. -/
def argumentWidth : Operation → Nat
  | .push width => width.val
  | _ => 0

/-- The number in the names of a family; zero outside the families. -/
def familyIndex : Operation → Nat
  | .push width => width.val
  | .dup depth | .swap depth => depth.val + 1
  | .log topics => topics.val
  | _ => 0

def name : Operation → String
  | .stop => "STOP"
  | .unary .isZero => "ISZERO"
  | .unary .not => "NOT"
  | .binary .add => "ADD"
  | .binary .mul => "MUL"
  | .binary .sub => "SUB"
  | .binary .div => "DIV"
  | .binary .sdiv => "SDIV"
  | .binary .mod => "MOD"
  | .binary .smod => "SMOD"
  | .binary .exp => "EXP"
  | .binary .signExtend => "SIGNEXTEND"
  | .binary .lt => "LT"
  | .binary .gt => "GT"
  | .binary .slt => "SLT"
  | .binary .sgt => "SGT"
  | .binary .eq => "EQ"
  | .binary .and => "AND"
  | .binary .or => "OR"
  | .binary .xor => "XOR"
  | .binary .byte => "BYTE"
  | .binary .shl => "SHL"
  | .binary .shr => "SHR"
  | .binary .sar => "SAR"
  | .ternary .addMod => "ADDMOD"
  | .ternary .mulMod => "MULMOD"
  | .keccak => "SHA3"
  | .query .address => "ADDRESS"
  | .query .origin => "ORIGIN"
  | .query .caller => "CALLER"
  | .query .callValue => "CALLVALUE"
  | .query .callDataSize => "CALLDATASIZE"
  | .query .codeSize => "CODESIZE"
  | .query .gasPrice => "GASPRICE"
  | .query .returnDataSize => "RETURNDATASIZE"
  | .query .coinbase => "COINBASE"
  | .query .timestamp => "TIMESTAMP"
  | .query .number => "NUMBER"
  | .query .difficulty => "DIFFICULTY"
  | .query .gasLimit => "GASLIMIT"
  | .query .chainId => "CHAINID"
  | .query .baseFee => "BASEFEE"
  | .query .blobBaseFee => "BLOBBASEFEE"
  | .query .pc => "PC"
  | .query .memorySize => "MSIZE"
  | .query .gas => "GAS"
  | .lookup .callData => "CALLDATALOAD"
  | .lookup .blockHash => "BLOCKHASH"
  | .lookup .blobHash => "BLOBHASH"
  | .inspect .balance => "BALANCE"
  | .inspect .codeSize => "EXTCODESIZE"
  | .inspect .codeHash => "EXTCODEHASH"
  | .selfBalance => "SELFBALANCE"
  | .copy .callData => "CALLDATACOPY"
  | .copy .code => "CODECOPY"
  | .externalCodeCopy => "EXTCODECOPY"
  | .returnDataCopy => "RETURNDATACOPY"
  | .pop => "POP"
  | .memoryLoad => "MLOAD"
  | .memoryStore => "MSTORE"
  | .memoryStore8 => "MSTORE8"
  | .memoryCopy => "MCOPY"
  | .storageLoad => "SLOAD"
  | .storageStore => "SSTORE"
  | .transientLoad => "TLOAD"
  | .transientStore => "TSTORE"
  | .jump => "JUMP"
  | .jumpIf => "JUMPI"
  | .jumpDest => "JUMPDEST"
  | .push width => "PUSH" ++ width.val.repr
  | .dup depth => "DUP" ++ (depth.val + 1).repr
  | .swap depth => "SWAP" ++ (depth.val + 1).repr
  | .log topics => "LOG" ++ topics.val.repr
  | .create false => "CREATE"
  | .create true => "CREATE2"
  | .call .call => "CALL"
  | .call .code => "CALLCODE"
  | .call .delegate => "DELEGATECALL"
  | .call .static => "STATICCALL"
  | .ret => "RETURN"
  | .revert => "REVERT"
  | .invalid => "INVALID"
  | .selfDestruct => "SELFDESTRUCT"

end Operation

end Evm
