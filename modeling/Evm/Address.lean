import Evm.Hash.Keccak
import Evm.Hex

/-!
# Addresses

Accounts are named by 160 bits. A contract's address is the low part of a digest, either of its
creator and the creator's nonce, or of its creator, a salt and the digest of its code.
-/

namespace Evm

abbrev Address := BitVec 160

namespace Address

def ofBytes (bytes : Bytes) : Address := BitVec.ofNat 160 bytes.toNat

def ofBytes? (bytes : Bytes) : Except TextError Address :=
  if bytes.size = 20 then .ok (ofBytes bytes) else .error .address

def toBytes (address : Address) : Bytes := Bytes.ofNat 20 address.toNat

def ofWord (word : Word) : Address := word.setWidth 160

def toWord (address : Address) : Word := address.setWidth 256

/-- The address a text denotes: 40 digits with at most one mark before them. -/
def ofText (text : String) : Except TextError Address :=
  if text.utf8ByteSize = 40 ∨ text.utf8ByteSize = 42 then
    match Hex.decode (Hex.dropMarks text.toList) with
    | .ok bytes => ofBytes? bytes
    | .error _ => .error .address
  else .error .address

def toText (address : Address) : String := address.toBytes.toText

/-- A number as an item of a recursive-length list: a byte below 128 stands for itself, any
other string follows its length. -/
def numberItem (n : Nat) : Bytes :=
  let bytes := Bytes.minimal n
  if bytes.size = 1 ∧ n < 0x80 then bytes
  else #[UInt8.ofNat (0x80 + bytes.size)] ++ bytes

def createPreimage (creator : Address) (nonce : Nat) : Bytes :=
  let item := numberItem nonce
  #[UInt8.ofNat (0xc0 + (1 + 20 + item.size)), 0x94] ++ creator.toBytes ++ item

def create2Preimage (creator : Address) (salt : Word) (code : Bytes) : Bytes :=
  #[0xff] ++ creator.toBytes ++ salt.toBytes ++ keccak256 code

def create (creator : Address) (nonce : Nat) : Address :=
  ofBytes (keccak256 (createPreimage creator nonce))

def create2 (creator : Address) (salt : Word) (code : Bytes) : Address :=
  ofBytes (keccak256 (create2Preimage creator salt code))

end Address

end Evm
