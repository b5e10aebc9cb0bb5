import Evm.Address

/-!
# Block and transaction

What code can ask of the block and the transaction that it runs in.
-/

namespace Evm

structure BlockHashes where
  entries : List (UInt64 × Word)
  ascending : entries.Pairwise fun a b => a.1 < b.1
  deriving DecidableEq, Repr

namespace BlockHashes

def empty : BlockHashes := ⟨[], .nil⟩

def get? (hashes : BlockHashes) (number : UInt64) : Option Word :=
  hashes.entries.lookup number

/-- Puts a hash at its place; a later hash of a number replaces the earlier one. -/
def insertSorted (number : UInt64) (hash : Word) : List (UInt64 × Word) → List (UInt64 × Word)
  | [] => [(number, hash)]
  | first :: rest =>
    if number < first.1 then (number, hash) :: first :: rest
    else if first.1 < number then first :: insertSorted number hash rest
    else (number, hash) :: rest

theorem mem_insertSorted {number : UInt64} {hash : Word} {x : UInt64 × Word}
    {list : List (UInt64 × Word)} (h : x ∈ insertSorted number hash list) :
    x = (number, hash) ∨ x ∈ list := by
  induction list with
  | nil => simpa [insertSorted] using h
  | cons first rest ih =>
    unfold insertSorted at h
    split at h
    · simpa using h
    · split at h
      · rcases List.mem_cons.mp h with rfl | h
        · simp
        · rcases ih h with h | h <;> simp [h]
      · rcases List.mem_cons.mp h with h | h <;> simp [h]

theorem pairwise_insertSorted {number : UInt64} {hash : Word} {list : List (UInt64 × Word)}
    (h : list.Pairwise fun a b => a.1 < b.1) :
    (insertSorted number hash list).Pairwise fun a b => a.1 < b.1 := by
  induction list with
  | nil => simp [insertSorted]
  | cons first rest ih =>
    rw [List.pairwise_cons] at h
    unfold insertSorted
    split
    · rename_i lt
      refine List.pairwise_cons.mpr ⟨fun x hx => ?_, List.pairwise_cons.mpr h⟩
      rcases List.mem_cons.mp hx with rfl | hx
      · exact lt
      · exact UInt64.lt_trans lt (h.1 x hx)
    · split
      · rename_i lt
        refine List.pairwise_cons.mpr ⟨fun x hx => ?_, ih h.2⟩
        rcases mem_insertSorted hx with rfl | hx
        · exact lt
        · exact h.1 x hx
      · rename_i h1 h2
        have eq : number = first.1 :=
          UInt64.le_antisymm (UInt64.not_lt.mp h2) (UInt64.not_lt.mp h1)
        exact List.pairwise_cons.mpr ⟨fun x hx => eq ▸ h.1 x hx, h.2⟩

def insert (hashes : BlockHashes) (number : UInt64) (hash : Word) : BlockHashes :=
  ⟨insertSorted number hash hashes.entries, pairwise_insertSorted hashes.ascending⟩

end BlockHashes

structure Block where
  number : UInt64
  timestamp : UInt64
  coinbase : Address
  gasLimit : UInt64
  /-- The difficulty of the block, or its random value. -/
  mixHash : Word
  baseFee : Word
  chainId : UInt64
  blobBaseFee : Word
  blobHashes : List Word
  hashes : BlockHashes
  deriving DecidableEq, Repr

namespace Block

def blank : Block where
  number := 0
  timestamp := 0
  coinbase := 0
  gasLimit := 30000000
  mixHash := 0
  baseFee := 0
  chainId := 1
  blobBaseFee := 1
  blobHashes := []
  hashes := .empty

instance : Inhabited Block := ⟨blank⟩

/-- The hash of one of the 256 blocks before this one; zero for any other. -/
def hashOf (block : Block) (number : Word) : Word :=
  if number.toNat < block.number.toNat ∧ block.number.toNat - number.toNat ≤ 256 then
    (block.hashes.get? (UInt64.ofNat number.toNat)).getD 0
  else 0

end Block

structure Transaction where
  gasPrice : Word
  origin : Address
  deriving DecidableEq, Repr

end Evm
