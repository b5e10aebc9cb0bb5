import Evm.Address

/-!
# Sets of addresses

A set is its list of members in ascending order, so equal sets are the same value.
-/

namespace Evm

structure AddressSet where
  toList : List Address
  ascending : toList.Pairwise (· < ·)
  deriving DecidableEq, Repr

namespace AddressSet

def empty : AddressSet := ⟨[], .nil⟩

instance : Inhabited AddressSet := ⟨empty⟩

def contains (set : AddressSet) (address : Address) : Bool := set.toList.contains address

def insertSorted (address : Address) : List Address → List Address
  | [] => [address]
  | first :: rest =>
    if address < first then address :: first :: rest
    else if first < address then first :: insertSorted address rest
    else first :: rest

theorem mem_insertSorted {address x : Address} {list : List Address} :
    x ∈ insertSorted address list ↔ x = address ∨ x ∈ list := by
  induction list with
  | nil => simp [insertSorted]
  | cons first rest ih =>
    unfold insertSorted
    split
    · simp
    · split
      · simp only [List.mem_cons, ih]
        constructor <;> (intro h; rcases h with h | h | h <;> simp [h])
      · have : address = first := BitVec.le_antisymm (BitVec.not_lt.mp ‹_›) (BitVec.not_lt.mp ‹_›)
        simp [this]

theorem pairwise_insertSorted {address : Address} {list : List Address}
    (h : list.Pairwise (· < ·)) : (insertSorted address list).Pairwise (· < ·) := by
  induction list with
  | nil => simp [insertSorted]
  | cons first rest ih =>
    rw [List.pairwise_cons] at h
    unfold insertSorted
    split
    · rename_i lt
      refine List.pairwise_cons.mpr ⟨fun x hx => ?_, List.pairwise_cons.mpr h⟩
      rcases List.mem_cons.mp hx with rfl | hx
      · exact lt
      · exact BitVec.lt_trans lt (h.1 x hx)
    · split
      · rename_i lt
        refine List.pairwise_cons.mpr ⟨fun x hx => ?_, ih h.2⟩
        rcases mem_insertSorted.mp hx with rfl | hx
        · exact lt
        · exact h.1 x hx
      · exact List.pairwise_cons.mpr h

def insert (set : AddressSet) (address : Address) : AddressSet :=
  ⟨insertSorted address set.toList, pairwise_insertSorted set.ascending⟩

def union (set other : AddressSet) : AddressSet :=
  other.toList.foldl insert set

def ofList (list : List Address) : AddressSet :=
  list.foldl insert empty

end AddressSet

end Evm
