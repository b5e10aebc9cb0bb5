import Evm.Word

/-!
# Stack

The operands of a frame, top first. The number of words is kept beside them.
-/

namespace Evm

structure Stack where
  words : List Word
  size : Nat
  size_eq : size = words.length

namespace Stack

def empty : Stack := ⟨[], 0, rfl⟩

instance : Inhabited Stack := ⟨empty⟩

def push (stack : Stack) (word : Word) : Stack :=
  ⟨word :: stack.words, stack.size + 1, by simp [stack.size_eq]⟩

def pop? (stack : Stack) : Option (Word × Stack) :=
  match stack with
  | ⟨word :: words, size, h⟩ => some (word, ⟨words, size - 1, by simp at h; omega⟩)
  | ⟨[], _, _⟩ => none

def get? (stack : Stack) (depth : Nat) : Option Word := stack.words[depth]?

/-- Exchanges the top word with the one `depth + 1` places below it. -/
def swap? (stack : Stack) (depth : Nat) : Option Stack :=
  match stack with
  | ⟨top :: words, size, h⟩ =>
    match words[depth]? with
    | some word => some ⟨word :: words.set depth top, size, by simpa using h⟩
    | none => none
  | ⟨[], _, _⟩ => none

end Stack

end Evm
