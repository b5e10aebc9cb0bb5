import Evm.Proofs.MemoryMaps
import Evm.Proofs.Settlements

/-!
# What fails, fails early

A call and a creation look at the balance and the nonce of their account before they ask for a
nested message; value moves and nonces are taken later, by other parts of the machine. What was seen
is still there then: no value fails to move, and no nested creation fails for want of a balance or a
nonce. An instruction that looks and does not go on leaves a zero, and the world as it was.
-/

namespace Evm

open Execution Instruction InstructionM

variable {σ : Type}

namespace Host

def Sends (host : Host σ) (sender recipient : Address) (value : Word) : Prop :=
  ∃ after, Host.transfer sender recipient value host = .ok true after ∧
    after.view.balance = (host.view.send sender recipient value).balance

variable {host after : Host σ} {sender recipient : Address} {value : Word}

theorem sends_of_le (inOrder : host.InOrder) (enough : value ≤ host.view.balance sender) :
    host.Sends sender recipient value := by
  obtain ⟨sent, after, runs, _⟩ := transfer_run inOrder sender recipient value
  cases sent with
  | true => exact ⟨after, runs, (transfer_sent inOrder runs).2⟩
  | false => exact absurd runs (transfer_ne_false inOrder enough)

end Host

theorem Instruction.Bequeaths.sends {fork : Fork} {context : Context} {frame : Frame}
    {host priced : Host σ} {heir : Address} {balance : Word} (inOrder : host.InOrder)
    (bequeaths : Bequeaths fork context frame host heir balance priced) :
    priced.Sends context.self heir balance := by
  obtain ⟨_, _, touched, account, found, price, _, touches, finds, prices, rfl⟩ := bequeaths
  have touchedInOrder := (Host.accessCold_shows touches).2.inOrder inOrder
  rw [Host.account_run touchedInOrder] at finds
  cases finds
  obtain ⟨_, rfl⟩ := destructPrice_ok touchedInOrder prices
  exact Host.sends_of_le touchedInOrder (BitVec.le_refl _)

/-! ## The look beforehand -/

section Checks

variable {fork : Fork} {context : Context} {frame left paid : Frame} {host last : Host σ}

namespace Operation

end Operation

namespace Instruction

end Instruction

variable {env : Environment σ} {instruction : Instruction} {operation : Operation}
  {control : Control}

end Checks

/-! ## Messages -/

namespace Execution

variable {env : Environment σ} {message : Message} {context : Context} {frame left : Frame}
  {host after : Host σ}

structure Covers (view : View) (message : Message) : Prop where
  value_le : message.value ≤ view.balance message.caller
  hasNonce : (view.account message.caller).nonce.toNat + 1 ≠ machineLimit

theorem Covers.of_same {told : Host σ} (covers : Covers host.view message)
    (quiet : host.Move host.view [] told) : Covers told.view message := by
  rw [quiet.view_eq]
  exact covers

end Execution

end Evm
