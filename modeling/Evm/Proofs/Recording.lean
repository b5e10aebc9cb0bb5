import Evm.Proofs.Effects
import Evm.Proofs.Journal
import Evm.Proofs.Prices

/-!
# Instructions note what they change

The host serves all that instructions ask of it, for prices that are bounded. Whatever an
instruction does, and however it ends, the host after it extends the host before it.
-/

namespace Evm

open HostM

variable {σ α β : Type}

namespace Host

/-- The price of an access is no more than a fee, and with access lists it is not zero. -/
structure AccessPrice (fork : Fork) (price : Nat) : Prop where
  le : price ≤ 100000
  pos : fork.hasAccessLists → 1 ≤ price

theorem AccessPrice.add_bounds {fork : Fork} {access : Nat} {fee : Fee}
    (price : AccessPrice fork access)
    (reaches : fee ∈ [.balance, .extCodeSize, .extCodeCopy, .extCodeHash, .sload, .call]) :
    1 ≤ fork.fee fee + access ∧ fork.fee fee + access ≤ 200000 := by
  have bounded := price.le
  have fee_le := fork.fee_le fee
  refine ⟨?_, by omega⟩
  cases lists : fork.hasAccessLists with
  | true => exact Nat.le_add_left_of_le (price.pos lists)
  | false => exact Nat.le_add_right_of_le (Fork.one_le_fee lists reaches)

theorem accessAddress_serves (fork : Fork) (address : Address) :
    Serves (Host.accessAddress fork address : HostM σ Nat) (AccessPrice fork) := by
  unfold Host.accessAddress
  split
  · obtain ⟨warm, cold, _⟩ := Fork.one_le_access ‹_›
    refine (touchAddress_serves address).bind fun touched _ => ?_
    split
    · exact .done ⟨fork.fee_le _, fun _ => cold⟩
    · exact .done ⟨fork.fee_le _, fun _ => warm⟩
  · exact .done ⟨Nat.zero_le _, fun lists => absurd lists ‹_›⟩

theorem accessSlot_serves (fork : Fork) (address : Address) (key : Word) :
    Serves (Host.accessSlot fork address key : HostM σ Nat) (AccessPrice fork) := by
  unfold Host.accessSlot
  split
  · obtain ⟨warm, _, cold⟩ := Fork.one_le_access ‹_›
    refine (touchSlot_serves address key).bind fun touched _ => ?_
    split
    · exact .done ⟨fork.fee_le _, fun _ => cold⟩
    · exact .done ⟨fork.fee_le _, fun _ => warm⟩
  · exact .done ⟨Nat.zero_le _, fun lists => absurd lists ‹_›⟩

theorem accessCold_serves (fork : Fork) (address : Address) :
    Serves (Host.accessCold fork address : HostM σ Nat) (· ≤ 100000) := by
  unfold Host.accessCold
  split
  · refine (touchAddress_serves address).bind fun cold _ => ?_
    split
    · exact .done (fork.fee_le _)
    · exact .done (Nat.zero_le _)
  · exact .done (Nat.zero_le _)

theorem accessColdSlot_serves (fork : Fork) (address : Address) (key : Word) :
    Serves (Host.accessColdSlot fork address key : HostM σ Nat) (· ≤ 100000) := by
  unfold Host.accessColdSlot
  split
  · refine (touchSlot_serves address key).bind fun cold _ => ?_
    split
    · exact .done (fork.fee_le _)
    · exact .done (Nat.zero_le _)
  · exact .done (Nat.zero_le _)

end Host

namespace Instruction

open InstructionM Host

theorem inspected_serves (address : Address) (what : Inspection) :
    Serves (inspected address what : HostM σ Word) fun _ => True := by
  cases what with
  | balance => exact (account_serves address).bind fun _ _ => .done trivial
  | codeSize => exact (code_serves address).bind fun _ _ => .done trivial
  | codeHash => exact (account_serves address).bind fun _ _ => .done trivial

theorem writeSlot_serves (address : Address) (key current new : Word) :
    Serves (if current = new then pure () else Host.putSlot address key new : HostM σ Unit)
      fun _ => True := by
  split
  · exact .done trivial
  · exact putSlot_serves address key new

theorem destructPrice_serves (fork : Fork) (heir : Address) (balance : Word) :
    Serves (destructPrice fork heir balance : HostM σ Nat) (· ≤ 200000) := by
  have fixed := fork.fee_le .selfDestruct
  have creates := fork.fee_le .newAccount
  unfold destructPrice
  split
  · exact .done (by omega)
  · refine (account_serves heir).bind fun account _ => .done ?_
    split <;> omega

theorem bequeath_serves (self heir : Address) (balance : Word) :
    Serves (bequeath self heir balance : HostM σ Unit) fun _ => True := by
  unfold bequeath
  split
  · exact (transfer_serves self heir balance).bind fun _ _ => .done trivial
  · exact .done trivial

/-- The price of a call is more than the stipend that its value comes with. -/
structure CallPrice (fork : Fork) (value : Word) (price : Nat) : Prop where
  le : price ≤ 1000000
  stipend_lt : stipend fork value < price

theorem callPrice_serves (fork : Fork) (mode : CallMode) (target : Address) (value : Word) :
    Serves (callPrice fork mode target value : HostM σ Nat) (CallPrice fork value) := by
  have value_eq : fork.fee .callValue = 9000 := rfl
  have stipend_eq : fork.fee .callStipend = 2300 := rfl
  have creates := fork.fee_le .newAccount
  unfold callPrice
  refine (accessAddress_serves fork target).bind fun access price => ?_
  obtain ⟨least, most⟩ : 1 ≤ fork.fee .call + access ∧ fork.fee .call + access ≤ 200000 :=
    price.add_bounds (by simp)
  split
  · refine .done ⟨by omega, ?_⟩
    rw [stipend, if_pos ‹_›]
    omega
  · have pays (isNew : Bool) : CallPrice fork value (fork.fee .call + access +
        fork.fee .callValue + if isNew then fork.fee .newAccount else 0) := by
      refine ⟨by split <;> omega, ?_⟩
      rw [stipend, if_neg ‹_›]
      omega
    dsimp only
    split
    · exact (account_serves target).bind fun account _ => .done (pays account.isEmpty)
    · exact .done (pays false)

theorem sendValue_serves (mode : CallMode) (message : Message) :
    Serves (sendValue mode message : HostM σ Unit) fun _ => True := by
  unfold sendValue
  split
  · exact (transfer_serves _ _ _).bind fun _ _ => .done trivial
  · exact .done trivial

end Instruction

namespace Host

/-- From a host in order, all that was changed was noted. -/
def Notes (host after : Host σ) : Prop := host.InOrder → host.Extends after

theorem notes_of_serves {action : HostM σ α} {post : α → Prop} (serves : Serves action post) :
    HostM.Keeps Notes action :=
  fun _ _ _ runs inOrder => serves.extends_of_run inOrder runs

theorem notes_stable : Stable (Notes : Host σ → Host σ → Prop) where
  refl host _ := .refl host
  trans first second inOrder := (first inOrder).trans (second ((first inOrder).inOrder inOrder))
  rereads _ _ same inOrder := (move_of_world_eq (same inOrder)).extends_of_same
  reports _ _ _ := Move.extends_of_same ⟨rfl, by simp, rfl⟩
  touchAddress address := notes_of_serves (touchAddress_serves address)
  touchSlot address key := notes_of_serves (touchSlot_serves address key)
  putSlot address key value := notes_of_serves (putSlot_serves address key value)
  putTransient address key value := notes_of_serves (putTransient_serves address key value)
  transfer sender recipient value := notes_of_serves (transfer_serves sender recipient value)

end Host

theorem step_notes (env : Environment σ) (context : Context) :
    (step env context).Keeps (fun _ => True) Host.Notes :=
  step_stable Host.notes_stable env context

end Evm
