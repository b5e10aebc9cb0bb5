import Evm.Proofs.Balances
import Evm.Proofs.Passages
import Evm.Proofs.Recall
import Mathlib.Data.Fintype.Prod

/-!
# Refunds

A store can take a refund back that an earlier one has given, also one of another frame. All in all
no more is taken back than was given: what has been refunded covers the slots that are clear now and
were not at first, and the accounts that were marked. A frame that fails gives no refund, and what
it cleared is not clear any more.
-/

namespace Evm

open Execution Instruction

variable {σ α : Type}

/-! ## What a refund has to cover -/

instance : Fintype Word := Fintype.ofEquiv (Fin (2 ^ 256)) BitVec.equivFin.symm.toEquiv

def cleared (initial slots : Address × Word → Word) : Finset (Address × Word) :=
  Finset.univ.filter fun place => initial place ≠ 0 ∧ slots place = 0

theorem mem_cleared {initial slots : Address × Word → Word} {place : Address × Word} :
    place ∈ cleared initial slots ↔ initial place ≠ 0 ∧ slots place = 0 := by
  simp [cleared]

@[simp] theorem cleared_self (initial : Address × Word → Word) : cleared initial initial = ∅ := by
  ext place
  simp [mem_cleared]

def clearance (initial value : Word) : Int := if initial ≠ 0 ∧ value = 0 then 1 else 0

theorem card_cleared_update (initial slots : Address × Word → Word) (place : Address × Word)
    (value : Word) :
    ((cleared initial (Function.update slots place value)).card : Int) +
        clearance (initial place) (slots place) =
      (cleared initial slots).card + clearance (initial place) value := by
  -- Away from the place nothing changes; at the place each side counts what the other one lacks.
  have apart : (cleared initial (Function.update slots place value)).erase place =
      (cleared initial slots).erase place := by
    ext other
    by_cases same : other = place
    · simp [same]
    · simp [mem_cleared, same]
  have counts (set : Finset (Address × Word)) :
      (set.card : Int) = (set.erase place).card + if place ∈ set then 1 else 0 := by
    split
    · rw [← Finset.card_erase_add_one ‹_›]
      simp
    · rw [Finset.erase_eq_of_notMem ‹_›, add_zero]
  rw [counts (cleared initial (Function.update slots place value)),
    counts (cleared initial slots), apart]
  simp only [mem_cleared, Function.update_self, clearance]
  exact Int.add_right_comm ..

theorem clearance_le_plain (fork : Fork) (initial current new : Word) :
    fork.fee .sstoreClearRefund * (clearance initial new - clearance initial current) ≤
      (plainStorePrice fork current new).refund := by
  unfold plainStorePrice clearance
  -- Of the values only matters which of them are zero.
  generalize (0 : Word) = zero
  by_cases current_eq : current = zero <;> by_cases new_eq : new = zero <;>
    by_cases initial_eq : initial = zero <;> simp [current_eq, new_eq, initial_eq]

theorem clearance_le_net (fork : Fork) (initial current new : Word) :
    fork.fee .sstoreClearRefund * (clearance initial new - clearance initial current) ≤
      (netStorePrice fork initial current new).refund := by
  unfold netStorePrice clearance
  generalize (0 : Word) = zero
  by_cases same : current = new
  · simp [same]
  rw [if_neg same]
  by_cases fresh : initial = current
  · rw [if_pos fresh, fresh]
    by_cases current_eq : current = zero <;> simp [current_eq]
  · rw [if_neg fresh]
    -- Only the first part can be negative: it takes back what an earlier store has given.
    refine le_add_of_le_of_nonneg ?_ ?_
    · by_cases initial_eq : initial = zero
      · simp [initial_eq]
      by_cases current_eq : current = zero
      · have held : new ≠ zero := fun gone => same (current_eq.trans gone.symm)
        simp [initial_eq, current_eq, held]
      · simp [initial_eq, current_eq]
    · split
      · exact Int.natCast_nonneg _
      · rfl

/-- A store gives what clearing counts for, or takes no more back than an earlier one gave. -/
theorem clearance_le_refund (fork : Fork) (initial current new : Word) :
    fork.fee .sstoreClearRefund * (clearance initial new - clearance initial current) ≤
      (storePrice fork initial current new).refund := by
  unfold storePrice
  split
  · exact clearance_le_plain ..
  · exact clearance_le_net ..

namespace AddressSet

variable {set other : AddressSet} {address : Address}

def toFinset (set : AddressSet) : Finset Address := set.toList.toFinset

theorem toFinset_insert (set : AddressSet) (address : Address) :
    (set.insert address).toFinset = Insert.insert address set.toFinset := by
  ext other
  simp [toFinset, AddressSet.insert, mem_insertSorted]

theorem mem_toFinset : address ∈ set.toFinset ↔ set.contains address := by
  simp [toFinset, contains]

theorem toFinset_union (set other : AddressSet) :
    (set.union other).toFinset = set.toFinset ∪ other.toFinset := by
  have folds (added : List Address) (set : AddressSet) :
      (added.foldl AddressSet.insert set).toFinset = set.toFinset ∪ added.toFinset := by
    induction added generalizing set with
    | nil => simp
    | cons address rest ih =>
      rw [List.foldl_cons, ih, toFinset_insert]
      ext other
      simp
  exact folds other.toList set

end AddressSet

/-- What there is to cover, with what was refunded. -/
structure Tally where
  slots : Address × Word → Word
  refund : Int
  marked : AddressSet

namespace Tally

variable (fork : Fork) (initial : Address × Word → Word)

def worth (tally : Tally) : Int :=
  fork.fee .sstoreClearRefund * (cleared initial tally.slots).card +
    fork.fee .selfDestructRefund * tally.marked.toFinset.card

/-- What was refunded in between covers what there is more to cover. No mark is lost. -/
structure Covers (before after : Tally) : Prop where
  marked : before.marked.toFinset ⊆ after.marked.toFinset
  worth_le : after.worth fork initial + before.refund ≤ before.worth fork initial + after.refund

variable {fork initial} {first second third : Tally}

namespace Covers

theorem refl (tally : Tally) : Covers fork initial tally tally := ⟨subset_rfl, le_rfl⟩

theorem trans (one : Covers fork initial first second) (two : Covers fork initial second third) :
    Covers fork initial first third :=
  ⟨one.marked.trans two.marked, by have := one.worth_le; have := two.worth_le; omega⟩

theorem of_eq (same : first = second) : Covers fork initial first second := same ▸ refl first

end Covers

end Tally

def Frame.tally (frame : Frame) (view : View) : Tally :=
  ⟨view.slot, frame.refund, frame.selfDestruct⟩

def Result.tally (result : Result) (view : View) : Tally :=
  ⟨view.slot, result.gasRefund, result.selfDestruct⟩

/-! ## Operations -/

def Frame.Refunded (refund : Int) (marked : AddressSet) (frame : Frame) : Prop :=
  frame.refund = refund ∧ frame.selfDestruct = marked

theorem Frame.Refunded.lasts {refund : Int} {marked : AddressSet} :
    InstructionM.Lasts (Frame.Refunded refund marked) := fun _ _ retains refunded =>
  ⟨retains.refund_eq.trans refunded.1, retains.selfDestruct_eq.trans refunded.2⟩

theorem execute_refunded {env : Environment σ} {context : Context} {instruction : Instruction}
    {operation : Operation} {frame left : Frame} {host last : Host σ} {control : Control}
    (storesNot : operation ≠ .storageStore) (destroysNot : operation ≠ .selfDestruct)
    (runs : execute env context instruction operation frame host = .ok (control, left) last) :
    left.Refunded frame.refund frame.selfDestruct := by
  have writes : operation.WriteKeeps (Frame.Refunded frame.refund frame.selfDestruct)
      (fun _ _ : Host σ => True) env.fork context := by
    cases operation with
    | storageStore => exact absurd rfl storesNot
    | selfDestruct => exact absurd rfl destroysNot
    | transientStore =>
      exact transientStore_keeps Host.stable_true.toSteady Frame.Refunded.lasts env.fork context
        Host.stable_true.putTransient
    | log count =>
      exact log_keeps Host.stable_true.toSteady Frame.Refunded.lasts env.fork context id count
    | call mode => exact call_keeps Host.stable_true Frame.Refunded.lasts env.fork context mode
    | _ => trivial
  exact ((execute_keeps_of Host.stable_true.toSteady Frame.Refunded.lasts env instruction
    writes).of_ok ⟨rfl, rfl⟩ runs).1

theorem deed_slot {operation : Operation} (storesNot : operation ≠ .storageStore) (fork : Fork)
    (context : Context) (frame : Frame) (view : View) :
    (operation.deed fork context frame view).slot = view.slot := by
  cases operation with
  | storageStore => exact absurd rfl storesNot
  | _ => simp [Operation.deed]

section Covering

variable {env : Environment σ} {context : Context} {frame left next asking : Frame}
  {host after : Host σ} {initial : Address × Word → Word}

theorem Instruction.Stored.covers {fork : Fork} {place : Address × Word}
    (stored : Stored fork frame left host after place
      (storePrice fork (initial place) (host.view.slot place) (frame.operand 1))) :
    Tally.Covers fork initial (frame.tally host.view) (left.tally after.view) := by
  have slots : after.view.slot = Function.update host.view.slot place (frame.operand 1) := by
    rw [stored.view_alike.slot_eq, View.setSlot, View.touchSlot_slot]
  have counts := card_cleared_update initial host.view.slot place (frame.operand 1)
  have grants := clearance_le_refund fork (initial place) (host.view.slot place) (frame.operand 1)
  refine ⟨by rw [Frame.tally, Frame.tally, stored.selfDestruct_eq], ?_⟩
  simp only [Tally.worth, Frame.tally, slots, stored.selfDestruct_eq, stored.refund_eq]
  rw [← eq_sub_iff_add_eq] at counts
  rw [counts, mul_sub, mul_add]
  rw [mul_sub] at grants
  omega

theorem Instruction.Destroyed.covers {fork : Fork}
    (destroyed : Destroyed fork context frame left host.view after) :
    Tally.Covers fork initial (frame.tally host.view) (left.tally after.view) := by
  have slots : after.view.slot = host.view.slot := by
    rw [destroyed.view_alike.slot_eq, View.touch_slot]
  by_cases marked : frame.selfDestruct.contains context.self
  · refine .of_eq ?_
    have mem : context.self ∈ frame.selfDestruct.toList := by
      simpa [AddressSet.contains] using marked
    rw [Frame.tally, Frame.tally, slots, destroyed.refund_eq, if_pos marked,
      destroyed.selfDestruct_eq, AddressSet.insert_of_mem mem]
  · have unmarked := marked
    rw [← AddressSet.mem_toFinset] at unmarked
    refine ⟨?_, ?_⟩
    · rw [Frame.tally, Frame.tally, destroyed.selfDestruct_eq, AddressSet.toFinset_insert]
      exact Finset.subset_insert ..
    · simp only [Tally.worth, Frame.tally, slots, destroyed.refund_eq, if_neg marked,
        destroyed.selfDestruct_eq, AddressSet.toFinset_insert,
        Finset.card_insert_of_notMem unmarked]
      push_cast
      rw [mul_add]
      omega

/-- What the refund changes by one operation covers what is cleared and marked by it. -/
theorem Execution.Applies.covers (applies : Applies env context frame host left after)
    (inOrder : host.InOrder) (recalls : host.Recalls initial) :
    Tally.Covers env.fork initial (frame.tally host.view) (left.tally after.view) := by
  cases applies with
  | past => exact .refl _
  | @operation instruction operation made _ passed _ _ executes same =>
    have shown : left.tally after.view = left.tally passed.view := by rw [Frame.tally, same]; rfl
    rw [shown]
    by_cases stores : operation = .storageStore
    · subst stores
      obtain ⟨_, read, _, reads, remembers, stored⟩ := storageStore_ok inOrder (thenNext_done executes)
      have recalls' := Host.recalls_of_run
        (HostM.Mirrors.slot Store.matching_recalls context.self (frame.operand 0)) recalls reads
      obtain rfl := Host.initialSlot_recalls recalls' remembers
      exact stored.covers
    by_cases destroys : operation = .selfDestruct
    · subst destroys
      obtain ⟨_, _, _, destroys, runs⟩ := InstructionM.bind_ok.mp executes
      cases runs
      exact (selfDestruct_ok inOrder destroys).covers
    obtain ⟨refund, marked⟩ := execute_refunded stores destroys executes
    refine .of_eq ?_
    rw [Frame.tally, Frame.tally, refund, marked, (execute_deed inOrder executes).slot_eq,
      deed_slot stores]

end Covering

/-! ## Messages -/

theorem View.afterFailure_slot (view : View) (message : Message) (fork : Fork) :
    (view.afterFailure message fork).slot = view.slot := by
  unfold View.afterFailure
  split
  · split <;> rfl
  · rfl

namespace Execution

variable {env : Environment σ} {context : Context} {frame next asking : Frame}
  {host after : Host σ} {nested : NestedCall}

theorem create_selfDestruct {fork : Fork} {salted : Bool}
    (runs : create fork context salted frame host = .ok (.call nested, next) after) :
    nested.message.selfDestruct = next.selfDestruct := by
  obtain ⟨_, _, _, _, runs⟩ := InstructionM.bind_ok.mp runs
  obtain ⟨operands, _, _, _, runs⟩ := InstructionM.bind_ok.mp runs
  obtain ⟨code, _, _, _, runs⟩ := InstructionM.bind_ok.mp runs
  obtain ⟨account, _, _, _, runs⟩ := InstructionM.bind_ok.mp runs
  split at runs
  · obtain ⟨_, _, _, _, runs⟩ := InstructionM.bind_ok.mp runs
    cases runs
  · obtain ⟨_, _, _, _, runs⟩ := InstructionM.bind_ok.mp runs
    obtain ⟨_, _, _, _, runs⟩ := InstructionM.bind_ok.mp runs
    obtain ⟨_, _, _, looks, runs⟩ := InstructionM.bind_ok.mp runs
    obtain ⟨rfl, rfl, rfl⟩ := InstructionM.current_ok.mp looks
    cases runs
    rfl

theorem turn_ask_selfDestruct
    (turns : turn env context frame host = .ok (.ask nested asking) after) :
    nested.message.selfDestruct = asking.selfDestruct := by
  obtain ⟨made, left, same, rfl, ⟨mode, _, calls⟩ | ⟨salted, _, creates⟩⟩ := turn_asks turns
  · obtain ⟨before, prepares, _⟩ := Instruction.call_ok calls
    have marked := Instruction.prepareCall_selfDestruct prepares
    rw [same]
    exact marked
  · have marked := create_selfDestruct creates
    rw [same]
    exact marked

theorem resume_refunded {suspended : Suspended} {answer : Result}
    (resumes : resume env suspended answer host = .ok next after) :
    (answer.isSuccess → (suspended.resumption.receiver = .create → answer.created.isSome) →
        next.Refunded (suspended.frame.refund + answer.gasRefund)
          (suspended.frame.selfDestruct.union answer.selfDestruct)) ∧
      (answer.isSuccess = false →
        next.Refunded suspended.frame.refund suspended.frame.selfDestruct) := by
  have gathered := resume_gathered resumes
  constructor
  · intro success made
    have takes : suspended.resumption.receiver.takes answer = true := by
      by_cases creates : suspended.resumption.receiver = .create
      · simp [Receiver.takes, success, made creates]
      · simp [Receiver.takes, success, creates]
    rw [if_pos takes] at gathered
    exact Prod.mk.inj (Prod.mk.inj gathered).2
  · intro fails
    rw [if_neg (by simp [Receiver.takes, fails])] at gathered
    exact Prod.mk.inj (Prod.mk.inj gathered).2

structure Repaid (env : Environment σ) (initial : Address × Word → Word) (message : Message)
    (host : Host σ) (answer : Result) (after : Host σ) : Prop where
  recalls : after.Recalls initial
  covers : Tally.Covers env.fork initial ⟨host.view.slot, 0, message.selfDestruct⟩
    (answer.tally after.view)
  silent : answer.isSuccess = false → answer.Silent message.selfDestruct
  creates : message.isCreation → answer.isSuccess → answer.created.isSome

structure Refunds (env : Environment σ) (initial : Address × Word → Word) (context : Context)
    (frame : Frame) (host : Host σ) (ended : Result) (after : Host σ) : Prop where
  recalls : after.Recalls initial
  covers : ended.isSuccess → Tally.Covers env.fork initial (frame.tally host.view)
    (ended.tally after.view)
  silent : ended.isSuccess = false → ended.Silent context.message.selfDestruct

theorem covers_of_silent {message : Message} {answer : Result} {fork : Fork}
    {initial : Address × Word → Word} (silent : answer.Silent message.selfDestruct)
    (same : after.view.slot = host.view.slot) :
    Tally.Covers fork initial ⟨host.view.slot, 0, message.selfDestruct⟩
      (answer.tally after.view) := by
  refine .of_eq ?_
  rw [Result.tally, silent.gasRefund_eq, silent.selfDestruct_eq, same]

variable {initial : Address × Word → Word}

theorem repaid_atOnce {message : Message} {kind : MessageKind} {pc : Nat} {result : Result}
    (inOrder : host.InOrder) (recalls : host.Recalls initial)
    (enters : enter env message kind pc host = .ok (.result result) after) :
    Repaid env initial message host result after := by
  obtain ⟨shows, silent, fails⟩ := enter_opens inOrder enters
  refine ⟨recalls_of_enter recalls enters, ?_, fun _ => silent, ?_⟩
  · exact covers_of_silent silent (by rw [shows, View.afterFailure_slot])
  · intro creates success
    rw [fails creates] at success
    cases success

theorem repaid_byFrame {message : Message} {kind : MessageKind} {pc : Nat} {ended result : Result}
    {opened between : Host σ} (inOrder : host.InOrder) (bounded : message.gasLimit < machineLimit)
    (enters : enter env message kind pc host = .ok (.frame context frame) opened)
    (evaluates : Evaluates env context frame opened ended between)
    (refunds : Refunds env initial context frame opened ended between)
    (concludes : conclude env context ended between = .ok result after) :
    Repaid env initial message host result after := by
  have ready := ready_of_enter inOrder bounded enters
  have extend := evaluates.extends ready
  obtain ⟨_, index, _, _, same, rfl⟩ := started_of_enter inOrder enters
  obtain ⟨makes, start, spends, anchors, alike⟩ := enter_opens inOrder enters
  have marked : context.message.selfDestruct = message.selfDestruct := by rw [same]
  have slots : start.view.slot = host.view.slot := by
    rw [spends.view_eq, View.afterFailure_slot]
  have recalls := recalls_of_conclude refunds.recalls concludes
  cases success : result.isSuccess with
  | false =>
    have silent : result.Silent message.selfDestruct := by
      rw [← marked]
      cases conclude_concludes concludes with
      | same => exact refunds.silent success
      | refused => exact silent_faulted ..
      | deployed _ succeeds => exact absurd (succeeds.symm.trans success) (by decide)
    obtain ⟨_, undone, _⟩ := of_run concludes
      (conclude_run env anchors extend ready.inOrder (deploys_of_conclude concludes))
    refine ⟨recalls, covers_of_silent silent ?_, fun _ => silent, ?_⟩
    · rw [(undone success).view_eq, slots]
    · simp [success]
  | true =>
    obtain ⟨succeeds, kept⟩ := conclude_alike anchors extend ready.inOrder success concludes
    have covers := refunds.covers succeeds
    rw [Frame.tally, alike.slot_eq, slots] at covers
    have taken : Tally.Covers env.fork initial ⟨host.view.slot, 0, message.selfDestruct⟩
        (ended.tally after.view) := by
      rw [Result.tally, kept.slot_eq, ← marked]
      exact covers
    refine ⟨recalls, ?_, by simp [success], ?_⟩
    · cases conclude_concludes concludes with
      | same => exact taken
      | refused => cases success
      | deployed => exact taken
    · intro creates _
      cases conclude_concludes concludes with
      | same fails =>
        rw [fails (by rw [makes, creates])] at success
        cases success
      | refused => cases success
      | deployed => rfl

theorem refunds_finish {ended : Result} (ready : Ready context frame host)
    (recalls : host.Recalls initial)
    (turns : turn env context frame host = .ok (.finish ended) after) :
    Refunds env initial context frame host ended after := by
  refine ⟨recalls_of_turn recalls turns, ?_, ?_⟩
  · intro success
    obtain ⟨left, reason, applies, rfl⟩ | ⟨_, rfl⟩ | ⟨_, rfl⟩ := turn_finish turns
    · exact applies.covers ready.inOrder recalls
    · cases success
    · cases success
  · intro fails
    obtain ⟨left, reason, applies, rfl⟩ | ⟨_, rfl⟩ | ⟨_, rfl⟩ := turn_finish turns
    · cases fails
    · exact ⟨rfl, rfl, rfl⟩
    · exact silent_faulted ..

theorem Pauses.slot_eq {before asked answered resumed : Host σ} {answer : Result}
    (ready : Ready context frame host)
    (pauses : Pauses env context frame host nested asking before asked answer answered next
      resumed) :
    resumed.view.slot = answered.view.slot := by
  by_cases keeps : answer.isSuccess ∨ nested.resumption.receiver = .create
  · rw [(pauses.kept keeps).view_eq]
  · obtain ⟨fails, calls⟩ := not_or.mp keeps
    have failed : answer.isSuccess = false := by simpa using fails
    have marked := turn_ask_marked ready.inOrder pauses.turns pauses.marks pauses.sent calls
    rw [(pauses.undone failed calls).view_eq, (pauses.known.spends failed).view_eq,
      View.afterFailure_slot, marked.slot_eq, (turn_ask_deed ready.inOrder pauses.turns).slot_eq]

/-- A frame that goes on after a nested message is still covered. -/
theorem covers_pause {before asked answered resumed : Host σ} {answer : Result}
    (ready : Ready context frame host) (recalls : host.Recalls initial)
    (pauses : Pauses env context frame host nested asking before asked answer answered next resumed)
    (repaid : Repaid env initial nested.message asked answer answered) :
    Tally.Covers env.fork initial (frame.tally host.view) (next.tally resumed.view) := by
  obtain ⟨left, index, applies, rfl⟩ := turn_ask pauses.turns
  have marked := turn_ask_selfDestruct pauses.turns
  have asks : Tally.Covers env.fork initial (frame.tally host.view) (left.tally asked.view) :=
    applies.covers ready.inOrder recalls
  obtain ⟨takes, keeps⟩ := resume_refunded pauses.resumes
  refine asks.trans ?_
  cases success : answer.isSuccess with
  | true =>
    have made : nested.resumption.receiver = .create → answer.created.isSome :=
      fun creates => repaid.creates ((turn_ask_receiver pauses.turns).mp creates) success
    obtain ⟨refund, marks⟩ := takes success made
    have shows := (pauses.kept (.inl success)).view_eq
    obtain ⟨within, worth_le⟩ := repaid.covers
    -- The nested message started with the marks of the frame, and none of them was lost.
    have union_eq : next.selfDestruct.toFinset = answer.selfDestruct.toFinset := by
      rw [marks, AddressSet.toFinset_union]
      refine Finset.union_eq_right.mpr ?_
      rw [show (Suspended.frame _).selfDestruct = nested.message.selfDestruct from marked.symm]
      exact within
    rw [marked] at within worth_le
    refine ⟨?_, ?_⟩
    · rw [Frame.tally, Frame.tally, union_eq]
      exact within
    · simp only [Tally.worth, Frame.tally, Result.tally, shows, refund, union_eq] at worth_le ⊢
      omega
  | false =>
    obtain ⟨refund, marks⟩ := keeps success
    refine .of_eq ?_
    have slots : resumed.view.slot = asked.view.slot := by
      rw [pauses.slot_eq ready, (pauses.known.spends success).view_eq, View.afterFailure_slot]
    rw [Frame.tally, Frame.tally, slots, refund, marks]

theorem refunds_inductive (env : Environment σ) (initial : Address × Word → Word) :
    Inductive env
      (fun message _ _ host answer after => host.Recalls initial →
        Repaid env initial message host answer after)
      (fun context frame host ended after => host.Recalls initial →
        Refunds env initial context frame host ended after) where
  atOnce inOrder _ enters recalls := repaid_atOnce inOrder recalls enters
  byFrame inOrder bounded enters evaluates refunds concludes recalls :=
    repaid_byFrame inOrder bounded enters evaluates (refunds (recalls_of_enter recalls enters))
      concludes
  goOn := by
    intro context frame host next between last after ready turns rest recalls
    obtain ⟨recalls', covers, silent⟩ := rest (recalls_of_turn recalls turns)
    obtain ⟨left, index, applies, rfl⟩ := turn_goOn turns
    have once : Tally.Covers env.fork initial (frame.tally host.view) (left.tally between.view) :=
      applies.covers ready.inOrder recalls
    exact ⟨recalls', fun success => once.trans (covers success), silent⟩
  finish ready turns recalls := refunds_finish ready recalls turns
  ask := by
    intro context frame host nested asking before asked answer replied next resumed last after ready
      pauses answered rest recalls
    have repaid := answered (recalls_of_turn recalls pauses.turns)
    obtain ⟨recalls', covers, silent⟩ := rest (recalls_of_resume repaid.recalls pauses.resumes)
    have paused := covers_pause ready recalls pauses repaid
    exact ⟨recalls', fun success => paused.trans (covers success), silent⟩

end Execution

structure RefundsFairly (fork : Fork) (message : Message) (result : Result) : Prop where
  gasRefund_nonneg : 0 ≤ result.gasRefund
  /-- Every account that the run has marked was refunded. -/
  marks_le : fork.fee .selfDestructRefund *
    ((result.selfDestruct.toFinset \ message.selfDestruct.toFinset).card : Int) ≤ result.gasRefund
  marked : message.selfDestruct.toFinset ⊆ result.selfDestruct.toFinset
  failed : result.isSuccess = false →
    result.gasRefund = 0 ∧ result.selfDestruct = message.selfDestruct

/-- At first nothing is cleared. -/
theorem Execution.Repaid.fair {env : Environment σ} {message : Message} {host after : Host σ}
    {result : Result} (repaid : Repaid env host.view.slot message host result after) :
    RefundsFairly env.fork message result := by
  obtain ⟨_, ⟨marked, worth_le⟩, silent, _⟩ := repaid
  have marked' : message.selfDestruct.toFinset ⊆ result.selfDestruct.toFinset := marked
  have clears : (0 : Int) ≤ env.fork.fee .sstoreClearRefund *
      (cleared host.view.slot after.view.slot).card :=
    Int.mul_nonneg (Int.natCast_nonneg _) (Int.natCast_nonneg _)
  have marks_le : env.fork.fee .selfDestructRefund *
      ((result.selfDestruct.toFinset \ message.selfDestruct.toFinset).card : Int) ≤
      result.gasRefund := by
    have counts := Finset.card_sdiff_add_card_eq_card marked'
    rw [show ((result.selfDestruct.toFinset \ message.selfDestruct.toFinset).card : Int) =
      result.selfDestruct.toFinset.card - message.selfDestruct.toFinset.card by omega, mul_sub]
    simp only [Tally.worth, Result.tally, cleared_self, Finset.card_empty] at worth_le
    omega
  have marks_nonneg : (0 : Int) ≤ env.fork.fee .selfDestructRefund *
      ((result.selfDestruct.toFinset \ message.selfDestruct.toFinset).card : Int) :=
    Int.mul_nonneg (Int.natCast_nonneg _) (Int.natCast_nonneg _)
  refine ⟨marks_nonneg.trans marks_le, marks_le, marked', fun fails => ?_⟩
  exact ⟨(silent fails).gasRefund_eq, (silent fails).selfDestruct_eq⟩

/-- Whatever single stores and nested frames took back, the refund of a message that was run on a
fresh host is fair. -/
theorem runMessage_refundsFairly (env : Environment σ) (message : Message) (pc : Nat)
    (world : World) (trace : σ) (inOrder : world.InOrder)
    (bounded : message.gasLimit < machineLimit) (fits : ¬message.Overflows env.fork) :
    ∃ result after, runMessage env message pc (.start world trace) = .ok result after ∧
      RefundsFairly env.fork message result := by
  obtain ⟨result, after, runs⟩ :=
    runMessage_run env message pc (.start world trace) inOrder bounded fits
  refine ⟨result, after, runs, ?_⟩
  obtain ⟨warmed, opening, opened, warms, enters, passes⟩ := reaches_of_run runs
  have answers := (answers_iff_passes []).mpr ⟨opening, opened, enters, passes⟩
  -- Nothing is remembered yet: what slots held at first is what they hold now.
  have fresh : warmed.InOrder ∧ warmed.Recalls warmed.view.slot := by
    cases warms
    exact ⟨inOrder, funext fun _ => Std.HashMap.getD_empty⟩
  exact ((refunds_inductive env _).answers fresh.1 bounded answers fresh.2).fair

open FrameM InstructionM Instruction in
theorem selfDestruct_runs (fork : Fork) {context : Context} {frame : Frame} {host : Host σ}
    {heir : Word} {below : List Word} (inOrder : host.InOrder)
    (mutable : ¬ context.message.isStatic) (words : frame.stack.words = heir :: below)
    (rich : 300000 ≤ frame.gas.remaining) :
    ∃ left last, selfDestruct fork context frame host = .ok ((), left) last := by
  obtain ⟨popped, pops, -, gas⟩ := pop_run words
  obtain ⟨access, touched, touches, extend, most⟩ :=
    Host.accessCold_serves fork (.ofWord heir) host inOrder
  have inOrder := extend.inOrder inOrder
  obtain ⟨account, read, reads, extend, -⟩ := Host.account_serves context.self touched inOrder
  have inOrder := extend.inOrder inOrder
  obtain ⟨price, priced, prices, extend, most'⟩ :=
    destructPrice_serves fork (.ofWord heir) account.balance read inOrder
  have inOrder := extend.inOrder inOrder
  obtain ⟨_, last, gives, -, -⟩ :=
    bequeath_serves context.self (.ofWord heir) account.balance priced inOrder
  obtain ⟨charged, charges⟩ : ∃ after, charge (price + access) popped = .ok ((), after) :=
    charge_run (by unfold machineLimit; omega) (by rw [gas]; omega)
  have popsAddress : popAddress frame = .ok (.ofWord heir, popped) :=
    FrameM.bind_ok.mpr ⟨heir, popped, pops, rfl⟩
  refine ⟨markDestroyed fork context.self charged, last, ?_⟩
  refine lift_bind_ok.mpr ⟨(), frame, faultIf_run mutable frame, ?_⟩
  refine lift_bind_ok.mpr ⟨.ofWord heir, popped, popsAddress, ?_⟩
  refine host_bind_ok.mpr ⟨access, touched, touches, ?_⟩
  refine host_bind_ok.mpr ⟨account, read, reads, ?_⟩
  refine host_bind_ok.mpr ⟨price, priced, prices, ?_⟩
  refine lift_bind_ok.mpr ⟨(), charged, charges, ?_⟩
  exact host_bind_ok.mpr ⟨(), last, gives, rfl⟩

/-- The account is destroyed with gas for any price, and another one was marked before. -/
def bequeathingMessage : Message :=
  { destroyingMessage with gasLimit := 400000, selfDestruct := AddressSet.empty.insert 0xcc }

def destroyingCode : Code :=
  ⟨destroyingMessage.code, #[⟨0, 0x60, some .pushByte, #[0xbb]⟩,
    ⟨2, 0xff, some .selfDestruct, #[]⟩], #[some 0, none, some 1]⟩

theorem destroyingCode_eq : Code.ofBytes destroyingMessage.code = destroyingCode := by
  decide +kernel

theorem runMessage_refundsFairly_destroying : ∃ result after,
    runMessage (.blank .byzantium) bequeathingMessage 0 (Host.start fundedWorld ()) =
        .ok result after ∧
      result.selfDestruct.toFinset = {0xaa, 0xcc} ∧ 24000 ≤ result.gasRefund := by
  let context : Context := ⟨bequeathingMessage, destroyingCode, 0, none⟩
  let reached : Host Unit := Host.start fundedWorld ()
  let marks : Frame :=
    { Frame.start bequeathingMessage 1 with stack := ⟨[0xbb], 1, rfl⟩, gas := ⟨400000, 3⟩ }
  have inOrder : reached.InOrder := fun _ _ _ => rfl
  have enters : enter (.blank .byzantium) bequeathingMessage (.call .call) 0 reached =
      .ok (.frame context (.start bequeathingMessage 0)) reached :=
    openFrame_of_starts (show Code.ofBytes bequeathingMessage.code = _ from destroyingCode_eq) rfl
      none reached
  obtain ⟨left, last, destroys⟩ := selfDestruct_runs .byzantium inOrder
    (show ¬ context.message.isStatic by decide) (show marks.stack.words = [0xbb] from rfl) (by decide)
  have marks_eq := (selfDestruct_ok inOrder destroys).selfDestruct_eq
  have executes (instruction : Instruction) : execute (.blank .byzantium) context instruction
      .selfDestruct marks reached = .ok (.halt .selfDestruct, left) last :=
    InstructionM.bind_ok.mpr ⟨(), left, last, destroys, rfl⟩
  have turns : turn (.blank .byzantium) context marks reached =
      .ok (.finish (haltedResult left .selfDestruct)) last := by
    have steps : step (.blank .byzantium) context marks reached =
        .ok (.halt .selfDestruct, left) last := by
      show (execute _ _ _ _ >>= report _ _ _ _ _ : InstructionM Unit Control) marks reached = _
      exact InstructionM.bind_ok.mpr ⟨_, _, _, executes _, rfl⟩
    rw [turn, steps]
  have runs : runMessage (.blank .byzantium) bequeathingMessage 0 reached =
      .ok (haltedResult left .selfDestruct) last :=
    run_of_answers inOrder (by decide) rfl
      (.byFrame enters (.goOn (show turn _ _ _ _ = .ok (.goOn marks) reached from rfl)
        (.finish turns)) rfl)
  obtain ⟨_, _, runs', fair⟩ := runMessage_refundsFairly (.blank .byzantium) bequeathingMessage 0
    fundedWorld () inOrder (by decide) (Message.not_overflows_of_gasLimit (by decide))
  cases runs.symm.trans runs'
  have marked : (haltedResult left .selfDestruct).selfDestruct.toFinset = {0xaa, 0xcc} := by
    show left.selfDestruct.toFinset = _
    rw [marks_eq, AddressSet.toFinset_insert]
    show Insert.insert 0xaa (AddressSet.empty.insert 0xcc).toFinset = _
    rw [AddressSet.toFinset_insert]
    rfl
  refine ⟨_, last, runs, marked, ?_⟩
  have marks_le := fair.marks_le
  rw [marked] at marks_le
  exact marks_le

/-! ## How large a refund gets -/

/-- No store and no destruction changes the refund by more. -/
def refundRate : Nat := 40000

def RefundWithin (refund : Int) (used : Nat) : Prop := refund.natAbs ≤ refundRate * used

theorem RefundWithin.fits {refund : Int} {used limit : Nat} (within : RefundWithin refund used)
    (used_le : used ≤ limit) (modest : refundRate * limit < 2 ^ 63) :
    -2 ^ 63 ≤ refund ∧ refund < 2 ^ 63 := by
  unfold RefundWithin refundRate at *
  omega

namespace Instruction

theorem storePrice_refund_le (fork : Fork) (initial current new : Word) :
    (storePrice fork initial current new).refund.natAbs ≤ refundRate := by
  have clear : fork.fee .sstoreClearRefund ≤ 15000 := by cases fork <;> decide
  have set : fork.fee .sstoreSet ≤ 20000 := by cases fork <;> decide
  have reset : fork.fee .sstoreReset ≤ 20000 := by cases fork <;> decide
  unfold storePrice plainStorePrice netStorePrice refundRate
  repeat' split
  all_goals simp only
  all_goals omega

end Instruction

/-- What an operation changes of the refund is bounded, and paid for. -/
def Frame.PaysRefund (frame left : Frame) : Prop :=
  left.refund = frame.refund ∨
    frame.gas.used < left.gas.used ∧ (left.refund - frame.refund).natAbs ≤ refundRate

theorem Instruction.Stored.paysRefund {fork : Fork} {frame left : Frame} {host after : Host σ}
    {place : Address × Word} {initial current new : Word}
    (stored : Stored fork frame left host after place (storePrice fork initial current new)) :
    frame.PaysRefund left := by
  have paid := (storePrice_bounds fork initial current new).1
  have small := storePrice_refund_le fork initial current new
  refine .inr ⟨?_, ?_⟩
  · rw [stored.used_eq]
    omega
  · rw [stored.refund_eq, add_sub_cancel_left]
    exact small

theorem Instruction.Destroyed.paysRefund {fork : Fork} {context : Context} {frame left : Frame}
    {view : View} {after : Host σ} (destroyed : Destroyed fork context frame left view after) :
    frame.PaysRefund left := by
  have paid : 1 ≤ fork.fee .selfDestruct := by cases fork <;> decide
  have small : fork.fee .selfDestructRefund ≤ refundRate := by cases fork <;> decide
  refine .inr ⟨?_, ?_⟩
  · rw [destroyed.used_eq]
    omega
  · rw [destroyed.refund_eq]
    split <;> omega

theorem Frame.PaysRefund.within {frame left : Frame} {used : Nat} (pays : frame.PaysRefund left)
    (within : RefundWithin frame.refund frame.gas.used) (least : frame.gas.used ≤ used)
    (more : frame.gas.used < left.gas.used → frame.gas.used < used) :
    RefundWithin left.refund used := by
  unfold RefundWithin refundRate at *
  obtain same | ⟨paid, small⟩ := pays
  · rw [same]
    omega
  · have := more paid
    unfold refundRate at small
    omega

/-- The gas that a frame has used, less what it gave to the message that it waits for, accounts for
its refund. -/
def Suspended.RefundWithin (suspended : Suspended) : Prop :=
  Evm.RefundWithin suspended.frame.refund
    (suspended.frame.gas.used - suspended.resumption.gas)

namespace Execution

variable {env : Environment σ} {message : Message} {pc : Nat} {context : Context}
  {frame left next : Frame} {host after : Host σ}

theorem Applies.paysRefund (applies : Applies env context frame host left after)
    (inOrder : host.InOrder) : frame.PaysRefund left := by
  cases applies with
  | past => exact .inl rfl
  | @operation _ operation _ _ _ _ _ executes _ =>
    by_cases stores : operation = .storageStore
    · subst stores
      obtain ⟨_, _, _, _, _, stored⟩ := storageStore_ok inOrder (thenNext_done executes)
      exact stored.paysRefund
    by_cases destroys : operation = .selfDestruct
    · subst destroys
      obtain ⟨_, _, _, destroys, runs⟩ := InstructionM.bind_ok.mp executes
      cases runs
      exact (selfDestruct_ok inOrder destroys).paysRefund
    exact .inl (execute_refunded stores destroys executes).1

def RefundsWithin : Execution → Prop
  | .running _ frame waiting =>
    RefundWithin frame.refund frame.gas.used ∧ ∀ suspended ∈ waiting, suspended.RefundWithin
  | .returning result waiting =>
    RefundWithin result.gasRefund result.gasUsed ∧ ∀ suspended ∈ waiting, suspended.RefundWithin

theorem refundWithin_zero (used : Nat) : RefundWithin 0 used := Nat.zero_le _

theorem RefundsWithin.opening {kind : MessageKind} {opening : Opening} {opened : Host σ}
    {waiting : List Suspended}
    (waits : ∀ suspended ∈ waiting, suspended.RefundWithin) (inOrder : host.InOrder)
    (enters : enter env message kind pc host = .ok opening opened) :
    (ofOpening opening waiting).RefundsWithin := by
  cases opening with
  | result result =>
    obtain ⟨_, silent, _⟩ := enter_opens inOrder enters
    refine ⟨?_, waits⟩
    rw [silent.gasRefund_eq]
    exact refundWithin_zero _
  | frame context frame =>
    obtain ⟨index, rfl⟩ := (start_of_enter enters).start
    exact ⟨refundWithin_zero _, waits⟩

theorem refundWithin_finish {ended : Result} (ready : Ready context frame host)
    (within : RefundWithin frame.refund frame.gas.used)
    (turns : turn env context frame host = .ok (.finish ended) after) :
    RefundWithin ended.gasRefund ended.gasUsed := by
  obtain ⟨spent, _⟩ := turn_costs ready turns
  obtain ⟨left, reason, applies, rfl⟩ | ⟨_, rfl⟩ | ⟨_, rfl⟩ := turn_finish turns
  · exact (applies.paysRefund ready.inOrder).within within spent id
  · exact refundWithin_zero _
  · exact refundWithin_zero _

theorem refundWithin_ask {asking : Frame} {nested : NestedCall} (ready : Ready context frame host)
    (within : RefundWithin frame.refund frame.gas.used)
    (turns : turn env context frame host = .ok (.ask nested asking) after) :
    RefundWithin asking.refund (asking.gas.used - nested.resumption.gas) := by
  obtain ⟨_, _, given_lt, gas_eq, _⟩ := show Asks .. from turn_costs ready turns
  obtain ⟨left, index, applies, rfl⟩ := turn_ask turns
  have spent : frame.gas.used + nested.message.gasLimit < left.gas.used := given_lt
  rw [gas_eq]
  refine (applies.paysRefund ready.inOrder).within within ?_ fun _ => ?_
  · show _ ≤ left.gas.used - _
    omega
  · show _ < left.gas.used - _
    omega

theorem refundWithin_conclude {ended result : Result}
    (within : RefundWithin ended.gasRefund ended.gasUsed)
    (concludes : conclude env context ended host = .ok result after) :
    RefundWithin result.gasRefund result.gasUsed := by
  cases conclude_concludes concludes with
  | same => exact within
  | refused => exact refundWithin_zero _
  | deployed => exact within.trans (Nat.mul_le_mul_left _ (Nat.le_add_right ..))

theorem refundWithin_resume {suspended : Suspended} {answer : Result}
    (backs : Backs suspended suspended.resumption.gas)
    (most : answer.gasUsed ≤ suspended.resumption.gas)
    (within : suspended.RefundWithin)
    (brought : RefundWithin answer.gasRefund answer.gasUsed)
    (resumes : resume env suspended answer host = .ok next after) :
    RefundWithin next.refund next.gas.used := by
  have gathered := congrArg (·.2.1) (resume_gathered resumes)
  have given := backs.gas_le
  have used : next.gas.used =
      suspended.frame.gas.used - suspended.resumption.gas + answer.gasUsed := by
    rw [resume_gas resumes]
    show suspended.frame.gas.used - _ = _
    omega
  rw [used]
  unfold Suspended.RefundWithin at within
  unfold RefundWithin refundRate at *
  split at gathered
  · have taken : next.refund = suspended.frame.refund + answer.gasRefund := gathered
    omega
  · have taken : next.refund = suspended.frame.refund := gathered
    omega

theorem RefundsWithin.advance {execution last : Execution} {ground : Ground σ}
    (outermost : ground.waiting = []) (holds : ground.Holds execution host)
    (within : execution.RefundsWithin)
    (moves : Execution.advance env execution host = .ok last after) : last.RefundsWithin := by
  cases moves_of_advance moves with
  | goOn turns =>
    have spends := (show Meter.Spends .. from turn_costs holds.ready turns).used_ge
    obtain ⟨left, index, applies, rfl⟩ := turn_goOn turns
    exact ⟨(applies.paysRefund holds.inOrder).within within.1 (Nat.le_of_succ_le spends) id,
      within.2⟩
  | finish turns concludes =>
    have ended := refundWithin_finish holds.ready within.1 turns
    exact ⟨refundWithin_conclude ended concludes, within.2⟩
  | ask turns enters =>
    have asked := refundWithin_ask holds.ready within.1 turns
    have inOrder := (turn_extends holds.inOrder turns).inOrder holds.inOrder
    refine .opening ?_ inOrder enters
    intro suspended member
    obtain rfl | member := List.mem_cons.mp member
    · exact asked
    · exact within.2 suspended member
  | resume resumes =>
    obtain ⟨message, fair, backed⟩ := holds.metered
    obtain ⟨backs, _⟩ := backed.uncons (outermost ▸ List.nil_suffix)
    have given := backs.gas_eq
    have most := fair.gasUsed_le
    rw [← given] at backs most
    exact ⟨refundWithin_resume backs most (within.2 _ (List.mem_cons_self ..)) within.1 resumes,
      fun other member => within.2 other (List.mem_cons_of_mem _ member)⟩
  | rest => exact within

/-- Wherever a run is, the gas used accounts for the refund of each frame. -/
theorem Reaches.refundsWithin {execution : Execution} {reached : Host σ} (inOrder : host.InOrder)
    (bounded : message.gasLimit < machineLimit)
    (reaches : Reaches env message pc host execution reached) : execution.RefundsWithin := by
  refine reaches.always ?_ fun reaches above moves within => ?_
  · intro warmed _ _ warms enters
    obtain ⟨_, warms', warmedInOrder⟩ := warmUp_run (warmFromStart env message) inOrder
    cases warms.symm.trans warms'
    exact .opening (by simp) warmedInOrder enters
  · obtain ⟨ground, outermost, holds⟩ := reaches.holds inOrder bounded above
    exact within.advance outermost holds moves

theorem bounded_of_modest (modest : refundRate * message.gasLimit < 2 ^ 63) :
    message.gasLimit < machineLimit := by
  unfold refundRate at modest
  unfold machineLimit
  omega

/-- With a gas limit this modest, the refund of a frame fits 64 bits with a sign. -/
theorem Reaches.refund_fits {waiting : List Suspended} {reached : Host σ} (inOrder : host.InOrder)
    (modest : refundRate * message.gasLimit < 2 ^ 63)
    (reaches : Reaches env message pc host (.running context frame waiting) reached) :
    -2 ^ 63 ≤ frame.refund ∧ frame.refund < 2 ^ 63 := by
  have bounded := bounded_of_modest modest
  exact (reaches.refundsWithin inOrder bounded).1.fits (reaches.used_le inOrder bounded) modest

theorem runMessage_refund_fits {result : Result} (inOrder : host.InOrder)
    (modest : refundRate * message.gasLimit < 2 ^ 63)
    (runs : runMessage env message pc host = .ok result after) :
    -2 ^ 63 ≤ result.gasRefund ∧ result.gasRefund < 2 ^ 63 := by
  have bounded := bounded_of_modest modest
  have reaches := reaches_of_run runs
  exact (reaches.refundsWithin inOrder bounded).1.fits (reaches.fair inOrder bounded).gasUsed_le
    modest

end Execution

end Evm
