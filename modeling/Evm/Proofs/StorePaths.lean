import Evm.Proofs.Refunds

/-!
# Paths of stores

Where stores are priced net, the detours of a slot cost nothing beyond the charge that every store
makes. What a value stands for against the value the slot held first is a potential: each store pays
the difference, so a path of stores costs what leads from its first value to its last.
-/

namespace Evm

open Instruction

variable {σ : Type}

namespace Fork

/-- What a slot has cost, beyond the least charge for each store, once it holds a value in place of
the one it held at first. -/
def standing (fork : Fork) (initial value : Word) : Int :=
  if initial = value then 0
  else if initial = 0 then fork.fee .sstoreSet - fork.fee .sstoreDirty
  else if value = 0 then
    fork.fee .sstoreReset - fork.fee .sstoreDirty - fork.fee .sstoreClearRefund
  else fork.fee .sstoreReset - fork.fee .sstoreDirty

@[simp] theorem standing_self (fork : Fork) (initial : Word) : fork.standing initial initial = 0 :=
  if_pos rfl

theorem dirty_le_set (fork : Fork) : fork.fee .sstoreDirty ≤ fork.fee .sstoreSet := by
  cases fork <;> decide

theorem dirty_le_reset (fork : Fork) : fork.fee .sstoreDirty ≤ fork.fee .sstoreReset := by
  cases fork <;> decide

end Fork

/-- Charge and refund of a store come to the least charge and to what the new value stands for in
place of the present one. -/
theorem netStorePrice_standing (fork : Fork) (initial current new : Word) :
    ((netStorePrice fork initial current new).gas : Int) -
        (netStorePrice fork initial current new).refund =
      fork.fee .sstoreDirty + (fork.standing initial new - fork.standing initial current) := by
  have set := fork.dirty_le_set
  have reset := fork.dirty_le_reset
  unfold netStorePrice Fork.standing
  -- Of the values only matters which of them are equal, and which are zero.
  generalize (0 : Word) = zero
  by_cases same : current = new
  · simp [same]
  rw [if_neg same]
  by_cases fresh : initial = current
  · -- The first change pays for what the new value stands for, and gives back what is too much.
    subst fresh
    by_cases unset : initial = zero <;> by_cases gone : new = zero <;> simp_all
    all_goals omega
  · -- A later change pays the least, so that its refund is the difference.
    rw [if_neg fresh]
    by_cases back : initial = new
    · by_cases unset : initial = zero <;> by_cases gone : current = zero <;> simp_all
      all_goals omega
    · by_cases unset : initial = zero <;> by_cases gone : current = zero <;>
        by_cases goes : new = zero <;> simp_all
      all_goals omega

theorem storePrice_net {fork : Fork} (net : ¬ fork.hasPlainStores) :
    storePrice fork = netStorePrice fork := by
  funext initial current new
  rw [storePrice, if_neg net]

theorem storageStore_first {fork : Fork} {context : Context} {frame left : Frame}
    {host after : Host σ} (runs : storageStore fork context frame host = .ok ((), left) after) :
    after.store.first = host.store.first := by
  have found := (storageStore_matches Store.matching_recalls fork context).mirrors frame
    (⟨⟨rfl, rfl⟩, rfl, trivial⟩ :
      host.Twins (Store.Recalls host.store.first) (fun _ => True) host)
  rw [runs] at found
  obtain ⟨_, _, twins⟩ := found
  exact twins.store.2

/-- What a store has done, in whatever order its world is. -/
theorem storageStore_stored {fork : Fork} {context : Context} {frame left : Frame}
    {host after : Host σ} (runs : storageStore fork context frame host = .ok ((), left) after) :
    Stored fork frame left host after (frame.place context)
      (storePrice fork (host.store.first (frame.place context))
        (host.view.slot (frame.place context)) (frame.operand 1)) := by
  -- A store that went through does the same in the world put in order.
  have repaired := (storageStore_matches Store.matching_repairs fork context).mirrors.repaired runs
  obtain ⟨initial, read, _, reads, recalls, stored⟩ :=
    storageStore_ok host.repaired_inOrder repaired
  have recalled : host.repaired.Recalls host.store.first := rfl
  have known := Host.recalls_of_run (.slot Store.matching_recalls _ _) recalled reads
  rw [Host.initialSlot_recalls known recalls] at stored
  exact ⟨⟨stored.view_alike, stored.used_eq⟩, stored.refund_eq, stored.selfDestruct_eq⟩

theorem Host.slot_start (world : World) (trace : σ) :
    (Host.start world trace).view.slot = (Host.start world trace).store.first := by
  funext place
  simp [Host.view, Host.start, Store.first, Store.ofWorld]

structure StoreMade where
  context : Context
  frame : Frame
  left : Frame

namespace StoreMade

def value (made : StoreMade) : Word := made.frame.operand 1

def charged (made : StoreMade) : Int := made.left.gas.used - made.frame.gas.used

def refunded (made : StoreMade) : Int := made.left.refund - made.frame.refund

structure Writes (made : StoreMade) (fork : Fork) (place : Address × Word) (host after : Host σ) :
    Prop where
  place_eq : made.frame.place made.context = place
  runs : storageStore fork made.context made.frame host = .ok ((), made.left) after

end StoreMade

/-- Stores to one slot, one after the other. Each finds the host as the one before has left it. -/
inductive StoresInTurn (fork : Fork) (place : Address × Word) :
    List StoreMade → Host σ → Host σ → Prop where
  | nothing (host : Host σ) : StoresInTurn fork place [] host host
  | store {made : StoreMade} {rest : List StoreMade} {host between last : Host σ} :
    made.Writes fork place host between → StoresInTurn fork place rest between last →
    StoresInTurn fork place (made :: rest) host last

/-- What was charged for stores, less what they have added to the refund. -/
def netCharge (stores : List StoreMade) : Int :=
  (stores.map StoreMade.charged).sum - (stores.map StoreMade.refunded).sum

def heldAfter (value : Word) (stores : List StoreMade) : Word :=
  stores.foldl (fun _ made => made.value) value

@[simp] theorem netCharge_cons (made : StoreMade) (rest : List StoreMade) :
    netCharge (made :: rest) = (made.charged - made.refunded) + netCharge rest := by
  simp only [netCharge, List.map_cons, List.sum_cons]
  omega

theorem heldAfter_eq_getLast {stores : List StoreMade} (some : stores ≠ []) (value : Word) :
    heldAfter value stores = (stores.getLast some).value := by
  induction stores generalizing value with
  | nil => exact absurd rfl some
  | cons made rest ih =>
    cases rest with
    | nil => rfl
    | cons next rest => exact ih (by simp) made.value

namespace StoreMade.Writes

variable {fork : Fork} {place : Address × Word} {made : StoreMade} {host after : Host σ}

theorem slot_eq (writes : made.Writes fork place host after) :
    after.view.slot place = made.value := by
  obtain ⟨rfl, runs⟩ := writes
  rw [(storageStore_stored runs).view_alike.slot_eq]
  simp [View.setSlot, StoreMade.value]

theorem first_eq (writes : made.Writes fork place host after) :
    after.store.first = host.store.first :=
  storageStore_first writes.runs

theorem isWarmSlot (writes : made.Writes fork place host after) (lists : fork.hasAccessLists) :
    after.view.isWarmSlot place := by
  obtain ⟨rfl, runs⟩ := writes
  rw [(storageStore_stored runs).view_alike.isWarmSlot_eq]
  simp [View.touchSlot, View.setSlot, View.setWarmSlot, lists]

theorem surcharge_eq (writes : made.Writes fork place host after) :
    fork.surcharge (after.view.isWarmSlot place) .coldSload 0 = 0 := by
  unfold Fork.surcharge
  split
  · rw [writes.isWarmSlot ‹_›, if_pos rfl]
  · rfl

theorem net_eq (net : ¬ fork.hasPlainStores) (writes : made.Writes fork place host after) :
    made.charged - made.refunded =
      fork.fee .sstoreDirty +
        (fork.standing (host.store.first place) made.value -
          fork.standing (host.store.first place) (host.view.slot place)) +
        fork.surcharge (host.view.isWarmSlot place) .coldSload 0 := by
  obtain ⟨rfl, runs⟩ := writes
  have stored := storageStore_stored runs
  have used := stored.used_eq
  have refund := stored.refund_eq
  rw [storePrice_net net] at used refund
  rw [StoreMade.value, ← netStorePrice_standing, StoreMade.charged, StoreMade.refunded, used,
    refund]
  push_cast
  omega

end StoreMade.Writes

namespace StoresInTurn

variable {fork : Fork} {place : Address × Word} {stores : List StoreMade} {host last : Host σ}

theorem slot_eq (inTurn : StoresInTurn fork place stores host last) :
    last.view.slot place = heldAfter (host.view.slot place) stores := by
  induction inTurn with
  | nothing => rfl
  | store writes _ ih => rw [ih, writes.slot_eq]; rfl

theorem first_eq (inTurn : StoresInTurn fork place stores host last) :
    last.store.first = host.store.first := by
  induction inTurn with
  | nothing => rfl
  | store writes _ ih => rw [ih, writes.first_eq]

/-- Stores from any value on to any other: what they cost telescopes, but for the first access. -/
theorem net_eq (net : ¬ fork.hasPlainStores) (inTurn : StoresInTurn fork place stores host last) :
    netCharge stores =
      stores.length * fork.fee .sstoreDirty +
        (fork.standing (host.store.first place) (heldAfter (host.view.slot place) stores) -
          fork.standing (host.store.first place) (host.view.slot place)) +
        if stores = [] then 0 else fork.surcharge (host.view.isWarmSlot place) .coldSload 0 := by
  induction inTurn with
  | nothing => simp [netCharge, heldAfter]
  | @store made rest host between last writes inTurn ih =>
    rw [netCharge_cons, ih, writes.net_eq net, writes.first_eq, writes.slot_eq, writes.surcharge_eq]
    simp only [heldAfter, List.foldl_cons, List.length_cons, reduceCtorEq, if_false, ite_self]
    push_cast
    rw [Int.add_mul, one_mul]
    omega

end StoresInTurn

/-- What stores to a slot cost is told by their number and the last value, not by their path. -/
structure PathIndependent (fork : Fork) (place : Address × Word) (stores : List StoreMade)
    (value : Word) (host last : Host σ) : Prop where
  /-- Charges less refunds: the least charge for each store, what the last value stands for in
  place of the first, and the access if the slot was cold. -/
  net_eq : (stores.map StoreMade.charged).sum - (stores.map StoreMade.refunded).sum =
    stores.length * fork.fee .sstoreDirty + fork.standing (host.store.first place) value +
      if fork.hasAccessLists ∧ ¬ host.view.isWarmSlot place then fork.fee .coldSload else 0
  slot_eq : last.view.slot place = value
  first_eq : last.store.first place = host.store.first place

theorem stores_pathIndependent {fork : Fork} {place : Address × Word} {stores : List StoreMade}
    {host last : Host σ} (notByzantium : fork ≠ .byzantium) (notPetersburg : fork ≠ .petersburg)
    (unchanged : host.view.slot place = host.store.first place) (some : stores ≠ [])
    (inTurn : StoresInTurn fork place stores host last) :
    PathIndependent fork place stores (stores.getLast some).value host last := by
  have net : ¬ fork.hasPlainStores := by simp [Fork.hasPlainStores, notByzantium, notPetersburg]
  refine ⟨?_, ?_, congrFun inTurn.first_eq place⟩
  · have total := inTurn.net_eq net
    rw [unchanged, heldAfter_eq_getLast some, Fork.standing_self, if_neg some, sub_zero] at total
    rw [← netCharge, total, Fork.surcharge]
    by_cases lists : fork.hasAccessLists <;> by_cases warm : host.view.isWarmSlot place <;>
      simp [lists, warm]
  · rw [inTurn.slot_eq, heldAfter_eq_getLast some]

open FrameM InstructionM in
theorem storageStore_runs {fork : Fork} {context : Context} {frame : Frame} {host : Host σ}
    {key new : Word} {below : List Word} (inOrder : host.InOrder)
    (mutable : ¬ context.message.isStatic) (words : frame.stack.words = key :: new :: below)
    (rich : 200000 ≤ frame.gas.remaining) :
    ∃ left last, storageStore fork context frame host = .ok ((), left) last ∧ last.InOrder := by
  have enough : ¬ (.istanbul ≤ fork ∧ frame.gas.remaining ≤ fork.fee .sstoreSentry) := by
    simp only [Fork.fee]
    omega
  obtain ⟨one, popsKey, words, gas⟩ := pop_run words
  obtain ⟨two, popsNew, -, gas'⟩ := pop_run words
  obtain ⟨current, read, reads, extend, -⟩ := Host.slot_serves context.self key host inOrder
  have inOrder := extend.inOrder inOrder
  obtain ⟨initial, recalled, recalls, extend, -⟩ :=
    Host.initialSlot_serves context.self key read inOrder
  have inOrder := extend.inOrder inOrder
  obtain ⟨access, touched, touches, extend, most⟩ :=
    Host.accessColdSlot_serves fork context.self key recalled inOrder
  have inOrder := extend.inOrder inOrder
  obtain ⟨_, last, writes, extend, -⟩ :=
    writeSlot_serves context.self key current new touched inOrder
  obtain ⟨-, most'⟩ := storePrice_bounds fork initial current new
  obtain ⟨charged, charges⟩ : ∃ after,
      charge ((storePrice fork initial current new).gas + access) two = .ok ((), after) :=
    charge_run (by unfold machineLimit; omega) (by rw [gas', gas]; omega)
  refine ⟨{ charged with
    refund := charged.refund + (storePrice fork initial current new).refund }, last, ?_,
    extend.inOrder inOrder⟩
  refine lift_bind_ok.mpr ⟨(), frame, faultIf_run mutable frame, ?_⟩
  refine bind_ok.mpr ⟨frame, frame, host, rfl, ?_⟩
  refine lift_bind_ok.mpr ⟨(), frame, faultIf_run enough frame, ?_⟩
  refine lift_bind_ok.mpr ⟨key, one, popsKey, ?_⟩
  refine lift_bind_ok.mpr ⟨new, two, popsNew, ?_⟩
  refine host_bind_ok.mpr ⟨current, read, reads, ?_⟩
  refine host_bind_ok.mpr ⟨initial, recalled, recalls, ?_⟩
  refine host_bind_ok.mpr ⟨access, touched, touches, ?_⟩
  refine lift_bind_ok.mpr ⟨(), charged, charges, ?_⟩
  exact host_bind_ok.mpr ⟨(), last, writes, rfl⟩

def storingFrame (value : Word) : Frame :=
  { Frame.start { Message.blank with gasLimit := 200000 } 0 with stack := .ofWords [0, value] }

/-- A slot that is set and cleared again has cost two of the least charges and an access. -/
theorem stores_pathIndependent_clearing :
    ∃ (stores : List StoreMade) (some : stores ≠ []) (last : Host Unit),
      stores.map StoreMade.value = [7, 0] ∧
        PathIndependent .cancun (0, 0) stores (stores.getLast some).value (.start .empty ())
          last := by
  let context : Context := ⟨Message.blank, Code.ofBytes #[], 0, none⟩
  have goesThrough (host : Host Unit) (inOrder : host.InOrder) (value : Word) : ∃ left last,
      storageStore .cancun context (storingFrame value) host = .ok ((), left) last ∧ last.InOrder :=
    storageStore_runs inOrder (by decide) rfl (Nat.le_refl 200000)
  obtain ⟨one, between, sets, inOrder⟩ := goesThrough (.start .empty ()) World.empty_inOrder 7
  obtain ⟨two, last, clears, -⟩ := goesThrough between inOrder 0
  have inTurn : StoresInTurn .cancun (0, 0) [⟨context, storingFrame 7, one⟩,
      ⟨context, storingFrame 0, two⟩] (.start .empty ()) last :=
    .store ⟨rfl, sets⟩ (.store ⟨rfl, clears⟩ (.nothing last))
  exact ⟨_, by simp, last, rfl,
    stores_pathIndependent (by decide) (by decide) (congrFun (Host.slot_start .empty ()) (0, 0))
      (by simp) inTurn⟩

end Evm
