import Evm.Proofs.Restraint

/-!
# Stipends

A message that was given no more than the stipend of a call cannot write to the world, and no
message below it has more gas. What writes either costs more than that or asks for more to be left.
Under Constantinople alone a store can be had for less.
-/

namespace Evm

open Execution Instruction InstructionM

variable {σ : Type} {fork : Fork} {context : Context} {frame after : Frame}

namespace FrameM

theorem charge_le {amount : Nat} (runs : charge amount frame = .ok ((), after)) :
    amount ≤ frame.gas.limit := by
  unfold charge at runs
  split at runs
  · cases runs
  · cases spends : frame.gas.spend? amount with
    | some left =>
      unfold Meter.spend? Meter.remaining at spends
      split at spends
      · omega
      · cases spends
    | none =>
      rw [spends] at runs
      cases runs

end FrameM

namespace Instruction

/-- Where no more than the present value counts, a store costs more than the stipend. -/
theorem storePrice_gt (plain : fork.hasPlainStores) (initial current new : Word) :
    2300 < (storePrice fork initial current new).gas := by
  have set : fork.fee .sstoreSet = 20000 := rfl
  have reset : fork.fee .sstoreReset = 5000 := by
    cases fork <;> first | rfl | cases plain
  rw [storePrice, if_pos plain, plainStorePrice]
  dsimp only
  split <;> omega

theorem destructPrice_gt {heir : Address} {balance : Word} {price : Nat} {host last : Host σ}
    (prices : destructPrice fork heir balance host = .ok price last) : 2300 < price := by
  have fixed : fork.fee .selfDestruct = 5000 := rfl
  unfold destructPrice at prices
  split at prices
  · cases prices
    omega
  · obtain ⟨account, _, _, prices⟩ := bind_eq_ok.mp prices
    cases prices
    omega

theorem callPrice_gt {mode : CallMode} {target : Address} {value : Word} {price : Nat}
    {host last : Host σ} (sends : value ≠ 0)
    (prices : callPrice fork mode target value host = .ok price last) : 2300 < price := by
  have fixed : fork.fee .callValue = 9000 := rfl
  obtain ⟨access, _, _, prices⟩ := bind_eq_ok.mp prices
  rw [if_neg sends] at prices
  split at prices
  · obtain ⟨account, _, _, prices⟩ := bind_eq_ok.mp prices
    cases prices
    omega
  · cases prices
    omega

theorem payCall_le {operands : CallOperands} {price gas : Nat}
    (pays : payCall fork operands price frame = .ok (gas, after)) :
    price ≤ frame.gas.limit ∧ gas ≤ frame.gas.limit + stipend fork operands.value := by
  obtain ⟨_, _, ⟨⟩, pays⟩ := FrameM.bind_ok.mp pays
  obtain ⟨_, paid, charges, pays⟩ := FrameM.bind_ok.mp pays
  obtain ⟨_, _, ⟨⟩, pays⟩ := FrameM.bind_ok.mp pays
  obtain ⟨_, _, ⟨⟩, pays⟩ := FrameM.bind_ok.mp pays
  obtain ⟨_, _, ⟨⟩, pays⟩ := FrameM.bind_ok.mp pays
  obtain ⟨_, _, charges', pays⟩ := FrameM.bind_ok.mp pays
  obtain ⟨_, _, ⟨⟩, pays⟩ := FrameM.bind_ok.mp pays
  have price_le := FrameM.charge_le charges
  have granted_le := FrameM.charge_le charges'
  have limit_eq := (FrameM.Retains.charge _ charges).limit_eq
  unfold fits? at pays
  split at pays
  · cases pays
    dsimp only at granted_le limit_eq ⊢
    omega
  · cases pays

/-- With no more than the stipend, a call sends no value and gives no more along. -/
theorem prepareCall_small {mode : CallMode} {nested : NestedCall} {host last : Host σ}
    (small : frame.gas.limit ≤ 2300)
    (prepares : prepareCall fork context mode frame host = .ok (some nested, after) last) :
    nested.message.gasLimit ≤ 2300 ∧ (mode = .call → nested.message.value = 0) := by
  obtain ⟨operands, popped, price, _, gas, _, _, pops, _, prices, pays, rfl⟩ :=
    prepareCall_made prepares
  have limit_eq := (popCall_retains mode pops).limit_eq
  obtain ⟨price_le, gas_le⟩ := payCall_le pays
  have unsent : operands.value = 0 := by
    by_contra sends
    have price_gt := callPrice_gt sends prices
    omega
  -- Without value there is no stipend on top of what the frame itself has.
  rw [unsent, stipend, if_pos rfl] at gas_le
  refine ⟨?_, ?_⟩
  · show gas ≤ 2300
    omega
  · rintro rfl
    simpa [callMessage] using unsent

theorem create_stops {salted : Bool} {control : Control} {host last : Host σ}
    (small : frame.gas.limit ≤ 2300) :
    create fork context salted frame host ≠ .ok (control, after) last := by
  intro runs
  have fixed : fork.fee .create = 32000 := rfl
  obtain ⟨_, _, _, checks, runs⟩ := InstructionM.bind_ok.mp runs
  obtain ⟨operands, _, _, pops, runs⟩ := InstructionM.bind_ok.mp runs
  obtain ⟨code, _, _, pays, _⟩ := InstructionM.bind_ok.mp runs
  obtain ⟨_, rfl⟩ := faultIf_ok (lift_ok.mp checks).1
  have limit_eq := (popCreate_retains salted (lift_ok.mp pops).1).limit_eq
  obtain ⟨_, _, bounds, pays⟩ := FrameM.bind_ok.mp (lift_ok.mp pays).1
  obtain ⟨_, rfl⟩ := faultIf_ok bounds
  obtain ⟨_, _, charges, _⟩ := FrameM.bind_ok.mp pays
  have price_le := FrameM.charge_le charges
  unfold createPrice at price_le
  omega

theorem log_limit {count : Fin 5} (logs : log fork context count frame = .ok ((), after)) :
    after.gas.limit = frame.gas.limit := by
  obtain ⟨_, _, checks, logs⟩ := FrameM.bind_ok.mp logs
  obtain ⟨offset, _, pops, logs⟩ := FrameM.bind_ok.mp logs
  obtain ⟨size, _, pops', logs⟩ := FrameM.bind_ok.mp logs
  obtain ⟨range, _, ranges, logs⟩ := FrameM.bind_ok.mp logs
  obtain ⟨topics, _, pops'', logs⟩ := FrameM.bind_ok.mp logs
  obtain ⟨_, _, charges, logs⟩ := FrameM.bind_ok.mp logs
  obtain ⟨_, _, expands, logs⟩ := FrameM.bind_ok.mp logs
  obtain ⟨data, between, reads, logs⟩ := FrameM.bind_ok.mp logs
  obtain ⟨_, rfl⟩ := faultIf_ok checks
  obtain rfl := readMemory_ok reads
  have popped := (FrameM.Retains.pop pops).trans (FrameM.Retains.pop pops')
  have ranged := popped.trans (FrameM.Retains.region _ _ ranges)
  have charged := (ranged.trans (FrameM.Retains.popMany _ pops'')).trans
    (FrameM.Retains.charge _ charges)
  have limit_eq := (charged.trans (FrameM.Retains.expand _ _ _ expands)).limit_eq
  cases logs
  exact limit_eq

end Instruction

def Frame.Small (frame : Frame) : Prop := frame.gas.limit ≤ 2300

theorem Frame.small_lasts : Lasts Frame.Small := by
  intro frame after retains small
  rw [Frame.Small, retains.limit_eq]
  exact small

theorem charge_stops {amount : Nat} {value : Unit} (exceeds : 2300 < amount) (small : frame.Small) :
    FrameM.charge amount frame ≠ .ok (value, after) := by
  intro charges
  have within := FrameM.charge_le charges
  unfold Frame.Small at small
  omega

namespace Instruction

theorem storageStore_leaves (priced : fork ≠ .constantinople) :
    (storageStore fork context : InstructionM σ Unit).Keeps Frame.Small (Host.LeavesAlone true) := by
  have steady : Host.Steady (Host.LeavesAlone true : Host σ → Host σ → Prop) := Host.leaves_steady
  have sentry : fork.fee .sstoreSentry = 2300 := rfl
  refine .bind steady (.retaining steady Frame.small_lasts (.faultIf _ _)) fun _ => ?_
  refine .bindGiven steady (.current steady) ?_
  intro frame _ host _ seen small reads
  obtain ⟨rfl, _, _⟩ := current_ok.mp reads
  by_cases late : .istanbul ≤ fork
  · -- The store asks for more gas to be left than there ever was.
    refine .blocked steady fun _ checks => (faultIf_ok checks).1 ⟨late, ?_⟩
    unfold Frame.Small at small
    unfold Meter.remaining
    omega
  · have plain : fork.hasPlainStores := by
      cases fork <;> first | rfl | exact absurd rfl priced | exact absurd (by decide) late
    refine .bind steady (.retaining steady Frame.small_lasts (.faultIf _ _)) fun _ => ?_
    refine .bind steady (.retaining steady Frame.small_lasts .pop) fun key => ?_
    refine .bind steady (.retaining steady Frame.small_lasts .pop) fun new => ?_
    refine .bind steady (.host (.slot steady context.self key)) fun current => ?_
    refine .bind steady (.host (.initialSlot steady context.self key)) fun initial => ?_
    refine .bind steady (.host (.accessColdSlot steady fork context.self key)) fun access => ?_
    have price_gt := storePrice_gt plain initial current new
    exact .blocked steady (charge_stops (by omega))

theorem transientStore_leaves :
    (transientStore fork context : InstructionM σ Unit).Keeps Frame.Small (Host.LeavesAlone true) := by
  have steady : Host.Steady (Host.LeavesAlone true : Host σ → Host σ → Prop) := Host.leaves_steady
  refine .bind steady (.retaining steady Frame.small_lasts (.faultIf _ _)) fun _ => ?_
  refine .bind steady (.retaining steady Frame.small_lasts (.charge _)) fun _ => ?_
  refine .bind steady (.retaining steady Frame.small_lasts .pop) fun key => ?_
  refine .bind steady (.retaining steady Frame.small_lasts .pop) fun value => ?_
  exact .host (Host.putTransient_leaves context.self key value)

theorem selfDestruct_leaves :
    (selfDestruct fork context : InstructionM σ Unit).Keeps Frame.Small (Host.LeavesAlone true) := by
  have steady : Host.Steady (Host.LeavesAlone true : Host σ → Host σ → Prop) := Host.leaves_steady
  refine .bind steady (.retaining steady Frame.small_lasts (.faultIf _ _)) fun _ => ?_
  refine .bind steady (.retaining steady Frame.small_lasts .popAddress) fun heir => ?_
  refine .bind steady (.host (.accessCold steady fork heir)) fun access => ?_
  refine .bind steady (.host (.account steady context.self)) fun account => ?_
  refine .bindGiven steady (.host (destructPrice_keeps steady fork heir account.balance)) ?_
  intro _ _ _ _ price _ prices
  have price_gt := destructPrice_gt (host_ok.mp prices).1
  exact .blocked steady (charge_stops (by omega))

theorem writesKeep_of_small (priced : fork ≠ .constantinople) :
    WritesKeep Frame.Small (Host.LeavesAlone true : Host σ → Host σ → Prop) fork context where
  storageStore := storageStore_leaves priced
  transientStore := transientStore_leaves
  log _ := by
    refine .lift Host.leaves_steady.refl ?_
    intro frame after _ small logs
    rw [Frame.Small, log_limit logs]
    exact small
  call _ := call_keeps_of_unsent Host.leaves_steady Frame.small_lasts fun small prepares =>
    (prepareCall_small small prepares).2
  selfDestruct := selfDestruct_leaves

end Instruction

/-- A call with no more gas than the stipend writes to nothing but transient storage. -/
def Restraint.ofStipend (σ : Type) (priced : fork ≠ .constantinople) : Restraint σ fork true where
  Binds message := message.gasLimit ≤ 2300 ∧ message.isCreation = false
  Bare := Frame.Small
  Silent _ := True
  lasts := Frame.small_lasts
  isCall binds := binds.2
  starts binds := binds.1
  writes _ := writesKeep_of_small priced
  calls _ small prepares := ⟨(prepareCall_small small prepares).1, (prepareCall_ok prepares).2.1⟩
  creates _ small := create_stops small
  halts _ := trivial
  idles _ _ _ _ := trivial
  absorbs small _ := small

structure Execution.SparesWorld (env : Environment σ) (message : Message) (pc : Nat)
    (host : Host σ) : Prop where
  /-- However it ends, the world is as it was. -/
  result : ∃ result after, runMessage env message pc host = .ok result after ∧
    after.store.world = host.store.world
  /-- No instruction of any frame writes to it, to be undone or not. -/
  throughout : ∀ {context frame waiting reached},
    Reaches env message pc host (.running context frame waiting) reached →
    Refrains env true host context frame reached

/-- No call can write to the world with the stipend alone. -/
theorem runMessage_sparesWorld (env : Environment σ) (message : Message) (pc : Nat) (host : Host σ)
    (inOrder : host.InOrder) (priced : env.fork ≠ .constantinople)
    (isCall : message.isCreation = false) (small : message.gasLimit ≤ 2300) :
    SparesWorld env message pc host := by
  let restraint := Restraint.ofStipend σ priced
  have binds : restraint.Binds message := ⟨small, isCall⟩
  have few : message.gasLimit + 1 < machineLimit := by
    unfold machineLimit
    omega
  have bounded := Nat.lt_of_succ_lt few
  constructor
  · obtain ⟨result, after, runs⟩ := runMessage_run env message pc host inOrder bounded
      (Message.not_overflows_of_gasLimit few)
    obtain ⟨spares, _⟩ := Restraint.reaches_confines inOrder binds (reaches_of_run runs)
    exact ⟨result, after, runs, spares.world_eq⟩
  · intro context frame waiting reached reaches
    obtain ⟨spares, bound, _⟩ := Restraint.reaches_confines inOrder binds reaches
    exact bound.refrains inOrder spares

/-- Code that stores a word, with the stipend to do it. -/
def stipendMessage : Message :=
  { Message.blank with
    target := some 0xaa, gasLimit := 2300, code := #[0x60, 0x01, 0x60, 0x00, 0x55] }

theorem runMessage_sparesWorld_storing : ∃ result after,
    runMessage (.blank .istanbul) stipendMessage 0 (Host.start .empty ()) = .ok result after ∧
      result.outcome = .faulted .outOfGas ∧ after.store.world = .empty := by
  have faults : ((runMessage (.blank .istanbul) stipendMessage 0).run'
      (Host.start .empty ())).map (·.outcome) = some (.faulted .outOfGas) := by decide +kernel
  have spares := runMessage_sparesWorld (.blank .istanbul) stipendMessage 0 (Host.start .empty ())
    World.empty_inOrder (by decide) rfl (by decide)
  obtain ⟨result, after, runs, world_eq⟩ := spares.result
  rw [run'_eq_some.mpr ⟨after, runs⟩, Option.map_some] at faults
  exact ⟨result, after, runs, Option.some.inj faults, world_eq⟩

end Evm
