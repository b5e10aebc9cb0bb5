import Evm.Proofs.Recursion

/-!
# Early forks

Before Istanbul all forks have the same prices and the same contracts, and none has access lists.
They differ in the instructions that they have, and in how a store is priced. Code that meets
neither difference runs alike under each of them.
-/

namespace Evm

open FrameM InstructionM Instruction

variable {σ : Type}

namespace Fork

variable {fork : Fork} (early : ¬ .istanbul ≤ fork)

include early

theorem fee_early : fork.fee = fee .byzantium := by
  cases fork <;> first | exact absurd (by decide) early | (funext fee; cases fee <;> rfl)

theorem hasAccessLists_early : fork.hasAccessLists = hasAccessLists .byzantium := by
  cases fork <;> first | exact absurd (by decide) early | rfl

end Fork

theorem FrameM.faultIf_never {condition rest : Prop} [Decidable (condition ∧ rest)]
    (never : ¬ condition) (cause : Exception) : faultIf (condition ∧ rest) cause = pure () :=
  if_neg fun both => never both.1

section

variable {fork : Fork} (early : ¬ .istanbul ≤ fork)

include early

theorem Memory.expansionPrice_early (memory : Memory) :
    memory.expansionPrice fork = memory.expansionPrice .byzantium := by
  funext offset size
  simp only [Memory.expansionPrice, Memory.price, Fork.fee_early early]

theorem FrameM.expand_early : expand fork = expand .byzantium := by
  funext offset size
  simp only [expand, Memory.expansionPrice_early early]

theorem Gas.perWord_early : Gas.perWord fork = Gas.perWord .byzantium := by
  funext fixed word size
  simp only [Gas.perWord, Fork.fee_early early]

theorem finish_early : finish fork = finish .byzantium := by
  funext control
  simp only [finish, expand_early early]

theorem accessAddress_early :
    (Host.accessAddress fork : Address → HostM σ Nat) = Host.accessAddress .byzantium := by
  funext address
  simp only [Host.accessAddress, Fork.fee_early early, Fork.hasAccessLists_early early]

theorem accessCold_early :
    (Host.accessCold fork : Address → HostM σ Nat) = Host.accessCold .byzantium := by
  funext address
  simp only [Host.accessCold, Fork.fee_early early, Fork.hasAccessLists_early early]

theorem accessSlot_early :
    (Host.accessSlot fork : Address → Word → HostM σ Nat) = Host.accessSlot .byzantium := by
  funext address key
  simp only [Host.accessSlot, Fork.fee_early early, Fork.hasAccessLists_early early]

theorem accessColdSlot_early :
    (Host.accessColdSlot fork : Address → Word → HostM σ Nat) = Host.accessColdSlot .byzantium := by
  funext address key
  simp only [Host.accessColdSlot, Fork.fee_early early, Fork.hasAccessLists_early early]

theorem storageStore_early (plain : fork.hasPlainStores) :
    (storageStore fork : Context → InstructionM σ Unit) = storageStore .byzantium := by
  have price : storePrice fork = storePrice .byzantium := by
    funext initial current new
    simp only [storePrice, if_pos plain, if_pos (show Fork.byzantium.hasPlainStores from rfl),
      plainStorePrice, Fork.fee_early early]
  have byzantium : ¬ .istanbul ≤ Fork.byzantium := by decide
  funext context
  simp only [storageStore, faultIf_never early, faultIf_never byzantium, price,
    accessColdSlot_early early]

theorem selfDestruct_early :
    (selfDestruct fork : Context → InstructionM σ Unit) = selfDestruct .byzantium := by
  have marks : markDestroyed fork = markDestroyed .byzantium := by
    funext self frame
    simp only [markDestroyed, Fork.fee_early early]
  funext context
  simp only [selfDestruct, destructPrice, marks, accessCold_early early, Fork.fee_early early]

theorem call_early :
    (call fork : Context → CallMode → InstructionM σ Control) = call .byzantium := by
  funext context mode
  simp only [call, prepareCall, callPrice, payCall, callExpansion, stipend,
    accessAddress_early early, Memory.expansionPrice_early early, Fork.fee_early early]

theorem create_early :
    (create fork : Context → Bool → InstructionM σ Control) = create .byzantium := by
  have shanghai : ¬ .shanghai ≤ fork := fun late => early (Nat.le_trans (by decide) late)
  have byzantium : ¬ .shanghai ≤ Fork.byzantium := by decide
  funext context salted
  simp only [create, payCreate, createPrice, faultIf_never shanghai, faultIf_never byzantium,
    expand_early early, Fork.fee_early early]

theorem execute_early (env : Environment σ) (context : Context) (instruction : Instruction)
    {operation : Operation} (plain : operation = .storageStore → fork.hasPlainStores) :
    execute { env with fork } context instruction operation =
      execute { env with fork := .byzantium } context instruction operation := by
  cases operation with
  | stop | pop | jumpDest | invalid => simp only [execute, Fork.fee_early early]
  | unary op => simp only [execute, unary, Unary.price, Fork.fee_early early]
  | binary op =>
    have price : op.price fork = op.price .byzantium := by
      funext b
      unfold Binary.price
      rw [Fork.fee_early early]
    simp only [execute, binary, price]
  | ternary op => simp only [execute, ternary, Ternary.price, Fork.fee_early early]
  | keccak => simp only [execute, keccak, expand_early early, Fork.fee_early early]
  | query what => simp only [execute, query, Fork.fee_early early]; rfl
  | lookup what => simp only [execute, lookup, Fork.fee_early early]
  | inspect what =>
    simp only [execute, inspect, accessAddress_early early, Fork.fee_early early]
  | selfBalance => simp only [execute, selfBalance, Fork.fee_early early]
  | copy source => simp only [execute, copy, copyPrice, expand_early early, Fork.fee_early early]
  | externalCodeCopy =>
    simp only [execute, externalCodeCopy, copyPrice, accessAddress_early early, expand_early early,
      Fork.fee_early early]
  | returnDataCopy =>
    simp only [execute, returnDataCopy, copyPrice, expand_early early, Fork.fee_early early]
  | memoryLoad => simp only [execute, memoryLoad, expand_early early, Fork.fee_early early]
  | memoryStore => simp only [execute, memoryStore, expand_early early, Fork.fee_early early]
  | memoryStore8 => simp only [execute, memoryStore8, expand_early early, Fork.fee_early early]
  | memoryCopy =>
    simp only [execute, memoryCopy, copyPrice, expand_early early, Fork.fee_early early]
  | storageLoad =>
    simp only [execute, storageLoad, accessSlot_early early, Fork.fee_early early]
  | storageStore => simp only [execute, storageStore_early early (plain rfl)]
  | transientLoad => simp only [execute, transientLoad, Fork.fee_early early]
  | transientStore => simp only [execute, transientStore, Fork.fee_early early]
  | jump => simp only [execute, jump, Fork.fee_early early]
  | jumpIf => simp only [execute, jumpIf, Fork.fee_early early]
  | push width => simp only [execute, pushArgument, Fork.fee_early early]
  | dup depth => simp only [execute, dup, Fork.fee_early early]
  | swap depth => simp only [execute, swap, Fork.fee_early early]
  | log topics => simp only [execute, log, expand_early early, Fork.fee_early early]
  | create salted => simp only [execute, create_early early]
  | call mode => simp only [execute, call_early early]
  | ret => simp only [execute, finish_early early]
  | revert => simp only [execute, finish_early early]
  | selfDestruct => simp only [execute, selfDestruct_early early]

theorem Precompile.count_early : Precompile.count fork = Precompile.count .byzantium := by
  have byzantium : ¬ .istanbul ≤ Fork.byzantium := by decide
  rw [Precompile.count, Precompile.count, if_neg early, if_neg byzantium]

theorem Precompile.contains_early : Precompile.contains fork = Precompile.contains .byzantium := by
  funext address
  rw [Precompile.contains, Precompile.contains, Precompile.count_early early]

theorem Precompile.at?_early : Precompile.at? fork = Precompile.at? .byzantium := by
  funext address
  rw [Precompile.at?, Precompile.at?, Precompile.contains_early early]

theorem ModExp.priceOf_early : ModExp.priceOf fork = ModExp.priceOf .byzantium := by
  have berlin : ¬ .berlin ≤ fork := fun late => early (Nat.le_trans (by decide) late)
  have byzantium : ¬ .berlin ≤ Fork.byzantium := by decide
  funext data
  simp only [ModExp.priceOf, ModExp.price, if_neg berlin, if_neg byzantium, Fork.fee_early early]

theorem Precompile.run?_early (contract : Precompile) (curve : CurveBackend) (data : Bytes)
    (gasLimit : Nat) :
    contract.run? curve ⟨data, gasLimit, fork⟩ =
      contract.run? curve ⟨data, gasLimit, .byzantium⟩ := by
  cases contract <;>
    simp only [Precompile.run?, Routine.ecRecover, Routine.byWord, Routine.chargeWords,
      Routine.modExp?, Routine.onPoints, Routine.ecPairing, Routine.blake2,
      Gas.perWord_early early, ModExp.priceOf_early early, Fork.fee_early early]

namespace Execution

variable (env : Environment σ)

theorem deployFor_early (context : Context) (result : Result) :
    deployFor { env with fork } context result =
      deployFor { env with fork := .byzantium } context result := by
  have london : ¬ .london ≤ fork := fun late => early (Nat.le_trans (by decide) late)
  have byzantium : ¬ .london ≤ Fork.byzantium := by decide
  have fault : deployFault? fork = deployFault? .byzantium := by
    funext code deposit available
    simp only [deployFault?, london, byzantium, false_and]
  unfold deployFor
  cases context.deployment with
  | none => rfl
  | some deployment => simp only [deploy, fault, Fork.fee_early early]

theorem conclude_early (context : Context) (result : Result) :
    conclude { env with fork } context result =
      conclude { env with fork := .byzantium } context result := by
  unfold conclude
  simp only [deployFor_early early]
  rfl

theorem beginCreate_early (message : Message) :
    beginCreate { env with fork } message =
      beginCreate { env with fork := .byzantium } message := by
  simp only [beginCreate, claimAddress, Fork.hasAccessLists_early early]

theorem openFrame_early (message : Message) (deployment : Option Deployment) (pc : Nat) :
    openFrame { env with fork } message deployment pc =
      openFrame { env with fork := .byzantium } message deployment pc := by
  simp only [openFrame, conclude_early early]

theorem runPrecompile_early (message : Message) (contract : Precompile) :
    runPrecompile { env with fork } message contract =
      runPrecompile { env with fork := .byzantium } message contract := by
  simp only [runPrecompile, Precompile.run?_early early]
  rfl

theorem consult_early (message : Message) :
    consult { env with fork } message = consult { env with fork := .byzantium } message := by
  have same : Precompile.at? fork message.codeAddress =
      Precompile.at? .byzantium message.codeAddress := by
    rw [Precompile.at?_early early]
  unfold consult
  dsimp only
  rw [same]
  split
  · exact runPrecompile_early early env message _
  · rfl

theorem enter_early (message : Message) (kind : MessageKind) (pc : Nat) :
    enter { env with fork } message kind pc =
      enter { env with fork := .byzantium } message kind pc := by
  simp only [enter, beginCreate_early early, openFrame_early early, consult_early early,
    Precompile.contains_early early]
  rfl

theorem follow_early (context : Context) (frame : Frame) (waiting : List Suspended)
    (control : Control) :
    follow { env with fork } context frame waiting control =
      follow { env with fork := .byzantium } context frame waiting control := by
  cases control with
  | next | jump => rfl
  | halt | revert => simp only [follow, conclude_early early]
  | call nested => simp only [follow, enter_early early]

theorem warmFromStart_early (message : Message) :
    warmFromStart { env with fork } message =
      warmFromStart { env with fork := .byzantium } message := by
  have byzantium : ¬ Fork.byzantium.hasAccessLists := by decide
  have lists : ¬ fork.hasAccessLists := Fork.hasAccessLists_early early ▸ byzantium
  unfold warmFromStart
  rw [if_neg lists, if_neg byzantium]

end Execution

end

/-- Two forks have the same instruction for a frame, and neither prices it net if it stores. -/
structure Fork.Agree (one other : Fork) (context : Context) (frame : Frame) : Prop where
  same : context.operation? one frame = context.operation? other frame
  plain : context.operation? one frame = some .storageStore →
    one.hasPlainStores ∧ other.hasPlainStores

variable {one other : Fork} {env : Environment σ} {context : Context} {frame : Frame}

theorem step_run (env : Environment σ) (context : Context) (frame : Frame) (host : Host σ) :
    step env context frame host =
      match context.code.instructions[frame.index]? with
      | none => (pure (.halt .stop) : InstructionM σ Control) frame host
      | some instruction =>
        match instruction.operation.filter (·.since ≤ env.fork) with
        | none => (liftM (fault (.invalidOpcode instruction.byte) : FrameM Control) :
            InstructionM σ Control) frame host
        | some operation => (do
            checkStack operation
            let used := (← get).gas.used
            let control ← execute env context instruction operation
            report env context instruction operation used control : InstructionM σ Control)
              frame host := by
  show (match context.code.instructions[frame.index]? with
    | none => _
    | some instruction => _ : InstructionM σ Control) frame host = _
  cases context.code.instructions[frame.index]? with
  | none => rfl
  | some instruction =>
    dsimp only
    cases instruction.operation.filter (·.since ≤ env.fork) <;> rfl

theorem step_agrees (early : ¬ .istanbul ≤ one) (early' : ¬ .istanbul ≤ other)
    (agree : Fork.Agree one other context frame) (host : Host σ) :
    step { env with fork := one } context frame host =
      step { env with fork := other } context frame host := by
  obtain ⟨same, plain⟩ := agree
  rw [step_run, step_run]
  unfold Context.operation? at same plain
  cases fetched : context.code.instructions[frame.index]? with
  | none => rfl
  | some instruction =>
    rw [fetched, Option.bind_some] at same plain
    rw [Option.bind_some] at same
    dsimp only
    rw [← same]
    cases enabled : instruction.operation.filter (·.since ≤ one) with
    | none => rfl
    | some operation =>
      rw [enabled] at plain
      dsimp only
      rw [execute_early early env context instruction fun store => (plain (store ▸ rfl)).1,
        execute_early early' env context instruction fun store => (plain (store ▸ rfl)).2]
      rfl

namespace Execution

/-- An execution that is about to run an instruction runs one that the forks agree on. -/
def Agree (one other : Fork) : Execution → Prop
  | .running context frame _ => Fork.Agree one other context frame
  | .returning _ _ => True

theorem advance_agrees (early : ¬ .istanbul ≤ one) (early' : ¬ .istanbul ≤ other)
    {execution : Execution} (agree : execution.Agree one other) (host : Host σ) :
    advance { env with fork := one } execution host =
      advance { env with fork := other } execution host := by
  have concludes (context : Context) (result : Result) :
      conclude { env with fork := one } context result =
        conclude { env with fork := other } context result :=
    (conclude_early early env context result).trans (conclude_early early' env context result).symm
  cases execution with
  | running context frame waiting =>
    simp only [advance, step_agrees early early' agree host, follow_early early env,
      follow_early early' env, concludes]
  | returning result waiting => cases waiting <;> rfl

theorem run_alike {machine twin : Environment σ} {execution : Execution} {host : Host σ}
    (alike : ∀ last after, Passes machine [] execution host last after →
      advance machine last after = advance twin last after) (fuel : Nat) :
    run machine fuel execution host = run twin fuel execution host := by
  induction fuel generalizing execution host with
  | zero =>
    obtain above | ⟨result, rfl⟩ := above_or_returned execution
    · rw [run_zero above.unfinished, run_zero above.unfinished]
    · rw [run_returned, run_returned]
  | succ fuel ih =>
    obtain above | ⟨result, rfl⟩ := above_or_returned execution
    · rw [run_succ above.unfinished, run_succ above.unfinished]
      simp only [bind, EStateM.bind, ← alike execution host .stay]
      cases moves : advance machine execution host with
      | ok next between =>
        exact ih fun last after passes => alike last after (.move above moves passes)
      | error failure after => rfl
    · rw [run_returned, run_returned]

end Execution

open Execution

/-- Early forks that agree on all that a run comes to give the same run. -/
theorem runMessage_agrees (early : ¬ .istanbul ≤ one) (early' : ¬ .istanbul ≤ other)
    (message : Message) (pc : Nat) (host : Host σ)
    (agree : ∀ execution reached,
      Reaches { env with fork := one } message pc host execution reached →
      execution.Agree one other) :
    runMessage { env with fork := one } message pc host =
      runMessage { env with fork := other } message pc host := by
  have warms := (warmFromStart_early early env message).trans
    (warmFromStart_early early' env message).symm
  have enters := (enter_early early env message (topLevelKind message) pc).trans
    (enter_early early' env message (topLevelKind message) pc).symm
  unfold runMessage
  rw [← warms, ← enters]
  simp only [bind, EStateM.bind]
  cases warmed : warmUp (warmFromStart { env with fork := one } message) host with
  | error failure after => rfl
  | ok _ warmedHost =>
    dsimp only
    cases entered : enter { env with fork := one } message (topLevelKind message) pc warmedHost with
    | error failure after => rfl
    | ok opening opened =>
      refine run_alike (fun last after passes => ?_) _
      exact advance_agrees early early'
        (agree last after ⟨warmedHost, opening, opened, warmed, entered, passes⟩) after

/-- Petersburg next to the forks before it. The runs are the same to the last detail: the result, or
the failure, and the host that they leave, the trace included. -/
structure Execution.Transitional (env : Environment σ) (message : Message) (pc : Nat)
    (host : Host σ) : Prop where
  /-- But for the price of stores Petersburg is Constantinople. -/
  constantinople :
    (∀ context frame waiting reached,
      Reaches { env with fork := .petersburg } message pc host (.running context frame waiting)
        reached →
      context.operation? .petersburg frame ≠ some .storageStore) →
    runMessage { env with fork := .constantinople } message pc host =
      runMessage { env with fork := .petersburg } message pc host
  /-- But for the instructions that are new Petersburg is Byzantium, stores included. -/
  byzantium :
    (∀ context frame waiting reached instruction operation,
      Reaches { env with fork := .byzantium } message pc host (.running context frame waiting)
        reached →
      context.code.instructions[frame.index]? = some instruction →
      instruction.operation = some operation → operation.since ≤ .byzantium) →
    runMessage { env with fork := .petersburg } message pc host =
      runMessage { env with fork := .byzantium } message pc host

theorem Operation.since_petersburg (operation : Operation) :
    operation.since ≤ .petersburg ↔ operation.since ≤ .constantinople := by
  unfold Operation.since
  split <;> decide

theorem runMessage_transitional (env : Environment σ) (message : Message) (pc : Nat)
    (host : Host σ) : Transitional env message pc host where
  constantinople storesNot := by
    refine (runMessage_agrees (by decide) (by decide) message pc host ?_).symm
    intro execution reached reaches
    cases execution with
    | returning result waiting => trivial
    | running context frame waiting =>
      refine ⟨?_, fun stores => absurd stores (storesNot context frame waiting reached reaches)⟩
      simp only [Context.operation?, Operation.since_petersburg]
  byzantium known := by
    refine (runMessage_agrees (by decide) (by decide) message pc host ?_).symm
    intro execution reached reaches
    cases execution with
    | returning result waiting => trivial
    | running context frame waiting =>
      refine ⟨?_, fun _ => ⟨rfl, rfl⟩⟩
      unfold Context.operation?
      cases fetched : context.code.instructions[frame.index]? with
      | none => rfl
      | some instruction =>
        simp only [Option.bind_some]
        cases named : instruction.operation with
        | none => rfl
        | some operation =>
          have old :=
            known context frame waiting reached instruction operation reaches fetched named
          have older : operation.since ≤ .petersburg := Nat.le_trans old (by decide)
          rw [Option.filter_some, Option.filter_some, if_pos (by simpa using old),
            if_pos (by simpa using older)]

def settingMessage : Message :=
  { Message.blank with
    target := some 0xaa, gasLimit := 50000, code := #[0x60, 0x01, 0x60, 0x00, 0x55] }

/-- Code that shifts a word, which it does not store. -/
def shiftingMessage : Message :=
  { Message.blank with
    target := some 0xaa, gasLimit := 100, code := #[0x60, 0x01, 0x60, 0x02, 0x1b] }

/-- What shifts runs under Constantinople as it does under Petersburg, and what stores under
Petersburg as it does under Byzantium. -/
theorem runMessage_transitional_shifting :
    runMessage (.blank .constantinople) shiftingMessage 0 (Host.start .empty ()) =
        runMessage (.blank .petersburg) shiftingMessage 0 (Host.start .empty ()) ∧
      runMessage (.blank .petersburg) settingMessage 0 (Host.start .empty ()) =
        runMessage (.blank .byzantium) settingMessage 0 (Host.start .empty ()) := by
  have shifts : (Code.ofBytes shiftingMessage.code).isLeaf ∧
      ∀ instruction ∈ (Code.ofBytes shiftingMessage.code).instructions,
        instruction.operation ≠ some .storageStore := by
    decide +kernel
  have sets : (Code.ofBytes settingMessage.code).isLeaf ∧
      ∀ instruction ∈ (Code.ofBytes settingMessage.code).instructions,
        ∀ operation ∈ instruction.operation, operation.since ≤ .byzantium := by
    decide +kernel
  constructor
  · refine (runMessage_transitional (.blank .petersburg) shiftingMessage 0 _).constantinople ?_
    intro context frame waiting reached reaches stores
    obtain ⟨code_eq, -⟩ := reaches.runsOnly shifts.1
    obtain ⟨instruction, member, same⟩ := Context.operation?_mem stores
    exact shifts.2 instruction (code_eq ▸ member) same
  · refine (runMessage_transitional (.blank .petersburg) settingMessage 0 _).byzantium ?_
    intro context frame waiting reached instruction operation reaches fetched same
    obtain ⟨code_eq, -⟩ := reaches.runsOnly sets.1
    exact sets.2 instruction (code_eq ▸ Array.mem_of_getElem? fetched) operation same

end Evm
