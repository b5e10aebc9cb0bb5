import Evm.Proofs.Warmth

/-!
# First touches

Where there are access lists, what is touched for the first time in a run is paid for as cold, at
whatever depth, unless the run was given it to start with. A run is given one address too many: for a
message that creates, whose address is only derived later, zero stands in from the start.
-/

namespace Evm

open Execution

variable {σ : Type} {env : Environment σ} {message : Message} {pc : Nat} {host : Host σ}

namespace Execution

/-- A state that a message from outside passes through, with all that was touched on the way: by an
instruction, in whatever frame and also if that was undone, or by a creation, which touches the
address that it takes. An instruction that faults touches nothing. -/
inductive History (env : Environment σ) (message : Message) (pc : Nat) (host : Host σ) :
    Execution → Host σ → List Touch → Prop where
  | start {warmed opening opened} :
    warmUp (warmFromStart env message) host = .ok () warmed →
    enter env message (topLevelKind message) pc warmed = .ok opening opened →
    History env message pc host (ofOpening opening []) opened (warmed.view.claimed message env.fork)
  | goOn {context frame waiting reached next after past} :
    History env message pc host (.running context frame waiting) reached past →
    turn env context frame reached = .ok (.goOn next) after →
    History env message pc host (.running context next waiting) after
      (past ++ context.touches env.fork frame)
  | finish {context frame waiting reached ended turned result after past} :
    History env message pc host (.running context frame waiting) reached past →
    turn env context frame reached = .ok (.finish ended) turned →
    conclude env context ended turned = .ok result after →
    History env message pc host (.returning result waiting) after
      (past ++ if ended.isSuccess then context.touches env.fork frame else [])
  | ask {context frame waiting reached nested asking asked opening opened past} :
    History env message pc host (.running context frame waiting) reached past →
    turn env context frame reached = .ok (.ask nested asking) asked →
    enter env nested.message nested.kind 0 asked = .ok opening opened →
    History env message pc host
      (ofOpening opening (⟨context, asking, nested.resumption⟩ :: waiting)) opened
      (past ++ context.touches env.fork frame ++ asked.view.claimed nested.message env.fork)
  | resume {result suspended waiting reached next after past} :
    History env message pc host (.returning result (suspended :: waiting)) reached past →
    resume env suspended result reached = .ok next after →
    History env message pc host (.running suspended.context next waiting) after past

theorem isSuccess_of_conclude {context : Context} {ended result : Result} {after : Host σ}
    (concludes : conclude env context ended host = .ok result after) (success : result.isSuccess) :
    ended.isSuccess := by
  by_contra fails
  have same := conclude_failed (by simpa using fails) concludes
  rw [same] at success
  exact fails success

namespace History

variable {execution : Execution} {reached : Host σ} {past : List Touch}

theorem advance {next : Execution} {after : Host σ}
    (history : History env message pc host execution reached past)
    (moves : advance env execution reached = .ok next after) :
    ∃ later, History env message pc host next after later := by
  cases moves_of_advance moves with
  | goOn turns => exact ⟨_, .goOn history turns⟩
  | finish turns concludes => exact ⟨_, .finish history turns concludes⟩
  | ask turns enters => exact ⟨_, .ask history turns enters⟩
  | resume resumes => exact ⟨_, .resume history resumes⟩
  | rest => exact ⟨_, history⟩

theorem lives (history : History env message pc host execution reached past) :
    ∃ touches, Live env message pc host execution reached touches ∧ touches.flatten ⊆ past := by
  induction history with
  | @start _ opening _ warms enters =>
    refine ⟨_, .start warms enters, ?_⟩
    cases opening <;> simp [Opening.live]
  | goOn _ turns ih =>
    obtain ⟨touches, lives, within⟩ := ih
    obtain ⟨live, below, outer, rfl⟩ := lives.layers
    refine ⟨_, .goOn lives turns, ?_⟩
    simp only [List.flatten_cons, List.append_subset] at within ⊢
    grind
  | @finish _ _ _ _ _ _ result _ _ _ turns concludes ih =>
    obtain ⟨touches, lives, within⟩ := ih
    obtain ⟨live, below, outer, rfl⟩ := lives.layers
    refine ⟨_, .finish lives turns concludes, ?_⟩
    -- A frame that succeeds has ended with success before its contract was deployed.
    have ends : result.isSuccess → _ := isSuccess_of_conclude concludes
    simp only [List.flatten_cons, List.append_subset] at within ⊢
    grind
  | @ask _ _ _ _ _ _ _ opening _ _ _ turns enters ih =>
    obtain ⟨touches, lives, within⟩ := ih
    obtain ⟨live, below, outer, rfl⟩ := lives.layers
    refine ⟨_, .ask lives turns enters, ?_⟩
    simp only [List.flatten_cons, List.append_subset] at within
    cases opening <;>
      simp only [Opening.live, List.flatten_cons, List.nil_append, List.append_subset] <;> grind
  | resume _ resumes ih =>
    obtain ⟨touches, lives, within⟩ := ih
    exact ⟨_, .resume lives resumes, within⟩

end History

theorem Reaches.history {execution : Execution} {reached : Host σ}
    (reaches : Reaches env message pc host execution reached) :
    ∃ past, History env message pc host execution reached past := by
  refine reaches.always (fun warms enters => ⟨_, .start warms enters⟩) ?_
  rintro _ _ _ _ _ _ moves ⟨_, history⟩
  exact history.advance moves

end Execution

/-- What a message from outside comes with: the addresses that it names, those of the precompiled
contracts and, in later forks, who made the block. -/
def Message.Brings (message : Message) (env : Environment σ) (address : Address) : Prop :=
  address = env.transaction.origin ∨ address = message.caller ∨ message.target = some address ∨
    address ∈ Precompile.addresses env.fork ∨ .shanghai ≤ env.fork ∧ address = env.block.coinbase

instance (message : Message) (env : Environment σ) (address : Address) :
    Decidable (message.Brings env address) :=
  inferInstanceAs (Decidable (_ ∨ _))

/-- Warm from the start is what a message brings, and zero if it creates. -/
theorem mem_warmFromStart (lists : env.fork.hasAccessLists) (address : Address) :
    address ∈ warmFromStart env message ↔
      message.Brings env address ∨ message.isCreation ∧ address = 0 := by
  have runsAs : address = message.address ↔
      message.target = some address ∨ message.isCreation ∧ address = 0 := by
    unfold Message.address Message.isCreation
    cases message.target with
    | none => simp
    | some target => simp [@eq_comm _ target]
  have later : address ∈ (if .shanghai ≤ env.fork then [env.block.coinbase] else []) ↔
      .shanghai ≤ env.fork ∧ address = env.block.coinbase := by
    split <;> simp [*]
  unfold warmFromStart Message.Brings
  simp only [if_pos lists, List.mem_append, List.mem_cons, List.not_mem_nil, or_false, runsAs, later]
  grind

namespace Operation

variable {fork : Fork} {operation : Operation} {context : Context} {frame : Frame} {address : Address}

theorem coldFee_address (touches : .address address ∈ operation.touches fork context frame) :
    operation.coldFee fork = fork.fee .coldAccountAccess := by
  cases operation with
  | inspect | externalCodeCopy | selfDestruct | call => rfl
  | storageLoad | storageStore => simp [Operation.touches, Fork.touched] at touches
  | _ => cases touches

theorem warmFee_lt (lists : fork.hasAccessLists)
    (touches : .address address ∈ operation.touches fork context frame) :
    operation.warmFee fork < fork.fee .coldAccountAccess := by
  have late : .berlin ≤ fork := by simpa [Fork.hasAccessLists] using lists
  rw [← coldFee_address touches]
  cases operation <;>
    simp_all [Operation.touches, Fork.touched, coldFee, warmFee, Fork.fee, Fork.change]

end Operation

structure FirstTouches (env : Environment σ) (message : Message) (pc : Nat) (host : Host σ) :
    Prop where
  histories : ∀ {execution reached}, Reaches env message pc host execution reached →
    ∃ past, History env message pc host execution reached past
  /-- An instruction that touches an address that was not touched before, at whatever depth, is
  charged for a cold account, unless the message brings the address. -/
  cold : ∀ {context frame waiting reached past},
    History env message pc host (.running context frame waiting) reached past →
    ∀ {operation address control left last}, context.operation? env.fork frame = some operation →
    .address address ∈ operation.touches env.fork context frame → .address address ∉ past →
    ¬ message.Brings env address → (message.isCreation → address ≠ 0) →
    step env context frame reached = .ok (control, left) last →
    operation.Charged env.fork context frame left reached control.given
      (env.fork.fee .coldAccountAccess)
  /-- While a creation runs, zero is never charged for as cold, whatever was touched before. -/
  standIn : message.isCreation → ∀ {context frame waiting reached},
    Reaches env message pc host (.running context frame waiting) reached →
    ∀ {operation control left last}, context.operation? env.fork frame = some operation →
    .address 0 ∈ operation.touches env.fork context frame →
    step env context frame reached = .ok (control, left) last →
    operation.Charged env.fork context frame left reached control.given
        (operation.warmFee env.fork) ∧
      operation.warmFee env.fork < env.fork.fee .coldAccountAccess

/-- On a fresh host the first touch of an address is cold. -/
theorem runMessage_chargesFirst (env : Environment σ) (message : Message) (pc : Nat) (world : World)
    (trace : σ) (late : .berlin ≤ env.fork) (bounded : message.gasLimit < machineLimit) :
    FirstTouches env message pc (.start world trace) := by
  have lists : env.fork.hasAccessLists := by simpa [Fork.hasAccessLists] using late
  have warms := runMessage_warms env message pc (.start world trace) bounded
  have seeded : ∀ address, (Host.start world trace).Seeded env message (.address address) ↔
      message.Brings env address ∨ message.isCreation ∧ address = 0 := by
    intro address
    rw [← mem_warmFromStart lists]
    simp [Host.Seeded, Host.start]
  constructor
  · exact fun reaches => reaches.history
  · intro context frame waiting reached past history operation address control left last next
      touches first foreign other steps
    obtain ⟨live, lives, within⟩ := history.lives
    obtain ⟨access, charged, cold, _⟩ := warms.charges lists lives next touches steps
    have dear : access = operation.coldFee env.fork := by
      rw [cold, seeded]
      rintro ((brings | ⟨creates, rfl⟩) | touched)
      · exact foreign brings
      · exact other creates rfl
      · exact first (within touched)
    rwa [dear, Operation.coldFee_address touches] at charged
  · intro creates context frame waiting reached reaches operation control left last next touches steps
    obtain ⟨live, lives⟩ := warms.lives reaches
    obtain ⟨access, charged, _, warm⟩ := warms.charges lists lives next touches steps
    have cheap := warm.mpr (.inl ((seeded 0).mpr (.inr ⟨creates, rfl⟩)))
    rw [cheap] at charged
    exact ⟨charged, Operation.warmFee_lt lists touches⟩

/-- Whether a message has opened a frame that touches nothing first, for 3 gas, and then looks up the
balance of an address. -/
def looksUp (env : Environment Unit) (address : Address) :
    EStateM.Result Failure (Host Unit) Opening → Bool
  | .ok (.frame context start) opened =>
    match turn env context start opened with
    | .ok (.goOn frame) _ => context.touches env.fork start = [] ∧ frame.gas.used = 3 ∧
      context.operation? env.fork frame = some (.inspect .balance) ∧ frame.address 0 = address
    | _ => false
  | _ => false

theorem of_looksUp {env : Environment Unit} {address : Address}
    {ends : EStateM.Result Failure (Host Unit) Opening} (looks : looksUp env address ends) :
    ∃ context start opened frame reached, ends = .ok (.frame context start) opened ∧
      turn env context start opened = .ok (.goOn frame) reached ∧
      context.touches env.fork start = [] ∧ frame.gas.used = 3 ∧
      context.operation? env.fork frame = some (.inspect .balance) ∧ frame.address 0 = address := by
  unfold looksUp at looks
  split at looks
  · split at looks
    · exact ⟨_, _, _, _, _, rfl, ‹_›, of_decide_eq_true looks⟩
    · cases looks
  · cases looks

theorem runMessage_chargesFirst_looking : ∃ context frame reached past,
    History (.blank .berlin) lookingMessage 0 (Host.start .empty ()) (.running context frame [])
        reached past ∧
      context.operation? .berlin frame = some (.inspect .balance) ∧ frame.address 0 = 0xbb ∧
      ∀ control left last, step (.blank .berlin) context frame reached = .ok (control, left) last →
        left.gas.used = 3 + 2600 := by
  let env : Environment Unit := .blank .berlin
  obtain ⟨warmed, warms⟩ : ∃ warmed,
      warmUp (warmFromStart env lookingMessage) (Host.start .empty ()) = .ok () warmed := ⟨_, rfl⟩
  have looks : looksUp env 0xbb (enter env lookingMessage (topLevelKind lookingMessage) 0 warmed) := by
    cases warms
    decide +kernel
  obtain ⟨context, start, opened, frame, reached, enters, turns, idle, used, next, address⟩ :=
    of_looksUp looks
  have history := History.goOn (.start warms enters) turns
  have untouched : warmed.view.claimed lookingMessage env.fork ++ context.touches env.fork start = [] := by
    rw [idle]
    rfl
  rw [untouched] at history
  refine ⟨context, frame, reached, [], history, next, address, ?_⟩
  intro control left last steps
  have first := runMessage_chargesFirst env lookingMessage 0 .empty () (by decide) (by decide)
  have touches : .address 0xbb ∈ (Operation.inspect .balance).touches env.fork context frame := by
    rw [← address]
    exact List.mem_singleton_self _
  have charged := first.cold history next touches List.not_mem_nil (by decide +kernel) (by decide) steps
  rw [← used]
  exact charged

end Evm
