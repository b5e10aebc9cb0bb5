import Evm.Proofs.Touches

/-!
# Warmth

What is warm at any point of a run is what was warm when it started, and what frames have touched that
were not undone since. The touches of a frame are kept with it; they go over to the frame below when
it succeeds, and are dropped when it fails.
-/

namespace Evm

open Execution

variable {σ : Type} {env : Environment σ} {message : Message} {pc : Nat} {host : Host σ}

namespace Execution

def Opening.live : Opening → List (List Touch) → List (List Touch)
  | .frame _ _, outer => [] :: outer
  | .result _, outer => outer

/-- A state that a message from outside passes through, with what its frames have touched that were
not undone, innermost frame first and last what is outside of all frames. The target of a call and
the address of a creation are touched by the frame that asks. -/
inductive Live (env : Environment σ) (message : Message) (pc : Nat) (host : Host σ) :
    Execution → Host σ → List (List Touch) → Prop where
  | start {warmed opening opened} :
    warmUp (warmFromStart env message) host = .ok () warmed →
    enter env message (topLevelKind message) pc warmed = .ok opening opened →
    Live env message pc host (ofOpening opening []) opened
      (opening.live [warmed.view.claimed message env.fork])
  | goOn {context frame waiting reached next after live outer} :
    Live env message pc host (.running context frame waiting) reached (live :: outer) →
    turn env context frame reached = .ok (.goOn next) after →
    Live env message pc host (.running context next waiting) after
      ((live ++ context.touches env.fork frame) :: outer)
  | finish {context frame waiting reached ended turned result after live below outer} :
    Live env message pc host (.running context frame waiting) reached (live :: below :: outer) →
    turn env context frame reached = .ok (.finish ended) turned →
    conclude env context ended turned = .ok result after →
    Live env message pc host (.returning result waiting) after
      ((below ++ if result.isSuccess then live ++ context.touches env.fork frame else []) :: outer)
  | ask {context frame waiting reached nested asking asked opening opened live outer} :
    Live env message pc host (.running context frame waiting) reached (live :: outer) →
    turn env context frame reached = .ok (.ask nested asking) asked →
    enter env nested.message nested.kind 0 asked = .ok opening opened →
    Live env message pc host (ofOpening opening (⟨context, asking, nested.resumption⟩ :: waiting))
      opened (opening.live ((live ++ context.touches env.fork frame ++
        asked.view.claimed nested.message env.fork) :: outer))
  | resume {result suspended waiting reached next after live} :
    Live env message pc host (.returning result (suspended :: waiting)) reached live →
    resume env suspended result reached = .ok next after →
    Live env message pc host (.running suspended.context next waiting) after live

inductive Awaits (seeded : Host σ) : Prop → List Suspended → Host σ → List (List Touch) → Prop where
  | outermost {fails host live} :
    seeded.Extends host → seeded.view.Adds live host.view → Awaits seeded fails [] host [live]
  | nested {fails suspended waiting start opened before host live outer} :
    Awaits seeded True waiting start outer →
    Anchors suspended.context start opened → opened.Extends before →
    Marks suspended.resumption.receiver before → before.Extends host →
    start.view.Adds live host.view →
    (fails → suspended.resumption.receiver ≠ .create → start.view.Adds live before.view) →
    Awaits seeded fails (suspended :: waiting) host (live :: outer)

/-- A state of the execution, with the hosts that its frames come back to. -/
def Stands (seeded : Host σ) : Execution → Host σ → List (List Touch) → Prop
  | .running context _ waiting, host, touches => ∃ live outer start opened, touches = live :: outer ∧
    Awaits seeded True waiting start outer ∧ Anchors context start opened ∧ opened.Extends host ∧
    start.view.Adds live host.view
  | .returning result waiting, host, touches =>
    Awaits seeded (result.isSuccess = false) waiting host touches

variable {seeded start opened before asked after : Host σ} {context : Context}
  {frame next : Frame} {waiting : List Suspended} {live more : List Touch}
  {outer : List (List Touch)} {fails : Prop}

namespace Awaits

theorem extend (awaits : Awaits seeded fails waiting host outer) : seeded.Extends host := by
  induction awaits with
  | outermost extend => exact extend
  | nested _ anchors opened _ before _ _ ih =>
    exact ih.trans (anchors.extend.trans (opened.trans before))

theorem adds (awaits : Awaits seeded fails waiting host outer) :
    seeded.view.Adds outer.flatten host.view := by
  induction awaits with
  | outermost _ adds => simpa using adds
  | nested _ _ _ _ _ adds _ ih =>
    intro touch
    rw [(ih.trans adds) touch, List.flatten_cons, List.mem_append, List.mem_append,
      Or.comm (b := touch ∈ _)]

theorem later (awaits : Awaits seeded True waiting host (live :: outer))
    (extend : host.Extends after) (adds : host.view.Adds more after.view)
    (idle : fails → more = []) : Awaits seeded fails waiting after ((live ++ more) :: outer) := by
  cases awaits with
  | outermost extend' adds' => exact .outermost (extend'.trans extend) (adds'.trans adds)
  | nested rest anchors opened marks before adds' marked =>
    refine .nested rest anchors opened marks (before.trans extend) (adds'.trans adds) ?_
    intro failed calls
    rw [idle failed, List.append_nil]
    exact marked trivial calls

end Awaits

theorem stands_opening {kind : MessageKind} {opening : Opening} (inOrder : asked.InOrder)
    (awaits : ∀ {after : Host σ} {fails : Prop}, asked.Extends after →
      asked.view.Adds (asked.view.claimed message env.fork) after.view →
      Awaits seeded fails waiting after outer)
    (enters : enter env message kind pc asked = .ok opening after) :
    Stands seeded (ofOpening opening waiting) after (opening.live outer) := by
  have claims := asked.view.claimed_adds message env.fork
  cases opening with
  | frame context frame =>
    obtain ⟨_, start, spends, anchors, alike⟩ := enter_opens inOrder enters
    rw [← spends.view_eq] at claims
    exact ⟨[], outer, start, after, rfl, awaits spends.extends claims, anchors, .refl after,
      .of_alike alike⟩
  | result result =>
    obtain ⟨shows, _⟩ := enter_opens inOrder enters
    obtain ⟨extend, _⟩ := started_of_enter inOrder enters
    rw [← shows] at claims
    exact awaits extend claims

namespace Stands

theorem extend {execution : Execution} (stands : Stands seeded execution host outer) :
    seeded.Extends host := by
  cases execution with
  | running context frame waiting =>
    obtain ⟨_, _, _, _, _, awaits, anchors, extend, _⟩ := stands
    exact awaits.extend.trans (anchors.extend.trans extend)
  | returning result waiting => exact Awaits.extend stands

theorem adds {execution : Execution} (stands : Stands seeded execution host outer) :
    seeded.view.Adds outer.flatten host.view := by
  cases execution with
  | running context frame waiting =>
    obtain ⟨live, outer, _, _, rfl, awaits, _, _, adds⟩ := stands
    intro touch
    rw [(awaits.adds.trans adds) touch, List.flatten_cons, List.mem_append, List.mem_append,
      Or.comm (b := touch ∈ _)]
  | returning result waiting => exact Awaits.adds stands

theorem goOn (inOrder : seeded.InOrder)
    (stands : Stands seeded (.running context frame waiting) host (live :: outer))
    (turns : turn env context frame host = .ok (.goOn next) after) :
    Stands seeded (.running context next waiting) after
      ((live ++ context.touches env.fork frame) :: outer) := by
  have hostInOrder := stands.extend.inOrder inOrder
  obtain ⟨_, _, start, opened, ⟨⟩, awaits, anchors, extend, adds⟩ := stands
  have touched := (context.deed_adds env.fork frame host.view).alike (turn_goOn_deed hostInOrder turns)
  exact ⟨_, _, start, opened, rfl, awaits, anchors, extend.trans (turn_extends hostInOrder turns),
    adds.trans touched⟩

/-- A frame that succeeds hands its touches to the frame below; one that fails has none. -/
theorem finish {ended result : Result} {turned : Host σ} {below : List Touch}
    (inOrder : seeded.InOrder)
    (stands : Stands seeded (.running context frame waiting) host (live :: below :: outer))
    (turns : turn env context frame host = .ok (.finish ended) turned)
    (concludes : conclude env context ended turned = .ok result after) :
    Stands seeded (.returning result waiting) after
      ((below ++ if result.isSuccess then live ++ context.touches env.fork frame else []) ::
        outer) := by
  have hostInOrder := stands.extend.inOrder inOrder
  obtain ⟨_, _, start, opened, ⟨⟩, awaits, anchors, extend, adds⟩ := stands
  have extend' := extend.trans (turn_extends hostInOrder turns)
  have openedInOrder := anchors.extend.inOrder (awaits.extend.inOrder inOrder)
  obtain ⟨ends, undone, _⟩ := of_run concludes
    (conclude_run env anchors extend' openedInOrder (deploys_of_conclude concludes))
  refine awaits.later ends ?_ (by simp +contextual)
  cases success : result.isSuccess with
  | false =>
    rw [if_neg (by decide), (undone success).view_eq]
    exact .refl _
  | true =>
    obtain ⟨succeeds, kept⟩ := conclude_alike anchors extend' openedInOrder success concludes
    have touched := (context.deed_adds env.fork frame host.view).alike
      (turn_finish_deed hostInOrder succeeds turns)
    rw [if_pos rfl]
    exact (adds.trans touched).alike kept

theorem ask {nested : NestedCall} {asking : Frame} {opening : Opening} (inOrder : seeded.InOrder)
    (stands : Stands seeded (.running context frame waiting) host (live :: outer))
    (turns : turn env context frame host = .ok (.ask nested asking) asked)
    (enters : enter env nested.message nested.kind 0 asked = .ok opening after) :
    Stands seeded (ofOpening opening (⟨context, asking, nested.resumption⟩ :: waiting)) after
      (opening.live ((live ++ context.touches env.fork frame ++
        asked.view.claimed nested.message env.fork) :: outer)) := by
  have hostInOrder := stands.extend.inOrder inOrder
  obtain ⟨_, _, start, opened, ⟨⟩, awaits, anchors, extend, adds⟩ := stands
  obtain ⟨before, first, second, marks, made⟩ := turn_marks hostInOrder turns
  have touches := context.deed_adds env.fork frame host.view
  have touched := adds.trans (touches.alike (turn_ask_deed hostInOrder turns))
  refine stands_opening (second.inOrder (first.inOrder hostInOrder)) ?_ enters
  intro after fails entered claims
  refine .nested awaits anchors (extend.trans first) marks (second.trans entered)
    (touched.trans claims) ?_
  -- A call claims no address, so its mark knows all that was touched.
  intro _ calls
  obtain ⟨_, _, _, _, plain, _⟩ | ⟨_, _, _, creates, _⟩ := made
  · have none : asked.view.claimed nested.message env.fork = [] := by
      simp [View.claimed, View.HasNonce, plain]
    rw [none, List.append_nil]
    exact adds.trans (touches.alike (turn_ask_marked hostInOrder turns marks second calls))
  · exact absurd creates calls

theorem resume {result : Result} {suspended : Suspended} (inOrder : seeded.InOrder)
    (stands : Stands seeded (.returning result (suspended :: waiting)) host outer)
    (resumes : resume env suspended result host = .ok next after) :
    Stands seeded (.running suspended.context next waiting) after outer := by
  cases stands with
  | @nested _ _ _ start opened before _ live outer awaits anchors extend marks sent adds marked =>
    have startInOrder := awaits.extend.inOrder inOrder
    have beforeInOrder := extend.inOrder (anchors.extend.inOrder startInOrder)
    obtain ⟨kept, undone⟩ := of_run resumes
      (resume_run env result marks (fits_of_resume resumes) sent beforeInOrder)
    refine ⟨live, outer, start, opened, rfl, awaits, anchors, ?_⟩
    by_cases keeps : result.isSuccess ∨ suspended.resumption.receiver = .create
    · have move := kept keeps
      refine ⟨extend.trans (sent.trans move.extends_of_same), ?_⟩
      rw [move.view_eq]
      exact adds
    · obtain ⟨failed, calls⟩ := not_or.mp keeps
      have failed' : result.isSuccess = false := by simpa using failed
      have move := undone failed' calls
      refine ⟨extend.trans move.extends_of_same, ?_⟩
      rw [move.view_eq]
      exact marked failed' calls

end Stands

def levels : Execution → Nat
  | .running _ _ waiting => waiting.length + 2
  | .returning _ waiting => waiting.length + 1

namespace Live

variable {execution : Execution} {reached : Host σ} {touches : List (List Touch)}

theorem length_eq (lives : Live env message pc host execution reached touches) :
    touches.length = execution.levels := by
  induction lives with
  | @start _ opening _ _ _ => cases opening <;> rfl
  | goOn _ _ ih => exact ih
  | finish _ _ _ ih => exact Nat.succ.inj ih
  | @ask _ _ _ _ _ _ _ opening _ _ _ _ _ _ ih =>
    cases opening with
    | frame context frame => exact congrArg Nat.succ ih
    | result result => exact ih
  | resume _ _ ih => exact ih

theorem layers {context : Context} {frame : Frame} {waiting : List Suspended}
    (lives : Live env message pc host (.running context frame waiting) reached touches) :
    ∃ live below outer, touches = live :: below :: outer := by
  match touches, lives.length_eq with
  | live :: below :: outer, _ => exact ⟨live, below, outer, rfl⟩

theorem advance {next : Execution} {after : Host σ}
    (lives : Live env message pc host execution reached touches)
    (moves : advance env execution reached = .ok next after) :
    ∃ later, Live env message pc host next after later := by
  cases moves_of_advance moves with
  | goOn turns =>
    obtain ⟨live, below, outer, rfl⟩ := lives.layers
    exact ⟨_, .goOn lives turns⟩
  | finish turns concludes =>
    obtain ⟨live, below, outer, rfl⟩ := lives.layers
    exact ⟨_, .finish lives turns concludes⟩
  | ask turns enters =>
    obtain ⟨live, below, outer, rfl⟩ := lives.layers
    exact ⟨_, .ask lives turns enters⟩
  | resume resumes => exact ⟨_, .resume lives resumes⟩
  | rest => exact ⟨_, lives⟩

theorem stands {warmed : Host σ} (inOrder : warmed.InOrder)
    (warms : warmUp (warmFromStart env message) host = .ok () warmed)
    (lives : Live env message pc host execution reached touches) :
    Stands warmed execution reached touches := by
  induction lives with
  | start warms' enters =>
    rw [warms] at warms'
    cases warms'
    exact stands_opening inOrder .outermost enters
  | goOn _ turns ih => exact ih.goOn inOrder turns
  | finish _ turns concludes ih => exact ih.finish inOrder turns concludes
  | ask _ turns enters ih => exact ih.ask inOrder turns enters
  | resume _ resumes ih => exact ih.resume inOrder resumes

theorem repaired (lives : Live env message pc host execution reached touches) :
    Live env message pc host.repaired execution reached.repaired touches := by
  induction lives with
  | @start warmed _ _ warms enters =>
    have warms' : warmUp (warmFromStart env message) host.repaired = .ok () warmed.repaired := by
      cases warms
      rfl
    have starts := Live.start warms' (enter_repaired enters)
    exact starts
  | goOn _ turns ih => exact .goOn ih (turn_repaired turns)
  | finish _ turns concludes ih =>
    exact .finish ih (turn_repaired turns) (conclude_repaired concludes)
  | ask _ turns enters ih =>
    have asks := Live.ask ih (turn_repaired turns) (enter_repaired enters)
    exact asks
  | resume _ resumes ih => exact .resume ih (resume_repaired resumes)

theorem reaches (lives : Live env message pc host execution reached touches) :
    Reaches env message pc host execution reached := by
  induction lives with
  | start warms enters => exact ⟨_, _, _, warms, enters, .stay⟩
  | goOn _ turns ih => exact ih.advance List.nil_suffix (Moves.goOn turns).advances
  | finish _ turns concludes ih =>
    exact ih.advance List.nil_suffix (Moves.finish turns concludes).advances
  | ask _ turns enters ih => exact ih.advance List.nil_suffix (Moves.ask turns enters).advances
  | resume _ resumes ih =>
    exact ih.advance ⟨_, _, rfl, List.nil_suffix⟩ (Moves.resume resumes).advances

theorem idle (unlisted : env.fork.hasAccessLists = false)
    (lives : Live env message pc host execution reached touches) : touches.flatten = [] := by
  have untouched : ∀ touch, env.fork.touched touch = [] := by simp [Fork.touched, unlisted]
  have unclaimed : ∀ (view : View) message, view.claimed message env.fork = [] := by
    simp [View.claimed, untouched]
  have still : ∀ (context : Context) frame, context.touches env.fork frame = [] := by
    intro context frame
    unfold Context.touches
    split
    · unfold Operation.touches
      split <;> simp [untouched]
    · rfl
  induction lives with
  | @start _ opening _ _ _ => cases opening <;> simp [Opening.live, unclaimed]
  | goOn _ _ ih => simpa [still] using ih
  | finish _ _ _ ih =>
    simp only [List.flatten_cons, List.append_eq_nil_iff] at ih
    simp [still, ih]
  | @ask _ _ _ _ _ _ _ opening _ _ _ _ _ _ ih =>
    cases opening <;> simpa [Opening.live, still, unclaimed] using ih
  | resume _ _ ih => exact ih

end Live

theorem Reaches.lives {execution : Execution} {reached : Host σ}
    (reaches : Reaches env message pc host execution reached) :
    ∃ touches, Live env message pc host execution reached touches := by
  refine reaches.always (fun warms enters => ⟨_, .start warms enters⟩) ?_
  rintro _ _ _ _ _ _ moves ⟨_, lives⟩
  exact lives.advance moves

end Execution

def Host.Seeded (env : Environment σ) (message : Message) (host : Host σ) : Touch → Prop
  | .address address => address ∈ host.warmAddresses ∨ address ∈ warmFromStart env message
  | .slot place => place ∈ host.warmSlots

theorem Host.seeded_iff {warmed : Host σ} {touch : Touch}
    (warms : warmUp (warmFromStart env message) host = .ok () warmed) :
    warmed.view.warm touch ↔ host.Seeded env message touch := by
  cases warms
  cases touch with
  | address address =>
    simp [View.warm, Host.view, Seeded, Std.HashSet.contains_insertMany_list]
  | slot place => simp [View.warm, Host.view, Seeded]

theorem Execution.Live.warm_iff {execution : Execution} {reached : Host σ}
    {touches : List (List Touch)} (lives : Live env message pc host execution reached touches)
    (touch : Touch) :
    reached.view.warm touch ↔ host.Seeded env message touch ∨ touch ∈ touches.flatten := by
  obtain ⟨warmed, warms, inOrder⟩ := warmUp_run (warmFromStart env message) host.repaired_inOrder
  have stands := lives.repaired.stands inOrder warms
  rw [← reached.view_repaired, stands.adds touch, Host.seeded_iff warms]
  cases touch <;> rfl

/-- A host that runs under one fork have left, from a fresh one on. -/
inductive Host.Served (fork : Fork) : Host σ → Prop where
  | start (world : World) (trace : σ) : Served fork (.start world trace)
  | run {env message pc host result after} : env.fork = fork → Served fork host →
    runMessage env message pc host = .ok result after → Served fork after

theorem Execution.Reaches.warm_iff {execution : Execution} {reached : Host σ}
    (unlisted : env.fork.hasAccessLists = false)
    (reaches : Reaches env message pc host execution reached) (touch : Touch) :
    reached.view.warm touch ↔ host.view.warm touch := by
  obtain ⟨touches, lives⟩ := reaches.lives
  rw [lives.warm_iff touch, lives.idle unlisted]
  cases touch <;> simp [Host.Seeded, warmFromStart, unlisted, View.warm, Host.view]

theorem Host.Served.cold {fork : Fork} (unlisted : fork.hasAccessLists = false)
    (served : host.Served fork) (touch : Touch) : host.view.warm touch = false := by
  induction served with
  | start world trace => cases touch <;> simp [View.warm, Host.view, Host.start]
  | run same _ runs ih =>
    subst same
    rw [Bool.eq_false_iff, ne_eq, (reaches_of_run runs).warm_iff unlisted, ih]
    decide

/-- What is warm at any point of a run, and what that makes an access cost. -/
structure Warms (env : Environment σ) (message : Message) (pc : Nat) (host : Host σ) : Prop where
  lives : ∀ {execution reached}, Reaches env message pc host execution reached →
    ∃ touches, Live env message pc host execution reached touches
  addresses : ∀ {execution reached touches},
    Live env message pc host execution reached touches → ∀ address,
    address ∈ reached.warmAddresses ↔
      (address ∈ host.warmAddresses ∨ address ∈ warmFromStart env message) ∨
        .address address ∈ touches.flatten
  slots : ∀ {execution reached touches},
    Live env message pc host execution reached touches → ∀ place,
    place ∈ reached.warmSlots ↔ place ∈ host.warmSlots ∨ .slot place ∈ touches.flatten
  /-- An access is charged as cold if what it touches is not among these, and as warm if it is. -/
  charges : env.fork.hasAccessLists → ∀ {context frame waiting reached touches},
    Live env message pc host (.running context frame waiting) reached touches →
    ∀ {operation touch control left last}, context.operation? env.fork frame = some operation →
    touch ∈ operation.touches env.fork context frame →
    step env context frame reached = .ok (control, left) last →
    ∃ access, operation.Charged env.fork context frame left reached control.given access ∧
      (access = operation.coldFee env.fork ↔
        ¬ (host.Seeded env message touch ∨ touch ∈ touches.flatten)) ∧
      (access = operation.warmFee env.fork ↔
        host.Seeded env message touch ∨ touch ∈ touches.flatten)
  early : env.fork.hasAccessLists = false → host.Served env.fork → ∀ {execution reached},
    Reaches env message pc host execution reached →
    reached.warmAddresses.isEmpty ∧ reached.warmSlots.isEmpty

/-- The sets of a run are exact at every point of it, on any host. -/
theorem runMessage_warms (env : Environment σ) (message : Message) (pc : Nat) (host : Host σ)
    (bounded : message.gasLimit < machineLimit) : Warms env message pc host where
  lives reaches := reaches.lives
  addresses lives address := lives.warm_iff (.address address)
  slots lives place := lives.warm_iff (.slot place)
  charges := by
    intro lists context frame waiting reached touches lives operation touch control left last next
      member steps
    obtain ⟨_, _, holds⟩ :=
      lives.repaired.reaches.holds host.repaired_inOrder bounded List.nil_suffix
    have charged := step_charged lists holds.inOrder holds.sound next member (step_repaired steps)
    have differ := Operation.coldFee_ne_warmFee lists member
    rw [← lives.warm_iff touch]
    refine ⟨if reached.view.warm touch then operation.warmFee env.fork
      else operation.coldFee env.fork, charged, ?_⟩
    cases reached.view.warm touch with
    | true => simp [differ.symm]
    | false => simp [differ]
  early := by
    intro unlisted served execution reached reaches
    have cold : ∀ touch, reached.view.warm touch = false := by
      intro touch
      rw [Bool.eq_false_iff, ne_eq, reaches.warm_iff unlisted, served.cold unlisted]
      decide
    constructor
    · exact Std.HashSet.isEmpty_iff_forall_contains.mpr fun address => cold (.address address)
    · exact Std.HashSet.isEmpty_iff_forall_contains.mpr fun place => cold (.slot place)

def lookingMessage : Message :=
  { Message.blank with target := some 0xaa, gasLimit := 5000, code := #[0x60, 0xbb, 0x31] }

theorem runMessage_warms_looking : ∃ result after touches,
    runMessage (.blank .berlin) lookingMessage 0 (Host.start .empty ()) = .ok result after ∧
      Live (.blank .berlin) lookingMessage 0 (Host.start .empty ()) (.returning result []) after
        touches ∧
      ∀ address, address ∈ after.warmAddresses ↔
        address ∈ warmFromStart (.blank .berlin) lookingMessage ∨
          .address address ∈ touches.flatten := by
  obtain ⟨result, after, runs⟩ := runMessage_run (.blank .berlin) lookingMessage 0
    (Host.start .empty ()) World.empty_inOrder (by decide)
    (Message.not_overflows_of_gasLimit (by decide))
  have warms := runMessage_warms (.blank .berlin) lookingMessage 0 (Host.start .empty ())
    (by decide)
  obtain ⟨touches, lives⟩ := warms.lives (reaches_of_run runs)
  refine ⟨result, after, touches, runs, lives, fun address => ?_⟩
  rw [warms.addresses lives address]
  simp [Host.start]

end Evm
