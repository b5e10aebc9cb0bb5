import Evm.Proofs.Steps

/-!
# Comparisons

When two actions do the same: on hosts that are alike they end with results that agree, or by the same
cause, and leave hosts that are alike again. How alike stores and traces have to be is left open, and
so is whether a failure counts. Actions on stores compare as the accesses to their worlds do, the
operations of hosts as the actions on their stores, and sequences as their parts.
-/

namespace Evm

variable {σ τ α β γ δ : Type}

/-- Two actions end with results that agree, or stopped by the same cause, in states that match. Of
an excused cause nothing is said. -/
inductive Ends {ε s t : Type} (excused : ε → Prop) (states : s → t → Prop) (agree : α → β → Prop) :
    EStateM.Result ε s α → EStateM.Result ε t β → Prop where
  | ok {value other after last} : agree value other → states after last →
    Ends excused states agree (.ok value after) (.ok other last)
  | error {cause after last} : states after last →
    Ends excused states agree (.error cause after) (.error cause last)
  | excuse {cause after other} : excused cause → Ends excused states agree (.error cause after) other

namespace Ends

variable {ε s t : Type} {excused : ε → Prop} {states : s → t → Prop} {agree : α → β → Prop}

theorem bind {agree' : γ → δ → Prop} {action : EStateM ε s α} {other : EStateM ε t β}
    {next : α → EStateM ε s γ} {next' : β → EStateM ε t δ} {host : s} {twin : t}
    (first : Ends excused states agree (action host) (other twin))
    (rest : ∀ value value' after last, agree value value' → states after last →
      Ends excused states agree' (next value after) (next' value' last)) :
    Ends excused states agree' ((action >>= next) host) ((other >>= next') twin) := by
  show Ends _ _ _ (EStateM.bind action next host) (EStateM.bind other next' twin)
  unfold EStateM.bind
  generalize action host = one at first
  generalize other twin = two at first
  cases first with
  | ok agrees matched => exact rest _ _ _ _ agrees matched
  | error matched => exact .error matched
  | excuse excused => exact .excuse excused

theorem mono {agree' : α → β → Prop} {one : EStateM.Result ε s α} {two : EStateM.Result ε t β}
    (ends : Ends excused states agree one two)
    (weaker : ∀ value value', agree value value' → agree' value value') :
    Ends excused states agree' one two := by
  cases ends with
  | ok agrees matched => exact .ok (weaker _ _ agrees) matched
  | error matched => exact .error matched
  | excuse excused => exact .excuse excused

theorem of_ok {other : EStateM.Result ε t α} {value : α} {after : s}
    (ends : Ends excused states Eq (.ok value after) other) :
    ∃ last, other = .ok value last ∧ states after last := by
  cases ends with
  | ok agrees matched =>
    subst agrees
    exact ⟨_, rfl, matched⟩

end Ends

inductive EndAlike {ε s t : Type} (states : s → t → Prop) :
    EStateM.Result ε s α → EStateM.Result ε t α → Prop where
  | ok {value after last} : states after last → EndAlike states (.ok value after) (.ok value last)
  | error {cause after last} : states after last →
    EndAlike states (.error cause after) (.error cause last)

def Store.Matches (strict : Prop) (like : Store → Store → Prop) (action : Action α) : Prop :=
  ∀ ⦃store twin : Store⦄, like store twin →
    Ends (fun _ => ¬ strict) like Eq (action store) (action twin)

/-- A likeness of stores that every action on a store keeps. -/
structure Store.Matching (strict : Prop) (like : Store → Store → Prop) : Prop where
  account : ∀ address, Matches strict like (Store.account address)
  putAccount : ∀ address account, Matches strict like (Store.putAccount address account)
  code : ∀ address, Matches strict like (Store.code address)
  putCode : ∀ address code, Matches strict like (Store.putCode address code)
  get : ∀ address key, Matches strict like (Store.get address key)
  initial : ∀ address key, Matches strict like (Store.initial address key)
  put : ∀ address key value, Matches strict like (Store.put address key value)

theorem Store.matching_eq (strict : Prop) : Store.Matching strict Eq := by
  have same {β : Type} (action : Action β) : Store.Matches strict Eq action := by
    rintro store _ rfl
    cases action store with
    | ok value after => exact .ok rfl rfl
    | error failure after => exact .error rfl
  constructor <;> intros <;> exact same _

structure Entry.ReadsAs (entry twin : Entry) : Prop where
  account : twin.account = entry.account
  code : twin.code = entry.code
  slot : ∀ key, twin.slot key = entry.slot key

namespace Entry.ReadsAs

variable {entry twin : Entry}

theorem refl (entry : Entry) : entry.ReadsAs entry := ⟨rfl, rfl, fun _ => rfl⟩

theorem put (reads : entry.ReadsAs twin) (key value : Word) :
    (entry.put key value).ReadsAs (twin.put key value) := by
  refine ⟨reads.account, reads.code, fun other => ?_⟩
  rw [Entry.slot_put, Entry.slot_put, reads.slot other]

end Entry.ReadsAs

/-- A likeness of worlds that reading does not break and writing keeps. Where failures do not count,
the second world may serve an access that the first one does not. -/
structure World.Matching (strict : Prop) (like : World → World → Prop) : Prop where
  check : ∀ {world twin}, like world twin → ∀ access address,
    twin.check access address = world.check access address ∨
      ¬ strict ∧ ∃ failure, world.check access address = .error failure
  entry : ∀ {world twin}, like world twin → ∀ address,
    (world.entry address).ReadsAs (twin.entry address)
  change : ∀ {world twin}, like world twin → ∀ address {change : Entry → Entry},
    (∀ {entry other : Entry}, entry.ReadsAs other → (change entry).ReadsAs (change other)) →
    like (world.setEntry address (change (world.entry address)))
      (twin.setEntry address (change (twin.entry address)))
  tick : ∀ {world twin}, like world twin → like world.tick twin.tick

structure Store.Over (like : World → World → Prop) (store twin : Store) : Prop where
  world : like store.world twin.world
  initials_eq : twin.initials = store.initials

namespace World.Matching

variable {strict : Prop} {like : World → World → Prop} (matching : World.Matching strict like)

include matching

theorem ticked {store twin : Store} (alike : Store.Over like store twin) :
    Store.Over like store.tick twin.tick :=
  ⟨matching.tick alike.world, alike.initials_eq⟩

theorem read (access : Access) (address : Address) (find : Entry → α)
    (same : ∀ {entry other : Entry}, entry.ReadsAs other → find other = find entry) :
    Store.Matches strict (Store.Over like) (Store.read fun world =>
      world.check access address >>= fun _ => pure (find (world.entry address))) := by
  intro store twin alike
  unfold Store.read
  dsimp only
  obtain checks | ⟨lax, failure, fails⟩ := matching.check alike.world access address
  · rw [checks, same (matching.entry alike.world address)]
    cases store.world.check access address with
    | ok served => exact .ok rfl (matching.ticked alike)
    | error failure => exact .error (matching.ticked alike)
  · rw [fails]
    exact .excuse lax

theorem write (access : Access) (address : Address) (change : Entry → Entry)
    (keeps : ∀ {entry other : Entry}, entry.ReadsAs other → (change entry).ReadsAs (change other)) :
    Store.Matches strict (Store.Over like) (Store.write fun world =>
      world.check access address >>= fun _ =>
        pure (world.setEntry address (change (world.entry address)))) := by
  intro store twin alike
  unfold Store.write
  dsimp only
  obtain checks | ⟨lax, failure, fails⟩ := matching.check alike.world access address
  · rw [checks]
    cases store.world.check access address with
    | ok served =>
      exact .ok rfl ⟨matching.tick (matching.change alike.world address keeps), alike.initials_eq⟩
    | error failure => exact .error (matching.ticked alike)
  · rw [fails]
    exact .excuse lax

theorem get (address : Address) (key : Word) :
    Store.Matches strict (Store.Over like) (Store.get address key) := by
  intro store twin alike
  apply (matching.read .storage address (·.slot key) (fun reads => reads.slot key) alike).bind
  rintro value _ after last rfl alike
  exact .ok rfl ⟨alike.world, congrArg (·.insertIfNew (address, key) value) alike.initials_eq⟩

theorem initial (address : Address) (key : Word) :
    Store.Matches strict (Store.Over like) (Store.initial address key) := by
  intro store twin alike
  have starts : ∀ store : Store, (getThe Store : Store.Action Store) store = .ok store store :=
    fun _ => rfl
  unfold Store.initial
  rw [bind_of_ok (starts _), bind_of_ok (starts _), alike.initials_eq]
  cases store.initials[(address, key)]? with
  | some value => exact .ok rfl alike
  | none => exact matching.get address key alike

theorem onStores : Store.Matching strict (Store.Over like) where
  account address := matching.read .account address (·.account) fun reads => reads.account
  putAccount address account :=
    matching.write .putAccount address ({ · with account }) fun reads =>
      { reads with account := rfl }
  code address := matching.read .code address (·.code) fun reads => reads.code
  putCode address code :=
    matching.write .putCode address ({ · with code }) fun reads => { reads with code := rfl }
  get := matching.get
  initial := matching.initial
  put address key value := by
    intro store twin alike
    apply (matching.initial address key alike).bind
    rintro _ _ after last - alike
    exact matching.write .putStorage address (·.put key value) (fun reads => reads.put key value) alike

end World.Matching

/-- How two runs are compared: which stores are alike, what is known of two traces, whether a
failure of the one has to be matched by the other, and whether their tracers are enabled together. -/
structure Comparison (σ τ : Type) where
  like : Store → Store → Prop
  tells : σ → τ → Prop
  strict : Prop
  together : Prop

namespace Comparison

variable (how : Comparison σ τ)

structure Hosts (host : Host σ) (twin : Host τ) : Prop where
  store : how.like host.store twin.store
  trace : how.tells host.trace twin.trace
  warmAddresses : twin.warmAddresses = host.warmAddresses
  warmSlots : twin.warmSlots = host.warmSlots
  transient : twin.transient = host.transient
  journal : twin.journal = host.journal

/-- Two tracers keep what is known of their traces: both when they are told the same, and, unless
they are enabled together, each by itself. -/
structure Tracers (tracer : Tracer σ) (other : Tracer τ) : Prop where
  both : ∀ {trace trace'} event, how.tells trace trace' →
    how.tells (tracer.record event trace) (other.record event trace')
  enabled : how.together → ∀ {trace trace'}, how.tells trace trace' →
    other.enabled trace' = tracer.enabled trace
  left : ¬how.together → ∀ {trace trace'} event, how.tells trace trace' →
    how.tells (tracer.record event trace) trace'
  right : ¬how.together → ∀ {trace trace'} event, how.tells trace trace' →
    how.tells trace (other.record event trace')

/-- What may stop an instruction without a match. -/
def excuses : Interrupt → Prop
  | .fault _ => False
  | .failure _ => ¬ how.strict

end Comparison

def HostM.Matches (how : Comparison σ τ) (agree : α → β → Prop) (action : HostM σ α)
    (other : HostM τ β) : Prop :=
  ∀ ⦃host : Host σ⦄ ⦃twin : Host τ⦄, how.Hosts host twin →
    Ends (fun _ => ¬ how.strict) how.Hosts agree (action host) (other twin)

namespace HostM.Matches

variable {how : Comparison σ τ} {agree : α → β → Prop}

theorem done {value : α} {other : β} (agrees : agree value other) :
    Matches how agree (pure value) (pure other) :=
  fun _ _ hosts => .ok agrees hosts

theorem same (value : α) : Matches how Eq (pure value) (pure value) := done rfl

theorem raise (failure : Failure) : Matches how agree (throw failure) (throw failure) :=
  fun _ _ hosts => .error hosts

theorem bindGiven {agree' : γ → δ → Prop} {action : HostM σ α} {other : HostM τ β}
    {next : α → HostM σ γ} {next' : β → HostM τ δ} (first : Matches how agree action other)
    (rest : ∀ value value', agree value value' → Matches how agree' (next value) (next' value')) :
    Matches how agree' (action >>= next) (other >>= next') :=
  fun _ _ hosts => (first hosts).bind fun _ _ _ _ agrees hosts' => rest _ _ agrees hosts'

theorem bind {agree' : γ → δ → Prop} {action : HostM σ α} {other : HostM τ α}
    {next : α → HostM σ γ} {next' : α → HostM τ δ} (first : Matches how Eq action other)
    (rest : ∀ value, Matches how agree' (next value) (next' value)) :
    Matches how agree' (action >>= next) (other >>= next') :=
  first.bindGiven fun value _ same => same ▸ rest value

theorem mono {agree' : α → β → Prop} {action : HostM σ α} {other : HostM τ β}
    (matched : Matches how agree action other)
    (weaker : ∀ value value', agree value value' → agree' value value') :
    Matches how agree' action other :=
  fun _ _ hosts => (matched hosts).mono weaker

theorem alike {states : Host σ → Host τ → Prop} {action : HostM σ α} {other : HostM τ α}
    (matched : Matches how Eq action other) (strict : how.strict)
    (shown : ∀ {host twin}, how.Hosts host twin ↔ states host twin) {host : Host σ} {twin : Host τ}
    (given : states host twin) : EndAlike states (action host) (other twin) := by
  have ends := matched (shown.mpr given)
  generalize action host = one at ends
  generalize other twin = two at ends
  cases ends with
  | ok same hosts =>
    subst same
    exact .ok (shown.mp hosts)
  | error hosts => exact .error (shown.mp hosts)
  | excuse excused => exact absurd strict excused

theorem reading {next : Host σ → HostM σ α} {next' : Host τ → HostM τ β}
    (rest : ∀ host twin, how.Hosts host twin → Matches how agree (next host) (next' twin)) :
    Matches how agree (get >>= next) (get >>= next') :=
  fun host twin hosts => rest host twin hosts hosts

theorem changing {change : Host σ → Host σ} {change' : Host τ → Host τ}
    (keeps : ∀ {host twin}, how.Hosts host twin → how.Hosts (change host) (change' twin)) :
    Matches how Eq (modify change : HostM σ PUnit) (modify change' : HostM τ PUnit) :=
  fun _ _ hosts => .ok rfl (keeps hosts)

theorem onStore {action : Store.Action α} (matched : Store.Matches how.strict how.like action) :
    Matches how Eq (Host.onStore action) (Host.onStore action) := by
  intro host twin hosts
  have ends := matched hosts.store
  unfold Host.onStore
  generalize action host.store = one at ends
  generalize action twin.store = two at ends
  cases ends with
  | ok agrees alike => exact .ok agrees { hosts with store := alike }
  | error alike => exact .error { hosts with store := alike }
  | excuse excused => exact .excuse excused

theorem note (change : Change) : Matches how Eq (Host.note change) (Host.note change) :=
  changing fun hosts => { hosts with journal := congrArg (·.push change) hosts.journal }

theorem setTransient (address : Address) (key value : Word) :
    Matches how Eq (Host.setTransient address key value) (Host.setTransient address key value) :=
  changing fun hosts => { hosts with transient := by simp only [hosts.transient] }

theorem transientSlot (address : Address) (key : Word) :
    Matches how Eq (Host.transientSlot address key) (Host.transientSlot address key) :=
  reading fun _ _ hosts => done (by rw [hosts.transient])

theorem putTransient (address : Address) (key value : Word) :
    Matches how Eq (Host.putTransient address key value) (Host.putTransient address key value) :=
  (transientSlot address key).bind fun _ => (setTransient address key value).bind fun _ => note _

theorem checkpoint : Matches how Eq Host.checkpoint Host.checkpoint :=
  reading fun _ _ hosts => done (by rw [hosts.journal])

theorem touchAddress (address : Address) :
    Matches how Eq (Host.touchAddress address) (Host.touchAddress address) := by
  apply reading
  intro host twin hosts
  rw [hosts.warmAddresses]
  split
  · exact same false
  · refine bind ?_ fun _ => (note _).bind fun _ => same true
    exact changing fun hosts =>
      { hosts with warmAddresses := congrArg (·.insert address) hosts.warmAddresses }

theorem touchSlot (address : Address) (key : Word) :
    Matches how Eq (Host.touchSlot address key) (Host.touchSlot address key) := by
  apply reading
  intro host twin hosts
  rw [hosts.warmSlots]
  split
  · exact same false
  · refine bind ?_ fun _ => (note _).bind fun _ => same true
    exact changing fun hosts =>
      { hosts with warmSlots := congrArg (·.insert (address, key)) hosts.warmSlots }

theorem accessAddress (fork : Fork) (address : Address) :
    Matches how Eq (Host.accessAddress fork address) (Host.accessAddress fork address) := by
  unfold Host.accessAddress
  split
  · refine (touchAddress address).bind fun cold => ?_
    split <;> exact same _
  · exact same 0

theorem accessCold (fork : Fork) (address : Address) :
    Matches how Eq (Host.accessCold fork address) (Host.accessCold fork address) := by
  unfold Host.accessCold
  split
  · refine (touchAddress address).bind fun cold => ?_
    split <;> exact same _
  · exact same 0

theorem accessSlot (fork : Fork) (address : Address) (key : Word) :
    Matches how Eq (Host.accessSlot fork address key) (Host.accessSlot fork address key) := by
  unfold Host.accessSlot
  split
  · refine (touchSlot address key).bind fun cold => ?_
    split <;> exact same _
  · exact same 0

theorem accessColdSlot (fork : Fork) (address : Address) (key : Word) :
    Matches how Eq (Host.accessColdSlot fork address key)
      (Host.accessColdSlot fork address key) := by
  unfold Host.accessColdSlot
  split
  · refine (touchSlot address key).bind fun cold => ?_
    split <;> exact same _
  · exact same 0

variable (matching : Store.Matching how.strict how.like)

include matching

theorem account (address : Address) :
    Matches how Eq (Host.account address) (Host.account address) :=
  onStore (matching.account address)

theorem code (address : Address) : Matches how Eq (Host.code address) (Host.code address) :=
  onStore (matching.code address)

theorem slot (address : Address) (key : Word) :
    Matches how Eq (Host.slot address key) (Host.slot address key) :=
  onStore (matching.get address key)

theorem initialSlot (address : Address) (key : Word) :
    Matches how Eq (Host.initialSlot address key) (Host.initialSlot address key) :=
  onStore (matching.initial address key)

theorem putAccount (address : Address) (account : Account) :
    Matches how Eq (Host.putAccount address account) (Host.putAccount address account) :=
  (Matches.account matching address).bind fun _ => (note _).bind fun _ =>
    onStore (matching.putAccount address account)

theorem putCode (address : Address) (code : Bytes) :
    Matches how Eq (Host.putCode address code) (Host.putCode address code) :=
  (Matches.code matching address).bind fun _ => (note _).bind fun _ =>
    onStore (matching.putCode address code)

theorem putSlot (address : Address) (key value : Word) :
    Matches how Eq (Host.putSlot address key value) (Host.putSlot address key value) :=
  (slot matching address key).bind fun _ => (note _).bind fun _ =>
    onStore (matching.put address key value)

theorem transfer (sender recipient : Address) (value : Word) :
    Matches how Eq (Host.transfer sender recipient value)
      (Host.transfer sender recipient value) := by
  unfold Host.transfer
  split
  · exact same true
  refine (account matching sender).bind fun payer => ?_
  split
  · exact same false
  split
  · exact same true
  refine (putAccount matching _ _).bind fun _ => ?_
  refine (account matching recipient).bind fun payee => ?_
  exact (putAccount matching _ _).bind fun _ => same true

theorem undo (change : Change) : Matches how Eq (Host.undo change) (Host.undo change) := by
  cases change with
  | account address previous => exact onStore (matching.putAccount address previous)
  | code address previous => exact onStore (matching.putCode address previous)
  | storage address key previous => exact onStore (matching.put address key previous)
  | transient address key previous => exact setTransient address key previous
  | warmAddress address =>
    exact changing fun hosts =>
      { hosts with warmAddresses := congrArg (·.erase address) hosts.warmAddresses }
  | warmSlot address key =>
    exact changing fun hosts =>
      { hosts with warmSlots := congrArg (·.erase (address, key)) hosts.warmSlots }

theorem undoAll (changes : List Change) :
    Matches how Eq (Host.undoAll changes) (Host.undoAll changes) := by
  induction changes with
  | nil => exact same ()
  | cons newest older ih => exact (undo matching newest).bind fun _ => ih

theorem rollback (checkpoint : Nat) :
    Matches how Eq (Host.rollback checkpoint) (Host.rollback checkpoint) := by
  apply reading
  intro host twin hosts
  rw [hosts.journal]
  refine bind ?_ fun _ => undoAll matching _
  exact changing fun hosts => { hosts with journal := rfl }

end HostM.Matches

def InstructionM.Matches (how : Comparison σ τ) (agree : α → β → Prop) (action : InstructionM σ α)
    (other : InstructionM τ β) : Prop :=
  ∀ (frame : Frame) ⦃host : Host σ⦄ ⦃twin : Host τ⦄, how.Hosts host twin →
    Ends how.excuses how.Hosts (fun given given' => agree given.1 given'.1 ∧ given'.2 = given.2)
      (action frame host) (other frame twin)

namespace InstructionM.Matches

variable {how : Comparison σ τ} {agree : α → β → Prop}

theorem done {value : α} {other : β} (agrees : agree value other) :
    Matches how agree (pure value) (pure other) :=
  fun _ _ _ hosts => .ok ⟨agrees, rfl⟩ hosts

theorem same (value : α) : Matches how Eq (pure value) (pure value) := done rfl

theorem current : Matches how Eq (get : InstructionM σ Frame) (get : InstructionM τ Frame) :=
  fun _ _ _ hosts => .ok ⟨rfl, rfl⟩ hosts

theorem update (change : Frame → Frame) :
    Matches how Eq (modify change : InstructionM σ PUnit) (modify change : InstructionM τ PUnit) :=
  fun _ _ _ hosts => .ok ⟨rfl, rfl⟩ hosts

theorem lift (action : FrameM α) :
    Matches how Eq (liftM action : InstructionM σ α) (liftM action : InstructionM τ α) := by
  intro frame host twin hosts
  rw [lift_run, lift_run]
  cases action frame with
  | ok given => exact .ok ⟨rfl, rfl⟩ hosts
  | error interrupt => exact .error hosts

theorem host {action : HostM σ α} {other : HostM τ β} (matched : HostM.Matches how agree action other) :
    Matches how agree (InstructionM.host action) (InstructionM.host other) := by
  intro frame host twin hosts
  have ends := matched hosts
  unfold InstructionM.host
  generalize action host = one at ends
  generalize other twin = two at ends
  cases ends with
  | ok agrees hosts' => exact .ok ⟨agrees, rfl⟩ hosts'
  | error hosts' => exact .error hosts'
  | excuse excused => exact .excuse excused

theorem bindGiven {agree' : γ → δ → Prop} {action : InstructionM σ α} {other : InstructionM τ β}
    {next : α → InstructionM σ γ} {next' : β → InstructionM τ δ}
    (first : Matches how agree action other)
    (rest : ∀ value value', agree value value' → Matches how agree' (next value) (next' value')) :
    Matches how agree' (action >>= next) (other >>= next') := by
  intro frame host twin hosts
  apply (first frame hosts).bind
  rintro ⟨value, _⟩ ⟨value', left⟩ _ _ ⟨agrees, rfl⟩ hosts'
  exact rest value value' agrees left hosts'

theorem bind {agree' : γ → δ → Prop} {action : InstructionM σ α} {other : InstructionM τ α}
    {next : α → InstructionM σ γ} {next' : α → InstructionM τ δ}
    (first : Matches how Eq action other)
    (rest : ∀ value, Matches how agree' (next value) (next' value)) :
    Matches how agree' (action >>= next) (other >>= next') :=
  first.bindGiven fun value _ same => same ▸ rest value

theorem mono {agree' : α → β → Prop} {action : InstructionM σ α} {other : InstructionM τ β}
    (matched : Matches how agree action other)
    (weaker : ∀ value value', agree value value' → agree' value value') :
    Matches how agree' action other := by
  intro frame host twin hosts
  exact (matched frame hosts).mono fun _ _ agrees => ⟨weaker _ _ agrees.1, agrees.2⟩

end InstructionM.Matches

end Evm
