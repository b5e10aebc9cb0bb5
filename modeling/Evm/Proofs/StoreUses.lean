import Evm.Proofs.Writes

/-!
# Uses of a store

A store can be asked for slots, accounts and code, be told to change them, and have messages run on
it, in any order. It always tells what a slot held when the store was made, whether or not the slot
was read before it was written to.
-/

namespace Evm

open Execution

variable {σ : Type}

namespace Store

variable {store between after : Store} {early late : List Write}

def slot (store : Store) (place : Address × Word) : Word := (store.world.entry place.1).slot place.2

theorem initial_tells (inOrder : store.world.InOrder) (address : Address) (key : Word) :
    ∃ after, Store.initial address key store = .ok (store.first (address, key)) after ∧
      after.world = store.world := by
  obtain ⟨value, after, reads, same⟩ := initial_run inOrder address key
  obtain ⟨rfl, _⟩ := initial_first reads
  exact ⟨after, reads, same⟩

theorem first_ofWorld (world : World) : (ofWorld world).first = (ofWorld world).slot :=
  funext fun _ => Std.HashMap.getD_empty

/-- What lies between two stores: the writes that are left at the later one. What slots held at
first is the same for both. -/
structure Leaves (store : Store) (writes : List Write) (after : Store) : Prop where
  slot_eq : after.slot = afterWrites store.slot writes
  first_eq : after.first = store.first
  isDown_eq : after.world.isDown = store.world.isDown

namespace Leaves

theorem refl (store : Store) : store.Leaves [] store := ⟨rfl, rfl, rfl⟩

theorem trans (one : store.Leaves early between) (two : between.Leaves late after) :
    store.Leaves (early ++ late) after where
  slot_eq := by rw [two.slot_eq, one.slot_eq, afterWrites_append]
  first_eq := two.first_eq.trans one.first_eq
  isDown_eq := two.isDown_eq.trans one.isDown_eq

theorem inOrder (leaves : store.Leaves early after) (inOrder : store.world.InOrder) :
    after.world.InOrder := by
  intro count access address
  rw [World.fails, leaves.isDown_eq]
  exact inOrder count access address

theorem of_world_eq (same : after.world = store.world) (known : after.first = store.first) :
    store.Leaves [] after :=
  ⟨by funext place; rw [slot, same]; rfl, known, by rw [same]⟩

theorem setEntry {address : Address} {entry : Entry}
    (same : entry.storage = (store.world.entry address).storage) :
    store.Leaves [] { store with world := store.world.setEntry address entry } := by
  have slots (place : Address × Word) :
      ((store.world.setEntry address entry).entry place.1).slot place.2 =
        (store.world.entry place.1).slot place.2 := by
    rw [World.entry_setEntry]
    split
    · rw [← ‹address = place.1›, Entry.slot, same, Entry.slot]
    · rfl
  refine ⟨funext slots, ?_, rfl⟩
  funext place
  simp only [first, slots]

end Leaves

inductive Request where
  | initial (address : Address) (key : Word)
  | get (address : Address) (key : Word)
  | put (address : Address) (key value : Word)
  | account (address : Address)
  | putAccount (address : Address) (account : Account)
  | code (address : Address)
  | putCode (address : Address) (code : Bytes)

namespace Request

def act : Request → Action Unit
  | .initial address key => discard (Store.initial address key)
  | .get address key => discard (Store.get address key)
  | .put address key value => Store.put address key value
  | .account address => discard (Store.account address)
  | .putAccount address new => Store.putAccount address new
  | .code address => discard (Store.code address)
  | .putCode address new => Store.putCode address new

def writes : Request → List Write
  | .put address key value => [⟨(address, key), value⟩]
  | _ => []

theorem discard_ok {α : Type} {action : Action α} {value : α}
    (runs : action store = .ok value after) :
    (discard action : Action Unit) store = .ok () after := by
  simp only [discard, Functor.mapConst, Function.comp_def, EStateM.map, runs]

theorem act_leaves (request : Request) (inOrder : store.world.InOrder) :
    ∃ after, request.act store = .ok () after ∧ store.Leaves request.writes after := by
  cases request with
  | initial address key =>
    obtain ⟨_, after, reads, same⟩ := initial_run inOrder address key
    exact ⟨after, discard_ok reads, .of_world_eq same (initial_first reads).2.1⟩
  | get address key =>
    obtain ⟨after, reads, same⟩ := get_run inOrder address key
    exact ⟨after, discard_ok reads, .of_world_eq same (get_first reads).2.1⟩
  | put address key value =>
    obtain ⟨after, puts, replaced⟩ := put_run inOrder address key value
    refine ⟨after, puts, ?_, put_first puts, by rw [replaced]; rfl⟩
    funext place
    rw [slot, replaced, World.entry_setEntry, writes, afterWrites, List.foldl_cons, List.foldl_nil,
      Function.update_apply]
    by_cases same : address = place.1
    · rw [if_pos same, Entry.slot_put, same]
      simp only [Prod.ext_iff, true_and, eq_comm, slot]
    · rw [if_neg same, if_neg fun found => same (congrArg Prod.fst found).symm, slot]
  | account address =>
    have reads : Store.account address store = .ok (store.world.entry address).account store := by
      simp [Store.account, Store.read, tick_of_inOrder inOrder, World.account,
        World.check_inOrder inOrder, bind, Except.bind, pure, Except.pure]
    exact ⟨store, discard_ok reads, .refl store⟩
  | putAccount address new =>
    let entry := { store.world.entry address with account := new }
    refine ⟨{ store with world := store.world.setEntry address entry }, ?_, .setEntry rfl⟩
    simp [act, Store.putAccount, Store.write, World.putAccount, World.check_inOrder inOrder,
      (inOrder.setEntry address _).tick, bind, Except.bind, pure, Except.pure, entry]
  | code address =>
    have reads : Store.code address store = .ok (store.world.entry address).code store := by
      simp [Store.code, Store.read, tick_of_inOrder inOrder, World.code,
        World.check_inOrder inOrder, bind, Except.bind, pure, Except.pure]
    exact ⟨store, discard_ok reads, .refl store⟩
  | putCode address new =>
    let entry := { store.world.entry address with code := new }
    refine ⟨{ store with world := store.world.setEntry address entry }, ?_, .setEntry rfl⟩
    simp [act, Store.putCode, Store.write, World.putCode, World.check_inOrder inOrder,
      (inOrder.setEntry address _).tick, bind, Except.bind, pure, Except.pure, entry]

end Request

end Store

inductive Use (σ : Type) where
  | ask (request : Store.Request)
  | run (env : Environment σ) (host : Host σ) (message : Message) (pc : Nat)
    (bounded : message.gasLimit < machineLimit) (fits : ¬message.Overflows env.fork)

def Use.act : Use σ → Store.Action Unit
  | .ask request => request.act
  | .run env host message pc _ _ => fun store =>
    match runMessage env message pc { host with store } with
    | .ok _ after => .ok () after.store
    | .error failure after => .error failure after.store

/-- What a use makes of a store, and the writes that are left of it. -/
inductive Use.Wrote : Use σ → Store → List Write → Store → Prop where
  | ask {request store after} :
    request.act store = .ok () after → Wrote (.ask request) store request.writes after
  | run {env host message pc bounded fits store result after writes} :
    runMessage env message pc { host with store } = .ok result after →
    RunWrites env message pc { host with store } result after writes →
    Wrote (.run env host message pc bounded fits) store writes after.store

inductive Uses : List (Use σ) → Store → List Write → Store → Prop where
  | nothing (store : Store) : Uses [] store [] store
  | next {use rest store between after early late} :
    use.Wrote store early between → Uses rest between late after →
    Uses (use :: rest) store (early ++ late) after

theorem Use.wrote (use : Use σ) {store : Store} (inOrder : store.world.InOrder) :
    ∃ writes after, use.Wrote store writes after ∧ store.Leaves writes after := by
  cases use with
  | ask request =>
    obtain ⟨after, acts, leaves⟩ := request.act_leaves inOrder
    exact ⟨_, after, .ask acts, leaves⟩
  | run env host message pc bounded fits =>
    obtain ⟨result, after, writes, leaves⟩ :=
      runMessage_leaves env message pc { host with store } inOrder bounded fits
    exact ⟨writes, after.store, .run leaves.runs leaves.left, leaves.slot_eq, leaves.first_eq,
      leaves.isDown_eq⟩

theorem Use.Wrote.acts {use : Use σ} {store after : Store} {writes : List Write}
    (wrote : use.Wrote store writes after) : use.act store = .ok () after := by
  cases wrote with
  | ask acts => exact acts
  | run runs _ =>
    unfold Use.act
    simp only [runs]

theorem Use.Wrote.unique {use : Use σ} {store after last : Store} {writes others : List Write}
    (one : use.Wrote store writes after) (other : use.Wrote store others last) :
    others = writes ∧ last = after := by
  cases one with
  | ask acts =>
    cases other with
    | ask acts' =>
      cases acts.symm.trans acts'
      exact ⟨rfl, rfl⟩
  | run _ left =>
    cases other with
    | run _ left' =>
      obtain ⟨_, rfl, rfl⟩ := left.unique left'
      exact ⟨rfl, rfl⟩

namespace Uses

theorem run (uses : List (Use σ)) {store : Store} (inOrder : store.world.InOrder) :
    ∃ writes after, Uses uses store writes after ∧ store.Leaves writes after := by
  induction uses generalizing store with
  | nil => exact ⟨[], store, .nothing store, .refl store⟩
  | cons use rest ih =>
    obtain ⟨early, between, wrote, leaves⟩ := use.wrote inOrder
    obtain ⟨late, after, others, leaves'⟩ := ih (leaves.inOrder inOrder)
    exact ⟨_, after, .next wrote others, leaves.trans leaves'⟩

theorem acts {uses : List (Use σ)} {store after : Store} {writes : List Write}
    (made : Uses uses store writes after) : uses.forM Use.act store = .ok () after := by
  induction made with
  | nothing => rfl
  | next wrote _ ih =>
    rw [List.forM_eq_forM, List.forM_cons, bind_of_ok wrote.acts]
    exact ih

theorem unique {uses : List (Use σ)} {store after last : Store} {writes others : List Write}
    (one : Uses uses store writes after) (other : Uses uses store others last) :
    others = writes ∧ last = after := by
  induction one generalizing others with
  | nothing =>
    cases other
    exact ⟨rfl, rfl⟩
  | next wrote _ ih =>
    cases other with
    | next wrote' rest' =>
      obtain ⟨rfl, rfl⟩ := wrote.unique wrote'
      obtain ⟨rfl, rfl⟩ := ih rest'
      exact ⟨rfl, rfl⟩

end Uses

theorem Execution.Reaches.leaves {env : Environment σ} {message : Message} {pc : Nat}
    {host reached : Host σ} {execution : Execution} (inOrder : host.InOrder)
    (reaches : Reaches env message pc host execution reached) :
    reached.InOrder ∧ reached.store.first = host.store.first := by
  obtain ⟨warmed, opening, opened, warms, enters, passes⟩ := reaches
  have same : warmed.store = host.store := by
    cases warms
    rfl
  have warmedInOrder : warmed.InOrder := by rwa [Host.InOrder, same]
  have law := View.conserves_law env.fork
  have began := law.stands_of_begun (.outermost (law.follows_refl warmed))
    (law.enter_begun warmedInOrder enters)
  have follows := law.follows_of_stands (law.passes_stands warmedInOrder began passes)
  have recalls : opened.Recalls host.store.first :=
    recalls_of_enter (by rw [Host.Recalls, same]) enters
  have twins : opened.Twins (Store.Recalls host.store.first) (fun _ => True) opened :=
    ⟨⟨rfl, recalls⟩, rfl, trivial⟩
  obtain ⟨_, _, twins'⟩ := passes_mirrors Store.matching_recalls (fun _ _ _ => trivial) twins passes
  exact ⟨follows.extend.inOrder warmedInOrder, twins'.store.2⟩

/-- What a store tells of slots, after uses of it that have left these writes. The world is the one
that the store was made for. -/
structure Store.Remembers (world : World) (writes : List Write) (store : Store) : Prop where
  /-- At first a slot held what it held when the store was made. -/
  initial : ∀ address key, ∃ after,
    Store.initial address key store = .ok ((world.entry address).slot key) after ∧
      after.world = store.world
  /-- A slot holds what was written last to it and not undone. -/
  get : ∀ address key, ∃ after,
    Store.get address key store =
        .ok ((lastWritten? writes (address, key)).getD ((world.entry address).slot key)) after ∧
      after.world = store.world
  /-- In the middle of one more message the first values are still told. -/
  during : ∀ {σ : Type} {env : Environment σ} {message : Message} {pc : Nat} {host reached : Host σ}
    {execution : Execution}, host.store = store → Reaches env message pc host execution reached →
    ∀ address key, ∃ after,
      Store.initial address key reached.store = .ok ((world.entry address).slot key) after ∧
        after.world = reached.store.world

/-- However a store is used, it tells what slots held when it was made, and what was written last to
them, by a request or by a frame that was not undone. Neither question changes the world. -/
theorem uses_remember {world : World} (inOrder : world.InOrder) (uses : List (Use σ)) :
    ∃ writes store, uses.forM Use.act (.ofWorld world) = .ok () store ∧
      (∀ others last, Uses uses (.ofWorld world) others last ↔ others = writes ∧ last = store) ∧
      store.Remembers world writes := by
  have served : (Store.ofWorld world).world.InOrder := inOrder
  obtain ⟨writes, store, made, leaves⟩ := Uses.run uses served
  have storeInOrder := leaves.inOrder served
  have first_eq : store.first = (Store.ofWorld world).slot :=
    leaves.first_eq.trans (Store.first_ofWorld world)
  refine ⟨writes, store, made.acts, fun others last => ⟨made.unique, ?_⟩, ?_, ?_, ?_⟩
  · rintro ⟨rfl, rfl⟩
    exact made
  · intro address key
    obtain ⟨after, reads, same⟩ := Store.initial_tells storeInOrder address key
    rw [first_eq] at reads
    exact ⟨after, reads, same⟩
  · intro address key
    obtain ⟨after, reads, same⟩ := Store.get_run storeInOrder address key
    have holds := congrFun leaves.slot_eq (address, key)
    rw [afterWrites_eq] at holds
    rw [show (store.world.entry address).slot key = _ from holds] at reads
    exact ⟨after, reads, same⟩
  · rintro σ env message pc host reached execution rfl reaches address key
    obtain ⟨reachedInOrder, known⟩ := reaches.leaves storeInOrder
    obtain ⟨after, reads, same⟩ := Store.initial_tells reachedInOrder address key
    rw [known, first_eq] at reads
    exact ⟨after, reads, same⟩

/-- Code that puts nine into slot five and reverts. -/
def undoneMessage : Message :=
  { Message.blank with
    target := some 0xaa
    gasLimit := 30000
    code := #[0x60, 9, 0x60, 5, 0x55, 0x60, 0, 0x60, 0, 0xfd] }

def undoneUses : List (Use Unit) :=
  [.run (.blank .cancun) (Host.start .empty ()) undoneMessage 0 (by decide)
      (Message.not_overflows_of_gasLimit (by decide)),
    .ask (.put 0xaa 5 7)]

theorem uses_remember_undone : ∃ store, undoneUses.forM Use.act (.ofWorld .empty) = .ok () store ∧
    (∃ after, Store.initial 0xaa 5 store = .ok 0 after) ∧
    ∃ after, Store.get 0xaa 5 store = .ok 7 after := by
  obtain ⟨writes, store, acts, made, remembers⟩ := uses_remember World.empty_inOrder undoneUses
  have uses := (made writes store).mpr ⟨rfl, rfl⟩
  have last : lastWritten? writes (0xaa, 5) = some 7 := by
    cases uses with
    | next _ rest =>
      cases rest with
      | next wrote rest =>
        cases wrote
        cases rest
        simp [lastWritten?, Store.Request.writes]
  have first : (World.empty.entry 0xaa).slot 5 = 0 := by
    simp [World.empty, World.entry, Entry.slot, Entry.blank]
  obtain ⟨initial, tells, _⟩ := remembers.initial 0xaa 5
  obtain ⟨present, gets, _⟩ := remembers.get 0xaa 5
  rw [first] at tells
  rw [last] at gets
  exact ⟨store, acts, ⟨initial, tells⟩, present, gets⟩

end Evm
