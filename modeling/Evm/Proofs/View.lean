import Evm.Execution
import Mathlib.Logic.Function.Basic

/-!
# What a host shows

A view is all that code can read of a host. In a world that is in order every access is served,
and an operation of the host is told by the view it leaves and the changes it notes.
-/

namespace Evm

open Function

section Sequence

variable {ε τ α β : Type} {state after : τ}

theorem bind_eq_ok {action : EStateM ε τ α} {next : α → EStateM ε τ β} {value : β} :
    (action >>= next) state = .ok value after ↔
      ∃ middle between, action state = .ok middle between ∧ next middle between = .ok value after := by
  simp only [bind, EStateM.bind]
  cases action state <;> simp [and_assoc]

theorem bind_of_ok {action : EStateM ε τ α} {next : α → EStateM ε τ β} {value : α}
    (done : action state = .ok value after) : (action >>= next) state = next value after := by
  simp only [bind, EStateM.bind, done]

theorem of_run {action : EStateM ε τ α} {post : α → τ → Prop} {value : α}
    (runs : action state = .ok value after)
    (known : ∃ value after, action state = .ok value after ∧ post value after) :
    post value after := by
  obtain ⟨_, _, runs', holds⟩ := known
  rw [runs] at runs'
  cases runs'
  exact holds

theorem of_run_value {action : EStateM ε τ α} {post : τ → Prop} {value given : α}
    (runs : action state = .ok given after)
    (known : ∃ after, action state = .ok value after ∧ post after) : given = value ∧ post after := by
  obtain ⟨_, runs', holds⟩ := known
  rw [runs] at runs'
  cases runs'
  exact ⟨rfl, holds⟩

theorem modify_run (change : τ → τ) (state : τ) :
    (modify change : EStateM ε τ PUnit) state = .ok ⟨⟩ (change state) := rfl

theorem run'_eq_some {action : EStateM ε τ α} {value : α} :
    action.run' state = some value ↔ ∃ after, action state = .ok value after := by
  unfold EStateM.run'
  constructor
  · intro gives
    split at gives
    · cases gives
      exact ⟨_, ‹_›⟩
    · cases gives
  · rintro ⟨after, runs⟩
    rw [EStateM.run, runs]

end Sequence

/-- Pushes the byte after it. -/
def Operation.pushByte : Operation := .push ⟨1, by decide⟩

def Stack.ofWords (words : List Word) : Stack := ⟨words, words.length, rfl⟩

def Environment.blank (fork : Fork) : Environment Unit where
  fork := fork
  block := .blank
  transaction := ⟨0, 0⟩
  curve := ⟨fun _ => #[], fun _ => #[], fun _ => #[]⟩
  tracer := .off

namespace World

variable {world : World} {address : Address}

def InOrder (world : World) : Prop :=
  ∀ count access address, world.fails count access address = false

theorem empty_inOrder : World.empty.InOrder := fun _ _ _ => rfl

@[simp] theorem entry_empty (address : Address) : World.empty.entry address = .blank :=
  Std.HashMap.getD_empty

@[simp] theorem entry_setEntry (world : World) (address other : Address) (entry : Entry) :
    (world.setEntry address entry).entry other =
      if address = other then entry else world.entry other := by
  simp [setEntry, World.entry, Std.HashMap.getD_insert]

@[simp] theorem entry_tick (world : World) (address : Address) :
    world.tick.entry address = world.entry address := rfl

theorem check_inOrder (inOrder : world.InOrder) (access : Access) (address : Address) :
    world.check access address = .ok () := by
  simp [check, inOrder 0 access address]

theorem fails_tick (world : World) (count : Nat) (access : Access) (address : Address) :
    world.tick.fails count access address = world.fails (count + 1) access address :=
  Option.any_map

theorem InOrder.setEntry (inOrder : world.InOrder) (address : Address) (entry : Entry) :
    (world.setEntry address entry).InOrder := inOrder

/-- No access leaves a mark on a world that serves all of them. -/
theorem InOrder.tick (inOrder : world.InOrder) : world.tick = world := by
  obtain ⟨entries, isDown⟩ := world
  cases isDown with
  | none => rfl
  | some isDown =>
    have never : isDown = fun _ _ _ => false := by
      funext count access address
      simpa [fails] using inOrder count access address
    rw [never]
    rfl

end World

namespace Entry

variable (entry : Entry) (key value : Word)

@[simp] theorem slot_put (other : Word) :
    (entry.put key value).slot other = if key = other then value else entry.slot other := by
  unfold slot put
  split
  · simp [Std.HashMap.getD_erase, *]
  · simp [Std.HashMap.getD_insert]

@[simp] theorem account_put : (entry.put key value).account = entry.account := rfl

@[simp] theorem code_put : (entry.put key value).code = entry.code := rfl

end Entry

namespace Store

variable {store : Store}

theorem tick_of_inOrder (inOrder : store.world.InOrder) : store.tick = store := by
  rw [Store.tick, inOrder.tick]

theorem get_run (inOrder : store.world.InOrder) (address : Address) (key : Word) :
    ∃ after, Store.get address key store = .ok ((store.world.entry address).slot key) after ∧
      after.world = store.world := by
  have reads : Store.read (fun world => world.storage address key) store =
      .ok ((store.world.entry address).slot key) store := by
    simp [Store.read, tick_of_inOrder inOrder, World.storage, World.check_inOrder inOrder, bind,
      Except.bind, pure, Except.pure]
  unfold Store.get
  rw [bind_of_ok reads]
  exact ⟨_, rfl, rfl⟩

theorem initial_run (inOrder : store.world.InOrder) (address : Address) (key : Word) :
    ∃ value after, Store.initial address key store = .ok value after ∧
      after.world = store.world := by
  have starts : (getThe Store : Action Store) store = .ok store store := rfl
  unfold Store.initial
  rw [bind_of_ok starts]
  cases store.initials[(address, key)]? with
  | some value => exact ⟨value, store, rfl, rfl⟩
  | none =>
    obtain ⟨after, reads, same⟩ := get_run inOrder address key
    exact ⟨_, after, reads, same⟩

theorem put_run (inOrder : store.world.InOrder) (address : Address) (key value : Word) :
    ∃ after, Store.put address key value store = .ok () after ∧
      after.world =
        store.world.setEntry address ((store.world.entry address).put key value) := by
  obtain ⟨_, between, reads, same⟩ := initial_run inOrder address key
  refine ⟨⟨store.world.setEntry address _, between.initials⟩, ?_, rfl⟩
  unfold Store.put
  rw [bind_of_ok reads]
  simp [Store.write, World.putStorage, same, World.check_inOrder inOrder,
    (inOrder.setEntry address _).tick, bind, Except.bind, pure, Except.pure]

end Store

/-- All that can be read of a host. -/
@[ext] structure View where
  account : Address → Account
  code : Address → Bytes
  slot : Address × Word → Word
  transient : Address × Word → Word
  isWarm : Address → Bool
  isWarmSlot : Address × Word → Bool

namespace View

def setAccount (view : View) (address : Address) (account : Account) : View :=
  { view with account := update view.account address account }

def setCode (view : View) (address : Address) (code : Bytes) : View :=
  { view with code := update view.code address code }

def setSlot (view : View) (place : Address × Word) (value : Word) : View :=
  { view with slot := update view.slot place value }

def setTransient (view : View) (place : Address × Word) (value : Word) : View :=
  { view with transient := update view.transient place value }

def setWarm (view : View) (address : Address) (warm : Bool) : View :=
  { view with isWarm := update view.isWarm address warm }

def setWarmSlot (view : View) (place : Address × Word) (warm : Bool) : View :=
  { view with isWarmSlot := update view.isWarmSlot place warm }

end View

namespace Host

variable {σ α β : Type} {host after last : Host σ}

def view (host : Host σ) : View where
  account address := (host.store.world.entry address).account
  code address := (host.store.world.entry address).code
  slot place := (host.store.world.entry place.1).slot place.2
  transient place := host.transient.getD place 0
  isWarm address := host.warmAddresses.contains address
  isWarmSlot place := host.warmSlots.contains place

def InOrder (host : Host σ) : Prop := host.store.world.InOrder

/-- What lies between two hosts: what the later one shows, and what was noted in between. -/
structure Move (host : Host σ) (view : View) (noted : List Change) (after : Host σ) : Prop where
  view_eq : after.view = view
  journal_eq : after.journal.toList = host.journal.toList ++ noted
  isDown_eq : after.store.world.isDown = host.store.world.isDown

namespace Move

variable {view : View} {noted : List Change}

theorem refl (host : Host σ) : host.Move host.view [] host := ⟨rfl, by simp, rfl⟩

theorem inOrder (move : host.Move view noted after) (inOrder : host.InOrder) : after.InOrder := by
  intro count access address
  rw [World.fails, move.isDown_eq]
  exact inOrder count access address

theorem trans {later : View} {more : List Change} (first : host.Move view noted after)
    (second : after.Move later more last) : host.Move later (noted ++ more) last where
  view_eq := second.view_eq
  journal_eq := by rw [second.journal_eq, first.journal_eq, List.append_assoc]
  isDown_eq := second.isDown_eq.trans first.isDown_eq

end Move

theorem onStore_run {action : Store.Action α} {value : α} {store : Store}
    (done : action host.store = .ok value store) :
    onStore action host = .ok value { host with store } := by
  simp [onStore, done]

theorem move_of_world_eq {store : Store} (same : store.world = host.store.world) :
    host.Move host.view [] { host with store } := by
  refine ⟨?_, by simp, ?_⟩ <;> simp [view, same]

theorem account_run (inOrder : host.InOrder) (address : Address) :
    Host.account address host = .ok (host.view.account address) host := by
  simp [Host.account, onStore, Store.account, Store.read, Store.tick_of_inOrder inOrder,
    World.account, World.check_inOrder inOrder, view, bind, Except.bind, pure, Except.pure]

theorem code_run (inOrder : host.InOrder) (address : Address) :
    Host.code address host = .ok (host.view.code address) host := by
  simp [Host.code, onStore, Store.code, Store.read, Store.tick_of_inOrder inOrder,
    World.code, World.check_inOrder inOrder, view, bind, Except.bind, pure, Except.pure]

theorem slot_run (inOrder : host.InOrder) (address : Address) (key : Word) :
    ∃ after, Host.slot address key host = .ok (host.view.slot (address, key)) after ∧
      host.Move host.view [] after := by
  obtain ⟨store, reads, same⟩ := Store.get_run inOrder address key
  exact ⟨_, onStore_run reads, move_of_world_eq same⟩

theorem initialSlot_run (inOrder : host.InOrder) (address : Address) (key : Word) :
    ∃ value after, Host.initialSlot address key host = .ok value after ∧
      host.Move host.view [] after := by
  obtain ⟨value, store, reads, same⟩ := Store.initial_run inOrder address key
  exact ⟨value, _, onStore_run reads, move_of_world_eq same⟩

theorem transientSlot_run (host : Host σ) (address : Address) (key : Word) :
    Host.transientSlot address key host = .ok (host.view.transient (address, key)) host := rfl

theorem view_setEntry (host : Host σ) (address : Address) (entry : Entry) {store : Store}
    (replaced : store.world = host.store.world.setEntry address entry) :
    view { host with store } =
      { host.view with
        account := update host.view.account address entry.account
        code := update host.view.code address entry.code
        slot := fun place =>
          if place.1 = address then entry.slot place.2 else host.view.slot place } := by
  apply View.ext
  all_goals funext place
  all_goals simp only [view, replaced, World.entry_setEntry, update_apply, eq_comm]
  all_goals split <;> simp_all

theorem move_setEntry (host : Host σ) {address : Address} {entry : Entry} {store : Store}
    (replaced : store.world = host.store.world.setEntry address entry) {view : View}
    (shows : Host.view { host with store } = view) : host.Move view [] { host with store } := by
  refine ⟨shows, by simp, ?_⟩
  simp [replaced, World.setEntry]

theorem storePutAccount_run (inOrder : host.InOrder) (address : Address) (account : Account) :
    ∃ after, onStore (Store.putAccount address account) host = .ok () after ∧
      host.Move (host.view.setAccount address account) [] after := by
  let entry := host.store.world.entry address
  have writes : Store.putAccount address account host.store =
      .ok () ⟨host.store.world.setEntry address { entry with account }, host.store.initials⟩ := by
    simp [Store.putAccount, Store.write, World.putAccount, World.check_inOrder inOrder,
      (World.InOrder.setEntry inOrder address _).tick, bind, Except.bind, pure, Except.pure, entry]
  refine ⟨_, onStore_run writes, move_setEntry host rfl ?_⟩
  rw [view_setEntry host address _ rfl, View.setAccount]
  apply View.ext <;> try simp [entry, view]
  funext place
  split <;> simp_all [Entry.slot]

theorem storePutCode_run (inOrder : host.InOrder) (address : Address) (code : Bytes) :
    ∃ after, onStore (Store.putCode address code) host = .ok () after ∧
      host.Move (host.view.setCode address code) [] after := by
  let entry := host.store.world.entry address
  have writes : Store.putCode address code host.store =
      .ok () ⟨host.store.world.setEntry address { entry with code }, host.store.initials⟩ := by
    simp [Store.putCode, Store.write, World.putCode, World.check_inOrder inOrder,
      (World.InOrder.setEntry inOrder address _).tick, bind, Except.bind, pure, Except.pure, entry]
  refine ⟨_, onStore_run writes, move_setEntry host rfl ?_⟩
  rw [view_setEntry host address _ rfl, View.setCode]
  apply View.ext <;> try simp [entry, view]
  funext place
  split <;> simp_all [Entry.slot]

theorem storePut_run (inOrder : host.InOrder) (address : Address) (key value : Word) :
    ∃ after, onStore (Store.put address key value) host = .ok () after ∧
      host.Move (host.view.setSlot (address, key) value) [] after := by
  obtain ⟨store, writes, replaced⟩ := Store.put_run inOrder address key value
  refine ⟨_, onStore_run writes, move_setEntry host replaced ?_⟩
  rw [view_setEntry host address _ replaced, View.setSlot]
  apply View.ext <;> try simp [view]
  funext ⟨other, place⟩
  simp only [update_apply, Prod.mk.injEq]
  split <;> simp_all [eq_comm]

theorem setTransient_run (host : Host σ) (address : Address) (key value : Word) :
    ∃ after, Host.setTransient address key value host = .ok () after ∧
      host.Move (host.view.setTransient (address, key) value) [] after := by
  refine ⟨_, rfl, ?_, by simp, rfl⟩
  apply View.ext <;> try rfl
  funext place
  simp only [view, View.setTransient, update_apply]
  by_cases same : place = (address, key)
  · subst same
    split <;> simp_all
  · have differs : ((address, key) == place) = false := by simpa using Ne.symm same
    rw [if_neg same]
    split <;> simp [Std.HashMap.getD_erase, Std.HashMap.getD_insert, differs]

theorem note_run (host : Host σ) (change : Change) :
    ∃ after, Host.note change host = .ok () after ∧ host.Move host.view [change] after ∧
      after.InOrder = host.InOrder :=
  ⟨_, rfl, ⟨rfl, by simp, rfl⟩, rfl⟩

theorem putAccount_run (inOrder : host.InOrder) (address : Address) (account : Account) :
    ∃ after, Host.putAccount address account host = .ok () after ∧
      host.Move (host.view.setAccount address account)
        [.account address (host.view.account address)] after := by
  obtain ⟨noted, notes, move, order⟩ := note_run host (.account address (host.view.account address))
  obtain ⟨after, writes, move'⟩ := storePutAccount_run (order ▸ inOrder) address account
  refine ⟨after, ?_, ?_⟩
  · unfold Host.putAccount
    rw [bind_of_ok (account_run inOrder address), bind_of_ok notes, writes]
  · simpa [move.view_eq] using move.trans move'

theorem putCode_run (inOrder : host.InOrder) (address : Address) (code : Bytes) :
    ∃ after, Host.putCode address code host = .ok () after ∧
      host.Move (host.view.setCode address code)
        [.code address (host.view.code address)] after := by
  obtain ⟨noted, notes, move, order⟩ := note_run host (.code address (host.view.code address))
  obtain ⟨after, writes, move'⟩ := storePutCode_run (order ▸ inOrder) address code
  refine ⟨after, ?_, ?_⟩
  · unfold Host.putCode
    rw [bind_of_ok (code_run inOrder address), bind_of_ok notes, writes]
  · simpa [move.view_eq] using move.trans move'

theorem putSlot_run (inOrder : host.InOrder) (address : Address) (key value : Word) :
    ∃ after, Host.putSlot address key value host = .ok () after ∧
      host.Move (host.view.setSlot (address, key) value)
        [.storage address key (host.view.slot (address, key))] after := by
  obtain ⟨read, reads, move⟩ := slot_run inOrder address key
  obtain ⟨noted, notes, move', order⟩ :=
    note_run read (.storage address key (host.view.slot (address, key)))
  obtain ⟨after, writes, move''⟩ := storePut_run (order ▸ move.inOrder inOrder) address key value
  refine ⟨after, ?_, ?_⟩
  · unfold Host.putSlot
    rw [bind_of_ok reads, bind_of_ok notes, writes]
  · simpa [move.view_eq, move'.view_eq] using (move.trans move').trans move''

theorem putTransient_run (host : Host σ) (address : Address) (key value : Word) :
    ∃ after, Host.putTransient address key value host = .ok () after ∧
      host.Move (host.view.setTransient (address, key) value)
        [.transient address key (host.view.transient (address, key))] after := by
  obtain ⟨written, writes, move⟩ := setTransient_run host address key value
  obtain ⟨after, notes, move', -⟩ :=
    note_run written (.transient address key (host.view.transient (address, key)))
  refine ⟨after, ?_, ?_⟩
  · unfold Host.putTransient
    rw [bind_of_ok (transientSlot_run host address key), bind_of_ok writes, notes]
  · simpa [move.view_eq] using move.trans move'

theorem touchAddress_run (host : Host σ) (address : Address) :
    ∃ after, Host.touchAddress address host = .ok (!host.view.isWarm address) after ∧
      host.Move (host.view.setWarm address true)
        (if host.view.isWarm address then [] else [.warmAddress address]) after := by
  have starts : (get : HostM σ (Host σ)) host = .ok host host := rfl
  unfold Host.touchAddress
  rw [bind_of_ok starts]
  by_cases warm : host.view.isWarm address
  · have contained : host.warmAddresses.contains address = true := warm
    refine ⟨host, by simp [contained, warm, pure, EStateM.pure], ?_, by simp [warm], rfl⟩
    rw [View.setWarm, ← warm, update_eq_self]
  · have absent : host.warmAddresses.contains address = false := by simpa [view] using warm
    simp only [absent, warm, Bool.false_eq_true, if_false, Bool.not_false]
    refine ⟨_, rfl, ?_, by simp, rfl⟩
    apply View.ext <;> try rfl
    funext other
    by_cases same : other = address
    · simp [view, View.setWarm, same]
    · simp [view, View.setWarm, same, Ne.symm same]

theorem touchSlot_run (host : Host σ) (address : Address) (key : Word) :
    ∃ after, Host.touchSlot address key host = .ok (!host.view.isWarmSlot (address, key)) after ∧
      host.Move (host.view.setWarmSlot (address, key) true)
        (if host.view.isWarmSlot (address, key) then [] else [.warmSlot address key]) after := by
  have starts : (get : HostM σ (Host σ)) host = .ok host host := rfl
  unfold Host.touchSlot
  rw [bind_of_ok starts]
  by_cases warm : host.view.isWarmSlot (address, key)
  · have contained : host.warmSlots.contains (address, key) = true := warm
    refine ⟨host, by simp [contained, warm, pure, EStateM.pure], ?_, by simp [warm], rfl⟩
    rw [View.setWarmSlot, ← warm, update_eq_self]
  · have absent : host.warmSlots.contains (address, key) = false := by simpa [view] using warm
    simp only [absent, warm, Bool.false_eq_true, if_false, Bool.not_false]
    refine ⟨_, rfl, ?_, by simp, rfl⟩
    apply View.ext <;> try rfl
    funext other
    by_cases same : other = (address, key)
    · simp [view, View.setWarmSlot, same]
    · simp [view, View.setWarmSlot, same, Ne.symm same]

end Host

end Evm
