import Evm.Proofs.Repair

/-!
# First values

The store remembers of a slot what it held before the first write. What is remembered, or what the
slot holds if nothing is, stays the same through a whole run, however much of it is undone.
-/

namespace Evm

variable {σ α : Type}

namespace Store

variable {store after : Store}

/-- What a slot held at first: what is remembered of it, or else what it holds. -/
def first (store : Store) (place : Address × Word) : Word :=
  store.initials.getD place ((store.world.entry place.1).slot place.2)

theorem first_tick (store : Store) : store.tick.first = store.first := rfl

theorem first_write {update : World → Except Failure World}
    (keeps : ∀ {world last : World} {place : Address × Word}, update world = .ok last →
      (last.entry place.1).slot place.2 = (world.entry place.1).slot place.2)
    (runs : Store.write update store = .ok () after) : after.first = store.first := by
  unfold Store.write at runs
  cases wrote : update store.world with
  | error failure =>
    simp only [wrote] at runs
    cases runs
  | ok world =>
    simp only [wrote] at runs
    cases runs
    funext place
    simp only [first, World.entry_tick, keeps wrote]

theorem read_ok {query : World → Except Failure α} {value : α}
    (runs : Store.read query store = .ok value after) :
    query store.world = .ok value ∧ after = store.tick := by
  unfold Store.read at runs
  cases found : query store.world with
  | error failure =>
    simp only [found] at runs
    cases runs
  | ok given =>
    simp only [found] at runs
    cases runs
    exact ⟨rfl, rfl⟩

theorem get_first {address : Address} {key value : Word}
    (runs : Store.get address key store = .ok value after) :
    value = (store.world.entry address).slot key ∧ after.first = store.first ∧
      (address, key) ∈ after.initials := by
  obtain ⟨_, _, reads, runs⟩ := bind_eq_ok.mp runs
  obtain ⟨found, rfl⟩ := read_ok reads
  cases World.of_check found
  cases runs
  refine ⟨rfl, ?_, by simp⟩
  funext place
  simp only [first, Store.tick, World.entry_tick, Std.HashMap.getD_insertIfNew]
  split
  · rename_i fresh
    obtain ⟨same, unknown⟩ := fresh
    obtain rfl : (address, key) = place := by simpa using same
    rw [Std.HashMap.getD_eq_fallback unknown]
  · rfl

theorem initial_first {address : Address} {key value : Word}
    (runs : Store.initial address key store = .ok value after) :
    value = store.first (address, key) ∧ after.first = store.first ∧
      (address, key) ∈ after.initials := by
  obtain ⟨_, _, ⟨⟩, runs⟩ := bind_eq_ok.mp runs
  cases known : store.initials[(address, key)]? with
  | some found =>
    simp only [known] at runs
    cases runs
    refine ⟨?_, rfl, ?_⟩
    · simp [first, Std.HashMap.getD_eq_getD_getElem?, known]
    · exact Std.HashMap.mem_iff_isSome_getElem?.mpr (by simp [known])
  | none =>
    simp only [known] at runs
    obtain ⟨rfl, kept, mem⟩ := get_first runs
    refine ⟨?_, kept, mem⟩
    simp [first, Std.HashMap.getD_eq_getD_getElem?, known]

theorem put_first {address : Address} {key value : Word}
    (runs : Store.put address key value store = .ok () after) : after.first = store.first := by
  obtain ⟨_, between, reads, writes⟩ := bind_eq_ok.mp runs
  obtain ⟨_, kept, mem⟩ := initial_first reads
  rw [← kept]
  unfold Store.write at writes
  cases wrote : between.world.putStorage address key value with
  | error failure =>
    simp only [wrote] at writes
    cases writes
  | ok world =>
    simp only [wrote] at writes
    cases writes
    cases World.of_check wrote
    funext place
    by_cases same : (address, key) = place
    · subst same
      simp only [first, Std.HashMap.getD_eq_getD_getElem?,
        Std.HashMap.getElem?_eq_some_getElem mem, Option.getD_some]
    · simp only [first, World.entry_tick, World.entry_setEntry]
      split
      · rename_i found
        rw [Entry.slot_put, if_neg, found]
        rintro rfl
        exact same (by rw [found])
      · rfl

/-- A store, next to itself, with the first values that it keeps. -/
def Recalls (initial : Address × Word → Word) (store twin : Store) : Prop :=
  twin = store ∧ store.first = initial

variable {initial : Address × Word → Word}

theorem Mirrors.recalling {action : Action α}
    (keeps : ∀ {store after : Store} {value : α}, action store = .ok value after →
      after.first = store.first) : Mirrors (Recalls initial) action := by
  rintro store _ after value ⟨rfl, known⟩ runs
  exact ⟨after, runs, rfl, (keeps runs).trans known⟩

theorem matching_recalls : Matching False (Recalls initial) where
  account _ := (Mirrors.recalling fun runs => by rw [(read_ok runs).2, first_tick]).matches
  putAccount _ _ := (Mirrors.recalling fun runs => first_write (fun wrote => by
    cases World.of_check wrote
    simp only [World.entry_setEntry]
    split <;> simp_all [Entry.slot]) runs).matches
  code _ := (Mirrors.recalling fun runs => by rw [(read_ok runs).2, first_tick]).matches
  putCode _ _ := (Mirrors.recalling fun runs => first_write (fun wrote => by
    cases World.of_check wrote
    simp only [World.entry_setEntry]
    split <;> simp_all [Entry.slot]) runs).matches
  get _ _ := (Mirrors.recalling fun runs => (get_first runs).2.1).matches
  initial _ _ := (Mirrors.recalling fun runs => (initial_first runs).2.1).matches
  put _ _ _ := (Mirrors.recalling put_first).matches

end Store

namespace Host

variable {initial : Address × Word → Word} {host after : Host σ}

def Recalls (initial : Address × Word → Word) (host : Host σ) : Prop := host.store.first = initial

theorem recalls_of_run {action : HostM σ α} {value : α}
    (mirrors : HostM.Mirrors (Store.Recalls initial) (fun _ => True) action)
    (recalls : host.Recalls initial) (runs : action host = .ok value after) :
    after.Recalls initial := by
  obtain ⟨_, _, twins⟩ := mirrors ⟨⟨rfl, recalls⟩, rfl, trivial⟩ runs
  exact twins.store.2

theorem initialSlot_recalls {address : Address} {key value : Word}
    (recalls : host.Recalls initial) (runs : Host.initialSlot address key host = .ok value after) :
    value = initial (address, key) := by
  unfold Host.initialSlot Host.onStore at runs
  cases reads : Store.initial address key host.store with
  | error failure store =>
    simp only [reads] at runs
    cases runs
  | ok found store =>
    simp only [reads] at runs
    cases runs
    rw [← recalls]
    exact (Store.initial_first reads).1

end Host

namespace Execution

variable {env : Environment σ} {context : Context} {frame next : Frame} {host after : Host σ}
  {initial : Address × Word → Word}

theorem recalls_of_enter {message : Message} {kind : MessageKind} {pc : Nat} {opening : Opening}
    (recalls : host.Recalls initial) (enters : enter env message kind pc host = .ok opening after) :
    after.Recalls initial :=
  Host.recalls_of_run
    (enter_mirrors Store.matching_recalls (fun _ _ _ => trivial) message kind pc) recalls enters

theorem recalls_of_turn {made : Turn} (recalls : host.Recalls initial)
    (turns : turn env context frame host = .ok made after) : after.Recalls initial :=
  Host.recalls_of_run (turn_mirrors Store.matching_recalls (fun _ _ _ => trivial) context frame)
    recalls turns

theorem recalls_of_conclude {ended result : Result} (recalls : host.Recalls initial)
    (concludes : conclude env context ended host = .ok result after) : after.Recalls initial :=
  Host.recalls_of_run (conclude_mirrors Store.matching_recalls (fun _ _ _ => trivial) context ended)
    recalls concludes

theorem recalls_of_resume {suspended : Suspended} {answer : Result}
    (recalls : host.Recalls initial) (resumes : resume env suspended answer host = .ok next after) :
    after.Recalls initial :=
  Host.recalls_of_run
    (resume_mirrors Store.matching_recalls (fun _ _ _ => trivial) suspended answer) recalls resumes

end Execution

end Evm
