import Evm.Proofs.Atomicity
import Evm.Proofs.Parallel
import Evm.Proofs.Reachable

/-!
# What is seen of a world

A run sees of its world what is read of it and nothing else: neither whether an entry is blank or
missing, nor whether a zero is stored. A rollback, which writes back what was there, leaves entries
behind that were not there before. Nothing that runs later can tell.
-/

namespace Evm

variable {σ α : Type}

theorem Entry.ReadsAs.store_zero {entry : Entry} {key : Word} (zero : entry.slot key = 0) :
    entry.ReadsAs { entry with storage := entry.storage.insert key 0 } := by
  refine ⟨rfl, rfl, fun other => ?_⟩
  by_cases same : key = other
  · subst same
    rw [zero]
    simp [Entry.slot]
  · simp [Entry.slot, Std.HashMap.getD_insert, same]

namespace World

variable {world twin : World}

/-- Two worlds that read the same at every address, and that serve the same accesses. Which entries
they keep to that end does not matter. -/
structure ReadsAs (world twin : World) : Prop where
  entry : ∀ address, (world.entry address).ReadsAs (twin.entry address)
  fails_eq : twin.fails = world.fails

/-- Where every access is served, this is to say that whatever is read is the same. -/
theorem readsAs_iff (inOrder : world.InOrder) (inOrder' : twin.InOrder) :
    world.ReadsAs twin ↔ (∀ address, twin.account address = world.account address) ∧
      (∀ address, twin.code address = world.code address) ∧
      ∀ address key, twin.storage address key = world.storage address key := by
  have served {β : Type} {read read' : β} (access : Access) (address : Address) :
      (twin.check access address >>= fun _ => pure read' : Except Failure β) =
        (world.check access address >>= fun _ => pure read) ↔ read' = read := by
    rw [check_inOrder inOrder, check_inOrder inOrder']
    exact ⟨Except.ok.inj, congrArg Except.ok⟩
  have down : twin.fails = world.fails := by
    funext count access address
    rw [inOrder, inOrder']
  constructor
  · intro reads
    exact ⟨fun address => (served _ _).mpr (reads.entry address).account,
      fun address => (served _ _).mpr (reads.entry address).code,
      fun address key => (served _ _).mpr ((reads.entry address).slot key)⟩
  · intro ⟨account, code, slot⟩
    exact ⟨fun address => ⟨(served _ _).mp (account address), (served _ _).mp (code address),
      fun key => (served _ _).mp (slot address key)⟩, down⟩

namespace ReadsAs

theorem set_entry {address : Address} {entry : Entry}
    (reads : (world.entry address).ReadsAs entry) : world.ReadsAs (world.setEntry address entry) := by
  refine ⟨fun other => ?_, rfl⟩
  rw [entry_setEntry]
  split
  · subst other
    exact reads
  · exact .refl _

end ReadsAs

theorem matching_readsAs : Matching True ReadsAs where
  check reads access address := by
    left
    unfold check
    rw [reads.fails_eq]
  entry := ReadsAs.entry
  change := by
    intro world twin reads address change keeps
    refine ⟨fun other => ?_, reads.fails_eq⟩
    rw [entry_setEntry, entry_setEntry]
    split
    · exact keeps (reads.entry address)
    · exact reads.entry other
  tick := by
    intro world twin reads
    refine ⟨reads.entry, ?_⟩
    funext count access address
    rw [fails_tick, fails_tick, reads.fails_eq]

end World

namespace Host

def inWorld (host : Host σ) (world : World) : Host σ :=
  { host with store := { host.store with world } }

structure ReadsAs (host twin : Host σ) : Prop where
  world : host.store.world.ReadsAs twin.store.world
  eq : twin = host.inWorld twin.store.world

theorem readsAs_inWorld {host : Host σ} {world : World} (reads : host.store.world.ReadsAs world) :
    host.ReadsAs (host.inWorld world) :=
  ⟨reads, rfl⟩

end Host

namespace Comparison

/-- All is compared but the worlds, which have to read the same. -/
def reading : Comparison σ σ where
  like := Store.Over World.ReadsAs
  tells := Eq
  strict := True
  together := True

theorem hosts_reading {host twin : Host σ} : reading.Hosts host twin ↔ host.ReadsAs twin := by
  constructor
  · intro hosts
    obtain ⟨⟨world, initials⟩, addresses, slots, transient, journal, trace⟩ := twin
    obtain ⟨⟨reads, rfl⟩, rfl, rfl, rfl, rfl, rfl⟩ := hosts
    exact ⟨reads, rfl⟩
  · rintro ⟨reads, same⟩
    rw [same]
    exact ⟨⟨reads, rfl⟩, rfl, rfl, rfl, rfl, rfl⟩

theorem tracers_reading (tracer : Tracer σ) : reading.Tracers tracer tracer where
  both _ same := congrArg _ same
  enabled _ _ _ same := congrArg _ same.symm
  left apart := absurd trivial apart
  right apart := absurd trivial apart

end Comparison

open Comparison Execution

theorem runMessage_inOrder {env : Environment σ} {message : Message} {pc : Nat} {result : Result}
    {host after : Host σ} (inOrder : host.InOrder)
    (runs : runMessage env message pc host = .ok result after) : after.InOrder := by
  obtain ⟨warmed, opening, opened, warmedInOrder, enters, passes⟩ :=
    (reaches_of_run runs).started inOrder
  exact (spends_of_passes warmedInOrder enters passes).1.inOrder warmedInOrder

/-- That runs see of their world what is read of it alone. -/
structure Extensional (env : Environment σ) : Prop where
  messages : ∀ (messages : List (Message × Nat)) {host twin : Host σ}, host.ReadsAs twin →
    List.Forall₂ (EndAlike Host.ReadsAs) (runMessages env messages host)
      (runMessages env messages twin)
  onward : ∀ (fuel : Nat) (execution : Execution) {host twin : Host σ}, host.ReadsAs twin →
    EndAlike Host.ReadsAs (run env fuel execution host) (run env fuel execution twin)
  /-- In a world that is in order all of the messages have results that do not ask for more than a
  buffer can hold. -/
  answered : ∀ (messages : List (Message × Nat)) {host : Host σ}, host.InOrder →
    (∀ request ∈ messages,
      request.1.gasLimit < machineLimit ∧ ¬request.1.Overflows env.fork) →
    ∀ ends ∈ runMessages env messages host, ∃ result after, ends = .ok result after
  /-- At any point of a frame, a rollback to where it began leads to a host that cannot be told from
  the same host with the world of that time. -/
  undone : ∀ {message : Message} {kind : MessageKind} {pc : Nat} {context other : Context}
    {start last : Frame} {host opened between turned : Host σ} {waiting : List Suspended}
    {made : Turn}, host.InOrder →
    enter env message kind pc host = .ok (.frame context start) opened →
    Passes env waiting (.running context start waiting) opened (.running other last waiting)
      between →
    turn env other last between = .ok made turned →
    ∃ back, Host.rollback context.checkpoint turned = .ok () back ∧
      back.ReadsAs (back.inWorld opened.store.world)

/-- No run tells apart worlds that read the same. -/
theorem runMessage_extensional (env : Environment σ) : Extensional env where
  messages requests _ _ reads := by
    apply HostM.inTurn_alike _ requests reads
    intro request _ _ reads
    have matched := runMessage_matches World.matching_readsAs.onStores (tracers_reading env.tracer)
      request.1 request.2
    exact matched.alike trivial hosts_reading reads
  onward fuel execution _ _ reads := by
    have matched := run_matches World.matching_readsAs.onStores (tracers_reading env.tracer) fuel
      (.refl execution)
    exact matched.alike trivial hosts_reading reads
  answered requests := by
    induction requests with
    | nil => exact fun _ _ _ member => absurd member List.not_mem_nil
    | cons request rest ih =>
      intro host inOrder bounded ends member
      obtain ⟨limited, fits⟩ := bounded _ List.mem_cons_self
      obtain ⟨result, after, runs⟩ := runMessage_run env request.1 request.2 host inOrder limited fits
      unfold runMessages HostM.inTurn at member
      simp only [runs, List.mem_cons] at member
      cases member with
      | inl first => exact ⟨result, after, first⟩
      | inr later =>
        exact ih (runMessage_inOrder inOrder runs)
          (fun _ member => bounded _ (List.mem_cons_of_mem _ member)) ends later
  undone := by
    intro _ _ _ context _ _ _ _ opened _ turned _ _ inOrder enters passes turns
    obtain ⟨_, checkpoint_eq, openedInOrder, extend⟩ := frame_extends inOrder enters passes turns
    obtain ⟨back, undoes, restored⟩ := Host.rollback_run extend (extend.inOrder openedInOrder)
    rw [checkpoint_eq]
    have served : opened.store.world.fails = back.store.world.fails := by
      unfold World.fails
      rw [restored.isDown_eq]
    refine ⟨back, undoes, Host.readsAs_inWorld ⟨fun address => ?_, served⟩⟩
    have shows := restored.view_eq.symm
    exact ⟨congrFun (congrArg View.account shows) address,
      congrFun (congrArg View.code shows) address,
      fun key => congrFun (congrArg View.slot shows) (address, key)⟩

/-- The empty world with a blank entry that has a zero stored. -/
def World.padded : World :=
  let entry := World.empty.entry 0xaa
  World.empty.setEntry 0xaa { entry with storage := entry.storage.insert 1 0 }

theorem World.padded_readsAs : World.empty.ReadsAs World.padded := by
  apply ReadsAs.set_entry
  apply Entry.ReadsAs.store_zero
  simp [World.entry, World.empty, Entry.slot, Entry.blank]

/-- Code that reads the slot and looks up the code hash of the account that it runs as. -/
def readingMessage : Message :=
  { Message.blank with
    target := some 0xaa, gasLimit := 5000, code := #[0x60, 0x01, 0x54, 0x60, 0xaa, 0x3f] }

theorem runMessage_extensional_padded :
    World.padded.entries.size = 1 ∧ World.empty.entries.size = 0 ∧ ∃ result after last,
      runMessage (.blank .berlin) readingMessage 0 (Host.start .empty ()) = .ok result after ∧
      runMessage (.blank .berlin) readingMessage 0 (Host.start .padded ()) = .ok result last ∧
      after.ReadsAs last := by
  refine ⟨?_, Std.HashMap.size_empty, ?_⟩
  · simp [World.padded, World.setEntry, World.empty, Std.HashMap.size_insert]
  obtain ⟨result, after, runs⟩ := runMessage_run (.blank .berlin) readingMessage 0
    (Host.start .empty ()) World.empty_inOrder (by decide)
    (Message.not_overflows_of_gasLimit (by decide))
  have reads : (Host.start .empty ()).ReadsAs (Host.start .padded ()) := ⟨World.padded_readsAs, rfl⟩
  have alike := (runMessage_extensional (.blank .berlin)).messages [(readingMessage, 0)] reads
  rw [runMessages, HostM.inTurn_one, HostM.inTurn_one, runs] at alike
  generalize runMessage _ _ _ (Host.start .padded ()) = other at alike ⊢
  cases alike with
  | cons ends _ =>
    cases ends with
    | ok reads => exact ⟨result, after, _, runs, rfl, reads⟩

end Evm
