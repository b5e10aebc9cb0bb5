import Evm.Proofs.Parallel
import Evm.Run

/-!
# Tracing

No run depends on its tracer. What is told, and whether it is told at all, changes neither the result
of a message nor the failure that stops it, and leaves the same on the host but for the trace. That
holds for any number of messages on one host, and whatever happens to the world while they run.
-/

namespace Evm

variable {σ τ α : Type}

structure Host.Agrees (host : Host σ) (twin : Host τ) : Prop where
  store_eq : twin.store = host.store
  warmAddresses_eq : twin.warmAddresses = host.warmAddresses
  warmSlots_eq : twin.warmSlots = host.warmSlots
  transient_eq : twin.transient = host.transient
  journal_eq : twin.journal = host.journal

namespace Comparison

/-- Of the traces nothing is asked; all else has to be the same, also where an action fails. -/
def untold : Comparison σ τ where
  like := Eq
  tells _ _ := True
  strict := True
  together := False

variable {host : Host σ} {twin : Host τ}

theorem hosts_untold : untold.Hosts host twin ↔ host.Agrees twin := by
  constructor
  · intro hosts
    exact ⟨hosts.store.symm, hosts.warmAddresses, hosts.warmSlots, hosts.transient, hosts.journal⟩
  · intro agrees
    exact ⟨agrees.store_eq.symm, trivial, agrees.warmAddresses_eq, agrees.warmSlots_eq,
      agrees.transient_eq, agrees.journal_eq⟩

theorem tracers_untold (tracer : Tracer σ) (other : Tracer τ) : untold.Tracers tracer other :=
  ⟨fun _ _ => trivial, False.elim, fun _ _ _ _ _ => trivial, fun _ _ _ _ _ => trivial⟩

end Comparison

open Comparison

namespace Execution

def disturb (happens : Store → Store) : HostM σ Unit :=
  modify fun host => { host with store := happens host.store }

/-- Advances until the outermost message has its result. Before each instruction something may
happen to the store: say, an outage begins or ends. -/
def runAmid (env : Environment σ) (happens : Nat → Store → Store) :
    Nat → Execution → HostM σ Result
  | _, .returning result [] => return result
  | 0, _ => throw .unfinished
  | fuel + 1, execution => do
    disturb (happens fuel)
    let execution ← advance env execution
    runAmid env happens fuel execution

theorem runAmid_still (env : Environment σ) (fuel : Nat) (execution : Execution) :
    runAmid env (fun _ store => store) fuel execution = run env fuel execution := by
  induction fuel generalizing execution with
  | zero =>
    match execution with
    | .running _ _ _ | .returning _ [] | .returning _ (_ :: _) => rfl
  | succ fuel ih =>
    have next : (disturb (fun store => store) >>= fun _ => advance env execution >>=
        runAmid env (fun _ store => store) fuel) = (advance env execution >>= run env fuel) := by
      rw [funext ih]
      rfl
    match execution with
    | .running _ _ _ | .returning _ (_ :: _) => exact next
    | .returning _ [] => rfl

theorem disturb_matches (happens : Store → Store) :
    HostM.Matches (untold : Comparison σ τ) Eq (disturb happens) (disturb happens) :=
  .changing fun hosts => { hosts with store := congrArg happens hosts.store }

theorem runAmid_matches (env : Environment σ) (tracer : Tracer τ) (happens : Nat → Store → Store)
    (fuel : Nat) {execution other : Execution}
    (alike : execution.Alike False other) :
    HostM.Matches untold Eq (runAmid env happens fuel execution)
      (runAmid (env.tracedBy tracer) happens fuel other) := by
  induction fuel generalizing execution other with
  | zero =>
    cases alike with
    | running waits => exact .raise .unfinished
    | returning waits =>
      cases waits with
      | nil => exact .same _
      | cons => exact .raise .unfinished
  | succ fuel ih =>
    have next : HostM.Matches untold Eq
        (disturb (happens fuel) >>= fun _ => advance env execution >>= runAmid env happens fuel)
        (disturb (happens fuel) >>= fun _ => advance (env.tracedBy tracer) other >>=
          runAmid (env.tracedBy tracer) happens fuel) :=
      (disturb_matches (happens fuel)).bind fun _ =>
        (advance_matches (Store.matching_eq True) (tracers_untold env.tracer tracer)
          alike).bindGiven fun _ _ alike => ih alike
    cases alike with
    | running waits => exact next
    | returning waits =>
      cases waits with
      | nil => exact .same _
      | cons => exact next

end Execution

open Execution

structure Request where
  message : Message
  pc : Nat
  happens : Nat → Store → Store

def Request.run (env : Environment σ) (request : Request) : HostM σ Result := do
  let fuel := stepBound request.message.gasLimit
  disturb (request.happens fuel)
  warmUp (warmFromStart env request.message)
  let opening ← enter env request.message (topLevelKind request.message) request.pc
  runAmid env request.happens fuel (.ofOpening opening [])

theorem Request.run_still (env : Environment σ) (message : Message) (pc : Nat) :
    Request.run env ⟨message, pc, fun _ store => store⟩ = runMessage env message pc := by
  unfold Request.run runMessage
  simp only [runAmid_still]
  rfl

theorem Request.run_matches (env : Environment σ) (tracer : Tracer τ) (request : Request) :
    HostM.Matches untold Eq (request.run env) (request.run (env.tracedBy tracer)) := by
  unfold Request.run
  rw [warmFromStart_tracedBy]
  apply (disturb_matches _).bind
  intro _
  apply (warmUp_matches _).bind
  intro _
  have enters := enter_matches (Store.matching_eq True) (tracers_untold env.tracer tracer)
    request.message (topLevelKind request.message) request.pc
  exact enters.bind fun opening => runAmid_matches env tracer _ _ (alike_ofOpening opening .nil)

theorem Machine.environment_tracedBy (machine : Machine) (options : RunOptions) (tracer : Tracer σ)
    (other : Tracer τ) :
    (machine.environment options tracer).tracedBy other = machine.environment options other :=
  rfl

structure TracerBlind (env : Environment σ) (tracer : Tracer τ) : Prop where
  code : ∀ (machine : Machine) (options : RunOptions) (trace : σ) (trace' : τ),
    (machine.run options tracer trace').result = (machine.run options env.tracer trace).result ∧
      (machine.run options tracer trace').world = (machine.run options env.tracer trace).world
  /-- After each of a series of messages the two hosts agree, whether the messages succeed or fail. -/
  messages : ∀ (messages : List (Message × Nat)) {host : Host σ} {twin : Host τ},
    host.Agrees twin → List.Forall₂ (EndAlike Host.Agrees) (runMessages env messages host)
      (runMessages (env.tracedBy tracer) messages twin)
  /-- Something may happen to the world before any of the instructions, so that it fails when it did
  not before, or the other way round. -/
  disturbed : ∀ (requests : List Request) {host : Host σ} {twin : Host τ}, host.Agrees twin →
    List.Forall₂ (EndAlike Host.Agrees) (HostM.inTurn (Request.run env) requests host)
      (HostM.inTurn (Request.run (env.tracedBy tracer)) requests twin)

/-- No tracer, enabled or not, changes what is traced, in no world. -/
theorem runMessage_tracerBlind (env : Environment σ) (tracer : Tracer τ) :
    TracerBlind env tracer where
  code machine options trace trace' := by
    have matched : HostM.Matches untold Eq
        (runMessage (machine.environment options env.tracer) options.toMessage (options.pc.getD 0))
        (runMessage (machine.environment options tracer) options.toMessage (options.pc.getD 0)) := by
      rw [← machine.environment_tracedBy options env.tracer]
      exact runMessage_matches (Store.matching_eq True) (tracers_untold _ tracer) _ _
    have fresh : (Host.start machine.world trace).Agrees (Host.start machine.world trace') :=
      ⟨rfl, rfl, rfl, rfl, rfl⟩
    have ends := matched.alike trivial hosts_untold fresh
    unfold Machine.run
    dsimp only
    generalize runMessage (machine.environment options env.tracer) _ _ _ = one at ends
    generalize runMessage (machine.environment options tracer) _ _ _ = two at ends
    cases ends with
    | ok agrees | error agrees => exact ⟨rfl, congrArg (·.world) agrees.store_eq⟩
  messages requests _ _ agrees := by
    apply HostM.inTurn_alike _ requests agrees
    intro request _ _ agrees
    have matched := runMessage_matches (Store.matching_eq True) (tracers_untold env.tracer tracer)
      request.1 request.2
    exact matched.alike trivial hosts_untold agrees
  disturbed requests _ _ agrees := by
    apply HostM.inTurn_alike _ requests agrees
    intro request _ _ agrees
    exact (request.run_matches env tracer).alike trivial hosts_untold agrees

def addingOptions : RunOptions := { code := some #[0x60, 2, 0x60, 3, 0x01], gasLimit := some 100 }

theorem runMessage_tracerBlind_adding :
    ((Machine.ofWorld .empty).run addingOptions .log #[]).trace.size = 5 ∧
      ((Machine.ofWorld .empty).run addingOptions .off ()).result =
        ((Machine.ofWorld .empty).run addingOptions .log #[]).result := by
  constructor
  · decide +kernel
  · have blind := runMessage_tracerBlind ((Environment.blank .byzantium).tracedBy .log) .off
    exact (blind.code (.ofWorld .empty) addingOptions #[] ()).1

end Evm
