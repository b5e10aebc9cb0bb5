import Evm.Proofs.Parallel

/-!
# Runs in lockstep

Two hosts that differ in their stores alone take the same steps under one tracer, as long as the
stores are like each other and every action on a store keeps them so. A run that succeeds on the one
host is then the same run on the other. Applied to a host and itself, this carries a property of the
store, or of the trace, through an action.
-/

namespace Evm

variable {σ α : Type}

namespace Store

/-- What the action gives on a store it gives on every store like that. -/
def Mirrors (like : Store → Store → Prop) (action : Action α) : Prop :=
  ∀ ⦃store twin after : Store⦄ ⦃value : α⦄, like store twin → action store = .ok value after →
    ∃ last, action twin = .ok value last ∧ like after last

variable {like : Store → Store → Prop}

theorem Mirrors.matches {action : Action α} (mirrors : Mirrors like action) :
    Matches False like action := by
  intro store twin alike
  cases runs : action store with
  | ok value after =>
    obtain ⟨last, runs', alike'⟩ := mirrors alike runs
    rw [runs']
    exact .ok rfl alike'
  | error failure after => exact .excuse not_false

end Store

structure Host.Twins (like : Store → Store → Prop) (tells : σ → Prop) (host twin : Host σ) :
    Prop where
  store : like host.store twin.store
  eq : twin = { host with store := twin.store }
  trace : tells host.trace

def HostM.Mirrors (like : Store → Store → Prop) (tells : σ → Prop) (action : HostM σ α) : Prop :=
  ∀ ⦃host twin after : Host σ⦄ ⦃value : α⦄, host.Twins like tells twin →
    action host = .ok value after →
    ∃ last, action twin = .ok value last ∧ after.Twins like tells last

def InstructionM.Mirrors (like : Store → Store → Prop) (tells : σ → Prop)
    (action : InstructionM σ α) : Prop :=
  ∀ (frame : Frame) ⦃host twin : Host σ⦄, host.Twins like tells twin →
    match action frame host with
    | .ok given after => ∃ last, action frame twin = .ok given last ∧ after.Twins like tells last
    | .error (.fault cause) after =>
      ∃ last, action frame twin = .error (.fault cause) last ∧ after.Twins like tells last
    | .error (.failure _) _ => True

namespace Comparison

/-- One tracer hears of two runs, and they go on for as long as nothing fails. -/
def lockstep (like : Store → Store → Prop) (tells : σ → Prop) : Comparison σ σ where
  like := like
  tells trace other := other = trace ∧ tells trace
  strict := False
  together := True

variable {like : Store → Store → Prop} {tells : σ → Prop} {host twin : Host σ}

theorem hosts_lockstep : (lockstep like tells).Hosts host twin ↔ host.Twins like tells twin := by
  constructor
  · intro hosts
    obtain ⟨store, addresses, slots, transient, journal, trace⟩ := twin
    obtain ⟨alike, ⟨rfl, known⟩, rfl, rfl, rfl, rfl⟩ := hosts
    exact ⟨alike, rfl, known⟩
  · rintro ⟨alike, same, known⟩
    rw [same]
    exact ⟨alike, ⟨rfl, known⟩, rfl, rfl, rfl, rfl⟩

/-- A tracer that keeps what is known of the trace can be told of anything. -/
theorem tracers_lockstep {tracer : Tracer σ}
    (keeps : ∀ event trace, tells trace → tells (tracer.record event trace)) :
    (lockstep like tells).Tracers tracer tracer where
  both event known := ⟨congrArg _ known.1, keeps event _ known.2⟩
  enabled _ _ _ known := congrArg _ known.1
  left apart := absurd trivial apart
  right apart := absurd trivial apart

end Comparison

open Comparison

section

variable {like : Store → Store → Prop} {tells : σ → Prop}

theorem HostM.Matches.mirrors {action : HostM σ α}
    (matched : Matches (lockstep like tells) Eq action action) : Mirrors like tells action := by
  intro host twin after value twins runs
  have ends := matched (hosts_lockstep.mpr twins)
  rw [runs] at ends
  obtain ⟨last, runs', hosts⟩ := ends.of_ok
  exact ⟨last, runs', hosts_lockstep.mp hosts⟩

theorem InstructionM.Matches.mirrors {action : InstructionM σ α}
    (matched : Matches (lockstep like tells) Eq action action) : Mirrors like tells action := by
  intro frame host twin twins
  have ends := matched frame (hosts_lockstep.mpr twins)
  generalize action frame twin = other at ends ⊢
  generalize action frame host = given at ends ⊢
  cases ends with
  | ok agrees hosts =>
    exact ⟨_, by rw [Prod.ext agrees.1 agrees.2.symm], hosts_lockstep.mp hosts⟩
  | @error interrupt _ _ hosts =>
    cases interrupt with
    | fault cause => exact ⟨_, rfl, hosts_lockstep.mp hosts⟩
    | failure failure => trivial
  | @excuse interrupt _ _ excused =>
    cases interrupt with
    | fault cause => exact absurd excused id
    | failure failure => trivial

end

theorem HostM.Mirrors.slot {like : Store → Store → Prop} {tells : σ → Prop}
    (matching : Store.Matching False like) (address : Address) (key : Word) :
    Mirrors like tells (Host.slot address key) :=
  (HostM.Matches.slot matching address key).mirrors

theorem InstructionM.Mirrors.lift {like : Store → Store → Prop} {tells : σ → Prop}
    (action : FrameM α) : Mirrors like tells (liftM action : InstructionM σ α) :=
  (InstructionM.Matches.lift action).mirrors

theorem execute_mirrors {like : Store → Store → Prop} {tells : σ → Prop}
    (matching : Store.Matching False like) (env : Environment σ) (context : Context)
    (instruction : Instruction) (operation : Operation) :
    InstructionM.Mirrors like tells (execute env context instruction operation) :=
  (execute_matches matching env env.tracer context instruction operation).mirrors

namespace Execution

variable {like : Store → Store → Prop} {tells : σ → Prop} (matching : Store.Matching False like)

include matching

theorem settle_mirrors (checkpoint : Nat) (result : Result) :
    HostM.Mirrors like tells (settle checkpoint result) :=
  (settle_matches matching checkpoint result).mirrors

theorem deploy_mirrors (env : Environment σ) (message : Message) (deployment : Deployment)
    (result : Result) : HostM.Mirrors like tells (deploy env message deployment result) :=
  (deploy_matches matching env env.tracer message deployment result).mirrors

theorem deployFor_mirrors (env : Environment σ) (context : Context) (result : Result) :
    HostM.Mirrors like tells (deployFor env context result) :=
  (deployFor_matches matching env env.tracer context result).mirrors

theorem beginCreate_mirrors (env : Environment σ) (message : Message) :
    HostM.Mirrors like tells (beginCreate env message) :=
  (beginCreate_matches matching env env.tracer message).mirrors

theorem receive_mirrors (frame : Frame) (receiver : Receiver) (result : Result) :
    HostM.Mirrors like tells (receive frame receiver result : HostM σ Frame) :=
  (receive_matches matching frame receiver result).mirrors

variable {env : Environment σ}
  (keeps : ∀ event trace, tells trace → tells (env.tracer.record event trace))

include keeps

theorem conclude_mirrors (context : Context) (result : Result) :
    HostM.Mirrors like tells (conclude env context result) :=
  (conclude_matches matching (tracers_lockstep keeps) context result).mirrors

theorem enter_mirrors (message : Message) (kind : MessageKind) (pc : Nat) :
    HostM.Mirrors like tells (enter env message kind pc) :=
  (enter_matches matching (tracers_lockstep keeps) message kind pc).mirrors

theorem resume_mirrors (suspended : Suspended) (result : Result) :
    HostM.Mirrors like tells (resume env suspended result) :=
  (resume_matches matching (tracers_lockstep keeps) (.intro fun _ => rfl) result).mirrors

theorem step_mirrors (context : Context) :
    InstructionM.Mirrors like tells (step env context) :=
  ((step_matches matching (tracers_lockstep keeps) context).mono
    fun _ _ alike => alike.eq trivial).mirrors

theorem turn_mirrors (context : Context) (frame : Frame) :
    HostM.Mirrors like tells (turn env context frame) :=
  ((turn_matches matching (tracers_lockstep keeps) context frame).mono
    fun _ _ alike => alike.eq trivial).mirrors

theorem advance_mirrors (execution : Execution) :
    HostM.Mirrors like tells (advance env execution) :=
  ((advance_matches matching (tracers_lockstep keeps) (.refl execution)).mono
    fun _ _ alike => alike.eq trivial).mirrors

theorem passes_mirrors {base : List Suspended} {execution last : Execution}
    {host twin after : Host σ} (twins : host.Twins like tells twin)
    (passes : Passes env base execution host last after) :
    ∃ mirrored, Passes env base execution twin last mirrored ∧ after.Twins like tells mirrored := by
  induction passes generalizing twin with
  | stay => exact ⟨twin, .stay, twins⟩
  | move above advances _ ih =>
    obtain ⟨between, advances', twins'⟩ := advance_mirrors matching keeps _ twins advances
    obtain ⟨mirrored, passes, twins''⟩ := ih twins'
    exact ⟨mirrored, .move above advances' passes, twins''⟩

end Execution

end Evm
