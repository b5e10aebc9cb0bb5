import Evm.Proofs.Lockstep
import Evm.Proofs.Reachable

/-!
# Worlds put in order

A run that succeeds has met none of the accesses that its world does not serve. It is the same run
on the same world with everything in order.
-/

namespace Evm

variable {σ α : Type}

namespace World

def repaired (world : World) : World := { world with isDown := none }

theorem repaired_inOrder (world : World) : world.repaired.InOrder := fun _ _ _ => rfl

variable {world after : World} {address : Address}

theorem of_check {access : Access} {next : Except Failure α} {value : α}
    (runs : (world.check access address >>= fun _ => next) = .ok value) :
    next = .ok value := by
  unfold check at runs
  split at runs
  · cases runs
  · exact runs

end World

namespace Store

/-- The one store is over the world of the other, put in order. -/
def Repairs : Store → Store → Prop := Over fun world twin => twin = world.repaired

theorem matching_repairs : Matching False Repairs := by
  apply World.Matching.onStores
  constructor
  · rintro world _ rfl access address
    unfold World.check
    cases down : world.fails 0 access address with
    | true => exact .inr ⟨not_false, _, rfl⟩
    | false => exact .inl rfl
  · rintro world _ rfl address
    exact .refl _
  · rintro world _ rfl address change keeps
    rfl
  · rintro world _ rfl
    rfl

end Store

namespace Host

def repaired (host : Host σ) : Host σ :=
  { host with store := { host.store with world := host.store.world.repaired } }

theorem repaired_inOrder (host : Host σ) : host.repaired.InOrder :=
  host.store.world.repaired_inOrder

theorem twins_repaired (host : Host σ) :
    host.Twins Store.Repairs (fun _ => True) host.repaired :=
  ⟨⟨rfl, rfl⟩, rfl, trivial⟩

theorem eq_repaired {host twin : Host σ} (twins : host.Twins Store.Repairs (fun _ => True) twin) :
    twin = host.repaired := by
  obtain ⟨⟨world, initials⟩, _, _, _, _, _⟩ := twin
  obtain ⟨⟨rfl, rfl⟩, same, _⟩ := twins
  exact same

theorem view_repaired (host : Host σ) : host.repaired.view = host.view := rfl

end Host

theorem HostM.Mirrors.repaired {action : HostM σ α} {host after : Host σ} {value : α}
    (mirrors : Mirrors Store.Repairs (fun _ => True) action)
    (runs : action host = .ok value after) : action host.repaired = .ok value after.repaired := by
  obtain ⟨_, runs', twins⟩ := mirrors host.twins_repaired runs
  rw [runs', Host.eq_repaired twins]

theorem InstructionM.Mirrors.repaired {action : InstructionM σ α} {frame : Frame}
    {given : α × Frame} {host after : Host σ}
    (mirrors : Mirrors Store.Repairs (fun _ => True) action)
    (runs : action frame host = .ok given after) :
    action frame host.repaired = .ok given after.repaired := by
  have found := mirrors frame host.twins_repaired
  rw [runs] at found
  obtain ⟨_, runs', twins⟩ := found
  rw [runs', Host.eq_repaired twins]

namespace Execution

variable {env : Environment σ} {message : Message} {pc : Nat} {host after : Host σ}

theorem enter_repaired {kind : MessageKind} {opening : Opening}
    (enters : enter env message kind pc host = .ok opening after) :
    enter env message kind pc host.repaired = .ok opening after.repaired :=
  (enter_mirrors Store.matching_repairs (fun _ _ _ => trivial) message kind pc).repaired enters

theorem turn_repaired {context : Context} {frame : Frame} {made : Turn}
    (turns : turn env context frame host = .ok made after) :
    turn env context frame host.repaired = .ok made after.repaired :=
  (turn_mirrors Store.matching_repairs (fun _ _ _ => trivial) context frame).repaired turns

theorem conclude_repaired {context : Context} {ended result : Result}
    (concludes : conclude env context ended host = .ok result after) :
    conclude env context ended host.repaired = .ok result after.repaired :=
  (conclude_mirrors Store.matching_repairs (fun _ _ _ => trivial) context ended).repaired concludes

theorem resume_repaired {suspended : Suspended} {result : Result} {next : Frame}
    (resumes : resume env suspended result host = .ok next after) :
    resume env suspended result host.repaired = .ok next after.repaired :=
  (resume_mirrors Store.matching_repairs (fun _ _ _ => trivial) suspended result).repaired resumes

theorem passes_repaired {base : List Suspended} {execution last : Execution}
    (passes : Passes env base execution host last after) :
    Passes env base execution host.repaired last after.repaired := by
  obtain ⟨_, passes', twins⟩ := passes_mirrors Store.matching_repairs (fun _ _ _ => trivial)
    host.twins_repaired passes
  rw [Host.eq_repaired twins] at passes'
  exact passes'

theorem step_repaired {context : Context} {frame : Frame} {given : Control × Frame}
    (steps : step env context frame host = .ok given after) :
    step env context frame host.repaired = .ok given after.repaired :=
  (step_mirrors Store.matching_repairs (fun _ _ _ => trivial) context).repaired steps

theorem Answers.repaired {kind : MessageKind} {result : Result}
    (answers : Answers env message kind pc host result after) :
    Answers env message kind pc host.repaired result after.repaired := by
  obtain ⟨opening, opened, enters, passes⟩ := (answers_iff_passes []).mp answers
  exact (answers_iff_passes []).mpr ⟨opening, _, enter_repaired enters, passes_repaired passes⟩

theorem Reaches.repaired {execution : Execution}
    (reaches : Reaches env message pc host execution after) :
    Reaches env message pc host.repaired execution after.repaired := by
  obtain ⟨warmed, opening, opened, warms, enters, passes⟩ := reaches
  refine ⟨warmed.repaired, opening, opened.repaired, ?_, enter_repaired enters,
    passes_repaired passes⟩
  cases warms
  rfl

end Execution

end Evm
