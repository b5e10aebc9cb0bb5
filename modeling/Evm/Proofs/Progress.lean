import Evm.Proofs.Nesting
import Evm.Proofs.Turns

/-!
# Progress

The gas that the frames of an execution still hold, with what a result brings back, is never
raised, and every instruction that does not end its frame lowers it. Nesting is bounded by it, so
every frame comes to its result.
-/

namespace Evm

namespace Execution

variable {σ : Type} {env : Environment σ}

def waitingGas : List Suspended → Nat
  | [] => 0
  | suspended :: waiting => suspended.frame.gas.remaining + waitingGas waiting

/-- What a result brings back to the frame that waits for it. -/
def unspent (result : Result) : List Suspended → Nat
  | [] => 0
  | suspended :: _ => suspended.resumption.gas - result.gasUsed

def gasLeft : Execution → Nat
  | .running _ frame waiting => frame.gas.remaining + waitingGas waiting
  | .returning result waiting => unspent result waiting + waitingGas waiting

/-- A bound on the steps that are left. A frame that is asked for costs gas; it takes one step to
end and one to hand its result on. -/
def potential : Execution → Nat
  | .running context frame waiting =>
    3 * gasLeft (.running context frame waiting) + 2 * waiting.length + 1
  | .returning result waiting => 3 * gasLeft (.returning result waiting) + 2 * waiting.length

theorem potential_opening (opening : Opening) (waiting : List Suspended) :
    potential (ofOpening opening waiting) ≤
      3 * gasLeft (ofOpening opening waiting) + 2 * waiting.length + 1 := by
  cases opening with
  | frame context frame => exact Nat.le_refl _
  | result result => exact Nat.le_succ _

/-- A waiting frame has spent what it gave to a message, and has room for the result. -/
structure Backs (suspended : Suspended) (gas : Nat) : Prop where
  sound : suspended.frame.gas.Sound
  limit_eq : suspended.frame.gas.limit = suspended.context.message.gasLimit
  gas_eq : suspended.resumption.gas = gas
  gas_le : gas ≤ suspended.frame.gas.used
  fits : ∀ result, Fits suspended.resumption.receiver suspended.frame result

theorem Backs.gas_lt {suspended : Suspended} {gas : Nat} (backs : Backs suspended gas) :
    gas < machineLimit :=
  Nat.lt_of_le_of_lt (Nat.le_trans backs.gas_le backs.sound.used_le) backs.sound.limit_lt

theorem backs_of_asks {context : Context} {frame asking : Frame} {nested : NestedCall}
    (limit_eq : frame.gas.limit = context.message.gasLimit) (asks : Asks frame nested asking) :
    Backs ⟨context, asking, nested.resumption⟩ nested.message.gasLimit := by
  have given_lt := asks.given_lt
  refine ⟨asks.sound, asks.limit_eq.trans limit_eq, asks.gas_eq, ?_, asks.fits⟩
  show nested.message.gasLimit ≤ asking.gas.used
  omega

namespace Ground

variable {ground : Ground σ}

/-- A message is backed by the frames that wait for it, down to the frame of the ground. -/
inductive Backed (ground : Ground σ) : Message → List Suspended → Prop where
  | bottom :
    (∀ suspended ∈ ground.waiting.head?,
      suspended.resumption.gas = ground.context.message.gasLimit) →
    Backed ground ground.context.message ground.waiting
  | above {message suspended waiting} :
    Backs suspended message.gasLimit → Backed ground suspended.context.message waiting →
    Backed ground message (suspended :: waiting)

/-- Every frame of the execution, and the result that it hands on, is within its gas. -/
def Metered (ground : Ground σ) : Execution → Prop
  | .running context frame waiting =>
    frame.gas.Sound ∧ frame.gas.limit = context.message.gasLimit ∧
      ground.Backed context.message waiting
  | .returning result waiting =>
    ∃ message : Message, result.Fair message ∧ ground.Backed message waiting

namespace Backed

variable {message : Message} {waiting : List Suspended} {result : Result}

theorem length_le (backed : ground.Backed message waiting) :
    ground.waiting.length ≤ waiting.length := by
  induction backed with
  | bottom => exact Nat.le_refl _
  | above _ _ ih => exact Nat.le_succ_of_le ih

theorem eq_bottom (backed : ground.Backed message ground.waiting) :
    message = ground.context.message := by
  generalize same : ground.waiting = waiting at backed
  cases backed with
  | bottom => rfl
  | above _ rest =>
    have shorter := rest.length_le
    rw [same] at shorter
    exact absurd shorter (Nat.not_succ_le_self _)

theorem uncons {suspended : Suspended} (backed : ground.Backed message (suspended :: waiting))
    (suffix : ground.waiting <:+ waiting) :
    Backs suspended message.gasLimit ∧ ground.Backed suspended.context.message waiting := by
  generalize same : suspended :: waiting = all at backed
  cases backed with
  | bottom =>
    have shorter := suffix.length_le
    rw [← same] at shorter
    exact absurd shorter (Nat.not_succ_le_self _)
  | above backs rest =>
    cases same
    exact ⟨backs, rest⟩

theorem gasLimit_le (backed : ground.Backed message waiting) :
    message.gasLimit ≤ ground.context.message.gasLimit := by
  induction backed with
  | bottom => exact Nat.le_refl _
  | above backs _ ih =>
    have used_le := backs.sound.used_le
    rw [backs.limit_eq] at used_le
    exact Nat.le_trans backs.gas_le (Nat.le_trans used_le ih)

theorem sound_of_mem {suspended : Suspended} (backed : ground.Backed message waiting)
    (outermost : ground.waiting = []) (waits : suspended ∈ waiting) :
    suspended.frame.gas.Sound := by
  induction backed with
  | bottom =>
    rw [outermost] at waits
    cases waits
  | above backs _ ih =>
    obtain rfl | waits := List.mem_cons.mp waits
    · exact backs.sound
    · exact ih waits

theorem gas_eq (backed : ground.Backed message waiting) :
    ∀ suspended ∈ waiting.head?, suspended.resumption.gas = message.gasLimit := by
  cases backed with
  | bottom hands => exact hands
  | above backs _ =>
    rintro _ ⟨⟩
    exact backs.gas_eq

theorem unspent_le (backed : ground.Backed message waiting) (result : Result) :
    unspent result waiting ≤ message.gasLimit - result.gasUsed := by
  cases waiting with
  | nil => exact Nat.zero_le _
  | cons suspended waiting =>
    have gas_eq := backed.gas_eq suspended rfl
    simp only [unspent, gas_eq, Nat.le_refl]

end Backed

end Ground

section Moves

variable {ground : Ground σ} {context : Context} {frame next asking : Frame} {nested : NestedCall}
  {suspended : Suspended} {result : Result}

theorem gasLeft_goOn (spends : frame.gas.Spends 1 next.gas) (context : Context)
    (waiting : List Suspended) :
    gasLeft (.running context next waiting) < gasLeft (.running context frame waiting) := by
  have limit_eq := spends.limit_eq
  have used_ge := spends.used_ge
  have used_le := spends.sound.used_le
  simp only [gasLeft, Meter.remaining]
  omega

theorem gasLeft_ask (asks : Asks frame nested asking) (context : Context)
    (waiting : List Suspended) :
    nested.message.gasLimit + gasLeft (.running context asking waiting) <
      gasLeft (.running context frame waiting) := by
  have limit_eq := asks.limit_eq
  have given_lt := asks.given_lt
  have used_le := asks.sound.used_le
  simp only [gasLeft, Meter.remaining]
  omega

theorem gasLeft_enter {fork : Fork} {message : Message} {host opened : Host σ} {opening : Opening}
    (started : Started fork message host opening opened)
    (gas_eq : suspended.resumption.gas = message.gasLimit) (waiting : List Suspended) :
    gasLeft (ofOpening opening (suspended :: waiting)) ≤
      message.gasLimit + waitingGas (suspended :: waiting) := by
  cases opening with
  | result result =>
    simp only [ofOpening, gasLeft, unspent, waitingGas]
    omega
  | frame context frame =>
    obtain ⟨start, index, _, _, same, rfl⟩ := started
    have limit_eq : (Frame.start context.message index).gas.limit = message.gasLimit := by
      rw [same]
      rfl
    simp only [ofOpening, gasLeft, waitingGas, Meter.remaining, limit_eq]
    omega

theorem gasLeft_finish {waiting : List Suspended} (backed : ground.Backed context.message waiting)
    (limit_eq : frame.gas.limit = context.message.gasLimit)
    (spent : frame.gas.used ≤ result.gasUsed) :
    gasLeft (.returning result waiting) ≤ gasLeft (.running context frame waiting) := by
  have unspent_le := backed.unspent_le result
  simp only [gasLeft, Meter.remaining]
  omega

theorem gasLeft_resume
    (gas : next.gas = suspended.frame.gas.restore (suspended.resumption.gas - result.gasUsed))
    (waiting : List Suspended) :
    gasLeft (.running suspended.context next waiting) ≤
      gasLeft (.returning result (suspended :: waiting)) := by
  simp only [gasLeft, waitingGas, unspent, gas, Meter.remaining, Meter.restore]
  omega

end Moves

namespace Ground

variable {ground : Ground σ}

structure Holds (ground : Ground σ) (execution : Execution) (host : Host σ) : Prop where
  stands : ground.Stands execution host
  inOrder : host.InOrder
  metered : ground.Metered execution

/-- A move of the execution that does not raise the gas that is left, and gets nearer to the end. -/
structure Descends (ground : Ground σ) (execution next : Execution) (after : Host σ) : Prop where
  holds : ground.Holds next after
  gasLeft_le : next.gasLeft ≤ execution.gasLeft
  potential_lt : next.potential < execution.potential

theorem metered_opening {fork : Fork} {message : Message} {suspended : Suspended}
    {waiting : List Suspended} {host opened : Host σ} {opening : Opening}
    (started : Started fork message host opening opened) (backs : Backs suspended message.gasLimit)
    (backed : ground.Backed suspended.context.message waiting) :
    ground.Metered (ofOpening opening (suspended :: waiting)) := by
  cases opening with
  | result result =>
    obtain ⟨_, _, fair⟩ := started
    exact ⟨message, fair, .above backs backed⟩
  | frame context frame =>
    obtain ⟨start, index, _, _, same, rfl⟩ := started
    have given_eq : context.message.gasLimit = message.gasLimit := by rw [same]
    rw [← given_eq] at backs
    exact ⟨Meter.sound_ofLimit backs.gas_lt, rfl, .above backs backed⟩

namespace Rests

variable {context : Context} {frame : Frame} {waiting : List Suspended} {host : Host σ}

/-- A frame that runs takes its turn, and the execution goes on. -/
theorem turn_descends (rests : ground.Rests context waiting host) (inOrder : host.InOrder)
    (sound : frame.gas.Sound) (limit_eq : frame.gas.limit = context.message.gasLimit)
    (backed : ground.Backed context.message waiting) :
    ∃ next after, advance env (.running context frame waiting) host = .ok next after ∧
      ground.Descends (.running context frame waiting) next after := by
  obtain ⟨made, turned, turns, costs⟩ := turn_run env sound limit_eq inOrder
  have extend := turn_extends inOrder turns
  rw [advance_running, bind_of_ok turns]
  cases made with
  | goOn next =>
    have spends : frame.gas.Spends 1 next.gas := costs
    have lower := gasLeft_goOn spends context waiting
    refine ⟨_, turned, rfl, ?_, Nat.le_of_lt lower, ?_⟩
    · exact ⟨.running (rests.extended extend), extend.inOrder inOrder, spends.sound,
        spends.limit_eq.trans limit_eq, backed⟩
    · simp only [potential]
      omega
  | finish ended =>
    obtain ⟨spent, fair⟩ := costs
    obtain ⟨result, after, concludes, stands, inOrder', keeps⟩ :=
      (rests.extended extend).conclude_stands (extend.inOrder inOrder)
        (fun _ _ => fair.gasUsed_le)
    obtain ⟨fair', more⟩ := keeps fair
    have lower := gasLeft_finish backed limit_eq (Nat.le_trans spent more)
    rw [afterTurn, bind_of_ok concludes]
    refine ⟨_, after, rfl, ⟨stands, inOrder', context.message, fair', backed⟩, lower, ?_⟩
    simp only [potential]
    omega
  | ask nested asking =>
    have asks : Asks frame nested asking := costs
    obtain ⟨before, first, second, marks, _⟩ := turn_marks inOrder turns
    obtain ⟨opening, after, enters, started, inOrder', stands⟩ :=
      (rests.extended first).enter_stands (first.inOrder inOrder) marks second
        (asks.not_overflows env.fork) nested.kind asking
    have lower := gasLeft_ask asks context waiting
    have backs := backs_of_asks limit_eq asks
    have opens : _ ≤ nested.message.gasLimit + gasLeft (.running context asking waiting) :=
      gasLeft_enter started backs.gas_eq waiting
    rw [afterTurn, bind_of_ok enters]
    refine ⟨_, after, rfl, ⟨stands, inOrder', metered_opening started backs backed⟩, ?_, ?_⟩
    · omega
    · have few := potential_opening opening (⟨context, asking, nested.resumption⟩ :: waiting)
      simp only [potential, List.length_cons] at few ⊢
      omega

theorem resume_descends {suspended : Suspended} {answered : Host σ} {message : Message}
    {result : Result} (rests : ground.Rests suspended.context waiting host)
    (inOrder : host.InOrder) (marks : Marks suspended.resumption.receiver host)
    (extend : host.Extends answered) (backed : ground.Backed message (suspended :: waiting)) :
    ∃ next after, advance env (.returning result (suspended :: waiting)) answered = .ok next after ∧
      ground.Descends (.returning result (suspended :: waiting)) next after := by
  obtain ⟨backs, rest⟩ := backed.uncons rests.suffix
  obtain ⟨next, after, resumes, rests', inOrder'⟩ :=
    rests.resume_rests inOrder marks extend (backs.fits result)
  have gas := resume_gas resumes
  have lower := gasLeft_resume gas waiting
  refine ⟨_, after, (Moves.resume resumes).advances, ⟨.running rests', inOrder', ?_⟩, lower, ?_⟩
  · rw [Metered, gas]
    exact ⟨Meter.sound_restore backs.sound, backs.limit_eq, rest⟩
  · simp only [potential, List.length_cons]
    omega

end Rests

namespace Holds

variable {execution last : Execution} {host after : Host σ}

theorem sound {context : Context} {frame : Frame} {waiting : List Suspended}
    (holds : ground.Holds (.running context frame waiting) host) : frame.gas.Sound :=
  holds.metered.1

theorem limit_eq {context : Context} {frame : Frame} {waiting : List Suspended}
    (holds : ground.Holds (.running context frame waiting) host) :
    frame.gas.limit = context.message.gasLimit :=
  holds.metered.2.1

theorem advances (env : Environment σ) (holds : ground.Holds execution host)
    (above : execution.Above ground.waiting) :
    ∃ next after, advance env execution host = .ok next after ∧
      ground.Descends execution next after := by
  obtain ⟨stands, inOrder, metered⟩ := holds
  cases stands with
  | running rests =>
    obtain ⟨sound, limit_eq, backed⟩ := metered
    exact rests.turn_descends inOrder sound limit_eq backed
  | handing marks extend rests =>
    obtain ⟨message, _, backed⟩ := metered
    exact rests.resume_descends (extend.inOrder_iff.mpr inOrder) marks extend backed
  | done => exact absurd above not_above_returned

theorem descends {next : Execution} (holds : ground.Holds execution host)
    (above : execution.Above ground.waiting)
    (moves : advance env execution host = .ok next after) :
    ground.Descends execution next after := by
  obtain ⟨_, _, moves', descends⟩ := holds.advances env above
  rw [moves] at moves'
  cases moves'
  exact descends

theorem passes_keeps (holds : ground.Holds execution host)
    (passes : Passes env ground.waiting execution host last after) : ground.Holds last after := by
  induction passes with
  | stay => exact holds
  | move above moves _ ih => exact ih (holds.descends above moves).holds

theorem ends (env : Environment σ) (holds : ground.Holds execution host) :
    ∃ result after,
      Passes env ground.waiting execution host (.returning result ground.waiting) after := by
  -- Every move lowers the potential.
  induction bound : execution.potential using Nat.strongRecOn generalizing execution host with
  | ind amount ih =>
    obtain above | ⟨result, rfl⟩ := holds.stands.above_or_done
    · obtain ⟨next, between, moves, descends⟩ := holds.advances env above
      obtain ⟨result, after, passes⟩ := ih _ (bound ▸ descends.potential_lt) descends.holds rfl
      exact ⟨result, after, .move above moves passes⟩
    · exact ⟨result, host, .stay⟩

/-- A run comes to the result of its outermost frame if its fuel is not below the potential. -/
theorem runs (env : Environment σ) (outermost : ground.waiting = []) {fuel : Nat}
    (holds : ground.Holds execution host) (enough : execution.potential ≤ fuel) :
    ∃ result after, run env fuel execution host = .ok result after := by
  induction fuel generalizing execution host with
  | zero =>
    obtain above | ⟨result, rfl⟩ := holds.stands.above_or_done
    · obtain ⟨next, between, _, descends⟩ := holds.advances env above
      have lower := descends.potential_lt
      omega
    · exact ⟨result, host, by rw [outermost, run_returned]⟩
  | succ fuel ih =>
    obtain above | ⟨result, rfl⟩ := holds.stands.above_or_done
    · obtain ⟨next, between, moves, descends⟩ := holds.advances env above
      have lower := descends.potential_lt
      obtain ⟨result, after, runs⟩ := ih descends.holds (by omega)
      refine ⟨result, after, ?_⟩
      rw [run_succ above.unfinished, bind_of_ok moves]
      exact runs
    · exact ⟨result, host, by rw [outermost, run_returned]⟩

theorem fair {result : Result} (holds : ground.Holds (.returning result ground.waiting) host) :
    result.Fair ground.context.message := by
  obtain ⟨message, fair, backed⟩ := holds.metered
  rw [backed.eq_bottom] at fair
  exact fair

end Holds

end Ground

end Execution

end Evm
