import Evm.Proofs.View

/-!
# Evaluation by recursion

A frame is evaluated instruction by instruction; where it asks for a nested message, that message
is evaluated to its end, and the frame goes on with the answer. The execution with its list of
waiting frames passes through the same states: what it does above a list of waiting frames is the
evaluation of one frame, and it leaves that list alone.
-/

namespace Evm

namespace Execution

variable {σ : Type} {env : Environment σ}

inductive Turn where
  | goOn (frame : Frame)
  | finish (result : Result)
  | ask (nested : NestedCall) (frame : Frame)

/-- Runs one instruction of a frame. A fault ends the frame like a halt does. -/
def turn (env : Environment σ) (context : Context) (frame : Frame) : HostM σ Turn := fun host =>
  match step env context frame host with
  | .ok (.next, frame) host => .ok (.goOn { frame with index := frame.index + 1 }) host
  | .ok (.jump index, frame) host => .ok (.goOn { frame with index }) host
  | .ok (.halt reason, frame) host => .ok (.finish (haltedResult frame reason)) host
  | .ok (.revert, frame) host => .ok (.finish (revertedResult context.message frame)) host
  | .ok (.call nested, frame) host =>
    .ok (.ask nested { frame with index := frame.index + 1 }) host
  | .error (.fault cause) host => .ok (.finish (.faulted context.message cause)) host
  | .error (.failure failure) host => .error failure host

def afterTurn (env : Environment σ) (context : Context) (waiting : List Suspended) :
    Turn → HostM σ Execution
  | .goOn frame => return .running context frame waiting
  | .finish result => return .returning (← conclude env context result) waiting
  | .ask nested frame => do
    let opening ← enter env nested.message nested.kind 0
    return ofOpening opening (⟨context, frame, nested.resumption⟩ :: waiting)

theorem turn_of_asks {context : Context} {frame left : Frame} {host asked : Host σ}
    {nested : NestedCall} (asks : step env context frame host = .ok (.call nested, left) asked) :
    turn env context frame host = .ok (.ask nested { left with index := left.index + 1 }) asked := by
  simp only [turn, asks]

theorem asks_of_turn {context : Context} {frame asking : Frame} {host asked : Host σ}
    {nested : NestedCall} (turns : turn env context frame host = .ok (.ask nested asking) asked) :
    ∃ left, step env context frame host = .ok (.call nested, left) asked ∧
      asking = { left with index := left.index + 1 } := by
  unfold turn at turns
  split at turns <;> cases turns
  exact ⟨_, ‹_›, rfl⟩

theorem advance_running (context : Context) (frame : Frame) (waiting : List Suspended) :
    advance env (.running context frame waiting) =
      turn env context frame >>= afterTurn env context waiting := by
  funext host
  simp only [advance, turn, bind, EStateM.bind]
  cases step env context frame host with
  | ok stepped after =>
    obtain ⟨control, next⟩ := stepped
    cases control <;> rfl
  | error interrupt after => cases interrupt <;> rfl

inductive Moves (env : Environment σ) : Execution → Host σ → Execution → Host σ → Prop where
  | goOn {context frame waiting host next after} :
    turn env context frame host = .ok (.goOn next) after →
    Moves env (.running context frame waiting) host (.running context next waiting) after
  | finish {context frame waiting host ended turned result after} :
    turn env context frame host = .ok (.finish ended) turned →
    conclude env context ended turned = .ok result after →
    Moves env (.running context frame waiting) host (.returning result waiting) after
  | ask {context frame waiting host nested asking asked opening after} :
    turn env context frame host = .ok (.ask nested asking) asked →
    enter env nested.message nested.kind 0 asked = .ok opening after →
    Moves env (.running context frame waiting) host
      (ofOpening opening (⟨context, asking, nested.resumption⟩ :: waiting)) after
  | resume {suspended result waiting host next after} :
    resume env suspended result host = .ok next after →
    Moves env (.returning result (suspended :: waiting)) host
      (.running suspended.context next waiting) after
  | rest {result host} : Moves env (.returning result []) host (.returning result []) host

theorem Moves.advances {execution next : Execution} {host after : Host σ}
    (moves : Moves env execution host next after) : advance env execution host = .ok next after := by
  cases moves with
  | goOn turns =>
    rw [advance_running, bind_of_ok turns]
    rfl
  | finish turns concludes =>
    rw [advance_running, bind_of_ok turns, afterTurn, bind_of_ok concludes]
    rfl
  | ask turns enters =>
    rw [advance_running, bind_of_ok turns, afterTurn, bind_of_ok enters]
    rfl
  | resume resumes =>
    rw [advance, bind_of_ok resumes]
    rfl
  | rest => rfl

theorem moves_of_advance {execution next : Execution} {host after : Host σ}
    (advances : advance env execution host = .ok next after) :
    Moves env execution host next after := by
  cases execution with
  | running context frame waiting =>
    rw [advance_running] at advances
    obtain ⟨made, turned, turns, advances⟩ := bind_eq_ok.mp advances
    cases made with
    | goOn going =>
      cases advances
      exact .goOn turns
    | finish ended =>
      obtain ⟨result, _, concludes, advances⟩ := bind_eq_ok.mp advances
      cases advances
      exact .finish turns concludes
    | ask nested asking =>
      obtain ⟨opening, _, enters, advances⟩ := bind_eq_ok.mp advances
      cases advances
      exact .ask turns enters
  | returning result waiting =>
    cases waiting with
    | nil =>
      cases advances
      exact .rest
    | cons suspended waiting =>
      obtain ⟨going, _, resumes, advances⟩ := bind_eq_ok.mp advances
      cases advances
      exact .resume resumes

mutual

inductive Answers (env : Environment σ) :
    Message → MessageKind → Nat → Host σ → Result → Host σ → Prop where
  | atOnce {message kind pc host result after} :
    enter env message kind pc host = .ok (.result result) after →
    Answers env message kind pc host result after
  | byFrame {message kind pc host context frame opened ended between result after} :
    enter env message kind pc host = .ok (.frame context frame) opened →
    Evaluates env context frame opened ended between →
    conclude env context ended between = .ok result after →
    Answers env message kind pc host result after

/-- A frame runs to its end. A nested message is answered before the frame goes on. -/
inductive Evaluates (env : Environment σ) :
    Context → Frame → Host σ → Result → Host σ → Prop where
  | goOn {context frame host next between ended after} :
    turn env context frame host = .ok (.goOn next) between →
    Evaluates env context next between ended after →
    Evaluates env context frame host ended after
  | finish {context frame host ended after} :
    turn env context frame host = .ok (.finish ended) after →
    Evaluates env context frame host ended after
  | ask {context frame host nested asking between answer answered next resumed ended after} :
    turn env context frame host = .ok (.ask nested asking) between →
    Answers env nested.message nested.kind 0 between answer answered →
    resume env ⟨context, asking, nested.resumption⟩ answer answered = .ok next resumed →
    Evaluates env context next resumed ended after →
    Evaluates env context frame host ended after

end

/-- The execution has work to do before a result reaches the frames of `base`. -/
def Above (base : List Suspended) : Execution → Prop
  | .running _ _ waiting => base <:+ waiting
  | .returning _ waiting => ∃ first rest, waiting = first :: rest ∧ base <:+ rest

theorem not_above_returned {base : List Suspended} {result : Result} :
    ¬ (Execution.returning result base).Above base := by
  rintro ⟨first, rest, split, suffix⟩
  have shorter := suffix.length_le
  rw [split] at shorter
  exact absurd shorter (Nat.not_succ_le_self _)

/-- Advancing leads from one state to another, with work to do above `base` in each state before
the last. -/
inductive Passes (env : Environment σ) (base : List Suspended) :
    Execution → Host σ → Execution → Host σ → Prop where
  | stay {execution host} : Passes env base execution host execution host
  | move {execution host next between last after} :
    execution.Above base →
    advance env execution host = .ok next between →
    Passes env base next between last after →
    Passes env base execution host last after

namespace Passes

variable {base : List Suspended} {first second third : Execution} {host between after : Host σ}

theorem trans (one : Passes env base first host second between)
    (two : Passes env base second between third after) :
    Passes env base first host third after := by
  induction one with
  | stay => exact two
  | move above advances _ ih => exact .move above advances (ih two)

theorem weaken {lower : List Suspended} (passes : Passes env base first host second after)
    (suffix : lower <:+ base) : Passes env lower first host second after := by
  induction passes with
  | stay => exact .stay
  | @move execution _ _ _ _ _ above advances _ ih =>
    refine .move ?_ advances ih
    cases execution with
    | running context frame waiting => exact suffix.trans above
    | returning result waiting =>
      obtain ⟨top, rest, split, covers⟩ := above
      exact ⟨top, rest, split, suffix.trans covers⟩

theorem eq_of_returned {result : Result}
    (passes : Passes env base (.returning result base) host second after) :
    second = .returning result base ∧ after = host := by
  cases passes with
  | stay => exact ⟨rfl, rfl⟩
  | move above => exact absurd above not_above_returned

theorem unique {one two : Result} {last : Host σ}
    (passes : Passes env base first host (.returning one base) after)
    (others : Passes env base first host (.returning two base) last) :
    two = one ∧ last = after := by
  generalize ends : Execution.returning one base = final at passes
  induction passes with
  | stay =>
    subst ends
    obtain ⟨same, rfl⟩ := others.eq_of_returned
    cases same
    exact ⟨rfl, rfl⟩
  | move above advances rest ih =>
    cases others with
    | stay => exact absurd above not_above_returned
    | move _ advances' others =>
      rw [advances] at advances'
      cases advances'
      exact ih others ends

end Passes

def suspend (context : Context) (left : Frame) (nested : NestedCall) : Suspended :=
  ⟨context, { left with index := left.index + 1 }, nested.resumption⟩

/-- A frame asks for a nested message, the execution runs that to its answer above the frames
that wait, and the frame goes on. -/
structure Interlude (env : Environment σ) (context : Context) (frame : Frame)
    (waiting : List Suspended) (host : Host σ) (nested : NestedCall) (left : Frame)
    (asked : Host σ) (answer : Result) (answered : Host σ) (next : Frame) (resumed : Host σ) :
    Prop where
  asks : step env context frame host = .ok (.call nested, left) asked
  answers : ∃ opening opened, enter env nested.message nested.kind 0 asked = .ok opening opened ∧
    Passes env (suspend context left nested :: waiting)
      (ofOpening opening (suspend context left nested :: waiting)) opened
      (.returning answer (suspend context left nested :: waiting)) answered
  resumes : resume env (suspend context left nested) answer answered = .ok next resumed

mutual

/-- The execution passes from the start of a message to its answer. -/
theorem Answers.passes {message : Message} {kind : MessageKind} {pc : Nat} {host after : Host σ}
    {result : Result} (waiting : List Suspended) :
    Answers env message kind pc host result after →
    ∃ opening opened, enter env message kind pc host = .ok opening opened ∧
      Passes env waiting (ofOpening opening waiting) opened (.returning result waiting) after
  | .atOnce enters => ⟨_, _, enters, .stay⟩
  | .byFrame enters evaluates concludes => ⟨_, _, enters, evaluates.passes waiting concludes⟩

/-- The execution passes from a frame to its result, and leaves the frames below it alone. -/
theorem Evaluates.passes {context : Context} {frame : Frame} {host between after : Host σ}
    {ended result : Result} (waiting : List Suspended) :
    Evaluates env context frame host ended between →
    conclude env context ended between = .ok result after →
    Passes env waiting (.running context frame waiting) host (.returning result waiting) after
  | .goOn turns rest, concludes =>
    .move (List.suffix_refl _) (Moves.goOn turns).advances (rest.passes waiting concludes)
  | .finish turns, concludes =>
    .move (List.suffix_refl _) (Moves.finish turns concludes).advances .stay
  | @Evaluates.ask _ _ _ _ _ nested asking _ _ _ _ _ _ _ turns answers resumes rest, concludes => by
    let suspended : Suspended := ⟨context, asking, nested.resumption⟩
    obtain ⟨opening, opened, enters, passes⟩ := answers.passes (suspended :: waiting)
    have resuming : Passes env waiting (.returning _ (suspended :: waiting)) _
        (.returning result waiting) after :=
      .move ⟨_, _, rfl, List.suffix_refl _⟩ (Moves.resume resumes).advances
        (rest.passes waiting concludes)
    exact .move (List.suffix_refl _) (Moves.ask turns enters).advances
      ((passes.weaken (List.suffix_cons suspended waiting)).trans resuming)

end

/-- A result is handed down through the frames that wait above `base`: each goes on with the
result of the one above it and runs to its end. -/
inductive Unwinds (env : Environment σ) (base : List Suspended) :
    List Suspended → Result → Host σ → Result → Host σ → Prop where
  | done {result host} : Unwinds env base base result host result host
  | next {suspended waiting answer host frame resumed ended between result concluded final after} :
    resume env suspended answer host = .ok frame resumed →
    Evaluates env suspended.context frame resumed ended between →
    conclude env suspended.context ended between = .ok result concluded →
    Unwinds env base waiting result concluded final after →
    Unwinds env base (suspended :: waiting) answer host final after

namespace Unwinds

variable {base waiting : List Suspended} {answer final : Result} {host after : Host σ}

theorem length_le (unwinds : Unwinds env base waiting answer host final after) :
    base.length ≤ waiting.length := by
  induction unwinds with
  | done => exact Nat.le_refl _
  | next _ _ _ _ ih => exact Nat.le_succ_of_le ih

theorem eq_of_base (unwinds : Unwinds env base base answer host final after) :
    answer = final ∧ host = after := by
  cases unwinds with
  | done => exact ⟨rfl, rfl⟩
  | next _ _ _ rest =>
    exact absurd rest.length_le (Nat.not_succ_le_self _)

theorem uncons {suspended : Suspended}
    (unwinds : Unwinds env base (suspended :: waiting) answer host final after)
    (suffix : base <:+ waiting) :
    ∃ frame resumed ended between result concluded,
      resume env suspended answer host = .ok frame resumed ∧
      Evaluates env suspended.context frame resumed ended between ∧
      conclude env suspended.context ended between = .ok result concluded ∧
      Unwinds env base waiting result concluded final after := by
  cases unwinds with
  | done =>
    exact absurd suffix.length_le (Nat.not_succ_le_self _)
  | next resumes evaluates concludes rest =>
    exact ⟨_, _, _, _, _, _, resumes, evaluates, concludes, rest⟩

end Unwinds

/-- The state of an execution comes to `final` above `base` by recursion. -/
def Comes (env : Environment σ) (base : List Suspended) (final : Result) (after : Host σ) :
    Execution → Host σ → Prop
  | .running context frame waiting, host =>
    ∃ ended between result concluded,
      Evaluates env context frame host ended between ∧
      conclude env context ended between = .ok result concluded ∧
      Unwinds env base waiting result concluded final after
  | .returning result waiting, host => Unwinds env base waiting result host final after

theorem Comes.answers {base waiting : List Suspended} {final : Result} {host opened after : Host σ}
    {message : Message} {kind : MessageKind} {pc : Nat} {opening : Opening}
    (enters : enter env message kind pc host = .ok opening opened)
    (comes : Comes env base final after (ofOpening opening waiting) opened) :
    ∃ answer answered, Answers env message kind pc host answer answered ∧
      Unwinds env base waiting answer answered final after := by
  cases opening with
  | result answer => exact ⟨answer, opened, .atOnce enters, comes⟩
  | frame context frame =>
    obtain ⟨ended, between, answer, answered, evaluates, concludes, unwinds⟩ := comes
    exact ⟨answer, answered, .byFrame enters evaluates concludes, unwinds⟩

theorem Comes.move {base : List Suspended} {final : Result} {host between after : Host σ}
    {execution next : Execution} (above : execution.Above base)
    (moves : Moves env execution host next between)
    (comes : Comes env base final after next between) :
    Comes env base final after execution host := by
  cases moves with
  | goOn turns =>
    obtain ⟨ended, last, result, concluded, evaluates, concludes, unwinds⟩ := comes
    exact ⟨ended, last, result, concluded, .goOn turns evaluates, concludes, unwinds⟩
  | finish turns concludes => exact ⟨_, _, _, _, .finish turns, concludes, comes⟩
  | ask turns enters =>
    obtain ⟨answer, answered, answers, unwinds⟩ := comes.answers enters
    obtain ⟨going, resumed, ended, last, result, concluded, resumes, evaluates, concludes, unwinds⟩ :=
      unwinds.uncons above
    exact ⟨ended, last, result, concluded, .ask turns answers resumes evaluates, concludes, unwinds⟩
  | resume resumes =>
    obtain ⟨ended, last, result, concluded, evaluates, concludes, unwinds⟩ := comes
    exact .next resumes evaluates concludes unwinds
  | rest => exact comes

theorem Passes.comes {base : List Suspended} {execution : Execution} {host after : Host σ}
    {final : Result} (passes : Passes env base execution host (.returning final base) after) :
    Comes env base final after execution host := by
  generalize ends : Execution.returning final base = last at passes
  induction passes with
  | stay =>
    subst ends
    exact .done
  | move above advances _ ih => exact (ih ends).move above (moves_of_advance advances)

/-- A message is answered where the execution, whatever frames wait below, passes from its start
to its answer. -/
theorem answers_iff_passes {message : Message} {kind : MessageKind} {pc : Nat}
    {host after : Host σ} {result : Result} (waiting : List Suspended) :
    Answers env message kind pc host result after ↔
      ∃ opening opened, enter env message kind pc host = .ok opening opened ∧
        Passes env waiting (ofOpening opening waiting) opened (.returning result waiting) after := by
  constructor
  · exact Answers.passes waiting
  · rintro ⟨opening, opened, enters, passes⟩
    obtain ⟨answer, answered, answers, unwinds⟩ := passes.comes.answers enters
    obtain ⟨rfl, rfl⟩ := unwinds.eq_of_base
    exact answers

theorem answers_iff_eq {message : Message} {kind : MessageKind} {pc : Nat} {opening : Opening}
    {host opened after : Host σ} {result : Result} {waiting : List Suspended}
    (enters : enter env message kind pc host = .ok opening opened)
    (passes : Passes env waiting (ofOpening opening waiting) opened (.returning result waiting) after)
    (found : Result) (last : Host σ) :
    Answers env message kind pc host found last ↔ found = result ∧ last = after := by
  rw [answers_iff_passes waiting]
  constructor
  · rintro ⟨_, _, enters', passes'⟩
    rw [enters] at enters'
    cases enters'
    exact passes.unique passes'
  · rintro ⟨rfl, rfl⟩
    exact ⟨opening, opened, enters, passes⟩

theorem run_zero {execution : Execution}
    (unfinished : ∀ result, execution ≠ .returning result []) :
    run env 0 execution = throw .unfinished := by
  cases execution with
  | running context frame waiting => rfl
  | returning result waiting =>
    cases waiting with
    | nil => exact absurd rfl (unfinished result)
    | cons suspended waiting => rfl

theorem run_succ {execution : Execution} (unfinished : ∀ result, execution ≠ .returning result [])
    (fuel : Nat) : run env (fuel + 1) execution = advance env execution >>= run env fuel := by
  cases execution with
  | running context frame waiting => rfl
  | returning result waiting =>
    cases waiting with
    | nil => exact absurd rfl (unfinished result)
    | cons suspended waiting => rfl

@[simp] theorem run_returned (fuel : Nat) (result : Result) (host : Host σ) :
    run env fuel (.returning result []) host = .ok result host := by
  cases fuel <;> rfl

theorem Above.unfinished {base : List Suspended} {execution : Execution}
    (above : execution.Above base) (result : Result) : execution ≠ .returning result [] := by
  rintro rfl
  obtain ⟨_, _, split, _⟩ := above
  cases split

theorem above_or_returned (execution : Execution) :
    execution.Above [] ∨ ∃ result, execution = .returning result [] := by
  cases execution with
  | running context frame waiting => exact .inl List.nil_suffix
  | returning result waiting =>
    cases waiting with
    | nil => exact .inr ⟨result, rfl⟩
    | cons suspended waiting => exact .inl ⟨suspended, waiting, rfl, List.nil_suffix⟩

theorem passes_of_run {fuel : Nat} {execution : Execution} {host after : Host σ} {result : Result}
    (runs : run env fuel execution host = .ok result after) :
    Passes env [] execution host (.returning result []) after := by
  induction fuel generalizing execution host with
  | zero =>
    obtain above | ⟨found, rfl⟩ := above_or_returned execution
    · rw [run_zero above.unfinished] at runs
      cases runs
    · rw [run_returned] at runs
      cases runs
      exact .stay
  | succ fuel ih =>
    obtain above | ⟨found, rfl⟩ := above_or_returned execution
    · rw [run_succ above.unfinished] at runs
      obtain ⟨next, between, advances, runs⟩ := bind_eq_ok.mp runs
      exact .move above advances (ih runs)
    · rw [run_returned] at runs
      cases runs
      exact .stay

end Execution

end Evm
