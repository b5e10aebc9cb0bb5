import Evm.Proofs.Reachable

/-!
# Laws

A law is an order of views that every kind of write respects. Every run then respects it from its
start to any state that it passes through: a frame that fails comes back to a view that came before,
and one that makes a contract stores its code on top of all that was done meanwhile.
-/

namespace Evm

open Execution

variable {σ : Type}

namespace View

variable (view : View) (address : Address)

def send (sender recipient : Address) (value : Word) : View :=
  let payer := view.account sender
  let paid := view.setAccount sender { payer with balance := payer.balance - value }
  let payee := paid.account recipient
  paid.setAccount recipient { payee with balance := payee.balance + value }

def IsFree : Prop := (view.account address).nonce = 0 ∧ (view.account address).hasCode = false

def make : View := view.setAccount address { view.account address with nonce := 1 }

def deploy (code : Bytes) : View :=
  let account := view.account address
  (view.setAccount address { account with codeHash := keccakWord code }).setCode address code

variable {view address}

theorem isFree_of_blank (blank : view.account address = .blank) : view.IsFree address := by
  rw [IsFree, blank]
  exact ⟨rfl, by simp [Account.hasCode, Account.blank]⟩

end View

/-- An order of views that all writes to a world respect. The code of a contract is stored on top
of what was done since its account was made. -/
structure Law (fork : Fork) (order : View → View → Prop) : Prop where
  same : ∀ {view after : View}, after.account = view.account → after.code = view.code →
    order view after
  trans : ∀ {first second third}, order first second → order second third → order first third
  sends : ∀ {view : View} {sender recipient value}, sender ≠ recipient →
    value ≤ (view.account sender).balance → order view (view.send sender recipient value)
  takesNonce : ∀ {view : View} {message}, view.HasNonce message →
    order view (view.nonceTaken message)
  makes : ∀ {view : View} {address}, view.IsFree address → order view (view.make address)
  deploys : ∀ {start view : View} {address code}, start.IsFree address →
    order (start.make address) view → code.size ≤ codeLimit →
    (.london ≤ fork → code[0]? ≠ some 0xef) → order start (view.deploy address code)

namespace Host

/-- The later host extends the earlier one, and shows what an order allows. -/
structure Follows (order : View → View → Prop) (host after : Host σ) : Prop where
  extend : host.Extends after
  ordered : order host.view after.view

def Obeys (order : View → View → Prop) (host after : Host σ) : Prop :=
  host.InOrder → host.Follows order after

end Host

theorem Host.obeys_of_run {order : View → View → Prop} {α : Type} {action : HostM σ α}
    (notes : HostM.Keeps Host.Notes action)
    (shows : ∀ host, host.InOrder → ∃ value after, action host = .ok value after ∧
      order host.view after.view) :
    HostM.Keeps (Host.Obeys order) action := by
  intro host after value runs inOrder
  obtain ⟨_, _, runs', ordered⟩ := shows host inOrder
  rw [runs] at runs'
  cases runs'
  exact ⟨notes runs inOrder, ordered⟩

/-- A transfer that is made moves its value, or there is nothing to move, or nowhere to move it. -/
theorem Host.transfer_run {host : Host σ} (inOrder : host.InOrder) (sender recipient : Address)
    (value : Word) :
    ∃ sent after, Host.transfer sender recipient value host = .ok sent after ∧
      (after.view = host.view ∧
          (sent → value = 0 ∨ sender = recipient ∧ value ≤ (host.view.account sender).balance) ∨
        sender ≠ recipient ∧ value ≤ (host.view.account sender).balance ∧
          after.view = host.view.send sender recipient value) := by
  unfold Host.transfer
  split
  · exact ⟨true, host, rfl, .inl ⟨rfl, fun _ => .inl ‹_›⟩⟩
  rw [bind_of_ok (account_run inOrder sender), Word.sub?]
  by_cases enough : value ≤ (host.view.account sender).balance
  · simp only [if_pos enough]
    split
    · exact ⟨true, host, rfl, .inl ⟨rfl, fun _ => .inr ⟨‹_›, enough⟩⟩⟩
    · obtain ⟨paid, puts, move⟩ := putAccount_run inOrder sender
        { host.view.account sender with balance := (host.view.account sender).balance - value }
      have paidInOrder := move.inOrder inOrder
      obtain ⟨after, puts', move'⟩ := putAccount_run paidInOrder recipient
        { paid.view.account recipient with
          balance := (paid.view.account recipient).balance + value }
      refine ⟨true, after, ?_, .inr ⟨‹_›, enough, ?_⟩⟩
      · rw [bind_of_ok puts, bind_of_ok (account_run paidInOrder recipient), bind_of_ok puts']
        rfl
      · rw [move'.view_eq, move.view_eq]
        rfl
  · simp only [if_neg enough]
    exact ⟨false, host, rfl, .inl ⟨rfl, by simp⟩⟩

theorem Host.transfer_ne_false {host after : Host σ} {sender recipient : Address} {value : Word}
    (inOrder : host.InOrder) (enough : value ≤ (host.view.account sender).balance) :
    Host.transfer sender recipient value host ≠ .ok false after := by
  intro runs
  unfold Host.transfer at runs
  split at runs
  · cases runs
  rw [bind_of_ok (account_run inOrder sender), Word.sub?] at runs
  simp only [if_pos enough] at runs
  split at runs
  · cases runs
  · obtain ⟨_, _, _, runs⟩ := bind_eq_ok.mp runs
    obtain ⟨_, _, _, runs⟩ := bind_eq_ok.mp runs
    obtain ⟨_, _, _, runs⟩ := bind_eq_ok.mp runs
    cases runs

namespace Law

variable {order : View → View → Prop} {host after last : Host σ}

section Writes

variable {fork : Fork} (law : Law fork order)

include law

theorem refl (view : View) : order view view := law.same rfl rfl

theorem follows_refl (host : Host σ) : host.Follows order host := ⟨.refl host, law.refl _⟩

theorem follows_trans (first : host.Follows order after) (second : after.Follows order last) :
    host.Follows order last :=
  ⟨first.extend.trans second.extend, law.trans first.ordered second.ordered⟩

theorem follows_of_same (move : host.Move host.view [] after) : host.Follows order after := by
  refine ⟨move.extends_of_same, ?_⟩
  rw [move.view_eq]
  exact law.refl _

theorem touchAddress_obeys (address : Address) :
    HostM.Keeps (Host.Obeys order) (Host.touchAddress address : HostM σ Bool) := by
  refine Host.obeys_of_run (Host.notes_stable.touchAddress address) ?_
  intro host _
  obtain ⟨after, runs, move⟩ := Host.touchAddress_run host address
  exact ⟨_, after, runs, move.view_eq ▸ law.same rfl rfl⟩

theorem touchSlot_obeys (address : Address) (key : Word) :
    HostM.Keeps (Host.Obeys order) (Host.touchSlot address key : HostM σ Bool) := by
  refine Host.obeys_of_run (Host.notes_stable.touchSlot address key) ?_
  intro host _
  obtain ⟨after, runs, move⟩ := Host.touchSlot_run host address key
  exact ⟨_, after, runs, move.view_eq ▸ law.same rfl rfl⟩

theorem putSlot_obeys (address : Address) (key value : Word) :
    HostM.Keeps (Host.Obeys order) (Host.putSlot address key value : HostM σ Unit) := by
  refine Host.obeys_of_run (Host.notes_stable.putSlot address key value) ?_
  intro host inOrder
  obtain ⟨after, runs, move⟩ := Host.putSlot_run inOrder address key value
  exact ⟨_, after, runs, move.view_eq ▸ law.same rfl rfl⟩

theorem putTransient_obeys (address : Address) (key value : Word) :
    HostM.Keeps (Host.Obeys order) (Host.putTransient address key value : HostM σ Unit) := by
  refine Host.obeys_of_run (Host.notes_stable.putTransient address key value) ?_
  intro host _
  obtain ⟨after, runs, move⟩ := Host.putTransient_run host address key value
  exact ⟨_, after, runs, move.view_eq ▸ law.same rfl rfl⟩

theorem transfer_obeys (sender recipient : Address) (value : Word) :
    HostM.Keeps (Host.Obeys order) (Host.transfer sender recipient value : HostM σ Bool) := by
  refine Host.obeys_of_run (Host.notes_stable.transfer sender recipient value) ?_
  intro host inOrder
  obtain ⟨sent, after, runs, ⟨same, _⟩ | ⟨differ, enough, moved⟩⟩ :=
    Host.transfer_run inOrder sender recipient value
  · exact ⟨sent, after, runs, same ▸ law.refl _⟩
  · exact ⟨sent, after, runs, moved ▸ law.sends differ enough⟩

theorem stable : Host.Stable (Host.Obeys order : Host σ → Host σ → Prop) where
  refl host _ := law.follows_refl host
  trans first second inOrder := by
    have follows := first inOrder
    exact law.follows_trans follows (second (follows.extend.inOrder inOrder))
  rereads _ _ same inOrder := law.follows_of_same (Host.move_of_world_eq (same inOrder))
  reports _ _ _ := law.follows_of_same ⟨rfl, by simp, rfl⟩
  touchAddress := law.touchAddress_obeys
  touchSlot := law.touchSlot_obeys
  putSlot := law.putSlot_obeys
  putTransient := law.putTransient_obeys
  transfer := law.transfer_obeys

end Writes

theorem deploy_view {env : Environment σ} {message : Message} {deployment : Deployment}
    {ended result : Result} (inOrder : host.InOrder)
    (deploys : deploy env message deployment ended host = .ok result after)
    (success : result.isSuccess) :
    ended.isSuccess ∧ ended.output.size ≤ codeLimit ∧
      (.london ≤ env.fork → ended.output[0]? ≠ some 0xef) ∧
      after.view = host.view.deploy deployment.address ended.output := by
  cases deploy_ok deploys with
  | failed fails => cases fails.symm.trans success
  | refused => cases success
  | stored succeeded _ fault reads hashes puts =>
    rw [Host.account_run inOrder] at reads
    cases reads
    obtain ⟨_, move⟩ := of_run_value hashes (Host.putAccount_run inOrder ..)
    obtain ⟨_, move'⟩ := of_run_value puts (Host.putCode_run (move.inOrder inOrder) ..)
    unfold deployFault? at fault
    refine ⟨succeeded, ?_, ?_, ?_⟩
    · by_contra exceeds
      rw [if_pos (by omega)] at fault
      cases fault
    · intro late reserved
      split at fault
      · cases fault
      · rw [if_pos ⟨late, reserved⟩] at fault
        cases fault
    · rw [move'.view_eq, move.view_eq]
      rfl

/-- The hosts that a frame comes back to. Where it makes a contract, the address of that was free,
and the account was made before the frame was opened. -/
structure Roots (order : View → View → Prop) (context : Context) (start opened : Host σ) : Prop
    extends Anchors context start opened where
  ordered : order start.view opened.view
  frees : ∀ {deployment}, context.deployment = some deployment →
    start.view.IsFree deployment.address ∧
      order (start.view.make deployment.address) opened.view

def Begun (order : View → View → Prop) (host : Host σ) : Opening → Host σ → Prop
  | .frame context _, opened => ∃ start, host.Follows order start ∧ Roots order context start opened
  | .result _, last => host.Follows order last

section Boundary

variable {env : Environment σ} (law : Law env.fork order) {start opened : Host σ}
  {context : Context} {message : Message}

include law

theorem conclude_follows {ended result : Result} (roots : Roots order context start opened)
    (follows : opened.Follows order host) (inOrder : opened.InOrder)
    (concludes : conclude env context ended host = .ok result after) :
    start.Follows order after := by
  have within := deploys_of_conclude concludes
  obtain ⟨_, _, concludes', extend, undone, _⟩ :=
    conclude_run env roots.toAnchors follows.extend inOrder within
  rw [concludes] at concludes'
  cases concludes'
  refine ⟨extend, ?_⟩
  cases success : result.isSuccess with
  | false =>
    rw [(undone success).view_eq]
    exact law.refl _
  | true =>
    -- `conclude_run` says nothing of the view of a frame that succeeds, so its parts are followed.
    obtain ⟨settled, settles, extend', kept, _⟩ := settle_run ended follows.extend inOrder
    rw [← roots.checkpoint_eq] at settles
    unfold conclude at concludes
    rw [bind_of_ok settles] at concludes
    obtain ⟨given, answered, answers, exits⟩ := bind_eq_ok.mp concludes
    obtain ⟨_, exits', move⟩ := exit_run env context.message.depth given answered
    rw [exits] at exits'
    cases exits'
    rw [move.view_eq]
    obtain ⟨_, rfl, rfl⟩ | ⟨deployment, deployment_eq, answers⟩ := deployFor_ok answers
    · rw [kept success]
      exact law.trans roots.ordered follows.ordered
    · obtain ⟨succeeded, small, unreserved, stored⟩ :=
        deploy_view (extend'.inOrder inOrder) answers success
      rw [stored, kept succeeded]
      obtain ⟨free, made⟩ := roots.frees deployment_eq
      -- The code comes on top of all that was done since the account was made.
      exact law.deploys free (law.trans made follows.ordered) small unreserved

theorem afterFailure (view : View) : order view (view.afterFailure message env.fork) := by
  unfold View.afterFailure
  split
  · have taken := law.takesNonce ‹_›
    split
    · exact law.trans taken (law.same rfl rfl)
    · exact taken
  · exact law.refl view

theorem makeAccount_follows {deployment : Deployment} {cause : Option Exception}
    (inOrder : host.InOrder) (anchored : deployment.checkpoint = host.journal.size)
    (makes : makeAccount message deployment host = .ok cause after) :
    host.Follows order after ∧ (cause = none → host.view.IsFree deployment.address ∧
      order (host.view.make deployment.address) after.view) := by
  obtain ⟨_, _, makes', extend, undone⟩ := makeAccount_run message deployment inOrder anchored
  rw [makes] at makes'
  cases makes'
  cases cause with
  | some cause => exact ⟨law.follows_of_same (undone rfl), by simp⟩
  | none =>
    unfold makeAccount at makes
    rw [bind_of_ok (Host.account_run inOrder deployment.address)] at makes
    split at makes
    · cases makes
    · obtain ⟨made, puts, move⟩ := Host.putAccount_run inOrder deployment.address
        { host.view.account deployment.address with nonce := 1 }
      rw [bind_of_ok puts] at makes
      obtain ⟨sent, paid, transfers, makes⟩ := bind_eq_ok.mp makes
      have free : host.view.IsFree deployment.address := by
        obtain ⟨fresh, codeless⟩ := not_or.mp ‹_›
        exact ⟨not_not.mp fresh, by simpa using codeless⟩
      have sends := law.transfer_obeys _ _ _ transfers (move.inOrder inOrder)
      have ordered : order (host.view.make deployment.address) paid.view := by
        rw [View.make, ← move.view_eq]
        exact sends.ordered
      cases sent with
      | true =>
        cases makes
        exact ⟨⟨extend, law.trans (law.makes free) ordered⟩, fun _ => ⟨free, ordered⟩⟩
      | false =>
        obtain ⟨_, _, _, makes⟩ := bind_eq_ok.mp makes
        cases makes

theorem openFrame_begun {deployment : Option Deployment} {pc : Nat} {opening : Opening}
    (follows : host.Follows order start)
    (roots : Roots order ⟨message, Code.ofBytes message.code, opened.journal.size, deployment⟩ start
      opened) (inOrder : opened.InOrder)
    (opens : openFrame env message deployment pc opened = .ok opening after) :
    Begun order host opening after := by
  obtain ⟨index, rfl, rfl⟩ | ⟨result, concludes, rfl⟩ := openFrame_ok opens
  · exact ⟨start, follows, roots⟩
  · exact law.follows_trans follows
      (law.conclude_follows roots (law.follows_refl opened) inOrder concludes)

/-- A creation fails before its code runs, or a frame can be opened for it. -/
theorem beginCreate_roots {begun : Result ⊕ Message × Deployment}
    (creates : message.isCreation = true) (inOrder : host.InOrder)
    (begins : beginCreate env message host = .ok begun opened) :
    match begun with
    | .inl _ => host.Follows order opened
    | .inr (created, deployment) => ∃ start, host.Follows order start ∧ opened.InOrder ∧
      Roots order ⟨created, Code.ofBytes created.code, opened.journal.size, some deployment⟩ start
        opened := by
  have follows_of {claimed : Option Address} {start : Host σ}
      (claims : claimAddress env message host = .ok claimed start) :
      start.InOrder ∧ host.Follows order start := by
    have spends := of_run claims (claimAddress_run env creates inOrder)
    refine ⟨spends.inOrder inOrder, spends.extends, ?_⟩
    rw [spends.view_eq]
    exact law.afterFailure host.view
  cases beginCreate_ok begins with
  | exhausted claims => exact (follows_of claims).2
  | failed claims makes =>
    obtain ⟨startInOrder, follows⟩ := follows_of claims
    exact law.follows_trans follows (law.makeAccount_follows startInOrder rfl makes).1
  | @made _ start _ claims makes =>
    obtain ⟨startInOrder, follows⟩ := follows_of claims
    obtain ⟨follows', made_of⟩ := law.makeAccount_follows startInOrder rfl makes
    refine ⟨start, follows, follows'.extend.inOrder startInOrder,
      ⟨rfl, follows'.extend, rfl⟩, follows'.ordered, ?_⟩
    rintro deployment ⟨⟩
    exact made_of rfl

theorem enter_begun {kind : MessageKind} {pc : Nat} {opening : Opening} (inOrder : host.InOrder)
    (enters : enter env message kind pc host = .ok opening after) :
    Begun order host opening after := by
  have steady : Host.Steady (Host.Obeys order : Host σ → Host σ → Prop) := law.stable.toSteady
  cases creates : message.isCreation with
  | true =>
    obtain ⟨told, announces, runs | opens⟩ := enter_creation_ok creates enters
    all_goals
      have follows := announce_keeps steady env message kind announces inOrder
      have toldInOrder := follows.extend.inOrder inOrder
    · obtain ⟨result, between, begins, exits, rfl⟩ := runs
      have failed : told.Follows order between := law.beginCreate_roots creates toldInOrder begins
      have exited := exit_keeps steady env _ _ exits (failed.extend.inOrder toldInOrder)
      exact law.follows_trans (law.follows_trans follows failed) exited
    · obtain ⟨created, deployment, between, begins, opens⟩ := opens
      obtain ⟨start, follows', openedInOrder, roots⟩ :=
        law.beginCreate_roots creates toldInOrder begins
      exact law.openFrame_begun (law.follows_trans follows follows') roots openedInOrder opens
  | false =>
    obtain ⟨told, announces, runs | opens⟩ := enter_call_ok creates enters
    all_goals
      have follows := announce_keeps steady env message kind announces inOrder
      have toldInOrder := follows.extend.inOrder inOrder
    · obtain ⟨contract, result, ran, runs, exits, rfl⟩ := runs
      obtain ⟨move, _⟩ := runPrecompile_moves runs
      have exited := exit_keeps steady env _ _ exits (move.inOrder toldInOrder)
      exact law.follows_trans (law.follows_trans follows (law.follows_of_same move)) exited
    · refine law.openFrame_begun follows ⟨⟨rfl, .refl told, rfl⟩, law.refl _, ?_⟩ toldInOrder opens
      rintro _ ⟨⟩

end Boundary

/-- The hosts that waiting frames come back to. Each follows the one before, and the first follows
the host of the message from outside. -/
inductive Awaits (order : View → View → Prop) (base : Host σ) : List Suspended → Host σ → Prop where
  | outermost {host : Host σ} : base.Follows order host → Awaits order base [] host
  | nested {suspended : Suspended} {waiting : List Suspended} {start opened before host : Host σ} :
    Awaits order base waiting start → Roots order suspended.context start opened →
    opened.Follows order before → Marks suspended.resumption.receiver before →
    before.Follows order host → Awaits order base (suspended :: waiting) host

/-- A state of the execution, with the hosts that its frames come back to. -/
def Stands (order : View → View → Prop) (base : Host σ) : Execution → Host σ → Prop
  | .running context _ waiting, host => ∃ start opened, Awaits order base waiting start ∧
    Roots order context start opened ∧ opened.Follows order host
  | .returning _ waiting, host => Awaits order base waiting host

section Runs

variable {env : Environment σ} (law : Law env.fork order) {base : Host σ} {context : Context}
  {frame : Frame} {waiting : List Suspended} {execution next : Execution}

include law

theorem awaits_of_follows (awaits : Awaits order base waiting host)
    (follows : host.Follows order after) : Awaits order base waiting after := by
  cases awaits with
  | outermost first => exact .outermost (law.follows_trans first follows)
  | nested rest roots opened marks before =>
    exact .nested rest roots opened marks (law.follows_trans before follows)

theorem follows_of_awaits (awaits : Awaits order base waiting host) : base.Follows order host := by
  induction awaits with
  | outermost first => exact first
  | nested rest roots opened marks before ih =>
    have began := law.follows_trans ih ⟨roots.extend, roots.ordered⟩
    exact law.follows_trans began (law.follows_trans opened before)

theorem follows_of_stands (stands : Stands order base execution host) :
    base.Follows order host := by
  cases execution with
  | running context frame waiting =>
    obtain ⟨start, opened, awaits, roots, follows⟩ := stands
    have began := law.follows_trans (law.follows_of_awaits awaits) ⟨roots.extend, roots.ordered⟩
    exact law.follows_trans began follows
  | returning result waiting => exact law.follows_of_awaits stands

theorem stands_of_begun {opening : Opening} (awaits : Awaits order base waiting host)
    (begun : Begun order host opening after) :
    Stands order base (ofOpening opening waiting) after := by
  cases opening with
  | frame inner first =>
    obtain ⟨start, follows, roots⟩ := begun
    exact ⟨start, after, law.awaits_of_follows awaits follows, roots, law.follows_refl after⟩
  | result result => exact law.awaits_of_follows awaits begun

theorem turn_follows {made : Turn} (inOrder : host.InOrder)
    (turns : turn env context frame host = .ok made after) : host.Follows order after :=
  turn_keeps (step_stable law.stable env context) trivial turns inOrder

theorem prepareCall_follows {mode : CallMode} {prepared : Option NestedCall} {left : Frame}
    (inOrder : host.InOrder)
    (prepares : Instruction.prepareCall env.fork context mode frame host =
      .ok (prepared, left) after) : host.Follows order after :=
  ((Instruction.prepareCall_keeps law.stable.toSteady InstructionM.lasts_true env.fork context
    mode).of_ok trivial prepares).2 inOrder

theorem asks_follows {nested : NestedCall} {asking : Frame} (inOrder : host.InOrder)
    (turns : turn env context frame host = .ok (.ask nested asking) after) :
    ∃ before, host.Follows order before ∧ Marks nested.resumption.receiver before ∧
      before.Follows order after := by
  obtain ⟨before, _, _, marks, call | creation⟩ := turn_marks inOrder turns
  · obtain ⟨mode, made, _, _, _, _, prepares, sends⟩ := call
    have prepared := law.prepareCall_follows inOrder prepares
    have sent := Instruction.sendValue_keeps law.stable mode made.message sends
      (prepared.extend.inOrder inOrder)
    exact ⟨before, prepared, marks, sent⟩
  · obtain ⟨_, _, _, _, rfl, rfl⟩ := creation
    exact ⟨_, law.follows_refl _, marks, law.follows_refl _⟩

theorem resume_follows {suspended : Suspended} {result : Result} {before : Host σ}
    (marks : Marks suspended.resumption.receiver before) (follows : before.Follows order host)
    (inOrder : before.InOrder) (resumes : resume env suspended result host = .ok frame after) :
    before.Follows order after := by
  obtain ⟨_, _, resumes', kept, undone⟩ :=
    resume_run env result marks (fits_of_resume resumes) follows.extend inOrder
  rw [resumes] at resumes'
  cases resumes'
  by_cases keeps : result.isSuccess ∨ suspended.resumption.receiver = .create
  · exact law.follows_trans follows (law.follows_of_same (kept keeps))
  · obtain ⟨fails, calls⟩ := not_or.mp keeps
    exact law.follows_of_same (undone (by simpa using fails) calls)

theorem advance_stands (inOrder : base.InOrder) (stands : Stands order base execution host)
    (advances : advance env execution host = .ok next after) : Stands order base next after := by
  have hostInOrder := (law.follows_of_stands stands).extend.inOrder inOrder
  cases moves_of_advance advances with
  | goOn turns =>
    obtain ⟨start, opened, awaits, roots, follows⟩ := stands
    exact ⟨start, opened, awaits, roots,
      law.follows_trans follows (law.turn_follows hostInOrder turns)⟩
  | finish turns concludes =>
    obtain ⟨start, opened, awaits, roots, follows⟩ := stands
    have follows' := law.follows_trans follows (law.turn_follows hostInOrder turns)
    have startInOrder := (law.follows_of_awaits awaits).extend.inOrder inOrder
    have openedInOrder := roots.extend.inOrder startInOrder
    exact law.awaits_of_follows awaits (law.conclude_follows roots follows' openedInOrder concludes)
  | ask turns enters =>
    obtain ⟨start, opened, awaits, roots, follows⟩ := stands
    obtain ⟨before, prepared, marks, sent⟩ := law.asks_follows hostInOrder turns
    have askedInOrder := sent.extend.inOrder (prepared.extend.inOrder hostInOrder)
    refine law.stands_of_begun ?_ (law.enter_begun askedInOrder enters)
    exact .nested awaits roots (law.follows_trans follows prepared) marks sent
  | rest => exact stands
  | resume resumes =>
    cases stands with
    | nested awaits roots opened marks before =>
      -- A failed call comes back to the mark, behind what has followed since.
      have startInOrder := (law.follows_of_awaits awaits).extend.inOrder inOrder
      have beforeInOrder := opened.extend.inOrder (roots.extend.inOrder startInOrder)
      have resumes' := law.resume_follows marks before beforeInOrder resumes
      exact ⟨_, _, awaits, roots, law.follows_trans opened resumes'⟩

theorem passes_stands {last : Execution} (inOrder : base.InOrder)
    (stands : Stands order base execution host)
    (passes : Passes env [] execution host last after) : Stands order base last after := by
  induction passes with
  | stay => exact stands
  | move _ advances _ ih => exact ih (law.advance_stands inOrder stands advances)

theorem follows_of_reaches {message : Message} {pc : Nat} {reached : Host σ} (inOrder : host.InOrder)
    (reaches : Reaches env message pc host execution reached) :
    ∃ warmed, warmUp (warmFromStart env message) host = .ok () warmed ∧
      warmed.Follows order reached := by
  obtain ⟨warmed, opening, opened, warms, enters, passes⟩ := reaches
  have warmedInOrder : warmed.InOrder := by
    cases warms
    exact inOrder
  have began := law.stands_of_begun (.outermost (law.follows_refl warmed))
    (law.enter_begun warmedInOrder enters)
  have stands := law.passes_stands warmedInOrder began passes
  exact ⟨warmed, warms, law.follows_of_stands stands⟩

/-- Every state that a message from outside passes through is lawful. -/
theorem of_reaches {message : Message} {pc : Nat} {reached : Host σ} (inOrder : host.InOrder)
    (reaches : Reaches env message pc host execution reached) : order host.view reached.view := by
  obtain ⟨warmed, warms, follows⟩ := law.follows_of_reaches inOrder reaches
  have warm : order host.view warmed.view := by
    cases warms
    exact law.same rfl rfl
  exact law.trans warm follows.ordered

end Runs

theorem unrestricted (fork : Fork) : Law fork fun _ _ => True where
  same _ _ := trivial
  trans _ _ := trivial
  sends _ _ := trivial
  takesNonce _ := trivial
  makes _ := trivial
  deploys _ _ _ _ := trivial

end Law

/-- While the journal is as it was, so is all that the host shows. -/
theorem Execution.Reaches.view_eq {env : Environment σ} {message : Message} {pc : Nat}
    {execution : Execution} {host reached : Host σ} (inOrder : host.InOrder)
    (reaches : Reaches env message pc host execution reached)
    (same : reached.journal.size = host.journal.size) :
    ∃ warmed, warmUp (warmFromStart env message) host = .ok () warmed ∧
      reached.view = warmed.view := by
  obtain ⟨warmed, warms, follows⟩ := (Law.unrestricted env.fork).follows_of_reaches inOrder reaches
  have size_eq : warmed.journal.size = host.journal.size := by
    cases warms
    rfl
  exact ⟨warmed, warms, (Host.Extends.refl reached).view_eq follows.extend (same.trans size_eq.symm)⟩

end Evm
