import Evm.Proofs.Balances
import Evm.Proofs.Contracts
import Evm.Proofs.Passages
import Evm.Proofs.Recursion

/-!
# Value moves by instruction

Four kinds of instruction move value. A run without any of them changes no balance, whatever value
its message names, unless it is a creation that succeeds: the contract that is made gets the value
of the message, also from outside.
-/

namespace Evm

open Execution Instruction InstructionM

variable {σ : Type}

namespace View

variable {view after : View} {sender recipient address : Address} {value : Word}

def balance (view : View) (address : Address) : Word := (view.account address).balance

theorem balance_eq (same : after.account = view.account) : after.balance = view.balance := by
  funext address
  rw [balance, same, balance]

theorem balance_setAccount {account : Account} (same : account.balance = view.balance address) :
    (view.setAccount address account).balance = view.balance := by
  funext other
  by_cases here : other = address
  · subst here
    simp [balance, setAccount, same]
  · simp [balance, setAccount, here]

theorem balance_send (view : View) (sender recipient : Address) (value : Word) :
    (view.send sender recipient value).balance =
      let paid := Function.update view.balance sender (view.balance sender - value)
      Function.update paid recipient (paid recipient + value) := by
  funext other
  unfold send balance setAccount
  simp only [Function.update_apply]
  split <;> split <;> simp_all

theorem balance_send_congr (same : after.balance = view.balance) :
    (after.send sender recipient value).balance = (view.send sender recipient value).balance := by
  rw [balance_send, balance_send, same]

theorem balance_send_self (view : View) (address : Address) (value : Word) :
    (view.send address address value).balance = view.balance := by
  rw [balance_send]
  simp

theorem balance_send_zero (view : View) (sender recipient : Address) :
    (view.send sender recipient 0).balance = view.balance := by
  rw [balance_send]
  simp

@[simp] theorem balance_afterFailure (view : View) (message : Message) (fork : Fork) :
    (view.afterFailure message fork).balance = view.balance := by
  have taken : (view.nonceTaken message).balance = view.balance := balance_setAccount rfl
  unfold afterFailure
  split
  · split <;> exact taken
  · rfl

end View

/-- A transfer that is made has moved its value, which its sender had. -/
theorem Host.transfer_sent {host after : Host σ} {sender recipient : Address} {value : Word}
    (inOrder : host.InOrder) (runs : Host.transfer sender recipient value host = .ok true after) :
    value ≤ host.view.balance sender ∧
      after.view.balance = (host.view.send sender recipient value).balance := by
  obtain ⟨same, unmoved⟩ | ⟨_, enough, moved⟩ :=
    of_run runs (transfer_run inOrder sender recipient value)
  · obtain rfl | ⟨rfl, enough⟩ := unmoved rfl
    · exact ⟨BitVec.le_def.mpr (Nat.zero_le _), by rw [same, View.balance_send_zero]⟩
    · exact ⟨enough, by rw [same, View.balance_send_self]⟩
  · exact ⟨enough, by rw [moved]⟩

/-- Whether the instruction moves value, or has a nested message move it. -/
def Operation.movesValue : Operation → Bool
  | .call .call | .create _ | .selfDestruct => true
  | _ => false

namespace Host

def KeepsAccounts (host after : Host σ) : Prop :=
  host.InOrder → after.InOrder ∧ after.view.account = host.view.account

theorem keepsAccounts_of_move {host after : Host σ} {view : View} {noted : List Change}
    (move : host.Move view noted after) (same : view.account = host.view.account) :
    host.KeepsAccounts after :=
  fun inOrder => ⟨move.inOrder inOrder, by rw [move.view_eq, same]⟩

theorem keepsAccounts_steady : Steady (KeepsAccounts : Host σ → Host σ → Prop) where
  refl _ inOrder := ⟨inOrder, rfl⟩
  trans first second inOrder := by
    obtain ⟨between, same⟩ := first inOrder
    obtain ⟨last, same'⟩ := second between
    exact ⟨last, same'.trans same⟩
  rereads _ _ same inOrder := keepsAccounts_of_move (move_of_world_eq (same inOrder)) rfl inOrder
  reports _ _ inOrder := ⟨inOrder, rfl⟩
  touchAddress address host _ _ runs := by
    obtain ⟨_, move⟩ := of_run_value runs (touchAddress_run host address)
    exact keepsAccounts_of_move move rfl
  touchSlot address key host _ _ runs := by
    obtain ⟨_, move⟩ := of_run_value runs (touchSlot_run host address key)
    exact keepsAccounts_of_move move rfl

theorem putSlot_keepsAccounts (address : Address) (key value : Word) :
    HostM.Keeps KeepsAccounts (Host.putSlot address key value : HostM σ Unit) := by
  intro host _ _ runs inOrder
  obtain ⟨_, move⟩ := of_run_value runs (putSlot_run inOrder address key value)
  exact keepsAccounts_of_move move rfl inOrder

theorem putTransient_keepsAccounts (address : Address) (key value : Word) :
    HostM.Keeps KeepsAccounts (Host.putTransient address key value : HostM σ Unit) := by
  intro host _ _ runs
  obtain ⟨_, move⟩ := of_run_value runs (putTransient_run host address key value)
  exact keepsAccounts_of_move move rfl

end Host

theorem Operation.writeKeeps_accounts {fork : Fork} {context : Context} {operation : Operation}
    (still : operation.movesValue = false) :
    operation.WriteKeeps (fun _ => True) (Host.KeepsAccounts : Host σ → Host σ → Prop) fork
      context := by
  have steady : Host.Steady (Host.KeepsAccounts : Host σ → Host σ → Prop) :=
    Host.keepsAccounts_steady
  cases operation with
  | storageStore =>
    exact storageStore_keeps steady lasts_true fork context Host.putSlot_keepsAccounts id
  | transientStore =>
    exact transientStore_keeps steady lasts_true fork context Host.putTransient_keepsAccounts
  | log count => exact log_keeps steady lasts_true fork context id count
  | call mode =>
    refine call_keeps_of_unsent steady lasts_true fun _ _ plain => ?_
    subst plain
    cases still
  | selfDestruct => cases still
  | _ => trivial

variable {env : Environment σ} {context : Context} {frame left asking : Frame}
  {host after asked before : Host σ}

def Context.MovesNothing (context : Context) (fork : Fork) (frame : Frame) : Prop :=
  ∀ operation, context.operation? fork frame = some operation → operation.movesValue = false

theorem Execution.Applies.account_eq (inOrder : host.InOrder)
    (still : context.MovesNothing env.fork frame)
    (applies : Applies env context frame host left after) :
    after.view.account = host.view.account := by
  cases applies with
  | past => rfl
  | @operation instruction operation _ _ _ _ next executes same =>
    have keeps : (execute env context instruction operation).Keeps (fun _ => True)
        (Host.KeepsAccounts : Host σ → Host σ → Prop) :=
      execute_keeps_of Host.keepsAccounts_steady lasts_true env instruction
        (Operation.writeKeeps_accounts (still operation next))
    rw [same]
    exact ((keeps.of_ok trivial executes).2 inOrder).2

theorem Execution.turn_ask_account {nested : NestedCall} (inOrder : host.InOrder)
    (still : context.MovesNothing env.fork frame)
    (turns : turn env context frame host = .ok (.ask nested asking) asked) :
    nested.message.isCreation = false ∧ asked.view.account = host.view.account := by
  obtain ⟨_, _, applies, _⟩ := turn_ask turns
  refine ⟨?_, applies.account_eq inOrder still⟩
  obtain ⟨made, _, same, _, ⟨mode, _, calls⟩ | ⟨salted, next, _⟩⟩ := turn_asks turns
  · obtain ⟨_, prepares, _⟩ := call_ok calls
    rw [same]
    exact (prepareCall_ok prepares).2.1
  · cases still _ next

/-- A creation whose frame was opened has moved its value to the contract that is to be. -/
theorem Execution.makeAccount_equips {message : Message} {deployment : Deployment}
    (inOrder : host.InOrder) (makes : makeAccount message deployment host = .ok none after) :
    message.value ≤ host.view.balance message.caller ∧ after.view.balance =
      (host.view.send message.caller deployment.address message.value).balance := by
  unfold makeAccount at makes
  rw [bind_of_ok (Host.account_run inOrder deployment.address)] at makes
  split at makes
  · cases makes
  obtain ⟨made, puts, move⟩ := Host.putAccount_run inOrder deployment.address
    { host.view.account deployment.address with nonce := 1 }
  rw [bind_of_ok puts] at makes
  obtain ⟨sent, paid, transfers, makes⟩ := bind_eq_ok.mp makes
  have same : made.view.balance = host.view.balance := by
    rw [move.view_eq]
    exact View.balance_setAccount rfl
  cases sent with
  | true =>
    cases makes
    obtain ⟨enough, moved⟩ := Host.transfer_sent (move.inOrder inOrder) transfers
    rw [same] at enough
    exact ⟨enough, moved.trans (View.balance_send_congr same)⟩
  | false =>
    obtain ⟨_, _, _, makes⟩ := bind_eq_ok.mp makes
    cases makes

theorem Execution.beginCreate_equips {message created : Message} {deployment : Deployment}
    (creates : message.isCreation = true) (inOrder : host.InOrder)
    (begins : beginCreate env message host = .ok (.inr (created, deployment)) after) :
    message.value ≤ host.view.balance message.caller ∧ after.view.balance =
      (host.view.send message.caller deployment.address message.value).balance := by
  cases beginCreate_ok begins with
  | @made address start _ claims makes =>
    have spends := of_run claims (claimAddress_run env creates inOrder)
    have same : start.view.balance = host.view.balance := by
      rw [spends.view_eq, View.balance_afterFailure]
    obtain ⟨enough, moved⟩ := makeAccount_equips (spends.inOrder inOrder) makes
    rw [same] at enough
    exact ⟨enough, moved.trans (View.balance_send_congr same)⟩

/-- What a message does to balances before its code runs: a call nothing, a creation moves its value
to the contract that is to be. -/
def Execution.Equips (context : Context) (message : Message) (view opened : View) : Prop :=
  match context.deployment with
  | none => opened.balance = view.balance
  | some deployment => message.value ≤ view.balance message.caller ∧
    opened.balance = (view.send message.caller deployment.address message.value).balance

theorem Execution.enter_equips {message : Message} {kind : MessageKind} {pc : Nat}
    (inOrder : host.InOrder)
    (enters : enter env message kind pc host = .ok (.frame context frame) after) :
    Equips context message host.view after.view := by
  obtain ⟨creates, start, spends, anchors, _⟩ := enter_opens inOrder enters
  unfold Equips
  cases found : context.deployment with
  | none =>
    have isCall : message.isCreation = false := by rw [← creates, found]; rfl
    have start_eq := anchors.start_eq
    rw [found] at start_eq
    dsimp only at start_eq
    rw [← start_eq, ((Host.spends_call isCall).mp spends).view_eq]
  | some deployment =>
    have isCreation : message.isCreation = true := by rw [← creates, found]; rfl
    obtain ⟨told, announces, ⟨_, _, _, _, opened⟩ | ⟨created, made, between, begins, opens⟩⟩ :=
      enter_creation_ok isCreation enters
    · cases opened
    · obtain ⟨_, quiet⟩ := of_run_value announces (announce_run env message kind host)
      have equips := beginCreate_equips isCreation (quiet.inOrder inOrder) begins
      obtain ⟨index, opened, rfl⟩ | ⟨_, _, opened⟩ := openFrame_ok opens <;> cases opened
      cases found
      rw [quiet.view_eq] at equips
      exact equips

namespace Execution

/-- A message leaves all balances as they were, unless it made a contract, which got the value. -/
structure Settles (message : Message) (view : View) (result : Result) (after : View) : Prop where
  still : (message.isCreation → result.isSuccess = false) → after.balance = view.balance
  endows : message.isCreation → result.isSuccess → ∃ address, result.created = some address ∧
    message.value ≤ view.balance message.caller ∧
      after.balance = (view.send message.caller address message.value).balance

theorem Settles.of_balance {message : Message} {view other last : View} {result : Result}
    (settles : Settles message view result last) (same : view.balance = other.balance) :
    Settles message other result last := by
  refine ⟨fun fails => (settles.still fails).trans same, fun creation success => ?_⟩
  obtain ⟨address, made, enough, moved⟩ := settles.endows creation success
  exact ⟨address, made, same ▸ enough, moved.trans (View.balance_send_congr same)⟩

def MovesNothing (env : Environment σ) (execution : Execution) (host : Host σ) : Prop :=
  ∀ ⦃context frame waiting reached⦄,
    Passes env [] execution host (.running context frame waiting) reached →
    context.MovesNothing env.fork frame

theorem MovesNothing.later {execution next : Execution} (still : MovesNothing env execution host)
    (passes : Passes env [] execution host next after) : MovesNothing env next after :=
  fun _ _ _ _ more => still (passes.trans more)

theorem settles_atOnce {message : Message} {kind : MessageKind} {pc : Nat} {result : Result}
    (inOrder : host.InOrder)
    (enters : enter env message kind pc host = .ok (.result result) after) :
    Settles message host.view result after.view := by
  obtain ⟨left, _, fails⟩ := enter_opens inOrder enters
  rw [left]
  refine ⟨fun _ => View.balance_afterFailure .., fun creation success => ?_⟩
  rw [fails creation] at success
  cases success

theorem settles_byFrame {message : Message} {kind : MessageKind} {pc : Nat}
    {ended result : Result} {opened between : Host σ} (inOrder : host.InOrder)
    (bounded : message.gasLimit < machineLimit)
    (enters : enter env message kind pc host = .ok (.frame context frame) opened)
    (evaluates : Evaluates env context frame opened ended between)
    (still : ended.isSuccess → between.view.balance = opened.view.balance)
    (concludes : conclude env context ended between = .ok result after) :
    Settles message host.view result after.view := by
  obtain ⟨creates, start, spends, anchors, _⟩ := enter_opens inOrder enters
  have equips := enter_equips inOrder enters
  have openedInOrder := (ready_of_enter inOrder bounded enters).inOrder
  have extend := evaluates.extends (ready_of_enter inOrder bounded enters)
  cases success : result.isSuccess with
  | false =>
    -- What a failed message has moved it has moved back.
    obtain ⟨_, undone, _⟩ := of_run concludes
      (conclude_run env anchors extend openedInOrder (deploys_of_conclude concludes))
    rw [(undone success).view_eq, spends.view_eq]
    exact ⟨fun _ => View.balance_afterFailure .., fun _ succeeds => by simp [success] at succeeds⟩
  | true =>
    obtain ⟨succeeded, left⟩ := conclude_view anchors extend openedInOrder success concludes
    have same := still succeeded
    rw [left]
    unfold Equips at equips
    cases found : context.deployment with
    | none =>
      simp only [found] at equips
      refine ⟨fun _ => same.trans equips, fun creation => ?_⟩
      rw [← creates, found] at creation
      cases creation
    | some deployment =>
      simp only [found] at equips
      obtain ⟨enough, moved⟩ := equips
      have hashed : (between.view.deploy deployment.address ended.output).balance =
          between.view.balance := View.balance_setAccount rfl
      have made : result.created = some deployment.address := by
        cases conclude_concludes concludes with
        | same fails =>
          rw [fails (by rw [found]; rfl)] at succeeded
          cases succeeded
        | refused => cases success
        | deployed found' =>
          rw [found] at found'
          cases found'
          rfl
      refine ⟨fun fails => ?_, fun _ _ => ⟨_, made, enough, hashed.trans (same.trans moved)⟩⟩
      rw [← creates, found, success] at fails
      cases fails rfl

theorem settles_finish {ended : Result} {waiting : List Suspended} (inOrder : host.InOrder)
    (still : MovesNothing env (.running context frame waiting) host) (success : ended.isSuccess)
    (turns : turn env context frame host = .ok (.finish ended) after) :
    after.view.balance = host.view.balance := by
  obtain ⟨_, _, applies, rfl⟩ | ⟨_, rfl⟩ | ⟨_, rfl⟩ := turn_finish turns
  · exact View.balance_eq (applies.account_eq inOrder (still .stay))
  · cases success
  · cases success

/-- A call that was asked for and answered has moved nothing, also if it was undone. -/
theorem settles_ask {nested : NestedCall} {answer : Result} {replied resumed : Host σ}
    {next : Frame} {waiting : List Suspended} (inOrder : host.InOrder)
    (still : MovesNothing env (.running context frame waiting) host)
    (pauses : Pauses env context frame host nested asking before asked answer replied next resumed)
    (settles : Settles nested.message asked.view answer replied.view) :
    resumed.view.balance = host.view.balance := by
  obtain ⟨isCall, same⟩ := turn_ask_account inOrder (still .stay) pauses.turns
  have receives : nested.resumption.receiver ≠ .create := fun creates => by
    rw [(turn_ask_receiver pauses.turns).mp creates] at isCall
    cases isCall
  cases success : answer.isSuccess with
  | true =>
    rw [(pauses.kept (.inl success)).view_eq, settles.still (by simp [isCall])]
    exact View.balance_eq same
  | false =>
    obtain ⟨_, touched⟩ := turn_ask_touched inOrder pauses.turns pauses.marks pauses.sent receives
    rw [(pauses.undone success receives).view_eq, touched]
    exact View.balance_eq (View.touch_account ..)

theorem settles_inductive (env : Environment σ) :
    Inductive env
      (fun message kind pc host result after => ∀ waiting,
        (∀ {opening opened}, enter env message kind pc host = .ok opening opened →
          MovesNothing env (ofOpening opening waiting) opened) →
        Settles message host.view result after.view)
      (fun context frame host ended after => ∀ waiting,
        MovesNothing env (.running context frame waiting) host → ended.isSuccess →
        after.view.balance = host.view.balance) where
  atOnce inOrder _ enters _ _ := settles_atOnce inOrder enters
  byFrame inOrder bounded enters evaluates ends concludes waiting still :=
    settles_byFrame inOrder bounded enters evaluates (ends waiting (still enters)) concludes
  goOn ready turns ends waiting still success := by
    obtain ⟨_, _, applies, _⟩ := turn_goOn turns
    have later := still.later (.move List.nil_suffix (Moves.goOn turns).advances .stay)
    rw [ends waiting later success]
    exact View.balance_eq (applies.account_eq ready.inOrder (still .stay))
  finish ready turns waiting still success := settles_finish ready.inOrder still success turns
  ask ready pauses settles ends waiting still success := by
    have settled := settles (⟨_, _, _⟩ :: waiting) fun enters => still.later
      (.move List.nil_suffix (Moves.ask pauses.turns enters).advances .stay)
    have later := still.later ((pauses.passes waiting).weaken List.nil_suffix)
    rw [ends waiting later success, settles_ask ready.inOrder still pauses settled]

end Execution

/-- A run without an instruction that moves value comes to its result. It has changed no balance but
those that a contract made from outside is endowed from and with. -/
theorem runMessage_settles (env : Environment σ) (message : Message) (pc : Nat) (host : Host σ)
    (inOrder : host.InOrder) (bounded : message.gasLimit < machineLimit)
    (fits : ¬message.Overflows env.fork)
    (still : ∀ context frame waiting reached,
      Reaches env message pc host (.running context frame waiting) reached →
      context.MovesNothing env.fork frame) :
    ∃ result after, runMessage env message pc host = .ok result after ∧
      Settles message host.view result after.view := by
  obtain ⟨result, after, runs⟩ := runMessage_run env message pc host inOrder bounded fits
  obtain ⟨warmed, opening, opened, warms, enters, passes⟩ := reaches_of_run runs
  have warmedInOrder : warmed.InOrder := by cases warms; exact inOrder
  have same : warmed.view.balance = host.view.balance := by cases warms; rfl
  refine ⟨result, after, runs, Settles.of_balance ?_ same⟩
  refine (settles_inductive env).answers warmedInOrder bounded
    ((answers_iff_passes []).mpr ⟨opening, opened, enters, passes⟩) [] fun enters' => ?_
  rw [enters] at enters'
  cases enters'
  exact fun context frame waiting reached passes =>
    still context frame waiting reached ⟨warmed, opening, opened, warms, enters, passes⟩

theorem Execution.Reaches.movesNothing {message : Message} {pc : Nat} {waiting : List Suspended}
    {reached : Host σ} (leaf : (Code.ofBytes message.code).isLeaf)
    (keeps : ∀ instruction ∈ (Code.ofBytes message.code).instructions,
      instruction.operation ≠ some .selfDestruct)
    (reaches : Reaches env message pc host (.running context frame waiting) reached) :
    context.MovesNothing env.fork frame := by
  intro operation next
  obtain ⟨code_eq, -⟩ := reaches.runsOnly leaf
  rw [← code_eq] at leaf keeps
  have answersAlone := Context.not_asks leaf next
  obtain ⟨instruction, member, named⟩ := Context.operation?_mem next
  cases operation with
  | selfDestruct => exact absurd named (keeps instruction member)
  | call mode => cases answersAlone
  | create salted => cases answersAlone
  | _ => rfl

/-- A message that names a value, of which its code takes no notice. -/
def valuedMessage (target : Option Address) : Message :=
  { Message.blank with
    caller := 0xaa, target, value := 3, gasLimit := 50000, code := #[0x60, 0x01] }

def valuedCode : Code :=
  ⟨#[0x60, 0x01], #[⟨0, 0x60, some .pushByte, #[1]⟩], #[some 0, none]⟩

theorem valuedCode_eq (target : Option Address) :
    Code.ofBytes (valuedMessage target).code = valuedCode := by
  show Code.ofBytes #[0x60, 0x01] = _
  decide +kernel

theorem valuedCode_gives : Gives (.blank .byzantium) (valuedMessage none) 0 #[] 3 := by
  intro target checkpoint deployment host
  rw [valuedCode_eq]
  exact ⟨_, .goOn rfl (.finish rfl), rfl, rfl, rfl⟩

/-- To an account that is there the value does not go, but a contract that is made has got it. -/
theorem runMessage_settles_valued :
    (∃ result after, runMessage (.blank .byzantium) (valuedMessage (some 0xbb)) 0
        (Host.start fundedWorld ()) = .ok result after ∧
      after.view.balance = (Host.start fundedWorld ()).view.balance) ∧
    ∃ result after address, runMessage (.blank .byzantium) (valuedMessage none) 0
        (Host.start fundedWorld ()) = .ok result after ∧
      result.isSuccess ∧ result.created = some address ∧
      after.view.balance 0xaa = 2 ∧ after.view.balance address = 3 := by
  have leaf (target : Option Address) : (Code.ofBytes (valuedMessage target).code).isLeaf ∧
      ∀ instruction ∈ (Code.ofBytes (valuedMessage target).code).instructions,
        instruction.operation ≠ some .selfDestruct := by
    rw [valuedCode_eq]
    decide +kernel
  have inOrder : (Host.start fundedWorld ()).InOrder := fun _ _ _ => rfl
  have bounded (target : Option Address) : (valuedMessage target).gasLimit < machineLimit :=
    show 50000 < machineLimit by decide
  have fits (target : Option Address) :
      ¬(valuedMessage target).Overflows (Environment.blank .byzantium).fork :=
    Message.not_overflows_of_gasLimit (show 50000 + 1 < machineLimit by decide)
  have settles (target : Option Address) := runMessage_settles (.blank .byzantium)
    (valuedMessage target) 0 (Host.start fundedWorld ()) inOrder (bounded target) (fits target)
    fun _ _ _ _ reaches => reaches.movesNothing (leaf target).1 (leaf target).2
  constructor
  · obtain ⟨result, after, runs, settled⟩ := settles (some 0xbb)
    exact ⟨result, after, runs, settled.still (by simp [valuedMessage, Message.isCreation])⟩
  · obtain ⟨address, result, after, differs, vacant, runs, success, created, _⟩ := run_makes_alone
      (show fundedWorld = World.empty.setEntry (valuedMessage none).caller _ from rfl)
      (bounded none) rfl rfl (by decide) (by decide +kernel) (by decide)
      (show (Code.ofBytes (valuedMessage none).code).indexOf? 0 = some 0 by
        rw [valuedCode_eq]; rfl)
      valuedCode_gives (by decide) (by decide)
    obtain ⟨_, _, runs', settled⟩ := settles none
    cases runs.symm.trans runs'
    obtain ⟨contract, made, -, moved⟩ := settled.endows rfl success
    have same : address = contract := Option.some.inj (created.symm.trans made)
    rw [← same] at moved
    have balances := moved.trans (View.balance_send ..)
    have payer : (Host.start fundedWorld ()).view.balance 0xaa = 5 := by
      simp [View.balance, Host.view, Host.start, Store.ofWorld, fundedWorld, Account.ofBalance]
    have payee : (Host.start fundedWorld ()).view.balance address = 0 :=
      congrArg (·.account.balance) vacant
    have caller : (valuedMessage none).caller = 0xaa := rfl
    rw [caller] at differs
    refine ⟨result, after, address, runs, success, created, ?_, ?_⟩
    · rw [balances]
      dsimp only
      rw [Function.update_of_ne differs.symm, caller, Function.update_self, payer]
      rfl
    · rw [balances]
      dsimp only
      rw [Function.update_self, caller, Function.update_of_ne differs, payee]
      rfl

end Evm
