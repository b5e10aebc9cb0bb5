import Evm.Proofs.Forks
import Evm.Proofs.Laws

/-!
# Contracts stay as they were made

No run lowers a nonce. Code is written once, when a contract is made at an address that was free,
together with its hash and within the limits of code; whatever is run between the making of the
account and the writing of its code, the address is not free any more. Of the hash of code nothing
is used. A creation that can be paid for is begun at a free address, and stores the code that its
frame returns.
-/

namespace Evm

open Execution Function

variable {σ : Type}

/-- How the account and the code at an address may change. -/
structure View.Matures (fork : Fork) (before after : View) (address : Address) : Prop where
  nonce_le : (before.account address).nonce.toNat ≤ (after.account address).nonce.toNat
  /-- What is there stays. -/
  kept : (before.account address).nonce ≠ 0 ∨ (before.account address).hasCode →
    after.code address = before.code address ∧
      (after.account address).codeHash = (before.account address).codeHash
  /-- What is new was deployed. -/
  deployed : after.code address ≠ before.code address ∨
      (after.account address).codeHash ≠ (before.account address).codeHash →
    1 ≤ (after.account address).nonce.toNat ∧
      (after.account address).codeHash = keccakWord (after.code address) ∧
      (after.code address).size ≤ 24576 ∧
      (.london ≤ fork → (after.code address)[0]? ≠ some 0xef)

namespace View

variable {fork : Fork} {view before middle after : View} {address other : Address}

theorem Matures.of_same (nonce_le : (before.account address).nonce.toNat ≤
      (after.account address).nonce.toNat)
    (code_eq : after.code address = before.code address)
    (hash_eq : (after.account address).codeHash = (before.account address).codeHash) :
    Matures fork before after address :=
  ⟨nonce_le, fun _ => ⟨code_eq, hash_eq⟩, by simp [code_eq, hash_eq]⟩

theorem Matures.trans (first : Matures fork before middle address)
    (second : Matures fork middle after address) : Matures fork before after address where
  nonce_le := Nat.le_trans first.nonce_le second.nonce_le
  kept taken := by
    obtain ⟨code_eq, hash_eq⟩ := first.kept taken
    have taken' : (middle.account address).nonce ≠ 0 ∨ (middle.account address).hasCode := by
      obtain used | coded := taken
      · left
        intro zero
        have nonce_le := first.nonce_le
        rw [zero, UInt64.toNat_zero, Nat.le_zero] at nonce_le
        exact used (UInt64.toNat_inj.mp nonce_le)
      · right
        simpa [Account.hasCode, hash_eq] using coded
    obtain ⟨code_eq', hash_eq'⟩ := second.kept taken'
    exact ⟨code_eq'.trans code_eq, hash_eq'.trans hash_eq⟩
  deployed differs := by
    -- Code that differs after all changed in the second part, or is that of the first.
    by_cases late : after.code address ≠ middle.code address ∨
        (after.account address).codeHash ≠ (middle.account address).codeHash
    · exact second.deployed late
    · obtain ⟨code_eq, hash_eq⟩ := not_or.mp late
      rw [not_not] at code_eq hash_eq
      rw [code_eq, hash_eq] at differs ⊢
      obtain ⟨used, rest⟩ := first.deployed differs
      exact ⟨Nat.le_trans used second.nonce_le, rest⟩

theorem matures_setAccount {account : Account}
    (nonce_le : (view.account other).nonce.toNat ≤ account.nonce.toNat)
    (hash_eq : account.codeHash = (view.account other).codeHash) (address : Address) :
    Matures fork view (view.setAccount other account) address := by
  by_cases same : address = other
  · subst same
    exact .of_same (by simpa [setAccount] using nonce_le) rfl (by simpa [setAccount] using hash_eq)
  · exact .of_same (by simp [setAccount, same]) rfl (by simp [setAccount, same])

theorem matures_send (sender recipient : Address) (value : Word) (address : Address) :
    Matures fork view (view.send sender recipient value) address := by
  let payer := view.account sender
  let paid := view.setAccount sender { payer with balance := payer.balance - value }
  have first : Matures fork view paid address := by
    apply matures_setAccount
    · exact Nat.le_refl _
    · rfl
  have second : Matures fork paid (view.send sender recipient value) address := by
    apply matures_setAccount
    · exact Nat.le_refl _
    · rfl
  exact first.trans second

theorem matures_nonceTaken {message : Message} (has : view.HasNonce message) (address : Address) :
    Matures fork view (view.nonceTaken message) address := by
  apply matures_setAccount
  · have below := (view.account message.caller).nonce.toNat_lt
    have room := has.2
    unfold machineLimit at room
    rw [UInt64.toNat_add, UInt64.toNat_one]
    omega
  · rfl

theorem matures_make (free : view.IsFree other) (address : Address) :
    Matures fork view (view.make other) address := by
  apply matures_setAccount
  · rw [free.1]
    exact Nat.zero_le _
  · rfl

/-- Code is stored where an account was made for it, whatever was done since. -/
theorem matures_deploy {start : View} {code : Bytes} (free : start.IsFree other)
    (matures : ∀ address, Matures fork (start.make other) view address)
    (small : code.size ≤ codeLimit) (unreserved : .london ≤ fork → code[0]? ≠ some 0xef)
    (address : Address) : Matures fork start (view.deploy other code) address := by
  obtain ⟨nonce_le, kept, deployed⟩ := matures address
  by_cases same : address = other
  · subst same
    have used : 1 ≤ ((view.deploy address code).account address).nonce.toNat := by
      simpa [make, deploy, setCode, setAccount] using nonce_le
    refine ⟨?_, ?_, fun _ => ⟨used, ?_, ?_, ?_⟩⟩
    · rw [free.1]
      exact Nat.zero_le _
    -- The address was free at the start, so there was nothing to keep.
    · rintro (taken | coded)
      · exact absurd free.1 taken
      · rw [free.2] at coded
        cases coded
    · simp [deploy, setCode, setAccount]
    · simpa [deploy, setCode, codeLimit] using small
    · simpa [deploy, setCode] using unreserved
  · simp only [make, setAccount, update_of_ne same] at nonce_le kept deployed
    constructor <;> simpa only [deploy, setCode, setAccount, update_of_ne same]

theorem matures_law (fork : Fork) :
    Law fork fun before after => ∀ address, Matures fork before after address where
  same account_eq code_eq address :=
    .of_same (by simp [account_eq]) (by rw [code_eq]) (by rw [account_eq])
  trans first second address := (first address).trans (second address)
  sends _ _ := matures_send _ _ _
  takesNonce := matures_nonceTaken
  makes := matures_make
  deploys := matures_deploy

end View

theorem View.IsFree.afterFailure {view : View} {message : Message} {address : Address}
    (free : view.IsFree address) (other : address ≠ message.caller) (fork : Fork) :
    (view.afterFailure message fork).IsFree address := by
  have unchanged : (view.afterFailure message fork).account address = view.account address := by
    unfold View.afterFailure
    split
    · split <;> simp [View.nonceTaken, View.setAccount, View.setWarm, other]
    · rfl
  rw [View.IsFree, unchanged]
  exact free

namespace Execution

variable {env : Environment σ} {message : Message} {host : Host σ}

theorem makeAccount_makes (deployment : Deployment) (inOrder : host.InOrder)
    (free : host.view.IsFree deployment.address)
    (enough : message.value ≤ (host.view.account message.caller).balance) :
    ∃ after, makeAccount message deployment host = .ok none after := by
  obtain ⟨fresh, codeless⟩ := free
  obtain ⟨made, puts, move⟩ := Host.putAccount_run inOrder deployment.address
    { host.view.account deployment.address with nonce := 1 }
  have madeInOrder := move.inOrder inOrder
  -- The new account may be that of the sender; it still has the value then.
  have covered : message.value ≤ (made.view.account message.caller).balance := by
    rw [move.view_eq]
    by_cases same : message.caller = deployment.address
    · simpa [View.setAccount, same] using enough
    · simpa [View.setAccount, same] using enough
  obtain ⟨sent, after, transfers, _⟩ :=
    Host.transfer_run madeInOrder message.caller deployment.address message.value
  unfold makeAccount
  rw [bind_of_ok (Host.account_run inOrder deployment.address), if_neg (by simp [fresh, codeless]),
    bind_of_ok puts, bind_of_ok transfers]
  cases sent with
  | true => exact ⟨after, rfl⟩
  | false => exact absurd transfers (Host.transfer_ne_false madeInOrder covered)

theorem enter_makes (env : Environment σ) (kind : MessageKind) {pc index : Nat}
    (inOrder : host.InOrder) (has : host.view.HasNonce message)
    (free : (host.view.afterFailure message env.fork).IsFree (host.view.nextAddress message))
    (enough : message.value ≤ (host.view.account message.caller).balance)
    (starts : (Code.ofBytes message.code).indexOf? pc = some index) :
    ∃ start opened, enter env message kind pc host = .ok (.frame
      ⟨{ message with target := some (host.view.nextAddress message) }, Code.ofBytes message.code,
        opened.journal.size, some ⟨host.view.nextAddress message, start⟩⟩
      (.start { message with target := some (host.view.nextAddress message) } index)) opened ∧
      opened.InOrder := by
  obtain ⟨told, announces, quiet⟩ := announce_run env message kind host
  have toldInOrder := quiet.inOrder inOrder
  rw [← quiet.view_eq] at has free enough ⊢
  obtain ⟨taken, claims, spends⟩ := claimAddress_takes env toldInOrder has
  let deployment : Deployment := ⟨told.view.nextAddress message, taken.journal.size⟩
  rw [← spends.view_eq] at free
  have covered : message.value ≤ (taken.view.account message.caller).balance := by
    rw [spends.view_eq, View.afterFailure, if_pos has]
    split <;> simpa [View.nonceTaken, View.setAccount, View.setWarm] using enough
  obtain ⟨opened, makes⟩ :=
    makeAccount_makes deployment (spends.inOrder toldInOrder) free covered
  obtain ⟨extend, _⟩ :=
    of_run makes (makeAccount_run message deployment (spends.inOrder toldInOrder) rfl)
  refine ⟨taken.journal.size, opened, ?_, extend.inOrder (spends.inOrder toldInOrder)⟩
  have marks : (Host.checkpoint : HostM σ Nat) taken = .ok taken.journal.size taken := rfl
  let created : Message := { message with target := some (told.view.nextAddress message) }
  have begins : beginCreate env message told = .ok (.inr (created, deployment)) opened := by
    unfold beginCreate
    rw [bind_of_ok claims]
    dsimp only
    rw [bind_of_ok marks, bind_of_ok makes]
    rfl
  unfold enter
  rw [bind_of_ok announces, if_pos has.1, bind_of_ok begins]
  exact openFrame_of_starts (show Code.ofBytes created.code = _ from rfl) starts (some deployment)
    opened

theorem conclude_deploys (env : Environment σ) (context : Context) {deployment : Deployment}
    {ended : Result} (inOrder : host.InOrder) (found : context.deployment = some deployment)
    (success : ended.isSuccess) (within : ended.gasUsed ≤ context.message.gasLimit)
    (storable : deployFault? env.fork ended.output (env.fork.fee .codeDeposit * ended.output.size)
      (context.message.gasLimit - ended.gasUsed) = none) :
    ∃ after, conclude env context ended host = .ok
        { ended with
          gasUsed := ended.gasUsed + env.fork.fee .codeDeposit * ended.output.size
          output := #[]
          created := some deployment.address } after ∧
      after.view = host.view.deploy deployment.address ended.output := by
  obtain ⟨hashed, puts, move⟩ := Host.putAccount_run inOrder deployment.address
    { host.view.account deployment.address with codeHash := keccakWord ended.output }
  obtain ⟨stored, stores, move'⟩ :=
    Host.putCode_run (move.inOrder inOrder) deployment.address ended.output
  have settles : settle context.checkpoint ended host = .ok () host := by
    rw [settle, if_pos success]
    rfl
  let result : Result :=
    { ended with
      gasUsed := ended.gasUsed + env.fork.fee .codeDeposit * ended.output.size
      output := #[]
      created := some deployment.address }
  have deploys : deployFor env context ended host = .ok result stored := by
    rw [deployFor, found]
    dsimp only
    rw [deploy, if_pos success]
    dsimp only
    rw [if_neg (Nat.not_lt.mpr within), storable]
    dsimp only
    rw [bind_of_ok (Host.account_run inOrder deployment.address), bind_of_ok puts,
      bind_of_ok stores]
    rfl
  obtain ⟨after, exits, quiet⟩ := exit_run env context.message.depth result stored
  refine ⟨after, ?_, ?_⟩
  · rw [conclude, bind_of_ok settles, bind_of_ok deploys]
    exact exits
  · rw [quiet.view_eq, move'.view_eq, move.view_eq]
    rfl

/-- What a frame that runs by itself comes to, whatever there is around it. -/
def Gives (env : Environment σ) (message : Message) (index : Nat) (output : Bytes) (used : Nat) :
    Prop :=
  ∀ (target : Option Address) (checkpoint : Nat) (deployment : Option Deployment) (host : Host σ),
    ∃ ended, Evaluates env
        ⟨{ message with target }, Code.ofBytes message.code, checkpoint, deployment⟩
        (.start { message with target } index) host ended host ∧
      ended.isSuccess ∧ ended.output = output ∧ ended.gasUsed = used

/-- A creation from outside that can begin, and whose frame gives what may be stored, deploys it. -/
theorem run_makes {pc index used : Nat} {code : Bytes} (inOrder : host.InOrder)
    (bounded : message.gasLimit < machineLimit)
    (warms : warmUp (warmFromStart env message) host = .ok () host)
    (has : host.view.HasNonce message)
    (free : (host.view.afterFailure message env.fork).IsFree (host.view.nextAddress message))
    (enough : message.value ≤ (host.view.account message.caller).balance)
    (starts : (Code.ofBytes message.code).indexOf? pc = some index)
    (gives : Gives env message index code used) (within : used ≤ message.gasLimit)
    (storable : deployFault? env.fork code (env.fork.fee .codeDeposit * code.size)
      (message.gasLimit - used) = none) :
    ∃ result after, runMessage env message pc host = .ok result after ∧ result.isSuccess ∧
      result.created = some (host.view.nextAddress message) ∧
      after.view.code (host.view.nextAddress message) = code := by
  obtain ⟨start, opened, enters, openedInOrder⟩ :=
    enter_makes env (topLevelKind message) inOrder has free enough starts
  obtain ⟨ended, evaluates, success, rfl, rfl⟩ :=
    gives (some (host.view.nextAddress message)) opened.journal.size
      (some ⟨host.view.nextAddress message, start⟩) opened
  obtain ⟨after, concludes, shows⟩ := conclude_deploys env
    ⟨{ message with target := some (host.view.nextAddress message) }, Code.ofBytes message.code,
      opened.journal.size, some ⟨host.view.nextAddress message, start⟩⟩
    openedInOrder rfl success within storable
  refine ⟨_, after, run_of_answers inOrder bounded warms (.byFrame enters evaluates concludes),
    success, rfl, ?_⟩
  rw [shows]
  simp [View.deploy, View.setCode]

/-- The only account of a world makes another. -/
theorem run_makes_alone {pc index used : Nat} {code : Bytes} {world : World} {entry : Entry}
    {trace : σ} (alone : world = World.empty.setEntry message.caller entry)
    (bounded : message.gasLimit < machineLimit) (creates : message.isCreation)
    (warms : warmUp (warmFromStart env message) (.start world trace) = .ok () (.start world trace))
    (left : entry.account.nonce.toNat + 1 ≠ machineLimit)
    (differs : newAddress message entry.account.nonce.toNat ≠ message.caller)
    (enough : message.value ≤ entry.account.balance)
    (starts : (Code.ofBytes message.code).indexOf? pc = some index)
    (gives : Gives env message index code used) (within : used ≤ message.gasLimit)
    (storable : deployFault? env.fork code (env.fork.fee .codeDeposit * code.size)
      (message.gasLimit - used) = none) :
    ∃ address result after, address ≠ message.caller ∧ world.entry address = .blank ∧
      runMessage env message pc (.start world trace) = .ok result after ∧ result.isSuccess ∧
      result.created = some address ∧ after.view.code address = code := by
  subst alone
  let world := World.empty.setEntry message.caller entry
  let host := Host.start world trace
  let address := newAddress message entry.account.nonce.toNat
  have payer : host.view.account message.caller = entry.account :=
    congrArg Entry.account ((World.entry_setEntry ..).trans (if_pos rfl))
  have vacant : world.entry address = .blank :=
    (World.entry_setEntry ..).trans ((if_neg differs.symm).trans (World.entry_empty address))
  have next : host.view.nextAddress message = address := by rw [View.nextAddress, payer]
  have free : host.view.IsFree address := View.isFree_of_blank (congrArg Entry.account vacant)
  obtain ⟨result, after, makes⟩ := run_makes (fun _ _ _ => rfl) bounded warms
    ⟨creates, by rw [payer]; exact left⟩ (by rw [next]; exact free.afterFailure differs env.fork)
    (by rw [payer]; exact enough) starts gives within storable
  rw [next] at makes
  exact ⟨address, result, after, differs, vacant, makes⟩

end Execution

/-- Whatever is run, nonces do not go down, and what is at an address that is taken stays there. -/
theorem runMessage_matures (env : Environment σ) (message : Message) (pc : Nat) (host : Host σ)
    (inOrder : host.InOrder) (bounded : message.gasLimit < machineLimit)
    (fits : ¬message.Overflows env.fork) :
    ∃ result after, runMessage env message pc host = .ok result after ∧
      ∀ address, host.view.Matures env.fork after.view address := by
  obtain ⟨result, after, runs⟩ := runMessage_run env message pc host inOrder bounded fits
  refine ⟨result, after, runs, ?_⟩
  exact (View.matures_law env.fork).of_reaches inOrder (reaches_of_run runs)

def contractWorld : World := World.empty.setEntry 0xaa ⟨⟨5, 1, 7⟩, #[0x60, 0xbb, 0xff], ∅⟩

/-- A creation on behalf of the contract, whose code returns a byte of its memory. -/
def makingMessage : Message :=
  { Message.blank with
    caller := 0xaa, target := none, gasLimit := 50000, code := #[0x60, 1, 0x60, 0, 0xf3] }

def makingCode : Code :=
  ⟨makingMessage.code, #[⟨0, 0x60, some .pushByte, #[1]⟩,
    ⟨2, 0x60, some .pushByte, #[0]⟩, ⟨4, 0xf3, some .ret, #[]⟩],
    #[some 0, none, some 1, none, some 2]⟩

theorem makingCode_eq : Code.ofBytes makingMessage.code = makingCode := by decide +kernel

def returningFrame : Frame :=
  { Frame.start makingMessage 2 with stack := .ofWords [0, 1], gas := ⟨50000, 6⟩ }

def returnedFrame : Frame :=
  { returningFrame with
    stack := .empty, gas := ⟨50000, 9⟩, memory := ⟨Array.replicate 32 0⟩, output := #[0] }

theorem returningFrame_finishes :
    Instruction.finish .byzantium (.halt .ret) returningFrame = .ok (.halt .ret, returnedFrame) := by
  refine FrameM.bind_ok.mpr ⟨0, { returningFrame with stack := .ofWords [1] }, rfl, ?_⟩
  refine FrameM.bind_ok.mpr ⟨1, { returningFrame with stack := .empty }, rfl, ?_⟩
  refine FrameM.bind_ok.mpr ⟨(0, 1), { returningFrame with stack := .empty }, rfl, ?_⟩
  refine FrameM.bind_ok.mpr ⟨(), { returnedFrame with output := #[] }, rfl, ?_⟩
  exact FrameM.bind_ok.mpr ⟨#[0], { returnedFrame with output := #[] }, rfl, rfl⟩

theorem makingCode_gives : Gives (.blank .byzantium) makingMessage 0 #[0] 9 := by
  intro target checkpoint deployment host
  rw [makingCode_eq]
  have steps : step (.blank .byzantium)
      ⟨{ makingMessage with target }, makingCode, checkpoint, deployment⟩ returningFrame host =
      .ok (.halt .ret, returnedFrame) host := by
    rw [step_run]
    refine InstructionM.bind_ok.mpr ⟨(), returningFrame, host, rfl, ?_⟩
    refine InstructionM.bind_ok.mpr ⟨returningFrame, returningFrame, host, rfl, ?_⟩
    exact InstructionM.bind_ok.mpr ⟨.halt .ret, returnedFrame, host,
      InstructionM.lift_ok.mpr ⟨returningFrame_finishes, rfl⟩, rfl⟩
  have returns : turn (.blank .byzantium)
      ⟨{ makingMessage with target }, makingCode, checkpoint, deployment⟩ returningFrame host =
      .ok (.finish (haltedResult returnedFrame .ret)) host := by
    rw [turn, steps]
  exact ⟨_, .goOn rfl (.goOn rfl (.finish returns)), rfl, rfl, rfl⟩

theorem runMessage_matures_making : ∃ result after address,
    runMessage (.blank .byzantium) makingMessage 0 (Host.start contractWorld ()) =
        .ok result after ∧
      result.created = some address ∧ after.view.code address = #[0] ∧
      1 ≤ (after.view.account address).nonce.toNat ∧
      (after.view.account address).codeHash = keccakWord #[0] ∧
      1 ≤ (after.view.account 0xaa).nonce.toNat ∧ (after.view.account 0xaa).codeHash = 7 ∧
      after.view.code 0xaa = #[0x60, 0xbb, 0xff] := by
  have inOrder : (Host.start contractWorld ()).InOrder := fun _ _ _ => rfl
  have bounded : makingMessage.gasLimit < machineLimit := by decide
  have account_eq : (Host.start contractWorld ()).view.account 0xaa = ⟨5, 1, 7⟩ := by
    simp [Host.view, Host.start, Store.ofWorld, contractWorld]
  have code_eq : (Host.start contractWorld ()).view.code 0xaa = #[0x60, 0xbb, 0xff] := by
    simp [Host.view, Host.start, Store.ofWorld, contractWorld]
  obtain ⟨address, result, after, _, vacant, runs, _, created, made⟩ := run_makes_alone
    (show contractWorld = World.empty.setEntry makingMessage.caller _ from rfl) bounded rfl rfl
    (by decide) (by decide +kernel) (by decide)
    (show (Code.ofBytes makingMessage.code).indexOf? 0 = some 0 by rw [makingCode_eq]; rfl)
    makingCode_gives (by decide) (by decide)
  obtain ⟨_, _, runs', matures⟩ := runMessage_matures (.blank .byzantium) makingMessage 0
    (Host.start contractWorld ()) inOrder bounded (Message.not_overflows_of_gasLimit (by decide))
  cases runs.symm.trans runs'
  have blank : (Host.start contractWorld ()).view.code address = #[] := congrArg Entry.code vacant
  obtain ⟨nonce_made, hash_made, _⟩ := (matures address).deployed (.inl (by
    rw [made, blank]
    decide))
  obtain ⟨nonce_le, kept, _⟩ := matures 0xaa
  rw [account_eq] at nonce_le kept
  rw [code_eq] at kept
  obtain ⟨code_kept, hash_kept⟩ := kept (.inl (by decide))
  exact ⟨result, after, address, runs, created, made, nonce_made, made ▸ hash_made, nonce_le,
    hash_kept, code_kept⟩

end Evm
