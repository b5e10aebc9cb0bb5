import Evm.Proofs.Laws
import Mathlib.Algebra.BigOperators.Group.Finset.Piecewise
import Mathlib.Algebra.Order.BigOperators.Group.Finset
import Mathlib.Data.BitVec

/-!
# Balances are conserved

Value moves between accounts and is neither made nor lost, as long as all that there is fits a word.
The balance that value is added to does not wrap then, for the account that gives it up holds it
until it is added.
-/

namespace Evm

open Execution Function Instruction

variable {σ : Type}

instance : Fintype Address := Fintype.ofEquiv (Fin (2 ^ 160)) BitVec.equivFin.symm.toEquiv

namespace View

variable {view : View} {address other sender recipient : Address} {value : Word}

def total (view : View) : Nat := ∑ address, (view.account address).balance.toNat

theorem total_setAccount (view : View) (address : Address) (account : Account) :
    (view.setAccount address account).total + (view.account address).balance.toNat =
      view.total + account.balance.toNat := by
  let balances := fun place => (view.account place).balance.toNat
  have updated : (view.setAccount address account).total =
      ∑ place, update balances address account.balance.toNat place := by
    apply Finset.sum_congr rfl
    intro place _
    exact apply_update (fun _ account => account.balance.toNat) view.account address account place
  have split := Finset.add_sum_erase Finset.univ balances (Finset.mem_univ address)
  rw [updated, Finset.sum_update_of_mem (Finset.mem_univ address),
    Finset.sdiff_singleton_eq_erase]
  show _ + balances address = (∑ place, balances place) + _
  omega

theorem total_setAccount_same {account : Account}
    (same : account.balance = (view.account address).balance) :
    (view.setAccount address account).total = view.total := by
  have changed := view.total_setAccount address account
  rw [same] at changed
  omega

theorem balances_le (differ : address ≠ other) :
    (view.account address).balance.toNat + (view.account other).balance.toNat ≤ view.total := by
  let balances := fun place => (view.account place).balance.toNat
  calc
    balances address + balances other = ∑ place ∈ {address, other}, balances place :=
      (Finset.sum_pair differ).symm
    _ ≤ ∑ place, balances place := Finset.sum_le_sum_of_subset (Finset.subset_univ _)

theorem addWraps_eq_false (fits : view.total < 2 ^ 256) (differ : sender ≠ recipient)
    (enough : value ≤ (view.account sender).balance) :
    Word.addWraps (view.account recipient).balance value = false := by
  have held : (view.account sender).balance.toNat + (view.account recipient).balance.toNat ≤ _ :=
    balances_le differ
  have within := BitVec.le_def.mp enough
  have limit_eq : Word.limit = 2 ^ 256 := rfl
  unfold Word.addWraps
  rw [limit_eq]
  simp only [decide_eq_false_iff_not]
  omega

theorem total_send (fits : view.total < 2 ^ 256) (differ : sender ≠ recipient)
    (enough : value ≤ (view.account sender).balance) :
    (view.send sender recipient value).total = view.total := by
  let payer := view.account sender
  let payee := view.account recipient
  let paid := view.setAccount sender { payer with balance := payer.balance - value }
  -- The recipient is read after the sender has paid, but it is another account.
  have payee_eq : paid.account recipient = payee := by
    simp [paid, payee, setAccount, differ.symm]
  have covered : value ≤ payer.balance := enough
  have within := BitVec.le_def.mp covered
  have held : payer.balance.toNat + payee.balance.toNat ≤ view.total := balances_le differ
  have taken : paid.total + payer.balance.toNat = view.total + (payer.balance - value).toNat :=
    view.total_setAccount sender { payer with balance := payer.balance - value }
  have added : (view.send sender recipient value).total + (paid.account recipient).balance.toNat =
      paid.total + ((paid.account recipient).balance + value).toNat :=
    paid.total_setAccount recipient _
  rw [BitVec.toNat_sub_of_le covered] at taken
  rw [payee_eq, BitVec.toNat_add_of_lt (by omega)] at added
  omega

/-- If all that there is fits a word, it stays the same. -/
def Conserves (before after : View) : Prop := before.total < 2 ^ 256 → after.total = before.total

theorem conserves_law (fork : Fork) : Law fork Conserves where
  same account_eq _ _ := by
    unfold total
    rw [account_eq]
  trans first second fits := by
    have middle := first fits
    rw [second (by rw [middle]; exact fits), middle]
  sends differ enough fits := total_send fits differ enough
  takesNonce _ _ := total_setAccount_same rfl
  makes _ _ := total_setAccount_same rfl
  deploys := by
    intro start view address code _ ordered _ _ fits
    have made : (start.make address).total = start.total := total_setAccount_same rfl
    have hashed : (view.deploy address code).total = view.total := total_setAccount_same rfl
    rw [hashed, ordered (by rw [made]; exact fits), made]

end View

namespace Host

/-- If a transfer moves value on this host, the balance that it is added to does not wrap. -/
def AddsUp (host : Host σ) (sender recipient : Address) (value : Word) : Prop :=
  sender ≠ recipient → value ≤ (host.view.account sender).balance →
    Word.addWraps (host.view.account recipient).balance value = false

theorem addsUp_of_follows {host later : Host σ} (fits : host.view.total < 2 ^ 256)
    (follows : host.Follows View.Conserves later) (sender recipient : Address) (value : Word) :
    later.AddsUp sender recipient value := by
  have same := follows.ordered fits
  intro differ enough
  apply View.addWraps_eq_false _ differ enough
  rw [same]
  exact fits

end Host

/-- A destruction comes to give a balance away, on the host where its price is known. -/
def Instruction.Bequeaths (fork : Fork) (context : Context) (frame : Frame) (host : Host σ)
    (heir : Address) (balance : Word) (priced : Host σ) : Prop :=
  ∃ popped access touched account found price,
    FrameM.popAddress frame = .ok (heir, popped) ∧
    Host.accessCold fork heir host = .ok access touched ∧
    Host.account context.self touched = .ok account found ∧
    destructPrice fork heir account.balance found = .ok price priced ∧ balance = account.balance

/-- A creation comes to give its value to the account that it has made. -/
def Execution.Endows (env : Environment σ) (message : Message) (kind : MessageKind) (host : Host σ)
    (address : Address) (made : Host σ) : Prop :=
  ∃ told claimed account found,
    announce env message kind host = .ok () told ∧
    claimAddress env message told = .ok (some address) claimed ∧
    Host.account address claimed = .ok account found ∧
    account.nonce = 0 ∧ account.hasCode = false ∧
    Host.putAccount address { account with nonce := 1 } found = .ok () made

namespace Law

variable {order : View → View → Prop} {env : Environment σ} (law : Law env.fork order)
  {host : Host σ}

include law

theorem bequeaths_follows {context : Context} {frame : Frame} {heir : Address} {balance : Word}
    {priced : Host σ} (inOrder : host.InOrder)
    (bequeaths : Bequeaths env.fork context frame host heir balance priced) :
    host.Follows order priced := by
  obtain ⟨_, _, touched, account, found, _, _, touches, finds, prices, _⟩ := bequeaths
  have steady : Host.Steady (Host.Obeys order : Host σ → Host σ → Prop) := law.stable.toSteady
  have first := HostM.Keeps.accessCold steady env.fork heir touches
  have second := HostM.Keeps.account steady context.self finds
  have third := destructPrice_keeps steady env.fork heir account.balance prices
  exact steady.trans first (steady.trans second third) inOrder

theorem endows_follows {message : Message} {kind : MessageKind} {address : Address} {made : Host σ}
    (creates : message.isCreation = true) (inOrder : host.InOrder)
    (endows : Endows env message kind host address made) : host.Follows order made := by
  obtain ⟨told, claimed, account, found, announces, claims, finds, fresh, codeless, puts⟩ := endows
  have follows := announce_keeps law.stable.toSteady env message kind announces inOrder
  have toldInOrder := follows.extend.inOrder inOrder
  obtain ⟨_, _, claims', spends⟩ := claimAddress_run env creates toldInOrder
  rw [claims] at claims'
  cases claims'
  have claimedInOrder := spends.inOrder toldInOrder
  rw [Host.account_run claimedInOrder] at finds
  cases finds
  obtain ⟨_, puts', move⟩ := Host.putAccount_run claimedInOrder address
    { claimed.view.account address with nonce := 1 }
  rw [puts] at puts'
  cases puts'
  have taken : told.Follows order claimed := by
    refine ⟨spends.extends, ?_⟩
    rw [spends.view_eq]
    exact law.afterFailure told.view
  have begun : claimed.Follows order made := by
    refine ⟨(Host.putAccount_serves address _).extends_of_run claimedInOrder puts, ?_⟩
    rw [move.view_eq]
    exact law.makes ⟨fresh, codeless⟩
  exact law.follows_trans (law.follows_trans follows taken) begun

end Law

structure Execution.ConservesBalances (env : Environment σ) (message : Message) (pc : Nat)
    (host : Host σ) : Prop where
  /-- However the message ends, all balances together are what they were. -/
  result : ¬message.Overflows env.fork →
    ∃ result after, runMessage env message pc host = .ok result after ∧
      after.view.total = host.view.total
  throughout : ∀ {execution reached}, Reaches env message pc host execution reached →
    reached.view.total = host.view.total
  /-- A call sends its value without a wrap. -/
  call : ∀ {context frame waiting reached nested left before},
    Reaches env message pc host (.running context frame waiting) reached →
    prepareCall env.fork context .call frame reached = .ok (some nested, left) before →
    before.AddsUp nested.message.caller nested.message.address nested.message.value
  /-- A destruction gives its balance away without a wrap. -/
  destruction : ∀ {context frame waiting reached heir balance priced},
    Reaches env message pc host (.running context frame waiting) reached →
    Bequeaths env.fork context frame reached heir balance priced →
    priced.AddsUp context.self heir balance
  /-- A creation gets its value without a wrap. -/
  creation : ∀ {context frame waiting reached nested left asked address made},
    Reaches env message pc host (.running context frame waiting) reached →
    step env context frame reached = .ok (.call nested, left) asked →
    nested.message.isCreation = true →
    Endows env nested.message nested.kind asked address made →
    made.AddsUp nested.message.caller address nested.message.value
  outermost : ∀ {warmed address made}, message.isCreation = true →
    warmUp (warmFromStart env message) host = .ok () warmed →
    Endows env message (topLevelKind message) warmed address made →
    made.AddsUp message.caller address message.value

theorem Execution.Reaches.total_eq {env : Environment σ} {message : Message} {pc : Nat}
    {host reached : Host σ} {execution : Execution} (inOrder : host.InOrder)
    (fits : host.view.total < 2 ^ 256)
    (reaches : Reaches env message pc host execution reached) :
    reached.view.total = host.view.total :=
  (View.conserves_law env.fork).of_reaches inOrder reaches fits

/-- No value is made or lost in a run, as long as all that there is fits a word. -/
theorem runMessage_conservesBalances (env : Environment σ) (message : Message) (pc : Nat)
    (host : Host σ) (inOrder : host.InOrder) (bounded : message.gasLimit < machineLimit)
    (fits : host.view.total < 2 ^ 256) : ConservesBalances env message pc host := by
  have law := View.conserves_law env.fork
  have fits_of {execution : Execution} {reached : Host σ}
      (reaches : Reaches env message pc host execution reached) :
      reached.view.total < 2 ^ 256 := by
    rw [reaches.total_eq inOrder fits]
    exact fits
  constructor
  case result =>
    intro buffered
    obtain ⟨result, after, runs⟩ := runMessage_run env message pc host inOrder bounded buffered
    exact ⟨result, after, runs, (reaches_of_run runs).total_eq inOrder fits⟩
  case throughout =>
    intro execution reached reaches
    exact reaches.total_eq inOrder fits
  case call =>
    intro context frame waiting reached nested left before reaches prepares
    obtain ⟨_, _, holds⟩ := reaches.holds inOrder bounded List.nil_suffix
    have follows := law.prepareCall_follows holds.inOrder prepares
    exact Host.addsUp_of_follows (fits_of reaches) follows _ _ _
  case destruction =>
    intro context frame waiting reached heir balance priced reaches bequeaths
    obtain ⟨_, _, holds⟩ := reaches.holds inOrder bounded List.nil_suffix
    have follows := law.bequeaths_follows holds.inOrder bequeaths
    exact Host.addsUp_of_follows (fits_of reaches) follows _ _ _
  case creation =>
    intro context frame waiting reached nested left asked address made reaches asks creates endows
    obtain ⟨_, _, holds⟩ := reaches.holds inOrder bounded List.nil_suffix
    have follows := law.turn_follows holds.inOrder (turn_of_asks asks)
    have follows' := law.endows_follows creates (follows.extend.inOrder holds.inOrder) endows
    exact Host.addsUp_of_follows (fits_of reaches) (law.follows_trans follows follows') _ _ _
  case outermost =>
    intro warmed address made creates warms endows
    have warm : warmed.InOrder ∧ warmed.view.total = host.view.total := by
      cases warms
      exact ⟨inOrder, rfl⟩
    have follows := law.endows_follows creates warm.1 endows
    exact Host.addsUp_of_follows (by rw [warm.2]; exact fits) follows _ _ _

def fundedWorld : World :=
  World.empty.setEntry 0xaa { Entry.blank with account := .ofBalance 5 }

/-- Code that destroys its account in favour of another. -/
def destroyingMessage : Message :=
  { Message.blank with target := some 0xaa, gasLimit := 50000, code := #[0x60, 0xbb, 0xff] }

theorem runMessage_conservesBalances_destroying : ∃ result after,
    runMessage (.blank .byzantium) destroyingMessage 0 (Host.start fundedWorld ()) =
      .ok result after ∧ after.view.total = 5 := by
  have funded : (Host.start fundedWorld ()).view.total = 5 := by
    unfold View.total
    rw [Finset.sum_eq_single 0xaa]
    · simp [Host.view, Host.start, Store.ofWorld, fundedWorld, Account.ofBalance]
    · intro address _ differs
      simp only [Host.view, Host.start, Store.ofWorld, fundedWorld, World.entry_setEntry,
        if_neg differs.symm, World.entry_empty]
      rfl
    · intro missing
      exact absurd (Finset.mem_univ _) missing
  have conserves := runMessage_conservesBalances (.blank .byzantium) destroyingMessage 0
    (Host.start fundedWorld ()) (fun _ _ _ => rfl) (by decide) (by rw [funded]; decide)
  obtain ⟨result, after, runs, same⟩ := conserves.result (Message.not_overflows_of_gasLimit (by decide))
  exact ⟨result, after, runs, same.trans funded⟩

end Evm
