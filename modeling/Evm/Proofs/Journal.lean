import Evm.Proofs.View

/-!
# The journal

A host extends another if undoing what was noted since leads back to what the other shows. Every
operation on a host in order extends it, and a rollback to an earlier host restores that host.
-/

namespace Evm

open Function

/-- The view before a change, from the view after it. -/
def Change.revert : Change → View → View
  | .account address previous, view => view.setAccount address previous
  | .code address previous, view => view.setCode address previous
  | .storage address key previous, view => view.setSlot (address, key) previous
  | .transient address key previous, view => view.setTransient (address, key) previous
  | .warmAddress address, view => view.setWarm address false
  | .warmSlot address key, view => view.setWarmSlot (address, key) false

namespace View

variable (view : View)

@[simp] theorem setAccount_setAccount (address : Address) (account : Account) :
    (view.setAccount address account).setAccount address (view.account address) = view := by
  simp [setAccount]

@[simp] theorem setCode_setCode (address : Address) (code : Bytes) :
    (view.setCode address code).setCode address (view.code address) = view := by
  simp [setCode]

@[simp] theorem setSlot_setSlot (place : Address × Word) (value : Word) :
    (view.setSlot place value).setSlot place (view.slot place) = view := by
  simp [setSlot]

@[simp] theorem setTransient_setTransient (place : Address × Word) (value : Word) :
    (view.setTransient place value).setTransient place (view.transient place) = view := by
  simp [setTransient]

theorem setWarm_self {address : Address} {warm : Bool} (same : view.isWarm address = warm) :
    view.setWarm address warm = view := by
  rw [setWarm, ← same, update_eq_self]

theorem setWarmSlot_self {place : Address × Word} {warm : Bool}
    (same : view.isWarmSlot place = warm) : view.setWarmSlot place warm = view := by
  rw [setWarmSlot, ← same, update_eq_self]

@[simp] theorem setWarm_setWarm (address : Address) (first second : Bool) :
    (view.setWarm address first).setWarm address second = view.setWarm address second := by
  simp [setWarm]

@[simp] theorem setWarmSlot_setWarmSlot (place : Address × Word) (first second : Bool) :
    (view.setWarmSlot place first).setWarmSlot place second = view.setWarmSlot place second := by
  simp [setWarmSlot]

end View

namespace Host

variable {σ : Type} {base middle host after : Host σ}

/-- What was noted since `base` leads back to what `base` shows. -/
def Extends (base host : Host σ) : Prop :=
  ∃ noted, base.Move host.view noted host ∧ noted.foldr Change.revert host.view = base.view

theorem Move.extends {view : View} {noted : List Change} (move : base.Move view noted host)
    (reverts : noted.foldr Change.revert view = base.view) : base.Extends host := by
  have same := move.view_eq
  subst same
  exact ⟨noted, move, reverts⟩

theorem Move.extends_of_same (move : base.Move base.view [] host) : base.Extends host :=
  move.extends rfl

namespace Extends

theorem refl (host : Host σ) : host.Extends host := (Move.refl host).extends_of_same

theorem trans (first : base.Extends middle) (second : middle.Extends host) :
    base.Extends host := by
  obtain ⟨earlier, move, reverts⟩ := first
  obtain ⟨later, move', reverts'⟩ := second
  refine ⟨earlier ++ later, move.trans move', ?_⟩
  rw [List.foldr_append, reverts', reverts]

theorem inOrder (extend : base.Extends host) (inOrder : base.InOrder) : host.InOrder := by
  obtain ⟨_, move, _⟩ := extend
  exact move.inOrder inOrder

/-- Of the hosts that another one extends, each is known by the length of its journal. -/
theorem view_eq {one two : Host σ} (first : one.Extends host)
    (second : two.Extends host) (same : one.journal.size = two.journal.size) :
    one.view = two.view := by
  obtain ⟨early, move, reverts⟩ := first
  obtain ⟨late, move', reverts'⟩ := second
  have journals : one.journal.toList ++ early = two.journal.toList ++ late := by
    rw [← move.journal_eq, ← move'.journal_eq]
  obtain ⟨_, notes⟩ := List.append_inj journals (by simpa using same)
  rw [← reverts, ← reverts', notes]

end Extends

theorem undo_run (inOrder : host.InOrder) (change : Change) :
    ∃ after, Host.undo change host = .ok () after ∧
      host.Move (change.revert host.view) [] after := by
  cases change with
  | account address previous => exact storePutAccount_run inOrder address previous
  | code address previous => exact storePutCode_run inOrder address previous
  | storage address key previous => exact storePut_run inOrder address key previous
  | transient address key previous => exact setTransient_run host address key previous
  | warmAddress address =>
    refine ⟨_, rfl, ?_, by simp, rfl⟩
    apply View.ext <;> try rfl
    funext other
    by_cases same : other = address
    · simp [view, Change.revert, View.setWarm, same]
    · simp [view, Change.revert, View.setWarm, same, Ne.symm same]
  | warmSlot address key =>
    refine ⟨_, rfl, ?_, by simp, rfl⟩
    apply View.ext <;> try rfl
    funext other
    by_cases same : other = (address, key)
    · simp [view, Change.revert, View.setWarmSlot, same]
    · simp [view, Change.revert, View.setWarmSlot, same, Ne.symm same]

theorem undoAll_run (inOrder : host.InOrder) (changes : List Change) :
    ∃ after, Host.undoAll changes host = .ok () after ∧
      host.Move (changes.foldl (fun view change => change.revert view) host.view) [] after := by
  induction changes generalizing host with
  | nil => exact ⟨host, rfl, Move.refl host⟩
  | cons newest older ih =>
    obtain ⟨undone, undoes, move⟩ := undo_run inOrder newest
    obtain ⟨after, rest, move'⟩ := ih (move.inOrder inOrder)
    refine ⟨after, ?_, ?_⟩
    · rw [Host.undoAll, bind_of_ok undoes, rest]
    · rw [List.foldl_cons, ← move.view_eq]
      exact move.trans move'

/-- A rollback restores the host whose checkpoint it is given. -/
theorem rollback_run (extend : base.Extends host) (inOrder : host.InOrder) :
    ∃ after, Host.rollback base.journal.size host = .ok () after ∧
      base.Move base.view [] after := by
  obtain ⟨noted, move, reverts⟩ := extend
  have starts : (get : HostM σ (Host σ)) host = .ok host host := rfl
  let cut : Host σ := { host with journal := host.journal.take base.journal.size }
  have kept : cut.journal.toList = base.journal.toList := by
    simp [cut, move.journal_eq]
  have dropped : host.journal.toList.drop base.journal.size = noted := by
    simp [move.journal_eq]
  have cutInOrder : cut.InOrder := inOrder
  obtain ⟨after, undoes, back⟩ := undoAll_run cutInOrder noted.reverse
  refine ⟨after, ?_, ?_, ?_, ?_⟩
  · unfold Host.rollback
    rw [bind_of_ok starts, bind_of_ok (modify_run _ _), dropped]
    exact undoes
  · rw [back.view_eq, List.foldl_reverse]
    exact reverts
  · rw [back.journal_eq, kept]
  · exact back.isDown_eq.trans move.isDown_eq

end Host

namespace HostM

variable {σ α β : Type} {post : α → Prop} {action : HostM σ α}

/-- In a world in order the action succeeds with a value that meets `post`, and all it changes
is noted. -/
def Serves (action : HostM σ α) (post : α → Prop) : Prop :=
  ∀ host, host.InOrder →
    ∃ value after, action host = .ok value after ∧ host.Extends after ∧ post value

namespace Serves

theorem done {value : α} (holds : post value) : Serves (pure value : HostM σ α) post :=
  fun host _ => ⟨value, host, rfl, .refl host, holds⟩

theorem bind {next : α → HostM σ β} {post' : β → Prop} (first : Serves action post)
    (rest : ∀ value, post value → Serves (next value) post') : Serves (action >>= next) post' := by
  intro host inOrder
  obtain ⟨value, between, runs, extend, holds⟩ := first host inOrder
  obtain ⟨result, after, runs', extend', holds'⟩ := rest value holds between (extend.inOrder inOrder)
  exact ⟨result, after, by rw [bind_of_ok runs, runs'], extend.trans extend', holds'⟩

theorem extends_of_run {host after : Host σ} {value : α} (serves : Serves action post)
    (inOrder : host.InOrder) (runs : action host = .ok value after) : host.Extends after := by
  obtain ⟨value', after', runs', extend, _⟩ := serves host inOrder
  rw [runs] at runs'
  cases runs'
  exact extend

end Serves

end HostM

namespace Host

open HostM

variable {σ : Type}

theorem account_serves (address : Address) :
    Serves (Host.account address : HostM σ Account) fun _ => True :=
  fun host inOrder => ⟨_, host, account_run inOrder address, .refl host, trivial⟩

theorem code_serves (address : Address) :
    Serves (Host.code address : HostM σ Bytes) fun _ => True :=
  fun host inOrder => ⟨_, host, code_run inOrder address, .refl host, trivial⟩

theorem slot_serves (address : Address) (key : Word) :
    Serves (Host.slot address key : HostM σ Word) fun _ => True := by
  intro host inOrder
  obtain ⟨after, runs, move⟩ := slot_run inOrder address key
  exact ⟨_, after, runs, move.extends_of_same, trivial⟩

theorem initialSlot_serves (address : Address) (key : Word) :
    Serves (Host.initialSlot address key : HostM σ Word) fun _ => True := by
  intro host inOrder
  obtain ⟨value, after, runs, move⟩ := initialSlot_run inOrder address key
  exact ⟨value, after, runs, move.extends_of_same, trivial⟩

theorem transientSlot_serves (address : Address) (key : Word) :
    Serves (Host.transientSlot address key : HostM σ Word) fun _ => True :=
  fun host _ => ⟨_, host, transientSlot_run host address key, .refl host, trivial⟩

theorem putAccount_serves (address : Address) (account : Account) :
    Serves (Host.putAccount address account : HostM σ Unit) fun _ => True := by
  intro host inOrder
  obtain ⟨after, runs, move⟩ := putAccount_run inOrder address account
  exact ⟨(), after, runs, move.extends (by simp [Change.revert]), trivial⟩

theorem putCode_serves (address : Address) (code : Bytes) :
    Serves (Host.putCode address code : HostM σ Unit) fun _ => True := by
  intro host inOrder
  obtain ⟨after, runs, move⟩ := putCode_run inOrder address code
  exact ⟨(), after, runs, move.extends (by simp [Change.revert]), trivial⟩

theorem putSlot_serves (address : Address) (key value : Word) :
    Serves (Host.putSlot address key value : HostM σ Unit) fun _ => True := by
  intro host inOrder
  obtain ⟨after, runs, move⟩ := putSlot_run inOrder address key value
  exact ⟨(), after, runs, move.extends (by simp [Change.revert]), trivial⟩

theorem putTransient_serves (address : Address) (key value : Word) :
    Serves (Host.putTransient address key value : HostM σ Unit) fun _ => True := by
  intro host _
  obtain ⟨after, runs, move⟩ := putTransient_run host address key value
  exact ⟨(), after, runs, move.extends (by simp [Change.revert]), trivial⟩

theorem touchAddress_serves (address : Address) :
    Serves (Host.touchAddress address : HostM σ Bool) fun _ => True := by
  intro host _
  obtain ⟨after, runs, move⟩ := touchAddress_run host address
  refine ⟨_, after, runs, move.extends ?_, trivial⟩
  by_cases warm : host.view.isWarm address
  · simp [warm, View.setWarm_self]
  · simp [warm, Change.revert, View.setWarm_self]

theorem touchSlot_serves (address : Address) (key : Word) :
    Serves (Host.touchSlot address key : HostM σ Bool) fun _ => True := by
  intro host _
  obtain ⟨after, runs, move⟩ := touchSlot_run host address key
  refine ⟨_, after, runs, move.extends ?_, trivial⟩
  by_cases warm : host.view.isWarmSlot (address, key)
  · simp [warm, View.setWarmSlot_self]
  · simp [warm, Change.revert, View.setWarmSlot_self]

theorem checkpoint_serves : Serves (Host.checkpoint : HostM σ Nat) fun _ => True :=
  fun host _ => ⟨_, host, rfl, .refl host, trivial⟩

theorem transfer_serves (sender recipient : Address) (value : Word) :
    Serves (Host.transfer sender recipient value : HostM σ Bool) fun _ => True := by
  unfold Host.transfer
  split
  · exact .done trivial
  refine (account_serves sender).bind fun account _ => ?_
  split
  · exact .done trivial
  split
  · exact .done trivial
  refine (putAccount_serves _ _).bind fun _ _ => ?_
  refine (account_serves recipient).bind fun account _ => ?_
  refine (putAccount_serves _ _).bind fun _ _ => ?_
  exact .done trivial

end Host

end Evm
