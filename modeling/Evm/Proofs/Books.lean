import Evm.Proofs.CallFootprints

/-!
# Books

A book keeps an account of each frame of a run beside its state: what it holds when the frame is
opened, and what every turn of the frame, and every answer that it is handed, make of that. What the
account of a frame tells of the frame is shown by one turn and one answer at a time.
-/

namespace Evm

open Execution

variable {σ ε : Type}

/-- How the account of a frame is kept: its state before a turn, and the frame that waits with the
answer to it, decide what is entered. -/
structure Book (σ ε : Type) where
  opened : ε
  turned : Context → Frame → Host σ → ε → ε
  answered : Suspended → Result → ε → ε

namespace Book

def opening (book : Book σ ε) : Opening → List ε
  | .frame _ _ => [book.opened]
  | .result _ => []

/-- A state that a message from outside passes through, with the accounts of its frames, innermost
first. -/
inductive Keeps (book : Book σ ε) (env : Environment σ) (message : Message) (pc : Nat)
    (host : Host σ) : Execution → Host σ → List ε → Prop where
  | start {warmed opening opened} :
    warmUp (warmFromStart env message) host = .ok () warmed →
    enter env message (topLevelKind message) pc warmed = .ok opening opened →
    Keeps book env message pc host (ofOpening opening []) opened (book.opening opening)
  | goOn {context frame waiting reached next after account others} :
    Keeps book env message pc host (.running context frame waiting) reached (account :: others) →
    turn env context frame reached = .ok (.goOn next) after →
    Keeps book env message pc host (.running context next waiting) after
      (book.turned context frame reached account :: others)
  | finish {context frame waiting reached ended turned result after account others} :
    Keeps book env message pc host (.running context frame waiting) reached (account :: others) →
    turn env context frame reached = .ok (.finish ended) turned →
    conclude env context ended turned = .ok result after →
    Keeps book env message pc host (.returning result waiting) after others
  | ask {context frame waiting reached nested asking asked opening opened account others} :
    Keeps book env message pc host (.running context frame waiting) reached (account :: others) →
    turn env context frame reached = .ok (.ask nested asking) asked →
    enter env nested.message nested.kind 0 asked = .ok opening opened →
    Keeps book env message pc host
      (ofOpening opening (⟨context, asking, nested.resumption⟩ :: waiting)) opened
      (book.opening opening ++ book.turned context frame reached account :: others)
  | resume {result suspended waiting reached next after account others} :
    Keeps book env message pc host (.returning result (suspended :: waiting)) reached
      (account :: others) →
    Execution.resume env suspended result reached = .ok next after →
    Keeps book env message pc host (.running suspended.context next waiting) after
      (book.answered suspended result account :: others)

/-- What is true of every frame and its account, while the frame runs and while it waits. -/
structure Law (book : Book σ ε) (env : Environment σ) (runs : Frame → ε → Prop)
    (waits : Suspended → ε → Prop) : Prop where
  opens : ∀ message index, runs (.start message index) book.opened
  goesOn : ∀ {context frame host next after account}, runs frame account →
    turn env context frame host = .ok (.goOn next) after →
    runs next (book.turned context frame host account)
  asks : ∀ {context frame host nested asking after account}, runs frame account →
    turn env context frame host = .ok (.ask nested asking) after →
    waits ⟨context, asking, nested.resumption⟩ (book.turned context frame host account)
  resumes : ∀ {suspended result host next after account}, waits suspended account →
    resume env suspended result host = .ok next after →
    runs next (book.answered suspended result account)

def Pairs (runs : Frame → ε → Prop) (waits : Suspended → ε → Prop) :
    Execution → List ε → Prop
  | .running _ frame waiting, accounts =>
    ∃ account others, accounts = account :: others ∧ runs frame account ∧
      List.Forall₂ waits waiting others
  | .returning _ waiting, accounts => List.Forall₂ waits waiting accounts

variable {book : Book σ ε} {env : Environment σ} {message : Message} {pc : Nat} {host : Host σ}
  {runs : Frame → ε → Prop} {waits : Suspended → ε → Prop} {execution : Execution}
  {reached : Host σ} {accounts : List ε}

theorem Law.pairs_opening (law : Law book env runs waits) {message : Message} {kind : MessageKind}
    {opening : Opening} {opened : Host σ} {waiting : List Suspended} {others : List ε}
    (enters : enter env message kind pc host = .ok opening opened)
    (below : List.Forall₂ waits waiting others) :
    Pairs runs waits (ofOpening opening waiting) (book.opening opening ++ others) := by
  cases opening with
  | result result => exact below
  | frame context frame =>
    obtain ⟨_, _, index, rfl⟩ := start_of_enter enters
    exact ⟨_, others, rfl, law.opens _ _, below⟩

theorem exists_of_forall₂ {waiting : List Suspended} {others : List ε} {suspended : Suspended}
    (below : List.Forall₂ waits waiting others) (member : suspended ∈ waiting) :
    ∃ account, waits suspended account := by
  induction below with
  | nil => cases member
  | cons holds _ ih =>
    obtain rfl | member := List.mem_cons.mp member
    · exact ⟨_, holds⟩
    · exact ih member

theorem Keeps.pairs (law : Law book env runs waits)
    (keeps : book.Keeps env message pc host execution reached accounts) :
    Pairs runs waits execution accounts := by
  induction keeps with
  | start _ enters =>
    have pairs := law.pairs_opening enters List.Forall₂.nil
    rwa [List.append_nil] at pairs
  | goOn _ turns ih =>
    obtain ⟨_, _, ⟨⟩, holds, below⟩ := ih
    exact ⟨_, _, rfl, law.goesOn holds turns, below⟩
  | finish _ _ _ ih =>
    obtain ⟨_, _, ⟨⟩, -, below⟩ := ih
    exact below
  | ask _ turns enters ih =>
    obtain ⟨_, _, ⟨⟩, holds, below⟩ := ih
    exact law.pairs_opening enters (.cons (law.asks holds turns) below)
  | resume _ resumes ih =>
    cases ih with
    | cons holds below => exact ⟨_, _, rfl, law.resumes holds resumes, below⟩

theorem Keeps.of_waiting (law : Law book env runs waits)
    (keeps : book.Keeps env message pc host execution reached accounts) {suspended : Suspended}
    (member : suspended ∈ execution.waitingFrames) : ∃ account, waits suspended account := by
  have pairs := keeps.pairs law
  cases execution with
  | running =>
    obtain ⟨_, _, _, _, below⟩ := pairs
    exact exists_of_forall₂ below member
  | returning => exact exists_of_forall₂ pairs member

theorem law_trivial (book : Book σ ε) (env : Environment σ) :
    Law book env (fun _ _ => True) (fun _ _ => True) :=
  ⟨fun _ _ => trivial, fun _ _ => trivial, fun _ _ => trivial, fun _ _ => trivial⟩

theorem Keeps.advance {next : Execution} {after : Host σ}
    (keeps : book.Keeps env message pc host execution reached accounts)
    (moves : advance env execution reached = .ok next after) :
    ∃ later, book.Keeps env message pc host next after later := by
  have pairs := keeps.pairs (law_trivial book env)
  cases moves_of_advance moves with
  | goOn turns =>
    obtain ⟨_, _, rfl, -⟩ := pairs
    exact ⟨_, .goOn keeps turns⟩
  | finish turns concludes =>
    obtain ⟨_, _, rfl, -⟩ := pairs
    exact ⟨_, .finish keeps turns concludes⟩
  | ask turns enters =>
    obtain ⟨_, _, rfl, -⟩ := pairs
    exact ⟨_, .ask keeps turns enters⟩
  | resume resumes =>
    cases pairs with
    | cons => exact ⟨_, .resume keeps resumes⟩
  | rest => exact ⟨_, keeps⟩

theorem Keeps.reaches (keeps : book.Keeps env message pc host execution reached accounts) :
    Reaches env message pc host execution reached := by
  induction keeps with
  | start warms enters => exact ⟨_, _, _, warms, enters, .stay⟩
  | goOn _ turns ih => exact ih.advance List.nil_suffix (Moves.goOn turns).advances
  | finish _ turns concludes ih =>
    exact ih.advance List.nil_suffix (Moves.finish turns concludes).advances
  | ask _ turns enters ih => exact ih.advance List.nil_suffix (Moves.ask turns enters).advances
  | resume _ resumes ih =>
    exact ih.advance ⟨_, _, rfl, List.nil_suffix⟩ (Moves.resume resumes).advances

end Book

theorem Execution.reaches_iff (book : Book σ ε) {env : Environment σ} {message : Message}
    {pc : Nat} {host : Host σ} {execution : Execution} {reached : Host σ} :
    Reaches env message pc host execution reached ↔
      ∃ accounts, book.Keeps env message pc host execution reached accounts := by
  refine ⟨fun reaches => ?_, fun ⟨_, keeps⟩ => keeps.reaches⟩
  refine reaches.always (fun warms enters => ⟨_, .start warms enters⟩) ?_
  rintro _ _ _ _ _ _ moves ⟨_, keeps⟩
  exact keeps.advance moves

end Evm
