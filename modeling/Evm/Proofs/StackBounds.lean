import Evm.Proofs.Books

/-!
# Bounds of the stack

What the table says that an operation takes and gives is what it takes and gives: an operation that
passes the check before it is stopped neither for want of operands nor of room, and leaves the words
below its operands alone. So no frame has more words than its stack can hold, the ones that wait
included, whose result is put on the stack without a check.
-/

namespace Evm

open Execution

variable {σ : Type}

namespace Operation

variable {operation : Operation}

/-- Only one byte names the operation that is there to fail. -/
theorem ofByte?_eq_invalid (byte : UInt8) : ofByte? byte = some .invalid ↔ byte = 0xfe := by
  have all : ∀ bits : BitVec 8, ofByte? ⟨bits⟩ = some .invalid ↔ (⟨bits⟩ : UInt8) = 0xfe := by
    decide +kernel
  exact all byte.toBitVec

theorem Footprint.stack_eq {fork : Fork} {context : Context} {view : View} {frame left : Frame}
    {control : Control} (footprint : operation.Footprint fork context view frame left control) :
    left.stack.size + control.owed =
        frame.stack.size - operation.inputs + operation.outputs ∧
      left.stack.words.drop (operation.outputs - control.owed) =
        frame.stack.words.drop operation.inputs := by
  obtain ⟨given, words, gives⟩ := footprint.words
  rw [left.stack.size_eq, frame.stack.size_eq, words, ← gives, Nat.add_sub_cancel]
  refine ⟨?_, List.drop_left⟩
  rw [List.length_append, List.length_drop]
  omega

end Operation

namespace Execution

variable {env : Environment σ} {message : Message} {pc : Nat} {host : Host σ}

theorem resume_words {suspended : Suspended} {result : Result} {next : Frame} {after : Host σ}
    (resumes : resume env suspended result host = .ok next after) :
    ∃ word, next.stack = suspended.frame.stack.push word := by
  obtain ⟨_, receives, _⟩ := resume_ok resumes
  cases taker : suspended.resumption.receiver with
  | call offset size checkpoint =>
    rw [taker] at receives
    obtain ⟨_, fills⟩ := receive_call_ok receives
    obtain ⟨memory, _, rfl⟩ := Option.map_eq_some_iff.mp fills
    cases result.isSuccess <;> exact ⟨_, rfl⟩
  | create =>
    rw [taker] at receives
    cases receives
    unfold receiveCreation
    split <;> exact ⟨_, rfl⟩

/-- Nothing is kept of a frame but that it is there. -/
def plainBook : Book σ Unit := ⟨(), fun _ _ _ _ => (), fun _ _ _ => ()⟩

theorem stack_law (env : Environment σ) :
    Book.Law plainBook env (fun frame _ => frame.stack.size ≤ stackLimit)
      (fun suspended _ => suspended.frame.stack.size < stackLimit) where
  opens _ _ := Nat.zero_le _
  goesOn := by
    intro context frame host next after _ _ turns
    obtain ⟨left, control, index, operation, trodden, goes, rfl⟩ := turn_goOn_trodden turns
    obtain ⟨size_eq, _⟩ := trodden.footprint.stack_eq
    have room := trodden.fits.room
    dsimp only
    omega
  asks := by
    intro context frame host nested asking after _ _ turns
    obtain ⟨left, index, operation, trodden, rfl⟩ := turn_ask_trodden turns
    obtain ⟨size_eq, _⟩ := trodden.footprint.stack_eq
    have room := trodden.fits.room
    rw [show (Control.call nested).owed = 1 from rfl] at size_eq
    dsimp only
    omega
  resumes := by
    intro suspended result host next after _ fits resumes
    obtain ⟨word, stack_eq⟩ := resume_words resumes
    rw [stack_eq]
    exact fits

end Execution

structure StackBounds (env : Environment σ) (message : Message) (pc : Nat) (host : Host σ) :
    Prop where
  /-- An operation that fits the stack is not stopped for that, and as unknown only by its byte. -/
  faults : ∀ {context instruction operation frame} {before last : Host σ} {cause},
    Operation.enabled? env.fork instruction.byte = some operation →
    operation.Fits frame.stack →
    execute env context instruction operation frame before = .error (.fault cause) last →
    cause ≠ .stackUnderflow ∧ cause ≠ .stackOverflow ∧
      ∀ byte, cause = .invalidOpcode byte → byte = 0xfe ∧ instruction.byte = 0xfe
  /-- Below its operands it leaves the stack as it was, and above it what the table says, but for
  the word that a nested message decides. -/
  leaves : ∀ {context instruction operation frame control left} {before last : Host σ},
    Operation.enabled? env.fork instruction.byte = some operation →
    operation.Fits frame.stack →
    execute env context instruction operation frame before = .ok (control, left) last →
    left.stack.size + control.owed =
        frame.stack.size - operation.inputs + operation.outputs ∧
      left.stack.words.drop (operation.outputs - control.owed) =
        frame.stack.words.drop operation.inputs
  /-- With the answer to its nested message the frame has one word in the place of the operands. -/
  resumes : ∀ {context instruction operation frame nested left} {before last : Host σ},
    Operation.enabled? env.fork instruction.byte = some operation →
    operation.Fits frame.stack →
    execute env context instruction operation frame before = .ok (.call nested, left) last →
    ∀ {index step result next} {answered after : Host σ},
    resume env ⟨context, { left with index }, { nested.resumption with step }⟩ result answered =
      .ok next after →
    next.stack.size = frame.stack.size - operation.inputs + 1 ∧
      next.stack.words.drop 1 = frame.stack.words.drop operation.inputs
  indexed : ∀ {stack : Stack} {depth : Fin 16},
    ((Operation.dup depth).Fits stack → (stack.get? depth.val).isSome) ∧
      ((Operation.swap depth).Fits stack → (stack.swap? depth.val).isSome)
  checked : ∀ {operation frame after},
    checkStack operation frame = .ok ((), after) ↔ operation.Fits frame.stack ∧ frame = after
  running : ∀ {context frame waiting reached},
    Reaches env message pc host (.running context frame waiting) reached →
    frame.stack.size ≤ stackLimit
  waiting : ∀ {execution reached}, Reaches env message pc host execution reached →
    ∀ suspended ∈ execution.waitingFrames, suspended.frame.stack.size < stackLimit

/-- The stack of every frame is within its bounds, in every run. -/
theorem runMessage_boundsStack (env : Environment σ) (message : Message) (pc : Nat)
    (host : Host σ) : StackBounds env message pc host where
  faults := by
    intro context instruction operation frame before last cause enabled fits runs
    by_cases invalid : operation = .invalid
    · subst invalid
      have byte := (Operation.ofByte?_eq_invalid _).mp (Option.filter_eq_some_iff.mp enabled).1
      cases runs
      refine ⟨nofun, nofun, ?_⟩
      rintro _ ⟨⟩
      exact ⟨byte, byte⟩
    · have known := (execute_does invalid fits).of_fault runs
      refine ⟨?_, ?_, ?_⟩
      · rintro rfl
        cases known
      · rintro rfl
        cases known
      · rintro byte rfl
        cases known
  leaves := by
    intro context instruction operation frame control left before last _ fits runs
    have known : operation ≠ .invalid := by
      rintro rfl
      cases runs
    exact ((execute_does known fits).of_ok runs).stack_eq
  resumes := by
    intro context instruction operation frame nested left before last _ fits runs index step result
      next answered after resumes
    have asks : operation ≠ .invalid ∧ operation.outputs = 1 := by
      obtain ⟨mode, rfl, _⟩ | ⟨salted, rfl, _⟩ := execute_asks runs <;> exact ⟨nofun, rfl⟩
    obtain ⟨known, one⟩ := asks
    obtain ⟨size_eq, words_eq⟩ := ((execute_does known fits).of_ok runs).stack_eq
    obtain ⟨word, stack_eq⟩ := resume_words resumes
    rw [one] at size_eq words_eq
    rw [stack_eq]
    exact ⟨size_eq, words_eq⟩
  indexed := by
    intro stack depth
    exact ⟨fun fits => Stack.get?_isSome fits.enough, fun fits => Stack.swap?_isSome fits.enough⟩
  checked := checkStack_iff
  running := by
    intro context frame waiting reached reaches
    obtain ⟨_, keeps⟩ := (reaches_iff plainBook).mp reaches
    obtain ⟨_, _, _, bounded, _⟩ := keeps.pairs (stack_law env)
    exact bounded
  waiting := by
    intro execution reached reaches suspended member
    obtain ⟨_, keeps⟩ := (reaches_iff plainBook).mp reaches
    obtain ⟨_, bounded⟩ := keeps.of_waiting (stack_law env) member
    exact bounded

/-- The call of the contract finds its six operands, and leaves room for the answer that it waits
for. -/
theorem runMessage_boundsStack_copying : ∃ context frame waiting reached instruction nested left
    last,
    Reaches (.blank .byzantium) copyingMessage 0 (Host.start .empty ())
        (.running context frame waiting) reached ∧
      frame.stack.words = [100, 4, 0, 32, 32, 32] ∧
      execute (.blank .byzantium) context instruction (.call .static) frame reached =
        .ok (.call nested, left) last ∧
      left.stack.size + 1 = 1 ∧ left.stack.words = [] := by
  have bounds := runMessage_boundsStack (.blank .byzantium) copyingMessage 0 (Host.start .empty ())
  let instruction : Instruction := ⟨17, 0xfa, some (.call .static), #[]⟩
  have enabled : Operation.enabled? .byzantium instruction.byte = some (.call .static) := by decide
  have sees : seenAfter (.blank .byzantium) copyingMessage 0 9
      (fun context frame reached => (frame.stack.words,
        ((execute (.blank .byzantium) context instruction (.call .static) frame).run' reached).map
          fun executed => executed.1.owed))
      (Host.start .empty ()) = some ([100, 4, 0, 32, 32, 32], some 1) := by
    decide +kernel
  obtain ⟨context, frame, waiting, reached, reaches, seen⟩ := reaches_of_seenAfter 9 sees
  obtain ⟨words, asks⟩ := Prod.mk.inj seen
  obtain ⟨⟨control, left⟩, executes, owed⟩ := Option.map_eq_some_iff.mp asks
  obtain ⟨last, executes⟩ := run'_eq_some.mp executes
  have size : frame.stack.size = 6 := by rw [frame.stack.size_eq, words]; rfl
  have fits : (Operation.call .static).Fits frame.stack := ⟨by rw [size]; decide, by rw [size]; decide⟩
  obtain ⟨size_eq, words_eq⟩ := bounds.leaves enabled fits executes
  change control.owed = 1 at owed
  cases control with
  | call nested =>
    rw [size] at size_eq
    rw [words] at words_eq
    exact ⟨context, frame, waiting, reached, instruction, nested, left, last, reaches, words,
      executes, size_eq, words_eq⟩
  | _ => cases owed

end Evm
