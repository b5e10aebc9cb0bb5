import Evm.Proofs.Evaluation
import Evm.Proofs.ModularPowers
import Evm.Proofs.Prices
import Mathlib.Data.Rat.Floor

/-!
# Arithmetic over the integers

What an operation on words puts on the stack is told over the integers: a word is its value, or the
integer that it is in two's complement. That the machine goes by magnitudes, masks and cut operands
does not show.
-/

namespace Evm

/-- The value of two operands over the integers, the first being the topmost. -/
def Binary.Means : Binary → Word → Word → Word → Prop
  | .add, a, b, value => value.toNat = (a.toNat + b.toNat) % 2 ^ 256
  | .mul, a, b, value => value.toNat = a.toNat * b.toNat % 2 ^ 256
  | .sub, a, b, value => (value.toNat : Int) = ((a.toNat : Int) - b.toNat) % 2 ^ 256
  | .div, a, b, value => value.toNat = if b.toNat = 0 then 0 else a.toNat / b.toNat
  | .sdiv, a, b, value =>
    (value.toInt = if b.toInt = 0 then 0 else (a.toInt.tdiv b.toInt).bmod (2 ^ 256)) ∧
      (a.toInt = -2 ^ 255 → b.toInt = -1 → value.toInt = -2 ^ 255)
  | .mod, a, b, value => value.toNat = if b.toNat = 0 then 0 else a.toNat % b.toNat
  | .smod, a, b, value => value.toInt = if b.toInt = 0 then 0 else a.toInt.tmod b.toInt
  | .exp, a, b, value => value.toNat = a.toNat ^ b.toNat % 2 ^ 256
  | .signExtend, index, a, value =>
    value.toInt =
      if index.toNat < 31 then (a.toNat : Int).bmod (2 ^ (8 * (index.toNat + 1))) else a.toInt
  | .lt, a, b, value => value = .ofBool (a.toNat < b.toNat)
  | .gt, a, b, value => value = .ofBool (b.toNat < a.toNat)
  | .slt, a, b, value => value = .ofBool (a.toInt < b.toInt)
  | .sgt, a, b, value => value = .ofBool (b.toInt < a.toInt)
  | .eq, a, b, value => value = .ofBool (a.toNat = b.toNat)
  | .and, a, b, value => value.toNat = a.toNat &&& b.toNat
  | .or, a, b, value => value.toNat = a.toNat ||| b.toNat
  | .xor, a, b, value => value.toNat = a.toNat ^^^ b.toNat
  | .byte, index, a, value =>
    value.toNat = if index.toNat < 32 then a.toNat / 256 ^ (31 - index.toNat) % 256 else 0
  | .shl, count, a, value =>
    value.toNat = if count.toNat < 256 then a.toNat * 2 ^ count.toNat % 2 ^ 256 else 0
  | .shr, count, a, value =>
    value.toNat = if count.toNat < 256 then a.toNat / 2 ^ count.toNat else 0
  | .sar, count, a, value => value.toInt = ⌊(a.toInt : ℚ) / 2 ^ count.toNat⌋

/-- The remainder of what two operands give by a third, over the integers. -/
def Ternary.Means : Ternary → Word → Word → Word → Word → Prop
  | .addMod, a, b, n, value =>
    value.toNat = if n.toNat = 0 then 0 else (a.toNat + b.toNat) % n.toNat
  | .mulMod, a, b, n, value =>
    value.toNat = if n.toNat = 0 then 0 else a.toNat * b.toNat % n.toNat

namespace Word

variable {word a b : Word} {count : Nat}

theorem toInt_eq_zero_iff : word.toInt = 0 ↔ word = 0 := by
  rw [← BitVec.toInt_inj, show (0 : Word).toInt = 0 from rfl]

theorem toNat_eq_zero_iff : word.toNat = 0 ↔ word = 0 := by
  rw [← BitVec.toNat_inj, show (0 : Word).toNat = 0 from rfl]

theorem toInt_divSigned (a b : Word) :
    (a.divSigned b).toInt =
      if b.toInt = 0 then 0 else (a.toInt.tdiv b.toInt).bmod (2 ^ 256) := by
  rw [divSigned_eq, BitVec.toInt_sdiv]
  split
  · rw [‹b.toInt = 0›, Int.tdiv_zero]
    rfl
  · rfl

theorem toInt_modSigned (a b : Word) :
    (a.modSigned b).toInt = if b.toInt = 0 then 0 else a.toInt.tmod b.toInt := by
  by_cases zero : b = 0
  · rw [if_pos (toInt_eq_zero_iff.mpr zero), modSigned, if_pos zero]
    rfl
  · rw [if_neg (mt toInt_eq_zero_iff.mp zero), modSigned_eq zero, BitVec.toInt_srem]

theorem toInt_extendSign (word index : Word) :
    (word.extendSign index).toInt =
      if index.toNat < 31 then (word.toNat : Int).bmod (2 ^ (8 * (index.toNat + 1)))
      else word.toInt := by
  split
  · rename_i small
    rw [extendSign_eq word small, BitVec.toInt_signExtend_of_le (by omega),
      BitVec.toInt_eq_toNat_bmod, BitVec.toNat_setWidth, Int.natCast_mod, Int.emod_bmod]
  · rename_i large
    have past : (31 : Word) ≤ index := Nat.not_lt.mp large
    rw [extendSign, if_pos past]

theorem toNat_byteAt (word : Word) (index : Nat) :
    (word.byteAt index).toNat =
      if index < 32 then word.toNat / 256 ^ (31 - index) % 256 else 0 := by
  unfold byteAt
  split
  · rw [UInt8.toNat_ofNat', Nat.shiftRight_eq_div_pow, Nat.pow_mul]
  · rfl

theorem toNat_shiftLeft (word : Word) (count : Nat) :
    (word.shiftLeft count).toNat =
      if count < 256 then word.toNat * 2 ^ count % 2 ^ 256 else 0 := by
  unfold shiftLeft
  split
  · rw [BitVec.toNat_shiftLeft, Nat.shiftLeft_eq]
  · rfl

theorem toNat_shiftRight (word : Word) (count : Nat) :
    (word.shiftRight count).toNat = if count < 256 then word.toNat / 2 ^ count else 0 := by
  unfold shiftRight
  split
  · rw [BitVec.toNat_ushiftRight, Nat.shiftRight_eq_div_pow]
  · rfl

/-- A count past the width leaves the sign alone, which is what the quotient rounds down to. -/
theorem toInt_shiftRightSigned (word : Word) (count : Nat) :
    (word.shiftRightSigned count).toInt = word.toInt / 2 ^ count := by
  unfold shiftRightSigned
  split
  · rw [BitVec.toInt_sshiftRight, Int.shiftRight_eq_div_pow, Int.natCast_pow]
    rfl
  · rename_i large
    have wide : (2 : Int) ^ 256 ≤ 2 ^ count :=
      pow_le_pow_right₀ (by decide) (Nat.not_lt.mp large)
    have lower := word.le_toInt
    have upper := word.toInt_lt
    rw [isNegative, BitVec.msb_eq_toInt]
    by_cases negative : word.toInt < 0
    · rw [if_pos (decide_eq_true negative), Int.ediv_eq_neg_one_of_neg_of_le negative (by omega)]
      rfl
    · rw [if_neg (by simpa using negative), Int.ediv_eq_zero_of_lt (by omega) (by omega)]
      rfl

/-- What tells no numbers from 256 on apart cannot tell a word from what is left of it by a cut. -/
theorem apply_saturate {α : Type} (f : Nat → α) (word : Word)
    (alike : ∀ one two, 256 ≤ one → 256 ≤ two → f one = f two) :
    f word.saturate = f word.toNat := by
  by_cases small : word.toNat < machineLimit
  · rw [saturate_eq small]
  · have fits : 256 < machineLimit := by decide
    have large : ¬ word.saturate < 256 := by
      rw [saturate_lt_iff fits]
      omega
    exact alike _ _ (by omega) (by omega)

theorem byteAt_saturate (word index : Word) :
    word.byteAt index.saturate = word.byteAt index.toNat :=
  apply_saturate word.byteAt index fun one two far beyond => by
    rw [byteAt, if_neg (by omega), byteAt, if_neg (by omega)]

theorem shiftLeft_saturate (word count : Word) :
    word.shiftLeft count.saturate = word.shiftLeft count.toNat :=
  apply_saturate word.shiftLeft count fun one two far beyond => by
    rw [shiftLeft, if_neg (Nat.not_lt.mpr far), shiftLeft, if_neg (Nat.not_lt.mpr beyond)]

theorem shiftRight_saturate (word count : Word) :
    word.shiftRight count.saturate = word.shiftRight count.toNat :=
  apply_saturate word.shiftRight count fun one two far beyond => by
    rw [shiftRight, if_neg (Nat.not_lt.mpr far), shiftRight, if_neg (Nat.not_lt.mpr beyond)]

theorem shiftRightSigned_saturate (word count : Word) :
    word.shiftRightSigned count.saturate = word.shiftRightSigned count.toNat :=
  apply_saturate word.shiftRightSigned count fun one two far beyond => by
    rw [shiftRightSigned, if_neg (Nat.not_lt.mpr far), shiftRightSigned,
      if_neg (Nat.not_lt.mpr beyond)]

end Word

theorem Binary.eval_means (op : Binary) (a b : Word) : op.Means a b (op.eval a b) := by
  cases op with
  | add => exact BitVec.toNat_add a b
  | mul => exact BitVec.toNat_mul a b
  | sub =>
    have small := b.isLt
    -- The bit vectors add the complement, and do not subtract.
    show ((a - b).toNat : Int) = _
    rw [BitVec.toNat_sub]
    omega
  | div =>
    show (a / b).toNat = _
    rw [BitVec.toNat_udiv]
    split
    · rw [‹b.toNat = 0›, Nat.div_zero]
    · rfl
  | sdiv =>
    refine ⟨Word.toInt_divSigned a b, fun least minus => ?_⟩
    rw [Binary.eval, Word.toInt_divSigned, least, minus]
    decide
  | mod =>
    show (Word.mod a b).toNat = _
    rw [Word.mod]
    by_cases zero : b = 0
    · rw [if_pos zero, if_pos (Word.toNat_eq_zero_iff.mpr zero)]
      rfl
    · rw [if_neg zero, if_neg (mt Word.toNat_eq_zero_iff.mp zero), BitVec.toNat_umod]
  | smod => exact Word.toInt_modSigned a b
  | exp =>
    show (BitVec.ofNat 256 _).toNat = _
    rw [Modular.pow_eq, BitVec.toNat_ofNat]
    exact Nat.mod_mod _ _
  | signExtend => exact Word.toInt_extendSign b a
  | lt => rfl
  | gt => rfl
  | slt =>
    show Word.ofBool (a.slt b) = _
    rw [BitVec.slt_eq_decide]
  | sgt =>
    show Word.ofBool (b.slt a) = _
    rw [BitVec.slt_eq_decide]
  | eq =>
    show Word.ofBool (decide (a = b)) = Word.ofBool (decide (a.toNat = b.toNat))
    simp only [BitVec.toNat_inj]
  | and => exact BitVec.toNat_and a b
  | or => exact BitVec.toNat_or a b
  | xor => exact BitVec.toNat_xor a b
  | byte =>
    show (BitVec.ofNat 256 (b.byteAt a.saturate).toNat).toNat = _
    have small := (b.byteAt a.toNat).toNat_lt
    rw [Word.byteAt_saturate, BitVec.toNat_ofNat, Nat.mod_eq_of_lt (by omega), Word.toNat_byteAt]
  | shl =>
    show (b.shiftLeft a.saturate).toNat = _
    rw [Word.shiftLeft_saturate, Word.toNat_shiftLeft]
  | shr =>
    show (b.shiftRight a.saturate).toNat = _
    rw [Word.shiftRight_saturate, Word.toNat_shiftRight]
  | sar =>
    show (b.shiftRightSigned a.saturate).toInt = _
    rw [Word.shiftRightSigned_saturate, Word.toInt_shiftRightSigned,
      show (b.toInt : ℚ) / 2 ^ a.toNat = (b.toInt : ℚ) / (2 ^ a.toNat : Nat) by push_cast; rfl,
      Rat.floor_intCast_div_natCast]
    push_cast
    rfl

theorem Ternary.eval_means (op : Ternary) (a b n : Word) : op.Means a b n (op.eval a b n) := by
  by_cases zero : n = 0
  · subst zero
    cases op <;> rfl
  · have other : ¬ n.toNat = 0 := mt Word.toNat_eq_zero_iff.mp zero
    cases op with
    | addMod =>
      show (a.addMod b n).toNat = _
      rw [Word.toNat_addMod a b zero, if_neg other]
    | mulMod =>
      show (a.mulMod b n).toNat = _
      rw [Word.toNat_mulMod a b zero, if_neg other]

def Frame.leaves (frame : Frame) (words : List Word) (amount : Nat) : Frame :=
  { frame with
    stack := .ofWords words
    gas := { frame.gas with used := frame.gas.used + amount } }

theorem Frame.leaves_words (frame : Frame) : frame.leaves frame.stack.words 0 = frame := by
  obtain ⟨⟨words, size, size_eq⟩, _, _, _, _, _, _, _, _⟩ := frame
  subst size_eq
  rfl

namespace FrameM

variable {α β : Type} {frame between : Frame} {words : List Word} {amount : Nat}

theorem then_run {action : FrameM α} {next : α → FrameM β} {value : α}
    (acts : action frame = .ok (value, between)) :
    (action >>= next) frame = next value between := by
  rw [bind_run, acts]

theorem then_stops {action : FrameM α} {next : α → FrameM β} {interrupt : Interrupt}
    (stops : action frame = .error interrupt) :
    (action >>= next) frame = .error interrupt := by
  rw [bind_run, stops]

theorem pop_leaves (frame : Frame) (word : Word) (words : List Word) (amount : Nat) :
    pop (frame.leaves (word :: words) amount) = .ok (word, frame.leaves words amount) := rfl

theorem push_leaves (frame : Frame) (word : Word) (amount : Nat)
    (room : words.length < stackLimit) :
    push word (frame.leaves words amount) = .ok ((), frame.leaves (word :: words) amount) :=
  if_pos room

theorem charge_leaves (frame : Frame) (words : List Word) (bounded : amount < machineLimit) :
    charge amount (frame.leaves words 0) =
      if amount ≤ frame.gas.remaining then .ok ((), frame.leaves words amount)
      else .error (.fault .outOfGas) := by
  have same : (frame.leaves words 0).gas.remaining = frame.gas.remaining := rfl
  unfold charge Meter.spend?
  rw [if_neg (Nat.not_le.mpr bounded), same]
  by_cases paid : amount ≤ frame.gas.remaining
  · rw [if_pos paid, if_pos paid]
    rfl
  · rw [if_neg paid, if_neg paid]

end FrameM

/-- An operation on numbers with its operands, topmost first. -/
inductive Computation where
  | binary (op : Binary) (a b : Word)
  | ternary (op : Ternary) (a b n : Word)

namespace Computation

def operation : Computation → Operation
  | .binary op _ _ => .binary op
  | .ternary op _ _ _ => .ternary op

def operands : Computation → List Word
  | .binary _ a b => [a, b]
  | .ternary _ a b n => [a, b, n]

def price (fork : Fork) : Computation → Nat
  | .binary op _ b => op.price fork b
  | .ternary op _ _ _ => op.price fork

def action (fork : Fork) : Computation → FrameM Unit
  | .binary op _ _ => Instruction.binary fork op
  | .ternary op _ _ _ => Instruction.ternary fork op

def value : Computation → Word
  | .binary op a b => op.eval a b
  | .ternary op a b n => op.eval a b n

def Means : Computation → Word → Prop
  | .binary op a b => op.Means a b
  | .ternary op a b n => op.Means a b n

theorem value_means (computation : Computation) : computation.Means computation.value := by
  cases computation with
  | binary op a b => exact op.eval_means a b
  | ternary op a b n => exact op.eval_means a b n

variable {σ : Type} {rest : List Word}

open FrameM

theorem binary_run (fork : Fork) (op : Binary) (a b : Word) (frame : Frame)
    (room : rest.length < stackLimit) :
    Instruction.binary fork op (frame.leaves (a :: b :: rest) 0) =
      if op.price fork b ≤ frame.gas.remaining then
        .ok ((), frame.leaves (op.eval a b :: rest) (op.price fork b))
      else .error (.fault .outOfGas) := by
  have charges := charge_leaves frame rest (op.price_bounds fork b).2
  unfold Instruction.binary
  rw [then_run (pop_leaves ..), then_run (pop_leaves ..)]
  by_cases paid : op.price fork b ≤ frame.gas.remaining
  · rw [if_pos paid] at charges
    rw [if_pos paid, then_run charges, push_leaves _ _ _ room]
  · rw [if_neg paid] at charges
    rw [if_neg paid, then_stops charges]

theorem ternary_run (fork : Fork) (op : Ternary) (a b n : Word) (frame : Frame)
    (room : rest.length < stackLimit) :
    Instruction.ternary fork op (frame.leaves (a :: b :: n :: rest) 0) =
      if op.price fork ≤ frame.gas.remaining then
        .ok ((), frame.leaves (op.eval a b n :: rest) (op.price fork))
      else .error (.fault .outOfGas) := by
  have bounded : op.price fork < machineLimit := fork.fee_lt .mid
  have charges := charge_leaves frame (a :: b :: n :: rest) bounded
  unfold Instruction.ternary
  by_cases paid : op.price fork ≤ frame.gas.remaining
  · rw [if_pos paid] at charges
    rw [if_pos paid, then_run charges, then_run (pop_leaves ..), then_run (pop_leaves ..),
      then_run (pop_leaves ..), push_leaves _ _ _ room]
  · rw [if_neg paid] at charges
    rw [if_neg paid, then_stops charges]

theorem thenNext_lift_run (action : FrameM Unit) (frame : Frame) (host : Host σ) :
    thenNext (liftM action) frame host =
      match action frame with
      | .ok (_, left) => .ok (.next, left) host
      | .error interrupt => .error interrupt host := by
  unfold thenNext
  rw [InstructionM.bind_run, InstructionM.lift_run]
  cases action frame <;> rfl

theorem action_run (fork : Fork) (computation : Computation) (frame : Frame)
    (room : rest.length < stackLimit) :
    computation.action fork (frame.leaves (computation.operands ++ rest) 0) =
      if computation.price fork ≤ frame.gas.remaining then
        .ok ((), frame.leaves (computation.value :: rest) (computation.price fork))
      else .error (.fault .outOfGas) := by
  cases computation with
  | binary op a b => exact binary_run fork op a b frame room
  | ternary op a b n => exact ternary_run fork op a b n frame room

theorem execute_eq (env : Environment σ) (context : Context) (instruction : Instruction)
    (computation : Computation) :
    execute env context instruction computation.operation =
      thenNext (liftM (computation.action env.fork)) := by
  cases computation <;> rfl

/-- On a frame that can pay, the operands make way for the one word that the computation means over
the integers. -/
theorem execute_pushes_meaning (env : Environment σ) (context : Context) (instruction : Instruction)
    (computation : Computation) (frame : Frame) (rest : List Word) (host : Host σ)
    (present : frame.stack.words = computation.operands ++ rest)
    (room : rest.length < stackLimit) :
    ∃ value, computation.Means value ∧
      execute env context instruction computation.operation frame host =
        if computation.price env.fork ≤ frame.gas.remaining then
          .ok (.next, frame.leaves (value :: rest) (computation.price env.fork)) host
        else .error (.fault .outOfGas) host := by
  refine ⟨computation.value, computation.value_means, ?_⟩
  -- The operands are the top of the stack: the frame is what is left by nothing done.
  have runs := computation.action_run env.fork frame room
  rw [← present, frame.leaves_words] at runs
  rw [execute_eq, thenNext_lift_run, runs]
  by_cases paid : computation.price env.fork ≤ frame.gas.remaining
  · rw [if_pos paid, if_pos paid]
  · rw [if_neg paid, if_neg paid]

def dividingFrame : Frame :=
  (Frame.start { Message.blank with gasLimit := 100 } 0).leaves [BitVec.intMin 256, -1] 0

/-- The quotient does not fit, and the least integer stays as it is. -/
theorem execute_pushes_meaning_least :
    execute (.blank .cancun) ⟨.blank, .ofBytes #[], 0, none⟩ ⟨0, 5, some (.binary .sdiv), #[]⟩
        (.binary .sdiv) dividingFrame (Host.start .empty ()) =
      .ok (.next, dividingFrame.leaves [BitVec.intMin 256] 5) (Host.start .empty ()) := by
  obtain ⟨value, means, runs⟩ := execute_pushes_meaning (.blank .cancun)
    ⟨.blank, .ofBytes #[], 0, none⟩ ⟨0, 5, some (.binary .sdiv), #[]⟩
    (.binary .sdiv (BitVec.intMin 256) (-1)) dividingFrame [] (Host.start .empty ()) rfl (by decide)
  have least : value = BitVec.intMin 256 :=
    BitVec.toInt_inj.mp (means.2 (by decide) (by decide))
  rw [← least]
  exact runs

end Computation

end Evm
