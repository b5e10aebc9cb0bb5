import Evm.Instruction.Call

/-!
# Prices

What is charged fits 64 bits, and what an instruction is charged is not zero. Memory that was
paid for covers the range that it was paid for.
-/

namespace Evm

namespace Meter

variable {meter middle after : Meter} {amount more least : Nat}

structure Sound (meter : Meter) : Prop where
  used_le : meter.used ≤ meter.limit
  limit_lt : meter.limit < machineLimit

/-- Exactly `amount` was spent in between. -/
structure Pays (meter : Meter) (amount : Nat) (after : Meter) : Prop where
  limit_eq : after.limit = meter.limit
  used_eq : after.used = meter.used + amount
  sound : after.Sound

/-- At least `least` was spent in between. -/
structure Spends (meter : Meter) (least : Nat) (after : Meter) : Prop where
  limit_eq : after.limit = meter.limit
  used_ge : meter.used + least ≤ after.used
  sound : after.Sound

theorem sound_ofLimit {limit : Nat} (bounded : limit < machineLimit) : (ofLimit limit).Sound :=
  ⟨Nat.zero_le limit, bounded⟩

theorem Pays.trans (first : meter.Pays amount middle) (second : middle.Pays more after) :
    meter.Pays (amount + more) after := by
  refine ⟨second.limit_eq.trans first.limit_eq, ?_, second.sound⟩
  rw [second.used_eq, first.used_eq]
  omega

theorem Pays.spends (pays : meter.Pays amount after) (enough : least ≤ amount) :
    meter.Spends least after := by
  refine ⟨pays.limit_eq, ?_, pays.sound⟩
  rw [pays.used_eq]
  omega

theorem pays_of_spend? (sound : meter.Sound) (spends : meter.spend? amount = some after) :
    meter.Pays amount after := by
  unfold spend? at spends
  split at spends
  · cases spends
    have enough : amount ≤ meter.limit - meter.used := ‹_›
    have used_le := sound.used_le
    refine ⟨rfl, rfl, ?_, sound.limit_lt⟩
    dsimp only
    omega
  · cases spends

theorem sound_restore (sound : meter.Sound) : (meter.restore amount).Sound := by
  have used_le := sound.used_le
  refine ⟨?_, sound.limit_lt⟩
  unfold restore
  dsimp only
  omega

end Meter

namespace Fork

theorem change_le {fork first : Fork} {old new bound : Nat} (before : old ≤ bound)
    (after : new ≤ bound) : fork.change first old new ≤ bound := by
  unfold change
  split
  · exact after
  · exact before

theorem fee_le (fork : Fork) (fee : Fee) : fork.fee fee ≤ 100000 := by
  unfold Fork.fee
  split
  all_goals repeat' first | omega | apply change_le

theorem fee_lt (fork : Fork) (fee : Fee) : fork.fee fee < machineLimit := by
  have bounded := fork.fee_le fee
  unfold machineLimit
  omega

theorem one_le_access {fork : Fork} (lists : fork.hasAccessLists) :
    1 ≤ fork.fee .warmAccess ∧ 1 ≤ fork.fee .coldAccountAccess ∧ 1 ≤ fork.fee .coldSload := by
  have late : .berlin ≤ fork := by simpa [hasAccessLists] using lists
  simp [fee, change, late]

/-- Without access lists the operations that reach for the world have prices of their own. -/
theorem one_le_fee {fork : Fork} {fee : Fee} (plain : fork.hasAccessLists = false)
    (reaches : fee ∈ [.balance, .extCodeSize, .extCodeCopy, .extCodeHash, .sload, .call]) :
    1 ≤ fork.fee fee := by
  have early : ¬ .berlin ≤ fork := by simpa [hasAccessLists] using plain
  simp only [List.mem_cons, List.not_mem_nil, or_false] at reaches
  rcases reaches with rfl | rfl | rfl | rfl | rfl | rfl <;> simp only [Fork.fee, change, if_neg early]
  all_goals repeat' split
  all_goals omega

end Fork

namespace Word

theorem bitLength_le (word : Word) : word.bitLength ≤ 256 := by
  unfold bitLength
  split
  · omega
  · have below := (Nat.log2_lt ‹_›).mpr word.isLt
    omega

end Word

theorem Binary.price_bounds (fork : Fork) (op : Binary) (exponent : Word) :
    1 ≤ op.price fork exponent ∧ op.price fork exponent < machineLimit := by
  have bits := exponent.bitLength_le
  unfold Binary.price machineLimit
  split <;> simp only [Fork.fee] <;> omega

namespace Instruction

theorem copyPrice_le {fork : Fork} {fixed : Fee} {size : Nat} (within : size ≤ memoryLimit) :
    copyPrice fork fixed size ≤ 1 <<< 40 := by
  have bounded := fork.fee_le fixed
  unfold copyPrice wordCount
  unfold memoryLimit at within
  simp only [show fork.fee .copy = 3 from rfl]
  omega

theorem storePrice_gas (fork : Fork) (initial current new : Word) :
    ∃ fee ∈ [Fee.sstoreSet, .sstoreReset, .sstoreDirty],
      (storePrice fork initial current new).gas = fork.fee fee := by
  unfold storePrice plainStorePrice netStorePrice
  dsimp only
  repeat' split
  all_goals simp

theorem storePrice_bounds (fork : Fork) (initial current new : Word) :
    1 ≤ (storePrice fork initial current new).gas ∧
      (storePrice fork initial current new).gas ≤ 100000 := by
  obtain ⟨fee, member, same⟩ := storePrice_gas fork initial current new
  rw [same]
  refine ⟨?_, fork.fee_le fee⟩
  simp only [List.mem_cons, List.not_mem_nil, or_false] at member
  rcases member with rfl | rfl | rfl <;> simp only [Fork.fee, Fork.change]
  all_goals repeat' split
  all_goals omega

end Instruction

namespace Memory

variable {memory : Memory} {offset size : Nat}

/-- A range that memory can hold. An empty one starts at zero. -/
structure Within (offset size : Nat) : Prop where
  end_le : offset + size ≤ memoryLimit
  offset_eq : size = 0 → offset = 0

theorem within_of_region? {start length : Word} {range : Nat × Nat}
    (names : region? start length = some range) :
    Within range.1 range.2 ∧ range.2 = length.toNat := by
  unfold region? at names
  split at names
  · cases names
    refine ⟨⟨by simp, fun _ => rfl⟩, ?_⟩
    simp [*]
  · split at names
    · cases names
      refine ⟨⟨‹_›, ?_⟩, rfl⟩
      intro empty
      exact absurd (BitVec.eq_of_toNat_eq empty) ‹_›
    · cases names

theorem price_le (fork : Fork) {words : Nat} (bounded : words ≤ 1 <<< 27) :
    price fork words ≤ 1 <<< 46 := by
  have square : words * words ≤ (1 <<< 27) * (1 <<< 27) := Nat.mul_le_mul bounded bounded
  have quotient := Nat.div_le_div_right square (c := 512)
  unfold price
  rw [show fork.fee .memory = 3 from rfl, show fork.fee .quadCoeffDiv = 512 from rfl]
  omega

theorem expansionPrice_le (memory : Memory) (fork : Fork) (within : offset + size ≤ memoryLimit) :
    memory.expansionPrice fork offset size ≤ 1 <<< 46 := by
  have words : wordCount (offset + size) ≤ 1 <<< 27 := by
    unfold wordCount
    unfold memoryLimit at within
    omega
  have bounded := price_le fork words
  unfold expansionPrice
  dsimp only
  split <;> omega

theorem expansionPrice_lt (memory : Memory) (fork : Fork) (within : Within offset size) :
    memory.expansionPrice fork offset size < machineLimit := by
  have bounded := memory.expansionPrice_le fork within.end_le
  unfold machineLimit
  omega

theorem size_expand (memory : Memory) (offset size : Nat) :
    (memory.expand offset size).size =
      if size = 0 then memory.size else max memory.size (32 * wordCount (offset + size)) := by
  unfold expand
  split
  · rfl
  · simp only [Memory.size, Array.size_append, Bytes.zeros, Array.size_replicate]
    omega

theorem covers_expand (memory : Memory) (within : Within offset size) :
    offset + size ≤ (memory.expand offset size).size ∧
      memory.size ≤ (memory.expand offset size).size := by
  have start := within.offset_eq
  rw [size_expand]
  unfold wordCount
  split <;> omega

end Memory

end Evm
