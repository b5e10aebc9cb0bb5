import Evm.Proofs.Laws

/-!
# What operations do to a host

An operation that went through has touched at most one address or one slot, and stored at most one
word. Which ones, and what the access has cost, is told from the operands that it found on the
stack and from what the host showed before it.
-/

namespace Evm

variable {σ : Type}

/-! ## Steps on a frame that went through -/

/-- The word below `index` others on the stack. -/
def Frame.operand (frame : Frame) (index : Nat) : Word := frame.stack.words.getD index 0

def Frame.address (frame : Frame) (index : Nat) : Address := .ofWord (frame.operand index)

def Frame.place (frame : Frame) (context : Context) : Address × Word :=
  (context.self, frame.operand 0)

namespace FrameM

variable {frame after : Frame}

theorem faultIf_run {condition : Prop} [Decidable condition] {cause : Exception}
    (passes : ¬ condition) (frame : Frame) : faultIf condition cause frame = .ok ((), frame) := by
  rw [faultIf, if_neg passes]
  rfl

theorem pop_run {frame : Frame} {word : Word} {below : List Word}
    (words : frame.stack.words = word :: below) :
    ∃ after, pop frame = .ok (word, after) ∧ after.stack.words = below ∧ after.gas = frame.gas := by
  obtain ⟨⟨_, _, _⟩, _, _, _, _, _, _, _, _⟩ := frame
  obtain rfl : _ = _ := words
  exact ⟨_, rfl, rfl, rfl⟩

theorem charge_run {frame : Frame} {amount : Nat} (small : amount < machineLimit)
    (enough : amount ≤ frame.gas.remaining) : ∃ after, charge amount frame = .ok ((), after) := by
  rw [charge, if_neg (Nat.not_le.mpr small), Meter.spend?, if_pos enough]
  exact ⟨_, rfl⟩

theorem pop_ok {word : Word} (runs : pop frame = .ok (word, after)) :
    frame.stack.words = word :: after.stack.words ∧ after.gas = frame.gas ∧
      after.memory = frame.memory := by
  unfold pop at runs
  cases found : frame.stack.pop? with
  | none =>
    simp only [found] at runs
    cases runs
  | some popped =>
    simp only [found] at runs
    cases runs
    refine ⟨?_, rfl, rfl⟩
    unfold Stack.pop? at found
    split at found <;> cases found
    rw [‹frame.stack = _›]

theorem popAddress_ok {address : Address} (runs : popAddress frame = .ok (address, after)) :
    ∃ word, address = .ofWord word ∧ frame.stack.words = word :: after.stack.words ∧
      after.gas = frame.gas ∧ after.memory = frame.memory := by
  obtain ⟨word, _, pops, runs⟩ := bind_ok.mp runs
  cases runs
  exact ⟨word, rfl, pop_ok pops⟩

theorem push_ok {word : Word} (runs : push word frame = .ok ((), after)) :
    after.gas = frame.gas := by
  unfold push at runs
  split at runs <;> cases runs
  rfl

theorem charge_ok {amount : Nat} (runs : charge amount frame = .ok ((), after)) :
    after.gas.used = frame.gas.used + amount ∧ after.memory = frame.memory := by
  unfold charge at runs
  split at runs
  · cases runs
  cases spent : frame.gas.spend? amount with
  | none =>
    simp only [spent] at runs
    cases runs
  | some gas =>
    simp only [spent] at runs
    cases runs
    unfold Meter.spend? at spent
    split at spent <;> cases spent
    exact ⟨rfl, rfl⟩

theorem region_ok {offset size : Word} {range : Nat × Nat}
    (runs : region offset size frame = .ok (range, after)) :
    Memory.region? offset size = some range ∧ frame = after := by
  unfold region at runs
  cases found : Memory.region? offset size with
  | none =>
    simp only [found] at runs
    cases runs
  | some known =>
    simp only [found] at runs
    cases runs
    exact ⟨rfl, rfl⟩

theorem expand_ok {fork : Fork} {offset size : Nat}
    (runs : expand fork offset size frame = .ok ((), after)) :
    after.gas.used = frame.gas.used + frame.memory.expansionPrice fork offset size := by
  obtain ⟨_, _, ⟨⟩, runs⟩ := bind_ok.mp runs
  obtain ⟨_, _, charges, runs⟩ := bind_ok.mp runs
  cases runs
  exact (charge_ok charges).1

theorem updateMemory_ok {update : Memory → Option Memory}
    (runs : updateMemory update frame = .ok ((), after)) : after.gas = frame.gas := by
  unfold updateMemory at runs
  dsimp only at runs
  split at runs <;> cases runs
  rfl

end FrameM

namespace InstructionM

variable {α β : Type} {frame after : Frame} {host last : Host σ} {value : α}

theorem lift_bind_ok {action : FrameM β} {next : β → InstructionM σ α} :
    ((liftM action : InstructionM σ β) >>= next) frame host = .ok (value, after) last ↔
      ∃ middle between, action frame = .ok (middle, between) ∧
        next middle between host = .ok (value, after) last := by
  rw [bind_ok]
  constructor
  · rintro ⟨middle, between, _, runs, rest⟩
    obtain ⟨acts, rfl⟩ := lift_ok.mp runs
    exact ⟨middle, between, acts, rest⟩
  · rintro ⟨middle, between, runs, rest⟩
    exact ⟨middle, between, host, lift_ok.mpr ⟨runs, rfl⟩, rest⟩

theorem host_bind_ok {action : HostM σ β} {next : β → InstructionM σ α} :
    (InstructionM.host action >>= next) frame host = .ok (value, after) last ↔
      ∃ middle passed, action host = .ok middle passed ∧
        next middle frame passed = .ok (value, after) last := by
  rw [bind_ok]
  constructor
  · rintro ⟨middle, _, passed, runs, rest⟩
    obtain ⟨acts, rfl⟩ := host_ok.mp runs
    exact ⟨middle, passed, acts, rest⟩
  · rintro ⟨middle, passed, runs, rest⟩
    exact ⟨middle, frame, passed, host_ok.mpr ⟨runs, rfl⟩, rest⟩

end InstructionM

/-! ## Touching -/

/-- What an access costs on top, by whether it finds what it touches warm. -/
def Fork.surcharge (fork : Fork) (isWarm : Bool) (cold : Fee) (warm : Nat) : Nat :=
  if fork.hasAccessLists then if isWarm then warm else fork.fee cold else 0

namespace View

variable (fork : Fork) (view : View)

def touch (address : Address) : View :=
  if fork.hasAccessLists then view.setWarm address true else view

def touchSlot (place : Address × Word) : View :=
  if fork.hasAccessLists then view.setWarmSlot place true else view

@[simp] theorem touch_slot (address : Address) : (view.touch fork address).slot = view.slot := by
  unfold touch
  split <;> rfl

@[simp] theorem touchSlot_slot (place : Address × Word) :
    (view.touchSlot fork place).slot = view.slot := by
  unfold touchSlot
  split <;> rfl

@[simp] theorem touch_account (address : Address) :
    (view.touch fork address).account = view.account := by
  unfold touch
  split <;> rfl

/-- The same slots with the same values, and the same addresses and slots that are warm. -/
structure Alike (view after : View) : Prop where
  slot_eq : after.slot = view.slot
  isWarm_eq : after.isWarm = view.isWarm
  isWarmSlot_eq : after.isWarmSlot = view.isWarmSlot

namespace Alike

variable {first second third : View}

theorem refl (view : View) : view.Alike view := ⟨rfl, rfl, rfl⟩

theorem trans (one : first.Alike second) (two : second.Alike third) : first.Alike third :=
  ⟨two.slot_eq.trans one.slot_eq, two.isWarm_eq.trans one.isWarm_eq,
    two.isWarmSlot_eq.trans one.isWarmSlot_eq⟩

theorem of_eq (same : second = first) : first.Alike second := same ▸ refl first

theorem setAccount (address : Address) (account : Account) :
    first.Alike (first.setAccount address account) :=
  ⟨rfl, rfl, rfl⟩

theorem send (sender recipient : Address) (value : Word) :
    first.Alike (first.send sender recipient value) :=
  ⟨rfl, rfl, rfl⟩

end Alike

end View

namespace Host

variable {host after : Host σ} {view : View}

/-- The later host shows a view, and its world is as much in order. -/
def Shows (host : Host σ) (view : View) (after : Host σ) : Prop := ∃ noted, host.Move view noted after

theorem Shows.view_eq (shows : host.Shows view after) : after.view = view := by
  obtain ⟨_, move⟩ := shows
  exact move.view_eq

theorem Shows.inOrder (shows : host.Shows view after) (inOrder : host.InOrder) : after.InOrder := by
  obtain ⟨_, move⟩ := shows
  exact move.inOrder inOrder

theorem touchAddress_shows {address : Address} {cold : Bool}
    (runs : Host.touchAddress address host = .ok cold after) :
    cold = !host.view.isWarm address ∧ host.Shows (host.view.setWarm address true) after := by
  obtain ⟨rfl, move⟩ := of_run_value runs (touchAddress_run host address)
  exact ⟨rfl, _, move⟩

theorem touchSlot_shows {address : Address} {key : Word} {cold : Bool}
    (runs : Host.touchSlot address key host = .ok cold after) :
    cold = !host.view.isWarmSlot (address, key) ∧
      host.Shows (host.view.setWarmSlot (address, key) true) after := by
  obtain ⟨rfl, move⟩ := of_run_value runs (touchSlot_run host address key)
  exact ⟨rfl, _, move⟩

/-- What an access costs, and what it leaves, by whether it finds warm what it touches. -/
theorem surcharged_shows {fork : Fork} {touching : HostM σ Bool} {isWarm : Bool} {cold : Fee}
    {warm price : Nat}
    (touches : ∀ {found between}, touching host = .ok found between →
      found = !isWarm ∧ host.Shows view between)
    (runs : (do
      if fork.hasAccessLists then if ← touching then return fork.fee cold else return warm
      else return 0 : HostM σ Nat) host = .ok price after) :
    price = fork.surcharge isWarm cold warm ∧
      host.Shows (if fork.hasAccessLists then view else host.view) after := by
  unfold Fork.surcharge
  by_cases lists : fork.hasAccessLists
  · simp only [if_pos lists] at runs ⊢
    obtain ⟨_, _, touched, runs⟩ := bind_eq_ok.mp runs
    obtain ⟨rfl, shows⟩ := touches touched
    cases isWarm <;> cases runs <;> exact ⟨rfl, shows⟩
  · simp only [if_neg lists] at runs ⊢
    cases runs
    exact ⟨rfl, _, .refl host⟩

theorem accessAddress_shows {fork : Fork} {address : Address} {price : Nat}
    (runs : Host.accessAddress fork address host = .ok price after) :
    price = fork.surcharge (host.view.isWarm address) .coldAccountAccess (fork.fee .warmAccess) ∧
      host.Shows (host.view.touch fork address) after :=
  surcharged_shows touchAddress_shows runs

theorem accessCold_shows {fork : Fork} {address : Address} {price : Nat}
    (runs : Host.accessCold fork address host = .ok price after) :
    price = fork.surcharge (host.view.isWarm address) .coldAccountAccess 0 ∧
      host.Shows (host.view.touch fork address) after :=
  surcharged_shows touchAddress_shows runs

theorem accessSlot_shows {fork : Fork} {address : Address} {key : Word} {price : Nat}
    (runs : Host.accessSlot fork address key host = .ok price after) :
    price = fork.surcharge (host.view.isWarmSlot (address, key)) .coldSload
        (fork.fee .warmAccess) ∧
      host.Shows (host.view.touchSlot fork (address, key)) after :=
  surcharged_shows touchSlot_shows runs

theorem accessColdSlot_shows {fork : Fork} {address : Address} {key : Word} {price : Nat}
    (runs : Host.accessColdSlot fork address key host = .ok price after) :
    price = fork.surcharge (host.view.isWarmSlot (address, key)) .coldSload 0 ∧
      host.Shows (host.view.touchSlot fork (address, key)) after :=
  surcharged_shows touchSlot_shows runs

theorem transfer_alike {sender recipient : Address} {value : Word} {sent : Bool}
    (inOrder : host.InOrder) (runs : Host.transfer sender recipient value host = .ok sent after) :
    host.view.Alike after.view ∧ after.InOrder := by
  refine ⟨?_, ((transfer_serves sender recipient value).extends_of_run inOrder runs).inOrder
    inOrder⟩
  obtain ⟨same, _⟩ | ⟨_, _, moved⟩ := of_run runs (transfer_run inOrder sender recipient value)
  · exact .of_eq same
  · rw [moved]
    exact .send sender recipient value

end Host

/-! ## Operations -/

namespace Instruction

open FrameM InstructionM

variable {fork : Fork} {context : Context} {frame left : Frame} {host last : Host σ}

theorem inspected_ok {address : Address} {what : Inspection} {value : Word}
    (inOrder : host.InOrder) (runs : inspected address what host = .ok value last) :
    last = host := by
  cases what with
  | balance =>
    obtain ⟨_, _, reads, runs⟩ := bind_eq_ok.mp runs
    rw [Host.account_run inOrder] at reads
    cases reads
    cases runs
    rfl
  | codeSize =>
    obtain ⟨_, _, reads, runs⟩ := bind_eq_ok.mp runs
    rw [Host.code_run inOrder] at reads
    cases reads
    cases runs
    rfl
  | codeHash =>
    obtain ⟨_, _, reads, runs⟩ := bind_eq_ok.mp runs
    rw [Host.account_run inOrder] at reads
    cases reads
    cases runs
    rfl

/-- What an access to an address or a slot has done: the view that it leaves, and what its
operation has cost. -/
structure Access (frame left : Frame) (view : View) (price : Nat) (last : Host σ) : Prop where
  view_alike : view.Alike last.view
  used_eq : left.gas.used = frame.gas.used + price

theorem inspect_ok {what : Inspection} (inOrder : host.InOrder)
    (runs : inspect fork what frame host = .ok ((), left) last) :
    Access frame left (host.view.touch fork (frame.address 0))
      (fork.fee (inspectionFee what) +
        fork.surcharge (host.view.isWarm (frame.address 0)) .coldAccountAccess
          (fork.fee .warmAccess))
      last := by
  obtain ⟨_, popped, pops, runs⟩ := lift_bind_ok.mp runs
  obtain ⟨_, touched, touches, runs⟩ := host_bind_ok.mp runs
  obtain ⟨_, charged, charges, runs⟩ := lift_bind_ok.mp runs
  obtain ⟨_, _, reads, runs⟩ := host_bind_ok.mp runs
  obtain ⟨pushes, rfl⟩ := lift_ok.mp runs
  obtain ⟨word, rfl, words, gas, _⟩ := popAddress_ok pops
  obtain ⟨rfl, shows⟩ := Host.accessAddress_shows touches
  obtain rfl := inspected_ok (shows.inOrder inOrder) reads
  have address : frame.address 0 = .ofWord word := by simp [Frame.address, Frame.operand, words]
  rw [address]
  refine ⟨.of_eq shows.view_eq, ?_⟩
  rw [push_ok pushes, (charge_ok charges).1, gas]

theorem externalCodeCopy_ok (inOrder : host.InOrder)
    (runs : externalCodeCopy fork frame host = .ok ((), left) last) :
    ∃ range, Memory.region? (frame.operand 1) (frame.operand 3) = some range ∧
      Access frame left (host.view.touch fork (frame.address 0))
        (copyPrice fork .extCodeCopy range.2 +
          fork.surcharge (host.view.isWarm (frame.address 0)) .coldAccountAccess
            (fork.fee .warmAccess) +
          frame.memory.expansionPrice fork range.1 range.2)
        last := by
  obtain ⟨_, first, popsAddress, runs⟩ := lift_bind_ok.mp runs
  obtain ⟨target, second, popsTarget, runs⟩ := lift_bind_ok.mp runs
  obtain ⟨start, third, popsStart, runs⟩ := lift_bind_ok.mp runs
  obtain ⟨size, fourth, popsSize, runs⟩ := lift_bind_ok.mp runs
  obtain ⟨range, _, names, runs⟩ := lift_bind_ok.mp runs
  obtain ⟨_, touched, touches, runs⟩ := host_bind_ok.mp runs
  obtain ⟨_, charged, charges, runs⟩ := lift_bind_ok.mp runs
  obtain ⟨_, expanded, expands, runs⟩ := lift_bind_ok.mp runs
  obtain ⟨code, _, reads, runs⟩ := host_bind_ok.mp runs
  obtain ⟨copies, rfl⟩ := lift_ok.mp runs
  obtain ⟨word, rfl, words, gas, memory⟩ := popAddress_ok popsAddress
  obtain ⟨targets, gas', memory'⟩ := pop_ok popsTarget
  obtain ⟨starts, gas'', memory''⟩ := pop_ok popsStart
  obtain ⟨sizes, paid, kept⟩ := pop_ok popsSize
  obtain ⟨found, rfl⟩ := region_ok names
  obtain ⟨rfl, shows⟩ := Host.accessAddress_shows touches
  rw [Host.code_run (shows.inOrder inOrder)] at reads
  cases reads
  have address : frame.address 0 = .ofWord word := by simp [Frame.address, Frame.operand, words]
  have offset : frame.operand 1 = target := by simp [Frame.operand, words, targets]
  have length : frame.operand 3 = size := by simp [Frame.operand, words, targets, starts, sizes]
  rw [address, offset, length]
  refine ⟨range, found, .of_eq shows.view_eq, ?_⟩
  obtain ⟨used, held⟩ := charge_ok charges
  rw [updateMemory_ok copies, expand_ok expands, used, held, kept, memory'', memory', memory,
    paid, gas'', gas', gas, Nat.add_assoc]

theorem storageLoad_ok (inOrder : host.InOrder)
    (runs : storageLoad fork context frame host = .ok ((), left) last) :
    Access frame left (host.view.touchSlot fork (frame.place context))
      (fork.fee .sload +
        fork.surcharge (host.view.isWarmSlot (frame.place context)) .coldSload
          (fork.fee .warmAccess))
      last := by
  obtain ⟨key, popped, pops, runs⟩ := lift_bind_ok.mp runs
  obtain ⟨_, touched, touches, runs⟩ := host_bind_ok.mp runs
  obtain ⟨_, charged, charges, runs⟩ := lift_bind_ok.mp runs
  obtain ⟨_, _, reads, runs⟩ := host_bind_ok.mp runs
  obtain ⟨pushes, rfl⟩ := lift_ok.mp runs
  obtain ⟨words, gas, _⟩ := pop_ok pops
  obtain ⟨rfl, shows⟩ := Host.accessSlot_shows touches
  obtain ⟨rfl, move⟩ := of_run_value reads (Host.slot_run (shows.inOrder inOrder) context.self key)
  have place : frame.place context = (context.self, key) := by
    simp [Frame.place, Frame.operand, words]
  rw [place]
  refine ⟨.of_eq (move.view_eq.trans shows.view_eq), ?_⟩
  rw [push_ok pushes, (charge_ok charges).1, gas]

/-- A store has also changed its slot and the refund, by what the slot held first. -/
structure Stored (fork : Fork) (frame left : Frame) (host last : Host σ) (place : Address × Word)
    (price : StorePrice) : Prop extends
    Access frame left ((host.view.touchSlot fork place).setSlot place (frame.operand 1))
      (price.gas + fork.surcharge (host.view.isWarmSlot place) .coldSload 0) last where
  refund_eq : left.refund = frame.refund + price.refund
  selfDestruct_eq : left.selfDestruct = frame.selfDestruct

theorem writeSlot_ok {address : Address} {key new : Word} (inOrder : host.InOrder)
    (runs : (if host.view.slot (address, key) = new then pure () else Host.putSlot address key new :
      HostM σ Unit) host = .ok () last) : last.view = host.view.setSlot (address, key) new := by
  split at runs
  · cases runs
    rw [View.setSlot, ← ‹_ = new›, Function.update_eq_self]
  · obtain ⟨_, move⟩ := of_run_value runs (Host.putSlot_run inOrder address key new)
    exact move.view_eq

theorem storageStore_ok (inOrder : host.InOrder)
    (runs : storageStore fork context frame host = .ok ((), left) last) :
    ∃ initial read first, Host.slot context.self (frame.operand 0) host =
        .ok (host.view.slot (frame.place context)) read ∧
      Host.initialSlot context.self (frame.operand 0) read = .ok initial first ∧
      Stored fork frame left host last (frame.place context)
        (storePrice fork initial (host.view.slot (frame.place context)) (frame.operand 1)) := by
  obtain ⟨_, _, mutable, runs⟩ := lift_bind_ok.mp runs
  obtain ⟨_, rfl⟩ := faultIf_ok mutable
  obtain ⟨_, _, _, looks, runs⟩ := InstructionM.bind_ok.mp runs
  obtain ⟨rfl, rfl, rfl⟩ := current_ok.mp looks
  obtain ⟨_, _, sentry, runs⟩ := lift_bind_ok.mp runs
  obtain ⟨_, rfl⟩ := faultIf_ok sentry
  obtain ⟨key, first, popsKey, runs⟩ := lift_bind_ok.mp runs
  obtain ⟨new, second, popsNew, runs⟩ := lift_bind_ok.mp runs
  obtain ⟨current, read, reads, runs⟩ := host_bind_ok.mp runs
  obtain ⟨initial, recalled, recalls, runs⟩ := host_bind_ok.mp runs
  obtain ⟨_, touched, touches, runs⟩ := host_bind_ok.mp runs
  obtain ⟨_, charged, charges, runs⟩ := lift_bind_ok.mp runs
  obtain ⟨_, written, writes, runs⟩ := host_bind_ok.mp runs
  cases runs
  obtain ⟨words, gas, _⟩ := pop_ok popsKey
  obtain ⟨news, gas', _⟩ := pop_ok popsNew
  obtain ⟨rfl, readMove⟩ := of_run_value reads (Host.slot_run inOrder context.self key)
  have readInOrder := readMove.inOrder inOrder
  have recallMove := of_run recalls (Host.initialSlot_run readInOrder context.self key)
  obtain ⟨rfl, shows⟩ := Host.accessColdSlot_shows touches
  have same : recalled.view = host.view := recallMove.view_eq.trans readMove.view_eq
  have touched_eq := shows.view_eq
  rw [same] at touched_eq
  have held : host.view.slot (context.self, key) = touched.view.slot (context.self, key) := by
    rw [touched_eq, View.touchSlot_slot]
  rw [held] at writes
  have written_eq := writeSlot_ok (shows.inOrder (recallMove.inOrder readInOrder)) writes
  have retains := (FrameM.Retains.pop popsKey).trans
    ((FrameM.Retains.pop popsNew).trans (FrameM.Retains.charge _ charges))
  have key_eq : frame.operand 0 = key := by simp [Frame.operand, words]
  have new_eq : frame.operand 1 = new := by simp [Frame.operand, words, news]
  rw [Frame.place, key_eq, new_eq]
  refine ⟨initial, read, recalled, reads, recalls, ⟨.of_eq ?_, ?_⟩, ?_, retains.selfDestruct_eq⟩
  · rw [written_eq, touched_eq, new_eq]
  · rw [same] at charges
    rw [← gas, ← gas']
    exact (charge_ok charges).1
  · rw [← retains.refund_eq]

theorem destructPrice_ok {heir : Address} {balance : Word} {price : Nat} (inOrder : host.InOrder)
    (runs : destructPrice fork heir balance host = .ok price last) :
    price = fork.fee .selfDestruct +
        (if balance ≠ 0 ∧ (host.view.account heir).isEmpty then fork.fee .newAccount else 0) ∧
      host = last := by
  unfold destructPrice at runs
  split at runs
  · cases runs
    simp [*]
  · rename_i funded
    obtain ⟨_, _, reads, runs⟩ := bind_eq_ok.mp runs
    rw [Host.account_run inOrder] at reads
    cases reads
    cases runs
    simp only [ne_eq, funded, not_false_eq_true, true_and, and_self]

theorem bequeath_alike {self heir : Address} {balance : Word} (inOrder : host.InOrder)
    (runs : bequeath self heir balance host = .ok () last) : host.view.Alike last.view := by
  unfold bequeath at runs
  split at runs
  · obtain ⟨_, _, transfers, runs⟩ := bind_eq_ok.mp runs
    cases runs
    exact (Host.transfer_alike inOrder transfers).1
  · cases runs
    exact .refl _

structure Destroyed (fork : Fork) (context : Context) (frame left : Frame) (view : View)
    (last : Host σ) : Prop extends
    Access frame left (view.touch fork (frame.address 0))
      (fork.fee .selfDestruct +
        (if (view.account context.self).balance ≠ 0 ∧ (view.account (frame.address 0)).isEmpty then
          fork.fee .newAccount else 0) +
        fork.surcharge (view.isWarm (frame.address 0)) .coldAccountAccess 0)
      last where
  refund_eq : left.refund = if frame.selfDestruct.contains context.self then frame.refund
    else frame.refund + fork.fee .selfDestructRefund
  selfDestruct_eq : left.selfDestruct = frame.selfDestruct.insert context.self

theorem selfDestruct_ok (inOrder : host.InOrder)
    (runs : selfDestruct fork context frame host = .ok ((), left) last) :
    Destroyed fork context frame left host.view last := by
  obtain ⟨_, _, mutable, runs⟩ := lift_bind_ok.mp runs
  obtain ⟨_, rfl⟩ := faultIf_ok mutable
  obtain ⟨_, popped, pops, runs⟩ := lift_bind_ok.mp runs
  obtain ⟨_, touched, touches, runs⟩ := host_bind_ok.mp runs
  obtain ⟨account, _, reads, runs⟩ := host_bind_ok.mp runs
  obtain ⟨price, _, prices, runs⟩ := host_bind_ok.mp runs
  obtain ⟨_, charged, charges, runs⟩ := lift_bind_ok.mp runs
  obtain ⟨_, given, gives, runs⟩ := host_bind_ok.mp runs
  cases runs
  obtain ⟨word, rfl, words, gas, _⟩ := popAddress_ok pops
  obtain ⟨rfl, shows⟩ := Host.accessCold_shows touches
  have touchedInOrder := shows.inOrder inOrder
  rw [Host.account_run touchedInOrder] at reads
  cases reads
  obtain ⟨rfl, rfl⟩ := destructPrice_ok touchedInOrder prices
  have accounts : touched.view.account = host.view.account := by
    rw [shows.view_eq, View.touch_account]
  rw [accounts] at charges
  have address : frame.address 0 = .ofWord word := by simp [Frame.address, Frame.operand, words]
  have retains := (FrameM.Retains.popAddress pops).trans (FrameM.Retains.charge _ charges)
  refine ⟨⟨?_, ?_⟩, ?_, ?_⟩
  · rw [address, ← shows.view_eq]
    exact bequeath_alike touchedInOrder gives
  · rw [address, ← gas]
    exact (charge_ok charges).1
  · rw [← retains.refund_eq, ← retains.selfDestruct_eq]
    rfl
  · rw [← retains.selfDestruct_eq]
    rfl

theorem sendValue_alike {mode : CallMode} {message : Message} (inOrder : host.InOrder)
    (runs : sendValue mode message host = .ok () last) : host.view.Alike last.view := by
  unfold sendValue at runs
  split at runs
  · obtain ⟨_, _, transfers, runs⟩ := bind_eq_ok.mp runs
    cases runs
    exact (Host.transfer_alike inOrder transfers).1
  · cases runs
    exact .refl _

def valuePrice (fork : Fork) (mode : CallMode) (value : Word) (account : Account) : Nat :=
  if value = 0 then 0
  else fork.fee .callValue +
    if mode = .call ∧ account.isEmpty then fork.fee .newAccount else 0

theorem callPrice_shows {mode : CallMode} {target : Address} {value : Word} {price : Nat}
    (inOrder : host.InOrder) (runs : callPrice fork mode target value host = .ok price last) :
    price = fork.fee .call +
        fork.surcharge (host.view.isWarm target) .coldAccountAccess (fork.fee .warmAccess) +
        valuePrice fork mode value (host.view.account target) ∧
      host.Shows (host.view.touch fork target) last := by
  obtain ⟨_, touched, touches, runs⟩ := bind_eq_ok.mp runs
  obtain ⟨rfl, shows⟩ := Host.accessAddress_shows touches
  have accounts : touched.view.account = host.view.account := by
    rw [shows.view_eq, View.touch_account]
  unfold valuePrice
  split at runs
  · cases runs
    exact ⟨by rw [if_pos ‹_›, Nat.add_zero], shows⟩
  · rw [if_neg ‹_›]
    by_cases plain : mode = .call
    · simp only [if_pos plain] at runs
      obtain ⟨_, _, reads, runs⟩ := bind_eq_ok.mp runs
      rw [Host.account_run (shows.inOrder inOrder), accounts] at reads
      cases reads
      cases runs
      exact ⟨by simp [plain, Nat.add_assoc], shows⟩
    · simp only [if_neg plain] at runs
      cases runs
      exact ⟨by simp [plain, Nat.add_assoc], shows⟩

theorem popCall_target {mode : CallMode} {operands : CallOperands}
    (runs : popCall mode frame = .ok (operands, left)) : operands.target = frame.address 1 := by
  obtain ⟨_, first, popsGas, runs⟩ := FrameM.bind_ok.mp runs
  obtain ⟨_, second, popsTarget, runs⟩ := FrameM.bind_ok.mp runs
  obtain ⟨_, _, _, runs⟩ := FrameM.bind_ok.mp runs
  obtain ⟨_, _, _, runs⟩ := FrameM.bind_ok.mp runs
  obtain ⟨_, _, _, runs⟩ := FrameM.bind_ok.mp runs
  obtain ⟨_, _, _, runs⟩ := FrameM.bind_ok.mp runs
  obtain ⟨_, _, _, runs⟩ := FrameM.bind_ok.mp runs
  obtain ⟨_, _, _, runs⟩ := FrameM.bind_ok.mp runs
  obtain ⟨_, _, _, runs⟩ := FrameM.bind_ok.mp runs
  cases runs
  obtain ⟨gases, _, _⟩ := pop_ok popsGas
  obtain ⟨word, rfl, targets, _⟩ := popAddress_ok popsTarget
  simp [Frame.address, Frame.operand, gases, targets]

theorem prepareCall_shows {mode : CallMode} {prepared : Option NestedCall} (inOrder : host.InOrder)
    (runs : prepareCall fork context mode frame host = .ok (prepared, left) last) :
    host.Shows (host.view.touch fork (frame.address 1)) last := by
  obtain ⟨operands, popped, pops, runs⟩ := lift_bind_ok.mp runs
  obtain ⟨_, _, _, runs⟩ := lift_bind_ok.mp runs
  obtain ⟨price, priced, prices, runs⟩ := host_bind_ok.mp runs
  obtain ⟨gas, paid, _, runs⟩ := lift_bind_ok.mp runs
  obtain ⟨account, _, reads, runs⟩ := host_bind_ok.mp runs
  obtain ⟨_, shows⟩ := callPrice_shows inOrder prices
  rw [popCall_target pops] at shows
  have pricedInOrder := shows.inOrder inOrder
  rw [Host.account_run pricedInOrder] at reads
  cases reads
  split at runs
  · obtain ⟨_, _, _, runs⟩ := lift_bind_ok.mp runs
    cases runs
    exact shows
  · obtain ⟨data, _, _, runs⟩ := lift_bind_ok.mp runs
    obtain ⟨code, _, fetches, runs⟩ := host_bind_ok.mp runs
    rw [Host.code_run pricedInOrder] at fetches
    cases fetches
    obtain ⟨checkpoint, _, takes, runs⟩ := host_bind_ok.mp runs
    cases takes
    obtain ⟨_, _, _, looks, runs⟩ := InstructionM.bind_ok.mp runs
    cases looks
    cases runs
    exact shows

theorem call_alike {mode : CallMode} {control : Control} (inOrder : host.InOrder)
    (runs : call fork context mode frame host = .ok (control, left) last) :
    (host.view.touch fork (frame.address 1)).Alike last.view := by
  obtain ⟨prepared, between, passed, prepares, runs⟩ := InstructionM.bind_ok.mp runs
  have shows := prepareCall_shows inOrder prepares
  cases prepared with
  | none =>
    cases runs
    exact .of_eq shows.view_eq
  | some nested =>
    obtain ⟨_, sent, sends, runs⟩ := host_bind_ok.mp runs
    cases runs
    rw [← shows.view_eq]
    exact sendValue_alike (shows.inOrder inOrder) sends

theorem create_last {salted : Bool} {control : Control} (inOrder : host.InOrder)
    (runs : create fork context salted frame host = .ok (control, left) last) : last = host := by
  obtain ⟨_, _, _, runs⟩ := lift_bind_ok.mp runs
  obtain ⟨operands, _, _, runs⟩ := lift_bind_ok.mp runs
  obtain ⟨code, _, _, runs⟩ := lift_bind_ok.mp runs
  obtain ⟨account, _, reads, runs⟩ := host_bind_ok.mp runs
  rw [Host.account_run inOrder] at reads
  cases reads
  split at runs
  · obtain ⟨_, _, _, runs⟩ := lift_bind_ok.mp runs
    cases runs
    rfl
  · obtain ⟨_, _, _, looks, runs⟩ := InstructionM.bind_ok.mp runs
    cases looks
    obtain ⟨_, _, _, runs⟩ := lift_bind_ok.mp runs
    obtain ⟨_, _, _, looks, runs⟩ := InstructionM.bind_ok.mp runs
    cases looks
    cases runs
    rfl

end Instruction

/-! ## All of them -/

open InstructionM Instruction

/-- What an operation makes of what a host shows, as far as slots and touching go. -/
def Operation.deed (operation : Operation) (fork : Fork) (context : Context) (frame : Frame)
    (view : View) : View :=
  match operation with
  | .inspect _ | .externalCodeCopy | .selfDestruct => view.touch fork (frame.address 0)
  | .call _ => view.touch fork (frame.address 1)
  | .storageLoad => view.touchSlot fork (frame.place context)
  | .storageStore =>
    (view.touchSlot fork (frame.place context)).setSlot (frame.place context) (frame.operand 1)
  | _ => view

theorem thenNext_done {action : InstructionM σ Unit} {frame left : Frame} {host last : Host σ}
    {control : Control} (runs : thenNext action frame host = .ok (control, left) last) :
    action frame host = .ok ((), left) last := by
  obtain ⟨_, _, _, acts, runs⟩ := InstructionM.bind_ok.mp runs
  cases runs
  exact acts

theorem execute_deed {env : Environment σ} {context : Context} {instruction : Instruction}
    {operation : Operation} {frame left : Frame} {host last : Host σ} {control : Control}
    (inOrder : host.InOrder)
    (runs : execute env context instruction operation frame host = .ok (control, left) last) :
    (operation.deed env.fork context frame host.view).Alike last.view := by
  cases operation with
  | stop =>
    cases runs
    exact .refl _
  | inspect what => exact (inspect_ok inOrder (thenNext_done runs)).view_alike
  | externalCodeCopy =>
    obtain ⟨_, _, access⟩ := externalCodeCopy_ok inOrder (thenNext_done runs)
    exact access.view_alike
  | storageLoad => exact (storageLoad_ok inOrder (thenNext_done runs)).view_alike
  | storageStore =>
    obtain ⟨_, _, _, _, _, stored⟩ := storageStore_ok inOrder (thenNext_done runs)
    exact stored.view_alike
  | call mode => exact call_alike inOrder runs
  | create salted =>
    obtain rfl := create_last inOrder runs
    exact .refl _
  | selfDestruct =>
    obtain ⟨_, _, _, destroys, runs⟩ := InstructionM.bind_ok.mp runs
    cases runs
    exact (selfDestruct_ok inOrder destroys).view_alike
  | selfBalance =>
    obtain ⟨_, _, _, runs⟩ := lift_bind_ok.mp (thenNext_done runs)
    obtain ⟨_, _, reads, runs⟩ := host_bind_ok.mp runs
    rw [Host.account_run inOrder] at reads
    cases reads
    obtain ⟨_, rfl⟩ := lift_ok.mp runs
    exact .refl _
  | transientLoad =>
    obtain ⟨_, _, _, runs⟩ := lift_bind_ok.mp (thenNext_done runs)
    obtain ⟨_, _, _, runs⟩ := lift_bind_ok.mp runs
    obtain ⟨_, _, reads, runs⟩ := host_bind_ok.mp runs
    cases reads
    obtain ⟨_, rfl⟩ := lift_ok.mp runs
    exact .refl _
  | transientStore =>
    obtain ⟨_, _, _, runs⟩ := lift_bind_ok.mp (thenNext_done runs)
    obtain ⟨_, _, _, runs⟩ := lift_bind_ok.mp runs
    obtain ⟨key, _, _, runs⟩ := lift_bind_ok.mp runs
    obtain ⟨value, _, _, runs⟩ := lift_bind_ok.mp runs
    obtain ⟨writes, _⟩ := host_ok.mp runs
    obtain ⟨_, move⟩ := of_run_value writes (Host.putTransient_run host context.self key value)
    rw [move.view_eq]
    exact ⟨rfl, rfl, rfl⟩
  | pop =>
    obtain ⟨_, _, _, runs⟩ := lift_bind_ok.mp (thenNext_done runs)
    obtain ⟨_, _, _, runs⟩ := lift_bind_ok.mp runs
    cases runs
    exact .refl _
  | jump =>
    obtain ⟨_, rfl⟩ := lift_ok.mp runs
    exact .refl _
  | jumpIf =>
    obtain ⟨_, rfl⟩ := lift_ok.mp runs
    exact .refl _
  | ret =>
    obtain ⟨_, rfl⟩ := lift_ok.mp runs
    exact .refl _
  | revert =>
    obtain ⟨_, rfl⟩ := lift_ok.mp runs
    exact .refl _
  | invalid => cases (lift_ok.mp runs).1
  | _ =>
    obtain ⟨_, rfl⟩ := lift_ok.mp (thenNext_done runs)
    exact .refl _

end Evm
