import GemFi.Activation

/-!
The hooks of fi/fi_system.hh, which the CPU models call on every instruction:
each decides whether the instruction counts, counts it for its thread and for
allthreads, and fires the faults of its stage that are due. A hook also returns
the faults it fired, in order. `none` is a dereference of a null pointer, a
failed assertion, or a loop that does not end within `fuel` rounds.
-/

namespace GemFi.Hooks

open ThreadInfo FaultQueue Corruption FaultScan Activation Activation.FiSystem

/-- What the CPU model and the simulator supply to a call of a hook. `stale` is
what the local `byte` of getSignificance holds when nothing is read into it. -/
structure HookCall where
  pc : Addr
  stale : Byte
  clockEdge : Word
  curTick : Word

def significantByte (byte : Byte) : Bool := byte != 1

/-- `getSignificance`. A seek or read that fails sets the fail bit of the
stream, after which no later one succeeds. -/
def getSignificance (pc : Addr) (stale : Byte) (metadata : Metadata) : Bool × Metadata :=
  if metadata.textStart < 0 then (false, metadata)
  else
    -- both the offset and the position are ints
    let offset := ((pc - metadata.startingPCAddr).setWidth 32).toInt
    let pos := (metadata.textStart + offset).bmod (2 ^ 32)
    let sought := { metadata with
      failed := metadata.failed || decide (pos < 0) || !metadata.isOpen }
    if !metadata.isOpen then (false, sought)
    else if sought.failed then (significantByte stale, sought)
    else match sought.bytes[pos.toNat]? with
      | some byte => (significantByte byte, sought)
      | none => (significantByte stale, { sought with failed := true })

def updateAllthreads (change : ThreadEnabledFault → ThreadEnabledFault) (fi : FiSystem) :
    Option FiSystem := do
  let all ← fi.allthreads
  some { fi with allthreads := some (change all) }

def countBoth (ptr : ThreadPtr) (change : ThreadEnabledFault → ThreadEnabledFault)
    (fi : FiSystem) : Option FiSystem := do
  let _ ← fi.threadInfo ptr
  updateAllthreads change (fi.updateThread ptr change)

/-- `Fi_System::increaseTicks`. -/
def increaseTicks (curCpu : String) (ptr : ThreadPtr) (ticks : Word) (fi : FiSystem) :
    Option FiSystem :=
  countBoth ptr (ThreadEnabledFault.increaseTicks curCpu ticks) fi

def scanContext (tc : ThreadContext) (ptr : ThreadPtr) (call : HookCall) (fi : FiSystem) :
    Option ScanContext := do
  let allthreads ← fi.allthreads
  let thread ← fi.threadInfo ptr
  some ⟨allthreads, thread, tc.cpuName, call.pc⟩

def switchesCpu (q : StageQueue) (type : FaultType) : Bool :=
  -- only a register fault of the main queue does not ask for a CPU switch
  !(decide (q = .main) && decide (type = .register))

def firedOne (fi : FiSystem) (q : StageQueue) (call : HookCall)
    (f : FaultPtr) (store : FaultStore) : FiSystem :=
  -- the state after one fault was processed: a CPU switch is asked for
  if switchesCpu q (store.mem f).faultType then
    { fi with store := store }.scheduleswitch call.curTick
  else { fi with store := store }

theorem firedOne_store (fi : FiSystem) (q : StageQueue) (call : HookCall) (f : FaultPtr)
    (store : FaultStore) : (firedOne fi q call f store).store = store := by
  unfold firedOne
  split
  · exact (scheduleswitch_frame _ _).2.2.2.2
  · rfl

theorem countBoth_store {ptr : ThreadPtr} {change : ThreadEnabledFault → ThreadEnabledFault}
    {fi fi' : FiSystem} (counted : countBoth ptr change fi = some fi') : fi'.store = fi.store := by
  obtain ⟨_, _, rest⟩ := Option.bind_eq_some_iff.mp counted
  obtain ⟨_, _, result⟩ := Option.bind_eq_some_iff.mp rest
  cases result
  rfl

def fireLoop (fuel : Nat) (q : StageQueue) (c : ScanContext) (call : HookCall) :
    Nat → StageValue q → FiSystem → Option (FiSystem × StageValue q × List FaultPtr)
  | 0, _, _ => none
  | rounds + 1, value, fi => do
      let (store, found) ← scan fuel q c fi.store
      match found with
      | none => some ({ fi with store := store }, value, [])
      | some f =>
          let (store', value') ← fire fuel q call.clockEdge f value store
          let (fi, value, later) ←
            fireLoop fuel q c call rounds value' (firedOne fi q call f store')
          some (fi, value, f :: later)

section Loop

variable {fuel rounds : Nat} {q : StageQueue} {c : ScanContext} {call : HookCall}
  {value : StageValue q} {fi : FiSystem}

theorem fireLoop_idle (scanned : scan fuel q c fi.store = some (fi.store, none)) :
    fireLoop fuel q c call (rounds + 1) value fi = some (fi, value, []) := by
  simp only [fireLoop, scanned]
  rfl

theorem fireLoop_found {store : FaultStore} {f : FaultPtr}
    (scanned : scan fuel q c fi.store = some (store, some f)) :
    fireLoop fuel q c call (rounds + 1) value fi =
      (fire fuel q call.clockEdge f value store).bind fun once =>
        (fireLoop fuel q c call rounds once.2 (firedOne fi q call f once.1)).bind fun rest =>
          some (rest.1, rest.2.1, f :: rest.2.2) := by
  simp only [fireLoop, scanned]
  rfl

theorem fireLoop_silent {value' : StageValue q} {fi' : FiSystem}
    (returned : fireLoop fuel q c call rounds value fi = some (fi', value', [])) :
    value' = value := by
  cases rounds with
  | zero => cases returned
  | succ rounds =>
      obtain ⟨⟨store, found⟩, scanned, rest⟩ := Option.bind_eq_some_iff.mp returned
      cases found with
      | none =>
          cases rest
          rfl
      | some f =>
          rw [fireLoop_found scanned] at returned
          obtain ⟨_, _, rest⟩ := Option.bind_eq_some_iff.mp returned
          obtain ⟨_, _, result⟩ := Option.bind_eq_some_iff.mp rest
          cases result

/-- Firing faults changes the fault store and the pending CPU switch, and nothing
else. -/
structure FaultsOnly (fi fi' : FiSystem) : Prop where
  fullSystem : fi'.fullSystem = fi.fullSystem
  inName : fi'.inName = fi.inName
  activation : fi'.activation = fi.activation
  threads : fi'.threads = fi.threads
  allthreads : fi'.allthreads = fi.allthreads
  fiEnable : fi'.fiEnable = fi.fiEnable
  gate : fi'.gate = fi.gate
  metadata : fi'.metadata = fi.metadata

theorem FaultsOnly.store (fi : FiSystem) (store : FaultStore) :
    FaultsOnly fi { fi with store := store } := by
  constructor <;> rfl

theorem FaultsOnly.trans {fi fi' fi'' : FiSystem} (first : FaultsOnly fi fi')
    (second : FaultsOnly fi' fi'') : FaultsOnly fi fi'' := by
  constructor
  · exact second.fullSystem.trans first.fullSystem
  · exact second.inName.trans first.inName
  · exact second.activation.trans first.activation
  · exact second.threads.trans first.threads
  · exact second.allthreads.trans first.allthreads
  · exact second.fiEnable.trans first.fiEnable
  · exact second.gate.trans first.gate
  · exact second.metadata.trans first.metadata

theorem firedOne_faultsOnly (fi : FiSystem) (f : FaultPtr) (store : FaultStore) :
    FaultsOnly fi (firedOne fi q call f store) := by
  unfold firedOne scheduleswitch
  split
  · split <;> constructor <;> rfl
  · exact FaultsOnly.store fi store

theorem fireLoop_faultsOnly (rounds : Nat) (value value' : StageValue q) (fi fi' : FiSystem)
    (fired : List FaultPtr)
    (returned : fireLoop fuel q c call rounds value fi = some (fi', value', fired)) :
    FaultsOnly fi fi' := by
  induction rounds generalizing value fi fired with
  | zero => cases returned
  | succ rounds ih =>
      obtain ⟨⟨store, found⟩, scanned, rest⟩ := Option.bind_eq_some_iff.mp returned
      cases found with
      | none =>
          cases rest
          exact FaultsOnly.store fi store
      | some f =>
          rw [fireLoop_found scanned] at returned
          obtain ⟨⟨store', value''⟩, _, rest⟩ := Option.bind_eq_some_iff.mp returned
          obtain ⟨⟨fi'', value''', later⟩, looped, result⟩ := Option.bind_eq_some_iff.mp rest
          cases result
          exact (firedOne_faultsOnly fi f store').trans (ih _ _ _ looped)

end Loop

def fireDue (fuel : Nat) (q : StageQueue) (tc : ThreadContext) (ptr : ThreadPtr)
    (call : HookCall) (value : StageValue q) (fi : FiSystem) :
    Option (FiSystem × StageValue q × List FaultPtr) := do
  let c ← scanContext tc ptr call fi
  fireLoop fuel q c call fuel value fi

def mainFault (fuel : Nat) (tc : ThreadContext) (ptr : ThreadPtr) (call : HookCall)
    (fi : FiSystem) : Option (FiSystem × List FaultPtr) := do
  let thread ← fi.threadInfo ptr
  if thread.mode ≠ some .start then some (fi, [])
  else
    let (fi, _, fired) ← fireDue fuel .main tc ptr call () fi
    some (fi, fired)

def fetchFault (fuel : Nat) (tc : ThreadContext) (ptr : ThreadPtr) (call : HookCall)
    (inst : MachInst) (fi : FiSystem) : Option (FiSystem × MachInst × List FaultPtr) := do
  let thread ← fi.threadInfo ptr
  if thread.mode ≠ some .start then some (fi, inst, [])
  else
    let (sigInstr, metadata) := getSignificance call.pc call.stale fi.metadata
    let fi := { fi with metadata := metadata }
    if sigInstr then some (fi, inst, [])
    else if fi.fullSystem && inUserMode tc then
      -- counted before the scan: the first instruction has number one
      let fi ← countBoth ptr (ThreadEnabledFault.increaseFetchedInstr tc.cpuName) fi
      fireDue fuel .fetchStage tc ptr call inst fi
    else some (fi, inst, [])

def decodeFault (fuel : Nat) (tc : ThreadContext) (ptr : ThreadPtr) (call : HookCall)
    (inst : StaticInst) (fi : FiSystem) : Option (FiSystem × StaticInst × List FaultPtr) := do
  let thread ← fi.threadInfo ptr
  if thread.mode ≠ some .start then some (fi, inst, [])
  else
    let (sigInstr, metadata) := getSignificance call.pc call.stale fi.metadata
    let fi := { fi with metadata := metadata }
    if sigInstr then some (fi, inst, [])
    else fireDue fuel .decodeStage tc ptr call inst fi

/-- The common body of `iew_fault` and `lds_fault`: here the thread is the one
the context points to, and the event is counted after the faults are fired. -/
def operandFault (q : StageQueue) (count : String → ThreadEnabledFault → ThreadEnabledFault)
    (fuel : Nat) (tc : ThreadContext) (call : HookCall) (value : StageValue q) (fi : FiSystem) :
    Option (FiSystem × StageValue q × List FaultPtr) :=
  if !tc.enabledFI then some (fi, value, [])
  else do
    let ptr ← tc.fiThread
    let thread ← fi.threadInfo ptr
    if thread.mode = some .start ∧ fi.fullSystem = true ∧ inUserMode tc = true then
      let (sigInstr, metadata) := getSignificance call.pc call.stale fi.metadata
      let fi := { fi with metadata := metadata }
      if sigInstr then some (fi, value, [])
      else
        let (fi, value, fired) ← fireDue fuel q tc ptr call value fi
        let fi ← countBoth ptr (count tc.cpuName) fi
        some (fi, value, fired)
    else some (fi, value, [])

def iewFault : Nat → ThreadContext → HookCall → Operand → FiSystem →
    Option (FiSystem × Operand × List FaultPtr) :=
  operandFault .iewStage ThreadEnabledFault.increaseExecutedInstr

def ldsFault : Nat → ThreadContext → HookCall → Operand → FiSystem →
    Option (FiSystem × Operand × List FaultPtr) :=
  operandFault .loadStore ThreadEnabledFault.increaseLoadStoreInstr

theorem operandFault_frame {q : StageQueue}
    {count : String → ThreadEnabledFault → ThreadEnabledFault} {fuel : Nat} {tc : ThreadContext}
    {call : HookCall} {value value' : StageValue q} {fi fi' : FiSystem} {fired : List FaultPtr}
    (returned : operandFault q count fuel tc call value fi = some (fi', value', fired)) :
    fi'.fullSystem = fi.fullSystem ∧ fi'.fiEnable = fi.fiEnable ∧ fi'.gate = fi.gate := by
  unfold operandFault at returned
  split at returned
  · cases returned
    exact ⟨rfl, rfl, rfl⟩
  · obtain ⟨ptr, _, rest⟩ := Option.bind_eq_some_iff.mp returned
    obtain ⟨thread, _, rest⟩ := Option.bind_eq_some_iff.mp rest
    split at rest
    · dsimp only at rest
      split at rest
      · cases rest
        exact ⟨rfl, rfl, rfl⟩
      · obtain ⟨⟨fired', _, _⟩, due, rest⟩ := Option.bind_eq_some_iff.mp rest
        obtain ⟨counted, both, result⟩ := Option.bind_eq_some_iff.mp rest
        cases result
        obtain ⟨_, _, looped⟩ := Option.bind_eq_some_iff.mp due
        obtain ⟨_, _, rest⟩ := Option.bind_eq_some_iff.mp both
        obtain ⟨_, _, result⟩ := Option.bind_eq_some_iff.mp rest
        cases result
        have kept := fireLoop_faultsOnly _ _ _ _ _ _ looped
        exact ⟨kept.fullSystem, kept.fiEnable, kept.gate⟩
    · cases rest
      exact ⟨rfl, rfl, rfl⟩

end GemFi.Hooks
