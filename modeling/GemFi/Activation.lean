import GemFi.FaultRuns
import Mathlib.Data.List.AList

/-!
The state of Fi_System and the requests that control it: fi_activate_inst and
get_Pc_address of sim/pseudo_inst.cc, Fi_System::reset, and the write of
PALtemp23, the register that holds the PCB address of the running thread, which
arch/alpha/ev5.cc uses as the sign of a context switch and which `getFiThread`
of arch/alpha/isa.cc reads.
-/

namespace GemFi.Activation

open ThreadInfo FaultQueue QueueHistory Corruption FaultScan FaultRuns

abbrev ThreadPtr := Nat

/-- A ThreadEnabledFault on the heap. `pcb` records the address start_fi created
it for, which the program keeps only as the key of its map entry. -/
structure FiThread where
  pcb : Addr
  info : ThreadEnabledFault

structure Metadata where
  textStart : Int
  startingPCAddr : Addr
  isOpen : Bool
  bytes : List Byte
  failed : Bool

/-- `threads` holds every object start_fi ever created, at the index that is its
address; none is deleted. `gate` are the five flags fi_main, fi_fetch,
fi_decode, fi_execute and fi_loadstore, `events` the ticks for which a switch of
the CPU is scheduled. -/
structure FiSystem where
  fullSystem : Bool
  inName : String
  store : FaultStore
  activation : AList fun _ : Addr => ThreadPtr
  threads : List FiThread
  allthreads : Option ThreadEnabledFault
  fiEnable : BitVec 32
  gate : StageQueue → Bool
  switchcpu : Bool
  events : List Word
  metadata : Metadata

/-- A hardware context, as far as fault injection reads it. The constructor of
ThreadState leaves `enabledFI` and `fiThread` unset. -/
structure ThreadContext where
  cpuName : String
  palTemp23 : Addr
  dtbCm : Word
  enabledFI : Bool
  fiThread : Option ThreadPtr

def getFiThread (tc : ThreadContext) : Addr := tc.palTemp23

def inUserMode (tc : ThreadContext) : Bool := (tc.dtbCm &&& 0x18) != 0

namespace FiSystem

def threadInfo (fi : FiSystem) (ptr : ThreadPtr) : Option ThreadEnabledFault :=
  fi.threads[ptr]?.map FiThread.info

def modeOf (fi : FiSystem) (ptr : ThreadPtr) : Option FiCommand :=
  (fi.threadInfo ptr).bind ThreadEnabledFault.mode

def updateThread (fi : FiSystem) (ptr : ThreadPtr)
    (change : ThreadEnabledFault → ThreadEnabledFault) : FiSystem :=
  { fi with threads := fi.threads.modify ptr fun t => { t with info := change t.info } }

def setMode (fi : FiSystem) (ptr : ThreadPtr) (mode : FiCommand) : FiSystem :=
  fi.updateThread ptr fun t => { t with mode := some mode }

def scheduleswitch (curTick : Word) (fi : FiSystem) : FiSystem :=
  if fi.switchcpu then
    { fi with events := fi.events ++ [curTick + 1000], switchcpu := false }
  else fi

/-- `fi_enable & (!queue.empty())`, taken as a bool. -/
def stageFlag (fi : FiSystem) (q : StageQueue) : Bool :=
  (fi.fiEnable &&& if fi.store.empty q then 0 else 1) != 0

/-- `start_fi` for a PCB address without an entry. -/
def activate (tc : ThreadContext) (threadid : Word) (fi : FiSystem) : FiSystem :=
  -- the parameter of the constructor is an int
  let thread := ThreadEnabledFault.new (threadid.setWidth 32).toInt tc.cpuName
  let fi : FiSystem := { fi with
    allthreads := some (fi.allthreads.getD (ThreadEnabledFault.new (-1) tc.cpuName))
    threads := fi.threads ++ [⟨getFiThread tc, { thread with mode := some .start }⟩]
    activation := fi.activation.insert (getFiThread tc) fi.threads.length
    fiEnable := fi.fiEnable + 1 }
  { fi with gate := fi.stageFlag }

def startFi (tc : ThreadContext) (threadid : Word) (fi : FiSystem) : FiSystem × ThreadContext :=
  match fi.activation.lookup (getFiThread tc) with
  | none =>
      (fi.activate tc threadid, { tc with enabledFI := true, fiThread := some fi.threads.length })
  | some ptr =>
      if fi.modeOf ptr = some .pause then
        ({ fi with fiEnable := fi.fiEnable + 1 }.setMode ptr .start,
          { tc with enabledFI := true, fiThread := some ptr })
      else (fi, tc)  -- already started: not even the context is touched

def pauseFi (tc : ThreadContext) (fi : FiSystem) : FiSystem × ThreadContext :=
  match fi.activation.lookup (getFiThread tc) with
  | none => (fi, tc)
  | some ptr =>
      -- the counter goes down whatever the mode was
      ({ fi with fiEnable := fi.fiEnable - 1 }.setMode ptr .pause,
        { tc with enabledFI := false, fiThread := none })

def stopFi (tc : ThreadContext) (fi : FiSystem) : FiSystem × ThreadContext :=
  match fi.activation.lookup (getFiThread tc) with
  | none => (fi, tc)
  | some _ =>
      ({ fi with
          activation := fi.activation.erase (getFiThread tc)
          fiEnable := fi.fiEnable - 1 },
        { tc with enabledFI := false, fiThread := none })

def dumpFi (curTick : Word) (tc : ThreadContext) (fi : FiSystem) : FiSystem × ThreadContext :=
  ({ fi with activation := ∅, fiEnable := 0 }.scheduleswitch curTick,
    { tc with enabledFI := false, fiThread := none })

/-- `fi_activate_inst`; outside full-system mode it panics. -/
def fiActivateInst (curTick : Word) (tc : ThreadContext) (threadid : Word) (req : FiCommand)
    (fi : FiSystem) : Option (FiSystem × ThreadContext) :=
  if fi.fullSystem then
    match req with
    | .stop => some (fi.stopFi tc)
    | .start => some (fi.startFi tc threadid)
    | .pause => some (fi.pauseFi tc)
    | .dump => some (fi.dumpFi curTick tc)
  else none

/-- `get_Pc_address`: the point that address timings are relative to. -/
def getPcAddress (tc : ThreadContext) (pc : Addr) (fi : FiSystem) : FiSystem :=
  match fi.activation.lookup (getFiThread tc) with
  | none => fi
  | some ptr => fi.updateThread ptr fun t => { t with magicInstVirtualAddr := pc }

/-- The write of IPR_PALtemp23 in `ISA::setIpr`: any entry found enables the
context, whatever its mode. -/
def setIpr (fi : FiSystem) (val : Addr) (tc : ThreadContext) : ThreadContext :=
  match fi.activation.lookup val with
  | some ptr => { tc with enabledFI := true, fiThread := some ptr, palTemp23 := val }
  | none => { tc with enabledFI := false, fiThread := none, palTemp23 := val }

end FiSystem

/-- One loop of `delete_faults`. -/
def drain (fuel : Nat) (q : StageQueue) : Nat → FaultStore → Option FaultStore
  | 0, _ => none
  | rounds + 1, s =>
      if s.empty q then some s
      else do
        let f ← s.head q
        let s ← s.remove fuel q f
        drain fuel q rounds s

def deleteFaults (fuel : Nat) (s : FaultStore) : Option FaultStore := do
  let s ← drain fuel .main fuel s
  let s ← drain fuel .fetchStage fuel s
  let s ← drain fuel .decodeStage fuel s
  let s ← drain fuel .iewStage fuel s
  let s ← drain fuel .loadStore fuel s
  some { s with queues := fun _ => ⟨none, none⟩ }

def getFromFile (fuel : Nat) : List FaultRecord → FaultStore → Option FaultStore
  -- the faults of a file, in the order of its lines
  | [], s => some s
  | record :: rest, s => do
      let s ← load fuel record s
      getFromFile fuel rest s

/-- `Fi_System::reset`. `records` is what the input file holds. -/
def FiSystem.reset (fuel : Nat) (records : List FaultRecord) (fi : FiSystem) :
    Option FiSystem := do
  let store ← deleteFaults fuel fi.store
  if fi.inName.utf8ByteSize > 1 then
    let store ← getFromFile fuel records store
    some { fi with store := store }
  else some { fi with store := store }

structure Machine where
  -- the injection system and the hardware contexts, of which there may be any number
  fi : FiSystem
  contexts : Nat → ThreadContext

def Machine.setContext (m : Machine) (i : Nat) (tc : ThreadContext) : Nat → ThreadContext :=
  Function.update m.contexts i tc

inductive Control where
  | request (i : Nat) (req : FiCommand) (threadid : Word) (curTick : Word)
  | getPcAddress (i : Nat) (pc : Addr)
  | switchTo (i : Nat) (val : Addr)
  | setMode (i : Nat) (dtbCm : Word)
  | reset (records : List FaultRecord)

def controlStep (fuel : Nat) (m : Machine) : Control → Option Machine
  | .request i req threadid curTick => do
      let (fi, tc) ← m.fi.fiActivateInst curTick (m.contexts i) threadid req
      some ⟨fi, m.setContext i tc⟩
  | .getPcAddress i pc => some { m with fi := m.fi.getPcAddress (m.contexts i) pc }
  | .switchTo i val => some { m with contexts := m.setContext i (m.fi.setIpr val (m.contexts i)) }
  | .setMode i dtbCm =>
      some { m with contexts := m.setContext i { m.contexts i with dtbCm := dtbCm } }
  | .reset records => do
      let fi ← m.fi.reset fuel records
      some { m with fi := fi }

/-- The state the constructor of Fi_System leaves, for any fault store. -/
structure Booted (fi : FiSystem) : Prop where
  activation : fi.activation = ∅
  threads : fi.threads = []
  allthreads : fi.allthreads = none
  fiEnable : fi.fiEnable = 0
  gate : ∀ q, fi.gate q = false

section Effects

inductive Effect (fuel : Nat) (m : Machine) : Control → Machine → Prop where
  | created (i : Nat) (threadid curTick : Word)
      (unknown : m.fi.activation.lookup (getFiThread (m.contexts i)) = none) :
      Effect fuel m (.request i .start threadid curTick)
        ⟨m.fi.activate (m.contexts i) threadid, m.setContext i
          { m.contexts i with enabledFI := true, fiThread := some m.fi.threads.length }⟩
  | resumed (i : Nat) (threadid curTick : Word) (ptr : ThreadPtr)
      (known : m.fi.activation.lookup (getFiThread (m.contexts i)) = some ptr)
      (wasPaused : m.fi.modeOf ptr = some .pause) :
      Effect fuel m (.request i .start threadid curTick)
        ⟨{ m.fi with fiEnable := m.fi.fiEnable + 1 }.setMode ptr .start,
          m.setContext i { m.contexts i with enabledFI := true, fiThread := some ptr }⟩
  | ignored (i : Nat) (threadid curTick : Word) (ptr : ThreadPtr)
      (known : m.fi.activation.lookup (getFiThread (m.contexts i)) = some ptr)
      (notPaused : m.fi.modeOf ptr ≠ some .pause) :
      Effect fuel m (.request i .start threadid curTick) m
  | paused (i : Nat) (threadid curTick : Word) (ptr : ThreadPtr)
      (known : m.fi.activation.lookup (getFiThread (m.contexts i)) = some ptr) :
      Effect fuel m (.request i .pause threadid curTick)
        ⟨{ m.fi with fiEnable := m.fi.fiEnable - 1 }.setMode ptr .pause,
          m.setContext i { m.contexts i with enabledFI := false, fiThread := none }⟩
  | stopped (i : Nat) (threadid curTick : Word) (ptr : ThreadPtr)
      (known : m.fi.activation.lookup (getFiThread (m.contexts i)) = some ptr) :
      Effect fuel m (.request i .stop threadid curTick)
        ⟨{ m.fi with
            activation := m.fi.activation.erase (getFiThread (m.contexts i))
            fiEnable := m.fi.fiEnable - 1 },
          m.setContext i { m.contexts i with enabledFI := false, fiThread := none }⟩
  | notActive (i : Nat) (req : FiCommand) (threadid curTick : Word)
      (pauseOrStop : req = .pause ∨ req = .stop)
      (unknown : m.fi.activation.lookup (getFiThread (m.contexts i)) = none) :
      Effect fuel m (.request i req threadid curTick) m
  | dumped (i : Nat) (threadid curTick : Word) :
      Effect fuel m (.request i .dump threadid curTick)
        ⟨{ m.fi with activation := ∅, fiEnable := 0 }.scheduleswitch curTick,
          m.setContext i { m.contexts i with enabledFI := false, fiThread := none }⟩
  | marked (i : Nat) (pc : Addr) :
      Effect fuel m (.getPcAddress i pc) ⟨m.fi.getPcAddress (m.contexts i) pc, m.contexts⟩
  | switched (i : Nat) (val : Addr) :
      Effect fuel m (.switchTo i val)
        ⟨m.fi, m.setContext i (m.fi.setIpr val (m.contexts i))⟩
  | modeSet (i : Nat) (dtbCm : Word) :
      Effect fuel m (.setMode i dtbCm)
        ⟨m.fi, m.setContext i { m.contexts i with dtbCm := dtbCm }⟩
  | reloaded (records : List FaultRecord) (fi : FiSystem)
      (returned : m.fi.reset fuel records = some fi) :
      Effect fuel m (.reset records) ⟨fi, m.contexts⟩

variable {fuel : Nat} {m next : Machine} {action : Control}

theorem setContext_self (i : Nat) : m.setContext i (m.contexts i) = m.contexts :=
  Function.update_eq_self i m.contexts

theorem setContext_other (i j : Nat) (tc : ThreadContext) (other : j ≠ i) :
    m.setContext i tc j = m.contexts j := by
  rw [Machine.setContext, Function.update_of_ne other]

theorem controlStep_effect (stepped : controlStep fuel m action = some next) :
    Effect fuel m action next := by
  cases action with
  | request i req threadid curTick =>
      obtain ⟨⟨fi, tc⟩, requested, result⟩ := Option.bind_eq_some_iff.mp stepped
      cases result
      unfold FiSystem.fiActivateInst at requested
      split at requested
      · cases req with
        | start =>
            simp only [FiSystem.startFi] at requested
            split at requested
            · rename_i unknown
              cases requested
              exact .created i threadid curTick unknown
            · rename_i ptr known
              split at requested
              · rename_i wasPaused
                cases requested
                exact .resumed i threadid curTick ptr known wasPaused
              · rename_i notPaused
                cases requested
                rw [setContext_self]
                exact .ignored i threadid curTick ptr known notPaused
        | pause =>
            simp only [FiSystem.pauseFi] at requested
            split at requested
            · rename_i unknown
              cases requested
              rw [setContext_self]
              exact .notActive i .pause threadid curTick (Or.inl rfl) unknown
            · rename_i ptr known
              cases requested
              exact .paused i threadid curTick ptr known
        | stop =>
            simp only [FiSystem.stopFi] at requested
            split at requested
            · rename_i unknown
              cases requested
              rw [setContext_self]
              exact .notActive i .stop threadid curTick (Or.inr rfl) unknown
            · rename_i ptr known
              cases requested
              exact .stopped i threadid curTick ptr known
        | dump =>
            cases requested
            exact .dumped i threadid curTick
      · cases requested
  | getPcAddress i pc =>
      cases stepped
      exact .marked i pc
  | switchTo i val =>
      cases stepped
      exact .switched i val
  | setMode i dtbCm =>
      cases stepped
      exact .modeSet i dtbCm
  | reset records =>
      obtain ⟨fi, returned, result⟩ := Option.bind_eq_some_iff.mp stepped
      cases result
      exact .reloaded records fi returned

end Effects

section Frames

open FiSystem

theorem updateThread_modeOf (fi : FiSystem) (ptr other : ThreadPtr)
    (change : ThreadEnabledFault → ThreadEnabledFault) (kept : ∀ t, (change t).mode = t.mode) :
    (fi.updateThread ptr change).modeOf other = fi.modeOf other := by
  unfold modeOf threadInfo updateThread
  rw [List.getElem?_modify]
  by_cases same : ptr = other
  · cases object : fi.threads[other]? <;> simp [same, kept]
  · simp [same]

theorem reset_frame {records : List FaultRecord} {fi fi' : FiSystem}
    (returned : fi.reset fuel records = some fi') :
    ∃ store, fi' = { fi with store := store } := by
  obtain ⟨store, _, rest⟩ := Option.bind_eq_some_iff.mp returned
  split at rest
  · obtain ⟨store', _, result⟩ := Option.bind_eq_some_iff.mp rest
    cases result
    exact ⟨store', rfl⟩
  · cases rest
    exact ⟨store, rfl⟩

theorem scheduleswitch_frame (curTick : Word) (fi : FiSystem) :
    (fi.scheduleswitch curTick).activation = fi.activation ∧
      (fi.scheduleswitch curTick).threads = fi.threads ∧
      (fi.scheduleswitch curTick).fiEnable = fi.fiEnable ∧
      (fi.scheduleswitch curTick).gate = fi.gate ∧
      (fi.scheduleswitch curTick).store = fi.store := by
  unfold scheduleswitch
  split <;> simp

end Frames

def bootedMachine : Machine where
  -- a system without faults, all of whose contexts run the thread at 0x1000
  fi :=
    { fullSystem := true, inName := "", store := clearMemory, activation := ∅, threads := [],
      allthreads := none, fiEnable := 0, gate := fun _ => false, switchcpu := false, events := [],
      metadata := ⟨-1, 0, false, [], false⟩ }
  contexts _ := ⟨"system.cpu", 0x1000, 0x18, false, none⟩

theorem bootedMachine_booted : Booted bootedMachine.fi := by
  constructor <;> intros <;> rfl

def pendingMachine : Machine where
  -- the same system with one fault in the fetch queue and a thread of its own on each context
  fi := { bootedMachine.fi with
    store := (load 9 (fetchRecord .instruction 5 1) clearMemory).getD clearMemory }
  contexts i := ⟨"system.cpu", BitVec.ofNat 64 (0x1000 + i), 0x18, false, none⟩

theorem pendingMachine_booted : Booted pendingMachine.fi := by
  constructor <;> intros <;> rfl

def startedWith (record : FaultRecord) : FiSystem × ThreadContext :=
  let fi : FiSystem := { bootedMachine.fi with
    store := (load 9 record clearMemory).getD clearMemory }
  fi.startFi (bootedMachine.contexts 0) 0

end GemFi.Activation
