import GemFi.Cycles

/-!
The hand-over of a hardware context when the simulation switches to another
CPU: `takeOverFrom` of cpu/thread_context.cc, the two members of that name which
call it, and the register copy of the Alpha port, which writes the internal
registers without effect. PALtemp23 is one of them, and it is only the write
with effect that sets the fault injection fields of a context.
-/

namespace GemFi.CpuSwitch

open ThreadInfo FaultQueue QueueHistory Corruption FaultScan FaultRuns Activation Hooks
open ContextAgreement Cycles

inductive ThreadKind where
  -- the two implementations of a thread context. SimpleThread serves the atomic and the timing CPU.
  | simpleThread | o3ThreadContext
  deriving DecidableEq, Repr

inductive Status where
  | active | suspended | halted
  deriving DecidableEq, Repr

def numIntRegs : Nat := 40
def numFloatRegs : Nat := 32
def numInternalProcRegs : Nat := 74
def iprPALtemp23 : Nat := 56
def iprDtbCm : Nat := 58

/-- A thread context as the hand-over reads and writes it. `process`, `system`
and `kernelStats` are the addresses of those objects, `quiesceEnd` the tick for
which the EndQuiesceEvent is scheduled. -/
structure HardwareContext where
  kind : ThreadKind
  cpuName : String
  process : Nat
  system : Nat
  status : Status
  contextId : Int
  threadId : Int
  intReg : Nat → Word
  floatReg : Nat → Word
  fpcr : Word
  uniq : Word
  lockFlag : Word
  lockAddr : Word
  ipr : Nat → Word
  pcState : Addr × Addr
  quiesceEnd : Option Word
  kernelStats : Nat
  funcExeInst : Word
  storeCondFailures : Nat
  noSquashFromTC : Bool
  trapPending : Bool
  enabledFI : Bool
  fiThread : Option ThreadPtr

def copyLoop (count : Nat) (src dest : Nat → Word) : Nat → Word :=
  (List.range count).foldl (fun regs i => Function.update regs i (src i)) dest

namespace HardwareContext

def copyIprs (src dest : HardwareContext) : HardwareContext :=
  { dest with ipr := copyLoop numInternalProcRegs src.ipr dest.ipr }

def copyMiscRegs (src dest : HardwareContext) : HardwareContext :=
  copyIprs src { dest with
    fpcr := src.fpcr
    uniq := src.uniq
    lockFlag := src.lockFlag
    lockAddr := src.lockAddr }

def copyRegs (src dest : HardwareContext) : HardwareContext :=
  let dest := { dest with
    intReg := copyLoop numIntRegs src.intReg dest.intReg
    floatReg := copyLoop numFloatRegs src.floatReg dest.floatReg }
  { copyMiscRegs src dest with pcState := src.pcState }

def copyArchRegs (fullSystem : Bool) (src dest : HardwareContext) : HardwareContext :=
  match dest.kind with
  | .simpleThread => copyRegs src dest
  | .o3ThreadContext =>
      let dest := { copyRegs src { dest with noSquashFromTC := true } with noSquashFromTC := false }
      if fullSystem then dest else { dest with funcExeInst := src.funcExeInst }

/-- `::takeOverFrom`: the new context and the old one, `none` for a failed
assertion. -/
def takeOver (fullSystem : Bool) (ntc otc : HardwareContext) :
    Option (HardwareContext × HardwareContext) :=
  if ntc.process ≠ otc.process then none
  else
    let ntc := copyArchRegs fullSystem otc { ntc with status := otc.status }
    let ntc := { ntc with contextId := otc.contextId, threadId := otc.threadId }
    if fullSystem then
      if ntc.system ≠ otc.system then none
      else match otc.quiesceEnd with
        | some when' =>
            some ({ ntc with quiesceEnd := some when' },
              { otc with quiesceEnd := none, status := .halted })
        | none => some (ntc, { otc with status := .halted })
    else some (ntc, { otc with status := .halted })

/-- `SimpleThread::takeOverFrom` and `O3ThreadContext::takeOverFrom`. -/
def takeOverFrom (fullSystem : Bool) (ntc otc : HardwareContext) :
    Option (HardwareContext × HardwareContext) := do
  let (ntc, otc) ← takeOver fullSystem ntc otc
  let ntc := { ntc with kernelStats := otc.kernelStats, funcExeInst := otc.funcExeInst }
  match ntc.kind with
  | .simpleThread => some ({ ntc with storeCondFailures := 0 }, otc)
  | .o3ThreadContext => some ({ ntc with noSquashFromTC := false, trapPending := false }, otc)

def fiView (tc : HardwareContext) : ThreadContext :=
  ⟨tc.cpuName, tc.ipr iprPALtemp23, tc.ipr iprDtbCm, tc.enabledFI, tc.fiThread⟩

end HardwareContext

open HardwareContext

theorem copyLoop_apply (count : Nat) (src dest : Nat → Word) (i : Nat) :
    copyLoop count src dest i = if i < count then src i else dest i := by
  unfold copyLoop
  induction count with
  | zero => simp
  | succ count ih =>
      rw [List.range_succ, List.foldl_append]
      simp only [List.foldl_cons, List.foldl_nil]
      by_cases last : i = count
      · simp [last]
      · rw [Function.update_of_ne last, ih]
        by_cases below : i < count
        · rw [if_pos below, if_pos (by omega)]
        · rw [if_neg below, if_neg (by omega)]

def carried (ntc otc : HardwareContext) : ThreadContext :=
  -- the new context as fault injection sees it when the registers come from the old one and
  -- everything else stays
  { otc.fiView with
    cpuName := ntc.cpuName, enabledFI := ntc.enabledFI, fiThread := ntc.fiThread }

theorem copyRegs_fiView (src dest : HardwareContext) :
    (copyRegs src dest).fiView = carried dest src := by
  -- both registers lie below the bound of the copy loop
  have pcb : copyLoop numInternalProcRegs src.ipr dest.ipr iprPALtemp23 = src.ipr iprPALtemp23 := by
    rw [copyLoop_apply]
    exact if_pos (by decide)
  have mode : copyLoop numInternalProcRegs src.ipr dest.ipr iprDtbCm = src.ipr iprDtbCm := by
    rw [copyLoop_apply]
    exact if_pos (by decide)
  simp only [copyRegs, copyMiscRegs, copyIprs, fiView, carried, pcb, mode]

theorem copyArchRegs_fiView (fullSystem : Bool) (src dest : HardwareContext) :
    (copyArchRegs fullSystem src dest).fiView = carried dest src := by
  have copied : ∀ noSquash,
      (copyRegs src { dest with noSquashFromTC := noSquash }).fiView = carried dest src :=
    fun noSquash => copyRegs_fiView src { dest with noSquashFromTC := noSquash }
  unfold copyArchRegs
  cases dest.kind with
  | simpleThread => exact copyRegs_fiView src dest
  | o3ThreadContext =>
      cases fullSystem with
      | true => exact copied true
      | false => exact copied true

theorem takeOver_fiView {fullSystem : Bool} {ntc otc ntc' otc' : HardwareContext}
    (returned : takeOver fullSystem ntc otc = some (ntc', otc')) :
    ntc'.fiView = carried ntc otc := by
  have copied : (copyArchRegs fullSystem otc { ntc with status := otc.status }).fiView =
      carried ntc otc := copyArchRegs_fiView fullSystem otc { ntc with status := otc.status }
  unfold takeOver at returned
  split at returned
  · cases returned
  · dsimp only at returned
    split at returned
    · split at returned
      · cases returned
      · split at returned <;>
        · cases returned
          exact copied
    · cases returned
      exact copied

/-- The hand-over brings the registers of the old context, and leaves the new one
the fault injection fields it had. -/
theorem takeOverFrom_fiView {fullSystem : Bool} {ntc otc ntc' otc' : HardwareContext}
    (returned : takeOverFrom fullSystem ntc otc = some (ntc', otc')) :
    ntc'.fiView = carried ntc otc := by
  obtain ⟨⟨mid, old⟩, tookOver, rest⟩ := Option.bind_eq_some_iff.mp returned
  have carriedOver := takeOver_fiView tookOver
  dsimp only at rest
  split at rest <;>
  · cases rest
    exact carriedOver

/-- The new context has the fault injection fields of the old one. -/
def SameInjection (otc ntc' : HardwareContext) : Prop :=
  ntc'.enabledFI = otc.enabledFI ∧ ntc'.fiThread = otc.fiThread

def scanVerdict (tc : ThreadContext) (ptr : ThreadPtr) (call : HookCall) (fi : FiSystem)
    (p : InjectedFault) : Option Verdict :=
  (scanContext tc ptr call fi).map fun c => verdict (stageOf p.faultType) c p

/-- The new context goes on where the old one was. A cycle on it is one of the
same thread, the operand hooks fire what they would have fired on the old
context under the new CPU's name, and a pending fault that would have been due
on the old context is due on the new one, whatever the counters are by then. -/
structure StillTriggered (pending : List InjectedFault) (otc ntc' : HardwareContext) : Prop where
  cycle : ∀ model fi, capture model fi ntc'.fiView = capture model fi otc.fiView
  execute : ∀ fuel call operand fi, iewFault fuel ntc'.fiView call operand fi =
    iewFault fuel { otc.fiView with cpuName := ntc'.cpuName } call operand fi
  loadStore : ∀ fuel call operand fi, ldsFault fuel ntc'.fiView call operand fi =
    ldsFault fuel { otc.fiView with cpuName := ntc'.cpuName } call operand fi
  due : ∀ p ∈ pending, ∀ ptr call fi servicedAt,
    scanVerdict otc.fiView ptr call fi p = some (.due servicedAt) →
      scanVerdict ntc'.fiView ptr call fi p = some (.due servicedAt)

/-- The fault is not one for the old CPU alone. -/
def Movable (otc ntc : HardwareContext) (p : InjectedFault) : Prop :=
  p.where_ = otc.cpuName → p.where_ = "all" ∨ ntc.cpuName = otc.cpuName

instance (otc ntc : HardwareContext) (p : InjectedFault) : Decidable (Movable otc ntc p) :=
  inferInstanceAs (Decidable (_ → _))

theorem scopeCounters_everywhere {calculate : String → ThreadEnabledFault → Word × Word}
    {c : ScanContext} {p : InjectedFault} (everywhere : p.where_ = "all") (cpu : String) :
    scopeCounters calculate { c with curCpu := cpu } p = scopeCounters calculate c p := by
  unfold scopeCounters
  dsimp only
  rw [everywhere]
  -- a CPU may be called "all" itself, so the names are split like everything else
  by_cases here : "all" = cpu <;> by_cases there : "all" = c.curCpu <;>
    by_cases anyThread : p.thread = "all" <;>
    by_cases own : c.thread.threadId = atoi p.thread <;>
    simp_all

theorem verdict_everywhere {q : StageQueue} {c : ScanContext} {p : InjectedFault}
    (everywhere : p.where_ = "all") (cpu : String) :
    verdict q { c with curCpu := cpu } p = verdict q c p := by
  have same : ∀ calculate known,
      getFiCounters calculate known { c with curCpu := cpu } p =
        getFiCounters calculate known c p := by
    intro calculate known
    unfold getFiCounters
    rw [scopeCounters_everywhere everywhere]
  have counters : countersFor q { c with curCpu := cpu } p = countersFor q c p := by
    cases q <;>
      simp only [countersFor, getFiFetchCounters, getFiExecCounters, getFiLoadstoreCounters, same]
  unfold verdict
  rw [counters]

theorem scanVerdict_everywhere {p : InjectedFault} (everywhere : p.where_ = "all")
    (tc : ThreadContext) (cpu : String) (ptr : ThreadPtr) (call : HookCall) (fi : FiSystem) :
    scanVerdict { tc with cpuName := cpu } ptr call fi p = scanVerdict tc ptr call fi p := by
  unfold scanVerdict scanContext
  cases fi.allthreads with
  | none => rfl
  | some all =>
      cases fi.threadInfo ptr with
      | none => rfl
      | some thread =>
          -- the two contexts differ in the name of the CPU alone
          exact congrArg some (verdict_everywhere (c := ⟨all, thread, tc.cpuName, call.pc⟩)
            everywhere cpu)

theorem where_of_due {tc : ThreadContext} {ptr : ThreadPtr} {call : HookCall} {fi : FiSystem}
    {p : InjectedFault} {servicedAt : Word}
    (due : scanVerdict tc ptr call fi p = some (.due servicedAt)) :
    p.where_ = tc.cpuName ∨ p.where_ = "all" := by
  obtain ⟨c, context, isDue⟩ := Option.map_eq_some_iff.mp due
  obtain ⟨all, _, context⟩ := Option.bind_eq_some_iff.mp context
  obtain ⟨thread, _, context⟩ := Option.bind_eq_some_iff.mp context
  cases context
  obtain ⟨⟨_, ⟨place, _⟩, _⟩, _⟩ := (verdict_due_iff rfl).mp ⟨servicedAt, isDue⟩
  exact place

def dueCount (p : InjectedFault) : Word × Word :=
  -- instruction count and ticks at which the fault is due
  match p.timingType with
  | .tick => (1, p.timing)
  | .instruction => (p.timing, 1)
  | .virtualAddr => (1, 1)

theorem dueCount_counts (p : InjectedFault) : (dueCount p).2 ||| (dueCount p).1 ≠ 0 := by
  have withOne (w : Word) : w ||| 1 ≠ 0 := fun zero =>
    absurd (BitVec.or_eq_zero_iff.mp zero).2 (by decide)
  unfold dueCount
  cases p.timingType with
  | tick => exact withOne p.timing
  | instruction => exact fun zero => withOne p.timing ((BitVec.or_comm _ _).trans zero)
  | virtualAddr => exact withOne 1

def countedThread (cpu : String) (p : InjectedFault) : ThreadEnabledFault :=
  let reached : CpuExecutedTicks :=
    ⟨(dueCount p).1, (dueCount p).1, (dueCount p).1, (dueCount p).2⟩
  ⟨some .start, 0, atoi p.thread, reached, AList.singleton cpu reached⟩

theorem calculateFor_counted (q : StageQueue) (cpu : String) (p : InjectedFault) :
    calculateFor q cpu (countedThread cpu p) = dueCount p := by
  have found : (countedThread cpu p).cores.lookup cpu = some (countedThread cpu p).all :=
    List.dlookup_cons_eq ..
  have read (instr : CpuExecutedTicks → Word) (reads : instr (countedThread cpu p).all =
      (dueCount p).1) : (countedThread cpu p).calculateTime instr cpu = dueCount p := by
    unfold ThreadEnabledFault.calculateTime
    rw [found]
    split <;> exact Prod.ext reads rfl
  cases q <;> exact read _ rfl

theorem exists_due {p : InjectedFault} (waiting : p.manifested = false) (tc : ThreadContext)
    (here : p.where_ = tc.cpuName) (base : FiSystem) : ∃ ptr call fi servicedAt,
      scanVerdict tc ptr call fi p = some (.due servicedAt) := by
  have counts := dueCount_counts p
  have readings_eq : readings (stageOf p.faultType)
      ⟨countedThread tc.cpuName p, countedThread tc.cpuName p, tc.cpuName, p.timing⟩ p =
        dueCount p := by
    have read := calculateFor_counted (stageOf p.faultType) tc.cpuName p
    have ownId : (countedThread tc.cpuName p).threadId = atoi p.thread := rfl
    unfold readings scopeCounters
    by_cases anyThread : p.thread = "all"
    · simp [here, anyThread, read]
    · simp [here, anyThread, ownId, read]
  have due : Due (stageOf p.faultType)
      ⟨countedThread tc.cpuName p, countedThread tc.cpuName p, tc.cpuName, p.timing⟩ p := by
    refine ⟨waiting, ⟨.inl here, .inr rfl⟩, ?_⟩
    unfold Triggered
    rw [readings_eq]
    cases timing : p.timingType with
    | tick => simp [dueCount, timing]
    | instruction => simp [dueCount, timing]
    | virtualAddr => exact (BitVec.add_zero p.timing).symm
  obtain ⟨servicedAt, isDue⟩ := (verdict_due_iff rfl).mpr ⟨due, by
    unfold Counting
    rwa [readings_eq]⟩
  exact ⟨0, ⟨p.timing, 0, 0, 0⟩,
    { base with
      allthreads := some (countedThread tc.cpuName p)
      threads := [⟨0, countedThread tc.cpuName p⟩] }, servicedAt, congrArg some isDue⟩

section Switch

variable {fullSystem : Bool} {pending : List InjectedFault} {ntc otc ntc' otc' : HardwareContext}

theorem switched_view (same : SameInjection otc ntc)
    (returned : takeOverFrom fullSystem ntc otc = some (ntc', otc')) :
    ntc'.fiView = { otc.fiView with cpuName := ntc.cpuName } := by
  rw [takeOverFrom_fiView returned]
  simp only [carried, fiView, same.1, same.2]

theorem stillTriggered_of_same (same : SameInjection otc ntc)
    (movable : ∀ p ∈ pending, Movable otc ntc p)
    (returned : takeOverFrom fullSystem ntc otc = some (ntc', otc')) :
    StillTriggered pending otc ntc' := by
  have view := switched_view same returned
  have name : ntc'.cpuName = ntc.cpuName := congrArg ThreadContext.cpuName view
  constructor
  · intro model fi
    rw [view]
    cases model <;> rfl
  · intro fuel call operand fi
    rw [view, name]
  · intro fuel call operand fi
    rw [view, name]
  · intro p member ptr call fi servicedAt due
    rw [view]
    have everywhere (isAll : p.where_ = "all") :
        scanVerdict { otc.fiView with cpuName := ntc.cpuName } ptr call fi p =
          some (.due servicedAt) :=
      (scanVerdict_everywhere isAll otc.fiView ntc.cpuName ptr call fi).trans due
    obtain here | isAll := where_of_due due
    · obtain isAll | sameName := movable p member here
      · exact everywhere isAll
      · rw [sameName]
        exact due
    · exact everywhere isAll

end Switch

def idleContext (kind : ThreadKind) (cpuName : String) : HardwareContext where
  kind := kind
  cpuName := cpuName
  process := 0
  system := 0
  status := .halted
  contextId := 0
  threadId := 0
  intReg _ := 0
  floatReg _ := 0
  fpcr := 0
  uniq := 0
  lockFlag := 0
  lockAddr := 0
  ipr _ := 0
  pcState := (0, 4)
  quiesceEnd := none
  kernelStats := 0
  funcExeInst := 0
  storeCondFailures := 0
  noSquashFromTC := false
  trapPending := false
  enabledFI := false
  fiThread := none

def runningContext : HardwareContext :=
  { idleContext .simpleThread "system.cpu" with
    status := .active
    ipr := fun i => if i = iprPALtemp23 then 0x1000 else if i = iprDtbCm then 0x18 else 0
    enabledFI := true
    fiThread := some 0 }

def formerContext : HardwareContext :=
  -- a detailed CPU that ran the same thread before, and was switched out
  { idleContext .o3ThreadContext "system.switch_cpus" with enabledFI := true, fiThread := some 0 }

def waitingFaults : List InjectedFault :=
  [(fetchRecord .instruction 5 1).construct (clearMemory.mem 0),
    { fetchRecord .tick 9000 2 with where_ := "system.switch_cpus" }.construct (clearMemory.mem 0)]

end GemFi.CpuSwitch
