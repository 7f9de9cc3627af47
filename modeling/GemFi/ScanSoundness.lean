import GemFi.FaultRuns

/-!
What a scan returns is due: it is in the queue, was not injected yet, is meant for the current
CPU and thread, and the counter of just its scope, or the address, is at its trigger. Whether it
is also the first due fault of the list depends on the scopes that have counted nothing.
-/

namespace GemFi.ScanSoundness

open LinkedLists ThreadInfo Transitions FaultQueue QueueHistory Corruption FaultScan FaultRuns

def ownCounter : StageQueue → CpuExecutedTicks → Word
  | .iewStage => CpuExecutedTicks.instrExecuted
  | .loadStore => CpuExecutedTicks.instrLoadStore
  | .main | .fetchStage | .decodeStage => CpuExecutedTicks.instrFetched

def onCore (t : ThreadEnabledFault) (core : String) : CpuExecutedTicks :=
  -- what a thread has counted on a core; nothing where it never ran
  (t.cores.lookup core).getD .new

def scopeOf (c : ScanContext) (p : InjectedFault) : CpuExecutedTicks :=
  -- the counters that a fault goes by: of this thread or of all threads, on this core or on all
  -- cores
  let counted := if p.thread = "all" then c.allthreads else c.thread
  if p.where_ = "all" then counted.all else onCore counted c.curCpu

def AtTrigger (q : StageQueue) (c : ScanContext) (p : InjectedFault) : Prop :=
  match p.timingType with
  | .tick => (scopeOf c p).ticks = p.timing
  | .instruction => ownCounter q (scopeOf c p) = p.timing
  | .virtualAddr => c.vaddr = p.timing + c.thread.magicInstVirtualAddr

/-- The fault is to be injected now. A thread is a number as `atoi` reads it. -/
structure DueNow (q : StageQueue) (c : ScanContext) (p : InjectedFault) : Prop where
  pending : p.manifested = false
  here : p.where_ = c.curCpu ∨ p.where_ = "all"
  mine : p.thread = "all" ∨ c.thread.threadId = atoi p.thread
  trigger : AtTrigger q c p

variable {fuel : Nat} {q : StageQueue} {c : ScanContext} {p : InjectedFault}

theorem calculateFor_eq (q : StageQueue) (core : String) (t : ThreadEnabledFault) :
    calculateFor q core t =
      if core = "all" then (ownCounter q t.all, t.all.ticks)
      else (ownCounter q (onCore t core), (onCore t core).ticks) := by
  have reads : ∀ instr : CpuExecutedTicks → Word, instr .new = 0 →
      ThreadEnabledFault.calculateTime instr core t =
        if core = "all" then (instr t.all, t.all.ticks)
        else (instr (onCore t core), (onCore t core).ticks) := by
    intro instr zero
    unfold ThreadEnabledFault.calculateTime onCore
    apply ite_congr rfl (fun _ => rfl)
    intro _
    cases t.cores.lookup core with
    | none => exact Prod.ext zero.symm rfl
    | some counters => rfl
  cases q with
  | iewStage => exact reads _ rfl
  | loadStore => exact reads _ rfl
  | main => exact reads _ rfl
  | fetchStage => exact reads _ rfl
  | decodeStage => exact reads _ rfl

theorem readings_eq (named : c.curCpu ≠ "all") (scope : InScope c p) :
    readings q c p = (ownCounter q (scopeOf c p), (scopeOf c p).ticks) := by
  obtain ⟨here, mine⟩ := scope
  unfold readings scopeCounters scopeOf
  by_cases allThreads : p.thread = "all"
  · by_cases allCores : p.where_ = "all"
    · have otherCpu : "all" ≠ c.curCpu := fun same => named same.symm
      simp [allThreads, allCores, otherCpu, calculateFor_eq]
    · have thisCpu : p.where_ = c.curCpu := here.resolve_right allCores
      simp [allThreads, thisCpu, named, calculateFor_eq]
  · have thisThread := mine.resolve_left allThreads
    by_cases allCores : p.where_ = "all"
    · have otherCpu : "all" ≠ c.curCpu := fun same => named same.symm
      simp [allThreads, allCores, otherCpu, thisThread, calculateFor_eq]
    · have thisCpu : p.where_ = c.curCpu := here.resolve_right allCores
      simp [allThreads, thisCpu, thisThread, named, calculateFor_eq]

theorem due_iff_dueNow (named : c.curCpu ≠ "all") : Due q c p ↔ DueNow q c p := by
  have triggered : InScope c p → (Triggered q c p ↔ AtTrigger q c p) := by
    intro scope
    have values := readings_eq (q := q) named scope
    unfold Triggered AtTrigger
    cases p.timingType with
    | tick => simp only [values]
    | instruction => simp only [values]
    | virtualAddr => exact Iff.rfl
  constructor
  · rintro ⟨pending, scope, trigger⟩
    exact ⟨pending, scope.1, scope.2, (triggered scope).mp trigger⟩
  · rintro ⟨pending, here, mine, trigger⟩
    exact ⟨pending, ⟨here, mine⟩, (triggered ⟨here, mine⟩).mpr trigger⟩

section Scan

variable {s s' : FaultStore} {nodes before after : List FaultPtr} {found : Option FaultPtr} {f : FaultPtr}

/-- A fault of the queue that is due, and no fault before it in the list is. -/
structure FirstDue (q : StageQueue) (c : ScanContext) (s : FaultStore) (nodes : List FaultPtr)
    (f : FaultPtr) : Prop where
  member : f ∈ nodes
  due : DueNow q c (s.mem f)
  first : ∀ before after, nodes = before ++ f :: after → ∀ x ∈ before, ¬ DueNow q c (s.mem x)

/-- The scan gets to the fault and returns it: it is due, its scope has counted, and before it
are no expired faults and no other such ones. -/
def Returned (q : StageQueue) (c : ScanContext) (s : FaultStore) (before : List FaultPtr)
    (f : FaultPtr) : Prop :=
  Due q c (s.mem f) ∧ Counting q c (s.mem f) ∧
    ∀ x ∈ before, ¬ Expired q c (s.mem x) ∧ ¬ (Due q c (s.mem x) ∧ Counting q c (s.mem x))

theorem passed_iff {x : FaultPtr} (typed : stageOf (s.mem x).faultType = q) :
    verdict q c (s.mem x) = .pass ↔
      ¬ Expired q c (s.mem x) ∧ ¬ (Due q c (s.mem x) ∧ Counting q c (s.mem x)) := by
  rw [← verdict_stop_iff typed, ← verdict_due_iff typed]
  cases decided : verdict q c (s.mem x) with
  | due servicedAt => simp
  | stop => simp
  | pass => simp

theorem firstNotPassed_due_iff_returned (typed : ∀ x ∈ nodes, stageOf (s.mem x).faultType = q) :
    (firstNotPassed q c s nodes = some f ∧ ∃ servicedAt, verdict q c (s.mem f) = .due servicedAt) ↔
      ∃ before after, nodes = before ++ f :: after ∧ Returned q c s before f := by
  constructor
  · rintro ⟨first, due⟩
    obtain ⟨_, before, after, split, passed⟩ := List.find?_eq_some_iff_append.mp first
    have typedHere : stageOf (s.mem f).faultType = q := typed f (by simp [split])
    obtain ⟨isDue, counting⟩ := (verdict_due_iff typedHere).mp due
    refine ⟨before, after, split, isDue, counting, fun x member => ?_⟩
    have pass : verdict q c (s.mem x) = .pass := by simpa using passed x member
    exact (passed_iff (typed x (by simp [split, member]))).mp pass
  · rintro ⟨before, after, split, isDue, counting, clear⟩
    have typedHere : stageOf (s.mem f).faultType = q := typed f (by simp [split])
    have due := (verdict_due_iff typedHere).mpr ⟨isDue, counting⟩
    refine ⟨List.find?_eq_some_iff_append.mpr ⟨?_, before, after, split, fun x member => ?_⟩, due⟩
    · obtain ⟨servicedAt, decided⟩ := due
      simp [decided]
    · have pass := (passed_iff (c := c) (typed x (by simp [split, member]))).mpr (clear x member)
      simp [pass]

theorem scan_found_iff_returned (chain : Chain s.nxt (s.head q) nodes none)
    (typed : ∀ x ∈ nodes, stageOf (s.mem x).faultType = q)
    (returned : scan fuel q c s = some (s', found)) :
    found = some f ↔ ∃ before after, nodes = before ++ f :: after ∧ Returned q c s before f := by
  rw [← firstNotPassed_due_iff_returned typed]
  rcases scan_cases chain returned with ⟨_, rfl, stopped⟩ | ⟨p, servicedAt, first, due, _, rfl⟩
  · refine iff_of_false (fun isFound => nomatch isFound) ?_
    rintro ⟨first, servicedAt, due⟩
    rw [stopped f first] at due
    cases due
  · rw [first]
    constructor
    · intro same
      cases same
      exact ⟨rfl, servicedAt, due⟩
    · exact fun isFirst => isFirst.1

theorem dueNow_of_found (named : c.curCpu ≠ "all") (chain : Chain s.nxt (s.head q) nodes none)
    (typed : ∀ x ∈ nodes, stageOf (s.mem x).faultType = q)
    (returned : scan fuel q c s = some (s', some f)) : f ∈ nodes ∧ DueNow q c (s.mem f) := by
  obtain ⟨before, after, split, isReturned⟩ :=
    (scan_found_iff_returned chain typed returned).mp rfl
  exact ⟨by simp [split], (due_iff_dueNow named).mp isReturned.1⟩

/-- The first fault of the list that the scan would take is also the first that is due. -/
def FirstCounts (q : StageQueue) (c : ScanContext) (s : FaultStore) (nodes : List FaultPtr) : Prop :=
  ∀ before f after, nodes = before ++ f :: after → Returned q c s before f →
    ∀ x ∈ before, Due q c (s.mem x) → Counting q c (s.mem x)

/-- A scan comes back, and all that it says about the fault that it returns is right, exactly when
no fault is due by a scope that has counted nothing before that fault. -/
theorem scan_sound_iff (named : c.curCpu ≠ "all") (chain : Chain s.nxt (s.head q) nodes none)
    (typed : ∀ x ∈ nodes, stageOf (s.mem x).faultType = q) (enough : nodes.length < fuel) :
    ∃ s' found, scan fuel q c s = some (s', found) ∧
      ((∀ f, found = some f → FirstDue q c s nodes f) ↔ FirstCounts q c s nodes) := by
  obtain ⟨s', found, returned⟩ := scan_returns (c := c) chain enough
  refine ⟨s', found, returned, ?_⟩
  constructor
  · intro sound before f after split isReturned x early due
    have isFound := (scan_found_iff_returned chain typed returned).mpr ⟨before, after, split, isReturned⟩
    exact absurd ((due_iff_dueNow named).mp due) ((sound f isFound).first before after split x early)
  · intro counts f isFound
    obtain ⟨before, after, split, isReturned⟩ :=
      (scan_found_iff_returned chain typed returned).mp isFound
    obtain ⟨member, isDue⟩ := dueNow_of_found named chain typed (isFound ▸ returned)
    refine ⟨member, isDue, ?_⟩
    intro before' after' split' x early due
    have apart : f ∉ before ∧ f ∉ after := by
      have distinct := chain_nodup nodes chain
      rw [split, List.nodup_middle, List.nodup_cons, List.mem_append, not_or] at distinct
      exact distinct.1
    obtain ⟨rfl, _, _⟩ := (List.append_cons_inj_of_notMem apart.1 apart.2).mp (split.symm.trans split')
    have earlyDue := (due_iff_dueNow named).mpr due
    exact (isReturned.2.2 x early).2 ⟨earlyDue, counts before f after split isReturned x early earlyDue⟩

def twoFaults : FaultStore :=
  -- the memory after two lines of the fault file
  ((load 3 (fetchRecord .instruction 3 1) clearMemory).bind
    (load 3 (fetchRecord .instruction 5 1))).getD clearMemory

theorem scan_of_two_sound :
    ∃ s' found, scan 3 .fetchStage fiveFetched twoFaults = some (s', found) ∧
      ((∀ f, found = some f → FirstDue .fetchStage fiveFetched twoFaults [0, 1] f) ↔
        FirstCounts .fetchStage fiveFetched twoFaults [0, 1]) := by
  have chain : Chain twoFaults.nxt (twoFaults.head .fetchStage) [0, 1] none := ⟨rfl, rfl, rfl⟩
  have typed : ∀ x ∈ [0, 1], stageOf (twoFaults.mem x).faultType = .fetchStage := by
    intro x member
    rcases List.mem_pair.mp member with rfl | rfl <;> rfl
  exact scan_sound_iff (by decide) chain typed (by decide)

def addressRecord : FaultRecord :=
  ⟨.generalFetch, .virtualAddr, .flipBit, 4, 1, "system.cpu1", "0", 1, .src, 0, 0⟩

def sixthOnSecondCore : ScanContext where
  allthreads := { ThreadEnabledFault.new (-1) "system.cpu" with all := ⟨6, 0, 0, 1000⟩ }
  thread := ThreadEnabledFault.increaseFetchedInstr "system.cpu1"
    { ThreadEnabledFault.new 0 "system.cpu" with
      all := ⟨5, 0, 0, 1000⟩
      magicInstVirtualAddr := 0x1000 }
  curCpu := "system.cpu1"
  vaddr := 0x1004

/-- The address of the first fault is reached, but the thread has counted nothing on the core. -/
theorem uncounted_fault_is_passed :
    ∃ reached s',
      run (faultStep 9) [.load addressRecord, .load (fetchRecord .instruction 6 1)]
          ⟨clearMemory, fun _ => []⟩ = some reached ∧
        Chain reached.store.nxt (reached.store.head .fetchStage) [0, 1] none ∧
        scan 9 .fetchStage sixthOnSecondCore reached.store = some (s', some 1) ∧
        ¬ FirstDue .fetchStage sixthOnSecondCore reached.store [0, 1] 1 := by
  refine ⟨_, _, rfl, ⟨rfl, rfl, rfl⟩, rfl, ?_⟩
  intro isFirst
  exact isFirst.first [0] [] rfl 0 List.mem_cons_self ⟨rfl, Or.inl rfl, Or.inr rfl, rfl⟩

end Scan

end GemFi.ScanSoundness
