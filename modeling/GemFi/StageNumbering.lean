import GemFi.FetchSchedule
import GemFi.GlobalTotals
import GemFi.StageFrames

/-!
Which event of its stage a fault Inst:k hits. fetch_fault counts the instruction
and then scans its queue, iew_fault and lds_fault scan first and count
afterwards. All hooks and increaseTicks may come in any order, and the other
queues may hold any faults.
-/

namespace GemFi.StageNumbering

open LinkedLists ThreadInfo Transitions FaultQueue QueueRepresentation Corruption FaultScan
open Activation Activation.FiSystem Hooks Calls GlobalTotals StageFrames

inductive Stage where
  | fetch | execute | loadStore
  deriving DecidableEq, Repr

def Stage.queue : Stage → StageQueue
  | .fetch => .fetchStage
  | .execute => .iewStage
  | .loadStore => .loadStore

def Stage.counter : Stage → Counter
  | .fetch => .fetched
  | .execute => .executed
  | .loadStore => .loadStore

def operandCounts (fi : FiSystem) (tc : ThreadContext) (hook : HookCall) : Bool :=
  -- iew_fault and lds_fault count the operand
  tc.enabledFI && (tc.fiThread.any fun ptr => decide (fi.modeOf ptr = some .start)) &&
    fi.fullSystem && inUserMode tc && !(getSignificance hook.pc hook.stale fi.metadata).1

def countsFor (m : Machine) : Stage → Call → Bool
  | .fetch, .fetch i ptr hook inst => FetchSchedule.counted m.fi ⟨m.contexts i, ptr, hook, inst⟩
  | .execute, .iew i hook _ => operandCounts m.fi (m.contexts i) hook
  | .loadStore, .lds i hook _ => operandCounts m.fi (m.contexts i) hook
  | _, _ => false

def processes (p : InjectedFault) : Call → Bool
  -- the `process` of the class returns for the value of the call
  | .fetch _ _ _ inst => (process .fetchStage p inst).isSome
  | .iew _ _ operand => (process .iewStage p operand).isSome
  | .lds _ _ operand => (process .loadStore p operand).isSome
  | _ => true

/-- A fault read from a line with when=Inst:k, where=all, thread=all and occ=1. -/
structure InstFault (stage : Stage) (k : Nat) (p : InjectedFault) : Prop where
  typed : stageOf p.faultType = stage.queue
  timingType : p.timingType = .instruction
  timing : p.timing = BitVec.ofNat 64 k
  where_ : p.where_ = "all"
  thread : p.thread = "all"
  occurrence : p.occurrence = 1
  manifested : p.manifested = false

/-- The fault as `scan` hands it out at count `k`. -/
def servicedFault (k : Nat) (p : InjectedFault) : InjectedFault :=
  { p with servicedAt := BitVec.ofNat 64 k }

section Lone

variable {stage : Stage} {k : Nat} {p : InjectedFault} {c : ScanContext} {fuel : Nat}
  {s : FaultStore} {lists : StageQueue → List FaultPtr} {f : FaultPtr}

theorem InstFault.readings (fault : InstFault stage k p) :
    readings stage.queue c p = (c.allthreads.all.get stage.counter, c.allthreads.all.ticks) := by
  unfold FaultScan.readings scopeCounters
  rw [fault.where_, fault.thread]
  by_cases named : c.curCpu = "all"
  · cases stage <;>
      simp [named, Stage.queue, Stage.counter, calculateFor, CpuExecutedTicks.get,
        ThreadEnabledFault.calculateFetchedTime, ThreadEnabledFault.calculateExecutedTime,
        ThreadEnabledFault.calculateLoadStoreTime, ThreadEnabledFault.calculateTime, allcores]
  · cases stage <;>
      simp [Ne.symm named, Stage.queue, Stage.counter, calculateFor, CpuExecutedTicks.get,
        ThreadEnabledFault.calculateFetchedTime, ThreadEnabledFault.calculateExecutedTime,
        ThreadEnabledFault.calculateLoadStoreTime, ThreadEnabledFault.calculateTime, allcores]

theorem InstFault.counting_iff (fault : InstFault stage k p) :
    Counting stage.queue c p ↔
      c.allthreads.all.ticks ||| c.allthreads.all.get stage.counter ≠ 0 := by
  unfold Counting
  rw [fault.readings]

/-- The fault is due at count `k` and at no other. -/
theorem InstFault.verdict_due_iff (fault : InstFault stage k p) :
    (∃ servicedAt, verdict stage.queue c p = .due servicedAt) ↔
      c.allthreads.all.get stage.counter = BitVec.ofNat 64 k ∧ Counting stage.queue c p := by
  rw [FaultScan.verdict_due_iff fault.typed]
  unfold Due Triggered InScope
  rw [fault.readings, fault.manifested, fault.timingType, fault.timing, fault.where_, fault.thread]
  constructor
  · rintro ⟨⟨_, _, reached⟩, counting⟩
    exact ⟨reached, counting⟩
  · rintro ⟨reached, counting⟩
    exact ⟨⟨rfl, ⟨Or.inr rfl, Or.inl rfl⟩, reached⟩, counting⟩

theorem InstFault.verdict_at (fault : InstFault stage k p) (counting : Counting stage.queue c p)
    (reached : c.allthreads.all.get stage.counter = BitVec.ofNat 64 k) :
    verdict stage.queue c p = .due (BitVec.ofNat 64 k) := by
  unfold verdict
  rw [fault.manifested, countersFor_counting fault.typed counting, fault.readings,
    fault.timingType, fault.timing, reached]
  simp [compareCounter]

structure Waiting (stage : Stage) (f : FaultPtr) (p : InjectedFault)
    (lists : StageQueue → List FaultPtr) (s : FaultStore) : Prop where
  -- the queue of the stage holds just the fault `f`
  held : Represents s lists
  alone : lists stage.queue = [f]
  fault : s.mem f = p

theorem Waiting.chain (waiting : Waiting stage f p lists s) :
    Chain s.nxt (s.head stage.queue) [f] none :=
  waiting.alone ▸ (waiting.held.linked stage.queue).forward

theorem Waiting.member (waiting : Waiting stage f p lists s) : f ∈ lists stage.queue := by
  rw [waiting.alone]
  exact List.mem_singleton_self f

theorem Waiting.scan_due (waiting : Waiting stage f p lists s) (fault : InstFault stage k p)
    (enough : 2 ≤ fuel) (counting : Counting stage.queue c p)
    (reached : c.allthreads.all.get stage.counter = BitVec.ofNat 64 k) :
    scan fuel stage.queue c s = some (serviced s f (BitVec.ofNat 64 k), some f) := by
  have decided : verdict stage.queue c (s.mem f) = .due (BitVec.ofNat 64 k) := by
    rw [waiting.fault]
    exact fault.verdict_at counting reached
  rw [scan_single f waiting.chain enough, decided]

theorem Waiting.scan_idle (waiting : Waiting stage f p lists s) (fault : InstFault stage k p)
    (enough : 2 ≤ fuel) (elsewhere : ¬ (c.allthreads.all.get stage.counter = BitVec.ofNat 64 k ∧
      Counting stage.queue c p)) :
    scan fuel stage.queue c s = some (s, none) := by
  rw [scan_single f waiting.chain enough]
  cases decided : verdict stage.queue c (s.mem f) with
  | due servicedAt =>
      rw [waiting.fault] at decided
      exact absurd (fault.verdict_due_iff.mp ⟨servicedAt, decided⟩) elsewhere
  | stop | pass => rfl

theorem scan_empty (held : Represents s lists) (vacant : lists stage.queue = [])
    (enough : 2 ≤ fuel) : scan fuel stage.queue c s = some (s, none) := by
  have chain : Chain s.nxt (s.head stage.queue) [] none :=
    vacant ▸ (held.linked stage.queue).forward
  exact scan_vacant (by omega) chain

theorem fireLoop_nothing {call : HookCall} {value : StageValue stage.queue} {fi : FiSystem}
    (enough : 2 ≤ fuel) (scanned : scan fuel stage.queue c fi.store = some (fi.store, none)) :
    fireLoop fuel stage.queue c call fuel value fi = some (fi, value, []) := by
  obtain ⟨rounds, rfl⟩ : ∃ rounds, fuel = rounds + 1 := ⟨fuel - 1, by omega⟩
  exact fireLoop_idle scanned

/-- At count `k` the loop of the hook fires the fault, which leaves its queue; or
the process of its class does not return. -/
theorem Waiting.fireLoop_hits {fi : FiSystem} (call : HookCall) (value : StageValue stage.queue)
    (waiting : Waiting stage f p lists fi.store) (fault : InstFault stage k p) (enough : 2 ≤ fuel)
    (counting : Counting stage.queue c p)
    (reached : c.allthreads.all.get stage.counter = BitVec.ofNat 64 k) :
    (process stage.queue (servicedFault k p) value = none →
      fireLoop fuel stage.queue c call fuel value fi = none) ∧
    ((process stage.queue (servicedFault k p) value).isSome = true → ∃ fi' value',
      fireLoop fuel stage.queue c call fuel value fi = some (fi', value', [f]) ∧
      Within stage.queue fi.store lists fi'.store (Function.update lists stage.queue [])) := by
  have scanned := waiting.scan_due fault enough counting reached
  have serviced' : (serviced fi.store f (BitVec.ofNat 64 k)).mem f = servicedFault k p := by
    simp [serviced, FaultStore.write, servicedFault, waiting.fault]
  have noted : Within stage.queue fi.store lists (serviced fi.store f (BitVec.ofNat 64 k)) lists :=
    within_write waiting.held waiting.member rfl rfl rfl
  obtain ⟨rounds, rfl⟩ : ∃ rounds, fuel = rounds + 1 + 1 := ⟨fuel - 2, by omega⟩
  rw [fireLoop_found scanned]
  constructor
  · intro stuck
    unfold fire
    rw [serviced', stuck]
    rfl
  · intro returns
    obtain ⟨⟨p', value'⟩, processed⟩ := Option.isSome_iff_exists.mp returns
    have last : ((serviced fi.store f (BitVec.ofNat 64 k)).mem f).occurrence = 1 := by
      rw [serviced']
      exact fault.occurrence
    obtain ⟨store, fires, gone⟩ := fire_last call.clockEdge noted.held waiting.member
      (by rw [waiting.alone]; exact enough) last (serviced'.symm ▸ processed)
    rw [waiting.alone, List.erase_cons_head] at gone
    have empty : scan (rounds + 1 + 1) stage.queue c (firedOne fi stage.queue call f store).store =
        some ((firedOne fi stage.queue call f store).store, none) := by
      rw [firedOne_store]
      exact scan_empty gone.held (Function.update_self _ _ _) enough
    refine ⟨firedOne fi stage.queue call f store, value', ?_, ?_⟩
    · rw [fires, Option.bind_some]
      dsimp only
      rw [fireLoop_idle empty]
      rfl
    · rw [firedOne_store]
      exact noted.trans gone

end Lone

section Hook

variable {fi : FiSystem} {tc : ThreadContext} {hook : HookCall} {all : ThreadEnabledFault}

theorem live_of_started {ptr : ThreadPtr} (started : fi.modeOf ptr = some .start) :
    ∃ thread, fi.threadInfo ptr = some thread ∧ thread.mode = some .start := by
  obtain ⟨thread, object, mode⟩ := Option.bind_eq_some_iff.mp started
  exact ⟨thread, object, mode⟩

theorem operandCounts_iff :
    operandCounts fi tc hook = true ↔ tc.enabledFI = true ∧
      (∃ ptr, tc.fiThread = some ptr ∧ fi.modeOf ptr = some .start) ∧ fi.fullSystem = true ∧
      inUserMode tc = true ∧ (getSignificance hook.pc hook.stale fi.metadata).1 = false := by
  unfold operandCounts
  cases tc.fiThread with
  | none => simp
  | some ptr => simp [and_assoc]

theorem countBoth_returns {ptr : ThreadPtr} {change : ThreadEnabledFault → ThreadEnabledFault}
    {thread : ThreadEnabledFault} (object : fi.threadInfo ptr = some thread)
    (global : fi.allthreads = some all) :
    ∃ fi', countBoth ptr change fi = some fi' ∧ fi'.allthreads = some (change all) := by
  unfold countBoth
  rw [object, Option.bind_eq_bind, Option.bind_some]
  unfold updateAllthreads
  have same : (fi.updateThread ptr change).allthreads = some all := global
  rw [same]
  exact ⟨_, rfl, rfl⟩

theorem scanContext_eq {ptr : ThreadPtr} {thread : ThreadEnabledFault}
    (object : fi.threadInfo ptr = some thread) (global : fi.allthreads = some all) :
    scanContext tc ptr hook fi = some ⟨all, thread, tc.cpuName, hook.pc⟩ := by
  unfold scanContext
  rw [global, object]
  rfl

theorem operandFault_counted (fuel : Nat) (q : StageQueue)
    (count : String → ThreadEnabledFault → ThreadEnabledFault) (value : StageValue q)
    (global : fi.allthreads = some all) (counts : operandCounts fi tc hook = true) :
    ∃ c, c.allthreads = all ∧
      (fireLoop fuel q c hook fuel value
          { fi with metadata := (getSignificance hook.pc hook.stale fi.metadata).2 } = none →
        operandFault q count fuel tc hook value fi = none) ∧
      ∀ fi' value' fired, fireLoop fuel q c hook fuel value
          { fi with metadata := (getSignificance hook.pc hook.stale fi.metadata).2 } =
            some (fi', value', fired) →
        ∃ fi'', operandFault q count fuel tc hook value fi = some (fi'', value', fired) ∧
          fi''.store = fi'.store ∧ fi''.allthreads = some (count tc.cpuName all) := by
  obtain ⟨enabled, ⟨ptr, points, started⟩, full, user, plain⟩ := operandCounts_iff.mp counts
  obtain ⟨thread, object, mode⟩ := live_of_started started
  have equation : operandFault q count fuel tc hook value fi =
      (fireLoop fuel q ⟨all, thread, tc.cpuName, hook.pc⟩ hook fuel value
        { fi with metadata := (getSignificance hook.pc hook.stale fi.metadata).2 }).bind
        fun result => (countBoth ptr (count tc.cpuName) result.1).bind
          fun fi => some (fi, result.2.1, result.2.2) := by
    have context : scanContext tc ptr hook
        { fi with metadata := (getSignificance hook.pc hook.stale fi.metadata).2 } =
          some ⟨all, thread, tc.cpuName, hook.pc⟩ := scanContext_eq object global
    unfold operandFault
    rw [if_neg (by simp [enabled]), points, Option.bind_eq_bind, Option.bind_some, object,
      Option.bind_eq_bind, Option.bind_some, if_pos ⟨mode, full, user⟩]
    dsimp only
    rw [if_neg (by simp [plain]), fireDue, context]
    rfl
  refine ⟨⟨all, thread, tc.cpuName, hook.pc⟩, rfl, ?_, ?_⟩
  · intro stuck
    rw [equation, stuck]
    rfl
  · intro fi' value' fired looped
    have kept := fireLoop_faultsOnly _ _ _ _ _ _ looped
    have object' : fi'.threadInfo ptr = some thread := by
      unfold threadInfo at object ⊢
      rw [kept.threads]
      exact object
    obtain ⟨fi'', both, counted⟩ := countBoth_returns object' (kept.allthreads.trans global)
    refine ⟨fi'', ?_, countBoth_store both, counted⟩
    rw [equation, looped, Option.bind_some, both]
    rfl

theorem operandFault_uncounted {fuel : Nat} {q : StageQueue}
    {count : String → ThreadEnabledFault → ThreadEnabledFault} {value value' : StageValue q}
    {fi' : FiSystem} {fired : List FaultPtr}
    (returned : operandFault q count fuel tc hook value fi = some (fi', value', fired))
    (uncounted : operandCounts fi tc hook = false) :
    (∃ metadata, fi' = { fi with metadata := metadata }) ∧ fired = [] := by
  unfold operandFault at returned
  split at returned
  · cases returned
    exact ⟨⟨fi.metadata, rfl⟩, rfl⟩
  · rename_i enabled
    obtain ⟨ptr, points, rest⟩ := Option.bind_eq_some_iff.mp returned
    obtain ⟨thread, object, rest⟩ := Option.bind_eq_some_iff.mp rest
    split at rest
    · rename_i guards
      dsimp only at rest
      split at rest
      · cases rest
        exact ⟨⟨_, rfl⟩, rfl⟩
      · rename_i plain
        have counted : operandCounts fi tc hook = true := by
          refine operandCounts_iff.mpr ⟨by simpa using enabled, ⟨ptr, points, ?_⟩, guards.2.1,
            guards.2.2, by simpa using plain⟩
          exact (modeOf_of_threadInfo object).trans guards.1
        rw [counted] at uncounted
        cases uncounted
    · cases rest
      exact ⟨⟨fi.metadata, rfl⟩, rfl⟩

end Hook

/-- What the loop of a counted call reads: the count before or after the call, and
the ticks, which the call does not move. -/
structure LoopReads (stage : Stage) (all : ThreadEnabledFault) (c : ScanContext) : Prop where
  counter : c.allthreads.all.get stage.counter =
    all.all.get stage.counter + (if stage = .fetch then 1 else 0)
  ticks : c.allthreads.all.ticks = all.all.ticks

/-- The call is the loop of its hook, run on the count before or after the call,
and the count itself. -/
def RunsLoop (fuel : Nat) (m : Machine) (stage : Stage) (all : ThreadEnabledFault)
    (call : Call) : Prop :=
  ∃ (c : ScanContext) (hook : HookCall) (value : StageValue stage.queue) (fi : FiSystem),
    fi.store = m.fi.store ∧ LoopReads stage all c ∧
    (∀ p, processes p call = (process stage.queue p value).isSome) ∧
    (fireLoop fuel stage.queue c hook fuel value fi = none → makeCall fuel m call = none) ∧
    ∀ fi' value' fired,
      fireLoop fuel stage.queue c hook fuel value fi = some (fi', value', fired) →
      ∃ next all', makeCall fuel m call = some (next, fired) ∧ next.fi.store = fi'.store ∧
        next.contexts = m.contexts ∧ next.fi.allthreads = some all' ∧
        all'.all.get stage.counter = all.all.get stage.counter + 1

theorem counted_once {tc : ThreadContext} (named : tc.cpuName ≠ allcores)
    (all : ThreadEnabledFault) (event : Event) {counter : Counter}
    (one : Event.amount event counter = 1) :
    (all.count ⟨tc.cpuName, event⟩).all.get counter = all.all.get counter + 1 := by
  rw [count_all, one, if_neg named, add_zero]

theorem fetch_runsLoop (fuel : Nat) {m : Machine} {i : Nat} {ptr : ThreadPtr} {hook : HookCall}
    {inst : MachInst} {all : ThreadEnabledFault} (named : (m.contexts i).cpuName ≠ allcores)
    (global : m.fi.allthreads = some all)
    (counts : FetchSchedule.counted m.fi ⟨m.contexts i, ptr, hook, inst⟩ = true) :
    RunsLoop fuel m .fetch all (.fetch i ptr hook inst) := by
  have started : m.fi.modeOf ptr = some .start := by
    simp only [FetchSchedule.counted, Bool.and_eq_true, decide_eq_true_eq] at counts
    exact counts.1.1.1
  obtain ⟨thread, object, _⟩ := live_of_started started
  have genuine : FetchSchedule.Genuine m.fi ⟨m.contexts i, ptr, hook, inst⟩ :=
    ⟨live_of_threadInfo object, named⟩
  obtain ⟨c, counters, equation⟩ := FetchSchedule.fetchFault_counted fuel genuine all global counts
  have counted : (all.increaseFetchedInstr (m.contexts i).cpuName).all.get .fetched =
      all.all.get .fetched + 1 :=
    counted_once named all .fetched rfl
  refine ⟨c, hook, inst, FetchSchedule.afterCount m.fi ⟨m.contexts i, ptr, hook, inst⟩ all, rfl,
    ⟨?_, ?_⟩, fun _ => rfl, ?_, ?_⟩
  · rw [counters]
    exact counted
  · rw [counters]
    have still : (all.count ⟨(m.contexts i).cpuName, .fetched⟩).all.get .ticks =
        all.all.get .ticks := by
      rw [count_all]
      simp [Event.amount]
    exact still
  · intro stuck
    have returned : fetchFault fuel (m.contexts i) ptr hook inst m.fi = none :=
      equation.trans stuck
    unfold makeCall
    dsimp only
    rw [returned]
    rfl
  · intro fi' value' fired looped
    have returned : fetchFault fuel (m.contexts i) ptr hook inst m.fi =
      some (fi', value', fired) := equation.trans looped
    have kept := fireLoop_faultsOnly _ _ _ _ _ _ looped
    refine ⟨⟨fi', m.contexts⟩, _, ?_, rfl, rfl, kept.allthreads, counted⟩
    unfold makeCall
    dsimp only
    rw [returned]
    rfl

theorem operand_runsLoop (fuel : Nat) {m : Machine} {stage : Stage} {call : Call} {i : Nat}
    {hook : HookCall} {all : ThreadEnabledFault} (value : StageValue stage.queue)
    (count : String → ThreadEnabledFault → ThreadEnabledFault) (later : stage ≠ .fetch)
    (processing : ∀ p, processes p call = (process stage.queue p value).isSome)
    (made : makeCall fuel m call =
      (operandFault stage.queue count fuel (m.contexts i) hook value m.fi).bind
        fun result => some ({ m with fi := result.1 }, result.2.2))
    (counted : (count (m.contexts i).cpuName all).all.get stage.counter =
      all.all.get stage.counter + 1)
    (global : m.fi.allthreads = some all)
    (counts : operandCounts m.fi (m.contexts i) hook = true) :
    RunsLoop fuel m stage all call := by
  obtain ⟨c, counters, stuck, returned⟩ :=
    operandFault_counted fuel stage.queue count value global counts
  refine ⟨c, hook, value,
    { m.fi with metadata := (getSignificance hook.pc hook.stale m.fi.metadata).2 }, rfl, ⟨?_, ?_⟩,
    processing, ?_, ?_⟩
  · rw [counters, if_neg later]
    exact (add_zero _).symm
  · rw [counters]
  · intro none'
    rw [made, stuck none']
    rfl
  · intro fi' value' fired looped
    obtain ⟨fi'', equation, store, global'⟩ := returned fi' value' fired looped
    refine ⟨⟨fi'', m.contexts⟩, _, ?_, store, rfl, global', counted⟩
    rw [made, equation]
    rfl

theorem own_call (fuel : Nat) {m : Machine} {stage : Stage} {call : Call}
    {all : ThreadEnabledFault} (named : ∀ i, (m.contexts i).cpuName ≠ allcores)
    (global : m.fi.allthreads = some all) (counts : countsFor m stage call = true) :
    RunsLoop fuel m stage all call := by
  unfold countsFor at counts
  split at counts
  · exact fetch_runsLoop fuel (named _) global counts
  · rename_i i hook operand
    exact operand_runsLoop fuel operand ThreadEnabledFault.increaseExecutedInstr (by decide)
      (fun _ => rfl) rfl (counted_once (named i) all .executed rfl) global counts
  · rename_i i hook operand
    exact operand_runsLoop fuel operand ThreadEnabledFault.increaseLoadStoreInstr (by decide)
      (fun _ => rfl) rfl (counted_once (named i) all .loadStore rfl) global counts
  · cases counts

/-- A call of the stage that is not counted changes nothing but the metadata
stream, and fires nothing. -/
theorem uncounted_call {fuel : Nat} {m next : Machine} {stage : Stage} {call : Call}
    {fired : List FaultPtr} (named : ∀ i, (m.contexts i).cpuName ≠ allcores)
    (made : makeCall fuel m call = some (next, fired)) (own : queueOf call = some stage.queue)
    (uncounted : countsFor m stage call = false) :
    (∃ metadata, next = ⟨{ m.fi with metadata := metadata }, m.contexts⟩) ∧ fired = [] := by
  cases stage with
  | fetch =>
      cases call with
      | fetch i ptr hook inst =>
          obtain ⟨⟨fi', inst', fired'⟩, returned, result⟩ := Option.bind_eq_some_iff.mp made
          cases result
          obtain ⟨thread, object, _⟩ := Option.bind_eq_some_iff.mp returned
          have genuine : FetchSchedule.Genuine m.fi ⟨m.contexts i, ptr, hook, inst⟩ :=
            ⟨live_of_threadInfo object, named i⟩
          obtain ⟨metadata, quiet⟩ := FetchSchedule.fetchFault_uncounted fuel genuine uncounted
          dsimp only at quiet
          rw [quiet] at returned
          cases returned
          exact ⟨⟨metadata, rfl⟩, rfl⟩
      | _ => cases own
  | execute =>
      cases call with
      | iew i hook operand =>
          obtain ⟨⟨fi', value', fired'⟩, returned, result⟩ := Option.bind_eq_some_iff.mp made
          cases result
          obtain ⟨⟨metadata, rfl⟩, rfl⟩ := operandFault_uncounted returned uncounted
          exact ⟨⟨metadata, rfl⟩, rfl⟩
      | _ => cases own
  | loadStore =>
      cases call with
      | lds i hook operand =>
          obtain ⟨⟨fi', value', fired'⟩, returned, result⟩ := Option.bind_eq_some_iff.mp made
          cases result
          obtain ⟨⟨metadata, rfl⟩, rfl⟩ := operandFault_uncounted returned uncounted
          exact ⟨⟨metadata, rfl⟩, rfl⟩
      | _ => cases own

theorem foreign_call_still {m : Machine} {stage : Stage} {call : Call}
    (foreign : queueOf call ≠ some stage.queue) : moved (call.event m) stage.counter = 0 := by
  cases stage <;> cases call <;>
    simp_all [queueOf, Stage.queue, Stage.counter, Call.event, moved, Event.amount]

structure NumberedRun where
  machine : Machine
  number : Nat

def numberedStep (fuel : Nat) (stage : Stage) (r : NumberedRun) (call : Call) :
    Option NumberedRun := do
  let (m, _) ← makeCall fuel r.machine call
  some ⟨m, if countsFor r.machine stage call then r.number + 1 else r.number⟩

def Gone (stage : Stage) (f : FaultPtr) (s : FaultStore) : Prop :=
  ∃ lists, Represents s lists ∧ lists stage.queue = [] ∧ ∀ q, f ∉ lists q

def DueNext (stage : Stage) (k : Nat) (all : ThreadEnabledFault) : Prop :=
  all.all.get stage.counter + (if stage = .fetch then 1 else 0) = BitVec.ofNat 64 k ∧
    all.all.ticks ||| BitVec.ofNat 64 k ≠ 0

structure Counted (stage : Stage) (all : ThreadEnabledFault) (m next : Machine) : Prop where
  contexts : next.contexts = m.contexts
  counter : ∃ all', next.fi.allthreads = some all' ∧
    all'.all.get stage.counter = all.all.get stage.counter + 1

def hitNumber (stage : Stage) (k : Nat) : Nat := if stage = .fetch then k else k + 1

/-- Where the fault stands: in its queue, as it was read, until it is hit, and
then in no queue. -/
structure Numbered (stage : Stage) (f : FaultPtr) (k : Nat) (p : InjectedFault)
    (r : NumberedRun) : Prop where
  named : ∀ i, (r.machine.contexts i).cpuName ≠ allcores
  global : ∃ all, r.machine.fi.allthreads = some all ∧
    all.all.get stage.counter = BitVec.ofNat 64 r.number
  waiting : r.number < hitNumber stage k → ∃ lists, Waiting stage f p lists r.machine.fi.store
  gone : hitNumber stage k ≤ r.number → ∃ lists, Represents r.machine.fi.store lists ∧
    lists stage.queue = [] ∧ ∀ q, f ∉ lists q

section Numbers

variable {fuel : Nat} {stage : Stage} {f : FaultPtr} {k : Nat} {p : InjectedFault}
  {r : NumberedRun} {call : Call}

theorem ofNat_eq_iff {x y : Nat} (below : x < 2 ^ 64) (below' : y < 2 ^ 64) :
    BitVec.ofNat 64 x = BitVec.ofNat 64 y ↔ x = y := by
  constructor
  · intro same
    have values := congrArg BitVec.toNat same
    rwa [BitVec.toNat_ofNat, BitVec.toNat_ofNat, Nat.mod_eq_of_lt below, Nat.mod_eq_of_lt below']
      at values
  · intro same
    rw [same]

theorem ofNat_ne_zero {x : Nat} (positive : 1 ≤ x) (below : x < 2 ^ 64) : BitVec.ofNat 64 x ≠ 0 := by
  intro zero
  have isZero : x = 0 := (ofNat_eq_iff below (by decide : 0 < 2 ^ 64)).mp zero
  omega

theorem reading_iff {number : Nat} (small : k < 2 ^ 64) (before : number < hitNumber stage k) :
    BitVec.ofNat 64 number + (if stage = .fetch then 1 else 0) = BitVec.ofNat 64 k ↔
      number + 1 = hitNumber stage k := by
  unfold hitNumber at before ⊢
  split
  · rename_i fetch
    rw [if_pos fetch] at before
    have next : BitVec.ofNat 64 number + 1 = BitVec.ofNat 64 (number + 1) := by
      rw [BitVec.ofNat_add]
      rfl
    rw [next, ofNat_eq_iff (by omega) small]
  · rename_i operand
    rw [if_neg operand] at before
    rw [add_zero, ofNat_eq_iff (by omega) small]
    omega

theorem Waiting.elsewhere {lists : StageQueue → List FaultPtr} {s : FaultStore}
    (waiting : Waiting stage f p lists s) {q : StageQueue} (other : q ≠ stage.queue) :
    f ∉ lists q := fun member => other (waiting.held.apart q stage.queue f member waiting.member)

theorem counted_waiting {m : Machine} {all : ThreadEnabledFault} (fault : InstFault stage k p)
    (enough : 2 ≤ fuel) (named : ∀ i, (m.contexts i).cpuName ≠ allcores)
    (global : m.fi.allthreads = some all) (counts : countsFor m stage call = true)
    (waits : ∃ lists, Waiting stage f p lists m.fi.store) :
    (DueNext stage k all →
      (processes (servicedFault k p) call = true → ∃ next,
        makeCall fuel m call = some (next, [f]) ∧ Counted stage all m next ∧
          Gone stage f next.fi.store) ∧
      (processes (servicedFault k p) call = false → makeCall fuel m call = none)) ∧
    (¬ DueNext stage k all → ∃ next, makeCall fuel m call = some (next, []) ∧
      Counted stage all m next ∧ ∃ lists, Waiting stage f p lists next.fi.store) := by
  obtain ⟨lists, waiting⟩ := waits
  obtain ⟨c, hook, value, fi, store, reads, processing, stuck, returned⟩ :=
    own_call fuel named global counts
  have waiting' := waiting
  rw [← store] at waiting'
  constructor
  · rintro ⟨read, ticking⟩
    -- this is the call in which the loop reads the count k
    have reached : c.allthreads.all.get stage.counter = BitVec.ofNat 64 k :=
      reads.counter.trans read
    have counting : Counting stage.queue c p := by
      rw [fault.counting_iff, reached, reads.ticks]
      exact ticking
    obtain ⟨aborts, hits⟩ := waiting'.fireLoop_hits hook value fault enough counting reached
    constructor
    · intro returns
      rw [processing] at returns
      obtain ⟨fi', value', looped, within⟩ := hits returns
      obtain ⟨next, all', made, store', contexts, global', counted⟩ :=
        returned fi' value' [f] looped
      refine ⟨next, made, ⟨contexts, all', global', counted⟩,
        Function.update lists stage.queue [], ?_, Function.update_self _ _ _, ?_⟩
      · rw [store']
        exact within.held
      · intro q
        by_cases own : q = stage.queue
        · rw [own, Function.update_self]
          exact List.not_mem_nil
        · rw [Function.update_of_ne own]
          exact waiting.elsewhere own
    · intro fails
      rw [processing] at fails
      exact stuck (aborts (Option.isNone_iff_eq_none.mp (by simpa using fails)))
  · intro notDue
    have scanned : scan fuel stage.queue c fi.store = some (fi.store, none) := by
      apply waiting'.scan_idle fault enough
      rintro ⟨reached, counting⟩
      rw [fault.counting_iff, reached, reads.ticks] at counting
      exact notDue ⟨reads.counter.symm.trans reached, counting⟩
    obtain ⟨next, all', made, store', contexts, global', counted⟩ :=
      returned fi value [] (fireLoop_nothing enough scanned)
    refine ⟨next, made, ⟨contexts, all', global', counted⟩, lists, ?_⟩
    rw [store', store]
    exact waiting

theorem counted_gone {m : Machine} {all : ThreadEnabledFault} (enough : 2 ≤ fuel)
    (named : ∀ i, (m.contexts i).cpuName ≠ allcores) (global : m.fi.allthreads = some all)
    (counts : countsFor m stage call = true) (gone : Gone stage f m.fi.store) :
    ∃ next, makeCall fuel m call = some (next, []) ∧ Counted stage all m next ∧
      Gone stage f next.fi.store := by
  obtain ⟨lists, held, vacant, absent⟩ := gone
  obtain ⟨c, hook, value, fi, store, _, _, _, returned⟩ :=
    own_call fuel named global counts
  have scanned : scan fuel stage.queue c fi.store = some (fi.store, none) := by
    rw [store]
    exact scan_empty held vacant enough
  obtain ⟨next, all', made, store', contexts, global', counted⟩ :=
    returned fi value [] (fireLoop_nothing enough scanned)
  refine ⟨next, made, ⟨contexts, all', global', counted⟩, lists, ?_, vacant, absent⟩
  rw [store', store]
  exact held

/-- The next number, when the call counted and left the fault where it is to be. -/
theorem Numbered.advance (numbered : Numbered stage f k p r) {next : Machine}
    {all : ThreadEnabledFault} (counted : Counted stage all r.machine next)
    (reading : all.all.get stage.counter = BitVec.ofNat 64 r.number)
    (waiting : r.number + 1 < hitNumber stage k → ∃ lists, Waiting stage f p lists next.fi.store)
    (gone : hitNumber stage k ≤ r.number + 1 → Gone stage f next.fi.store) :
    Numbered stage f k p ⟨next, r.number + 1⟩ := by
  obtain ⟨all', global, count⟩ := counted.counter
  refine ⟨?_, ⟨all', global, ?_⟩, waiting, gone⟩
  · dsimp only
    rw [counted.contexts]
    exact numbered.named
  · rw [count, reading, BitVec.ofNat_add]
    rfl

/-- A counted event of the stage fires the fault if it is the one to be hit, and
nothing otherwise. -/
theorem Numbered.counted_call (numbered : Numbered stage f k p r) (fault : InstFault stage k p)
    (enough : 2 ≤ fuel) (first : 1 ≤ k) (small : k < 2 ^ 64)
    (counts : countsFor r.machine stage call = true) :
    (r.number + 1 = hitNumber stage k →
      (processes (servicedFault k p) call = true → ∃ next,
        makeCall fuel r.machine call = some (next, [f]) ∧
          Numbered stage f k p ⟨next, r.number + 1⟩) ∧
      (processes (servicedFault k p) call = false → makeCall fuel r.machine call = none)) ∧
    (r.number + 1 ≠ hitNumber stage k → ∃ next, makeCall fuel r.machine call = some (next, []) ∧
      Numbered stage f k p ⟨next, r.number + 1⟩) := by
  obtain ⟨all, global, reading⟩ := numbered.global
  have positive : BitVec.ofNat 64 k ≠ 0 := ofNat_ne_zero first small
  have ticking : all.all.ticks ||| BitVec.ofNat 64 k ≠ 0 :=
    fun zero => positive (BitVec.or_eq_zero_iff.mp zero).2
  by_cases before : r.number < hitNumber stage k
  · have due : DueNext stage k all ↔ r.number + 1 = hitNumber stage k := by
      unfold DueNext
      rw [reading, reading_iff small before]
      exact and_iff_left ticking
    obtain ⟨hit, pass⟩ := counted_waiting fault enough numbered.named global counts
      (numbered.waiting before)
    constructor
    · intro here
      obtain ⟨fires, stops⟩ := hit (due.mpr here)
      refine ⟨fun returns => ?_, stops⟩
      obtain ⟨next, made, counted, gone⟩ := fires returns
      exact ⟨next, made, numbered.advance counted reading (fun early => by omega) (fun _ => gone)⟩
    · intro notHere
      obtain ⟨next, made, counted, waiting⟩ := pass (fun isDue => notHere (due.mp isDue))
      exact ⟨next, made, numbered.advance counted reading (fun _ => waiting)
        (fun late => by omega)⟩
  · refine ⟨fun here => by omega, fun _ => ?_⟩
    obtain ⟨next, made, counted, gone⟩ :=
      counted_gone enough numbered.named global counts (numbered.gone (by omega))
    exact ⟨next, made, numbered.advance counted reading (fun early => by omega) (fun _ => gone)⟩

/-- A call that is no counted event of the stage leaves the counter and the fault
where they are. -/
structure Undisturbed (stage : Stage) (f : FaultPtr) (p : InjectedFault) (m next : Machine)
    (fired : List FaultPtr) : Prop where
  contexts : next.contexts = m.contexts
  counter : ∀ all, m.fi.allthreads = some all → ∃ all', next.fi.allthreads = some all' ∧
    all'.all.get stage.counter = all.all.get stage.counter
  waiting : (∃ lists, Waiting stage f p lists m.fi.store) →
    f ∉ fired ∧ ∃ lists, Waiting stage f p lists next.fi.store
  gone : Gone stage f m.fi.store → f ∉ fired ∧ Gone stage f next.fi.store

theorem uncounted_undisturbed {m next : Machine} {fired : List FaultPtr}
    (named : ∀ i, (m.contexts i).cpuName ≠ allcores)
    (made : makeCall fuel m call = some (next, fired)) (works : ∀ action, call ≠ .control action)
    (uncounted : countsFor m stage call = false) : Undisturbed stage f p m next fired := by
  by_cases own : queueOf call = some stage.queue
  · obtain ⟨⟨metadata, rfl⟩, rfl⟩ := uncounted_call named made own uncounted
    exact ⟨rfl, fun all global => ⟨all, global, rfl⟩, fun waiting => ⟨List.not_mem_nil, waiting⟩,
      fun gone => ⟨List.not_mem_nil, gone⟩⟩
  · obtain ⟨contexts, effect⟩ := makeCall_counts made works
    -- the call works within a queue other than that of the fault
    have elsewhere : ∀ lists, Represents m.fi.store lists →
        (∀ q, q ≠ stage.queue → f ∉ lists q) → f ∉ fired ∧
          ∃ lists', Represents next.fi.store lists' ∧
            lists' stage.queue = lists stage.queue ∧ (∀ q, q ≠ stage.queue → f ∉ lists' q) ∧
            next.fi.store.mem f = m.fi.store.mem f := by
      intro lists held absent
      rcases makeCall_within held made works with ⟨_, same, rfl⟩ | ⟨q, isQ, ⟨lists', within⟩, members⟩
      · rw [same]
        exact ⟨List.not_mem_nil, lists, held, rfl, absent, rfl⟩
      · have other : q ≠ stage.queue := fun same => own (same ▸ isQ)
        refine ⟨fun isFired => absent q other (members f isFired), lists', within.held,
          within.others _ (Ne.symm other), ?_, within.untouched f (absent q other)⟩
        intro q' other' member
        by_cases same : q' = q
        · exact absent q' other' (same ▸ within.fewer f (same ▸ member))
        · rw [within.others q' same] at member
          exact absent q' other' member
    refine ⟨contexts, ?_, ?_, ?_⟩
    · intro all global
      rcases effect with ⟨metadata, same⟩ | ⟨ptr, counts⟩
      · rw [same]
        exact ⟨all, global, rfl⟩
      · obtain ⟨all', before, after⟩ := counts.allthreads
        rw [global] at before
        cases before
        refine ⟨_, after, ?_⟩
        rw [counted_all, foreign_call_still own, add_zero]
    · rintro ⟨lists, waiting⟩
      obtain ⟨notFired, lists', held, sameList, _, sameFault⟩ :=
        elsewhere lists waiting.held (fun q other => waiting.elsewhere other)
      exact ⟨notFired, lists', held, sameList.trans waiting.alone, sameFault.trans waiting.fault⟩
    · rintro ⟨lists, held, vacant, absent⟩
      obtain ⟨notFired, lists', held', sameList, absent', _⟩ :=
        elsewhere lists held (fun q _ => absent q)
      have vacant' := sameList.trans vacant
      refine ⟨notFired, lists', held', vacant', ?_⟩
      intro q
      by_cases isOwn : q = stage.queue
      · rw [isOwn, vacant']
        exact List.not_mem_nil
      · exact absent' q isOwn

theorem Numbered.other_call (numbered : Numbered stage f k p r) {next : Machine}
    {fired : List FaultPtr} (made : makeCall fuel r.machine call = some (next, fired))
    (works : ∀ action, call ≠ .control action)
    (uncounted : countsFor r.machine stage call = false) :
    Numbered stage f k p ⟨next, r.number⟩ ∧ f ∉ fired := by
  obtain ⟨all, global, reading⟩ := numbered.global
  have undisturbed : Undisturbed stage f p r.machine next fired :=
    uncounted_undisturbed numbered.named made works uncounted
  have named : ∀ i, (next.contexts i).cpuName ≠ allcores := by
    rw [undisturbed.contexts]
    exact numbered.named
  obtain ⟨all', global', same⟩ := undisturbed.counter all global
  have still : ∃ all, next.fi.allthreads = some all ∧
      all.all.get stage.counter = BitVec.ofNat 64 r.number := ⟨all', global', same.trans reading⟩
  by_cases before : r.number < hitNumber stage k
  · obtain ⟨notFired, waiting⟩ := undisturbed.waiting (numbered.waiting before)
    refine ⟨⟨named, still, fun _ => waiting, fun late => ?_⟩, notFired⟩
    dsimp only at late
    omega
  · obtain ⟨notFired, gone⟩ := undisturbed.gone (numbered.gone (by omega))
    exact ⟨⟨named, still, fun early => absurd early before, fun _ => gone⟩, notFired⟩

theorem numberedStep_numbered {next : NumberedRun} (fault : InstFault stage k p)
    (enough : 2 ≤ fuel) (first : 1 ≤ k) (small : k < 2 ^ 64) (numbered : Numbered stage f k p r)
    (works : ∀ action, call ≠ .control action)
    (stepped : numberedStep fuel stage r call = some next) : Numbered stage f k p next := by
  obtain ⟨⟨m, fired⟩, made, result⟩ := Option.bind_eq_some_iff.mp stepped
  cases result
  cases counts : countsFor r.machine stage call with
  | false => exact (numbered.other_call made works counts).1
  | true =>
      obtain ⟨hit, pass⟩ := numbered.counted_call fault enough first small counts
      by_cases here : r.number + 1 = hitNumber stage k
      · cases returns : processes (servicedFault k p) call with
        | true =>
            obtain ⟨after, made', kept⟩ := (hit here).1 returns
            rw [made'] at made
            cases made
            exact kept
        | false =>
            rw [(hit here).2 returns] at made
            cases made
      · obtain ⟨after, made', kept⟩ := pass here
        rw [made'] at made
        cases made
        exact kept

end Numbers

/-- `condition` relates the state before each call of a run to the call. -/
def EachCall (fuel : Nat) (stage : Stage) (condition : NumberedRun → Call → Prop)
    (calls : List Call) (start : NumberedRun) : Prop :=
  ∀ before call after r, calls = before ++ call :: after →
    run (numberedStep fuel stage) before start = some r → condition r call

/-- The fault, whose data is `p` then, hits the event number `n` of its stage,
unless its process does not return there, and it hits no other. -/
structure HitsNumber (fuel : Nat) (stage : Stage) (f : FaultPtr) (n : Nat) (p : InjectedFault)
    (r : NumberedRun) (call : Call) : Prop where
  nth : countsFor r.machine stage call = true → r.number + 1 = n →
    (processes p call = true → ∃ next, makeCall fuel r.machine call = some (next, [f])) ∧
    (processes p call = false → makeCall fuel r.machine call = none)
  others : ¬ (countsFor r.machine stage call = true ∧ r.number + 1 = n) →
    ∀ next fired, makeCall fuel r.machine call = some (next, fired) → f ∉ fired

def NotKth (stage : Stage) (k : Nat) (r : NumberedRun) (call : Call) : Prop :=
  -- the call is not the counted event number `k` of the stage
  countsFor r.machine stage call = true → r.number + 1 ≠ k

section Runs

variable {fuel : Nat} {stage : Stage} {f : FaultPtr} {k : Nat} {p : InjectedFault}
  {start : NumberedRun} {calls : List Call}

theorem EachCall.initial {condition : NumberedRun → Call → Prop} {before after : List Call}
    (each : EachCall fuel stage condition (before ++ after) start) :
    EachStep (numberedStep fuel stage) condition before start := by
  intro first call rest r next split ran _
  apply each first call (rest ++ after) r _ ran
  rw [split]
  simp

theorem run_numbered (fault : InstFault stage k p) (enough : 2 ≤ fuel) (first : 1 ≤ k)
    (small : k < 2 ^ 64) (works : ∀ call ∈ calls, ∀ action, call ≠ .control action)
    (numbered : Numbered stage f k p start) {r : NumberedRun}
    (ran : run (numberedStep fuel stage) calls start = some r) : Numbered stage f k p r := by
  have preserves : ∀ state call next, Numbered stage f k p state →
      (∀ action, call ≠ .control action) → numberedStep fuel stage state call = some next →
        Numbered stage f k p next := by
    intro state call next held working stepped
    exact numberedStep_numbered fault enough first small held working stepped
  have each : EachStep (numberedStep fuel stage) (fun _ call => ∀ action, call ≠ .control action)
      calls start := by
    intro before call after state next split _ _
    exact works call (by rw [split]; simp)
  exact run_preserves preserves calls start r numbered each ran

theorem run_below {r : NumberedRun} (below : start.number < k)
    (notKth : EachStep (numberedStep fuel stage) (NotKth stage k) calls start)
    (ran : run (numberedStep fuel stage) calls start = some r) : r.number < k := by
  have preserves : ∀ state call next, state.number < k → NotKth stage k state call →
      numberedStep fuel stage state call = some next → next.number < k := by
    intro state call next held passes stepped
    obtain ⟨⟨m, fired⟩, _, result⟩ := Option.bind_eq_some_iff.mp stepped
    cases result
    dsimp only
    split
    · rename_i counts
      have differs := passes counts
      omega
    · exact held
  exact run_preserves preserves calls start r below notKth ran

/-- What the code does: the fault hits the event number `hitNumber`. -/
theorem Numbered.hits (numbered : Numbered stage f k p start) (fault : InstFault stage k p)
    (enough : 2 ≤ fuel) (first : 1 ≤ k) (small : k < 2 ^ 64) {call : Call}
    (works : ∀ action, call ≠ .control action) :
    HitsNumber fuel stage f (hitNumber stage k) (servicedFault k p) start call := by
  constructor
  · intro counts here
    obtain ⟨hit, _⟩ := numbered.counted_call fault enough first small counts
    refine ⟨fun returns => ?_, (hit here).2⟩
    obtain ⟨next, made, _⟩ := (hit here).1 returns
    exact ⟨next, made⟩
  · intro notHere next fired made
    cases counts : countsFor start.machine stage call with
    | false => exact (numbered.other_call made works counts).2
    | true =>
        obtain ⟨_, pass⟩ := numbered.counted_call fault enough first small counts
        obtain ⟨next', made', _⟩ := pass (fun here => notHere ⟨counts, here⟩)
        rw [made'] at made
        cases made
        exact List.not_mem_nil

end Runs

/-- In every run of hooks and ticks, a fault Inst:k that is alone in its queue
hits the k-th counted event of its stage exactly when the stage is fetch, or the
run does not come to that event: an execute or load/store fault hits the event
after it. -/
theorem stage_numbering_iff (fuel : Nat) (stage : Stage) (f : FaultPtr) (k : Nat)
    (start : NumberedRun) (calls : List Call) (lists : StageQueue → List FaultPtr)
    (enough : 2 ≤ fuel) (first : 1 ≤ k) (small : k < 2 ^ 64)
    (held : Represents start.machine.fi.store lists) (alone : lists stage.queue = [f])
    (fault : InstFault stage k (start.machine.fi.store.mem f))
    (named : ∀ i, (start.machine.contexts i).cpuName ≠ allcores)
    (global : ∃ all, start.machine.fi.allthreads = some all ∧
      all.all.get stage.counter = BitVec.ofNat 64 start.number)
    (ahead : start.number < k) (works : ∀ call ∈ calls, ∀ action, call ≠ .control action) :
    EachCall fuel stage
        (HitsNumber fuel stage f k (servicedFault k (start.machine.fi.store.mem f))) calls start ↔
      stage = .fetch ∨ EachCall fuel stage (NotKth stage k) calls start := by
  have numbered : Numbered stage f k (start.machine.fi.store.mem f) start := by
    refine ⟨named, global, fun _ => ⟨lists, held, alone, rfl⟩, fun late => ?_⟩
    unfold hitNumber at late
    split at late <;> omega
  have reached : ∀ before call after r, calls = before ++ call :: after →
      run (numberedStep fuel stage) before start = some r →
      Numbered stage f k (start.machine.fi.store.mem f) r ∧ ∀ action, call ≠ .control action := by
    intro before call after r split ran
    refine ⟨run_numbered fault enough first small ?_ numbered ran, ?_⟩
    · intro other member
      exact works other (by rw [split]; exact List.mem_append_left _ member)
    · exact works call (by rw [split]; simp)
  constructor
  · intro hitsK
    by_cases isFetch : stage = .fetch
    · exact Or.inl isFetch
    · refine Or.inr fun before call after r split ran counts here => ?_
      obtain ⟨numbered', _⟩ := reached before call after r split ran
      have late : r.number + 1 ≠ hitNumber stage k := by
        unfold hitNumber
        rw [if_neg isFetch]
        omega
      obtain ⟨next, made, _⟩ :=
        (numbered'.counted_call fault enough first small counts).2 late
      obtain ⟨returns, fails⟩ := (hitsK before call after r split ran).nth counts here
      rw [made] at returns fails
      cases returned : processes (servicedFault k (start.machine.fi.store.mem f)) call with
      | true =>
          obtain ⟨next', same⟩ := returns returned
          cases same
      | false => cases fails returned
  · rintro (isFetch | notKth) before call after r split ran
    · obtain ⟨numbered', working⟩ := reached before call after r split ran
      have hits := numbered'.hits fault enough first small working
      rwa [hitNumber, if_pos isFetch] at hits
    · obtain ⟨numbered', working⟩ := reached before call after r split ran
      have below : r.number < k := by
        subst split
        exact run_below ahead notKth.initial ran
      have hits := numbered'.hits fault enough first small working
      refine ⟨fun counts here => absurd here (notKth before call after r split ran counts), ?_⟩
      intro notHere next fired made
      apply hits.others _ next fired made
      rintro ⟨counts, here⟩
      unfold hitNumber at here
      split at here
      · exact notHere ⟨counts, here⟩
      · omega

def firstEventRecord (faultType : FaultType) : FaultRecord :=
  ⟨faultType, .instruction, .flipBit, 1, 1, "all", "all", 1, .src, 0, 0⟩

def numberedStart (faultType : FaultType) : NumberedRun where
  machine := ⟨(startedWith (firstEventRecord faultType)).1,
    fun _ => (startedWith (firstEventRecord faultType)).2⟩
  number := 0

def firstFetchCall : Call := .fetch 0 0 ⟨0x40, 0, 1000, 0⟩ 0x47ff041f

def operandCall : Call := .iew 0 ⟨0x40, 0, 1000, 0⟩ (.uint64 5)

theorem first_fetch_hit :
    EachCall 9 .fetch (HitsNumber 9 .fetch 0 1
      (servicedFault 1 ((numberedStart .generalFetch).machine.fi.store.mem 0))) [firstFetchCall]
      (numberedStart .generalFetch) := by
  have held : Represents (numberedStart .generalFetch).machine.fi.store
      (Function.update (fun _ => []) .fetchStage [0]) := by
    refine ⟨fun q => ?_, fun q r p => ?_, fun q p => ?_⟩
    · cases q with
      | fetchStage => exact ⟨⟨rfl, rfl⟩, ⟨rfl, rfl⟩⟩
      | _ => exact Linked.nil
    · cases q <;> cases r <;> simp
    · cases q with
      | fetchStage =>
          intro member
          rw [List.mem_singleton.mp member]
          rfl
      | _ => simp
  refine (stage_numbering_iff 9 .fetch 0 1 (numberedStart .generalFetch) [firstFetchCall]
    (Function.update (fun _ => []) .fetchStage [0]) (by decide) (by decide) (by decide) held rfl
    ?_ ?_ ⟨_, rfl, rfl⟩ (by decide) ?_).mpr (Or.inl rfl)
  · constructor <;> rfl
  · intro i same
    have differs : "system.cpu" ≠ allcores := by decide
    exact differs same
  · intro call member action
    rw [List.mem_singleton.mp member]
    exact Call.noConfusion

/-- The first counted operand is not hit by Inst:1, the second is. -/
theorem execute_fault_hits_next_event :
    (∃ next, makeCall 9 (numberedStart .execution).machine operandCall = some (next, []) ∧
      (makeCall 9 next operandCall).map Prod.snd = some [0]) ∧
    ¬ EachCall 9 .execute (HitsNumber 9 .execute 0 1
        (servicedFault 1 ((numberedStart .execution).machine.fi.store.mem 0)))
        [operandCall, operandCall] (numberedStart .execution) := by
  refine ⟨⟨_, rfl, rfl⟩, fun hits => ?_⟩
  have first := (hits [] operandCall [operandCall] _ rfl rfl).nth rfl rfl
  obtain ⟨next, made⟩ := first.1 rfl
  have fired : some [] = some [0] := congrArg (Option.map Prod.snd) made
  cases fired

end GemFi.StageNumbering
