import GemFi.Calls

/-!
The counters of allthreads as totals. Every path that counts bumps the thread
and allthreads by the same amount, and start_fi adds objects that have counted
nothing; objects whose entry was erased keep what they counted.
-/

namespace GemFi.GlobalTotals

open AssocTotals ThreadInfo Transitions FaultQueue Corruption FaultScan Activation
open Activation.FiSystem Hooks Calls

def callStep (fuel : Nat) (m : Machine) (call : Call) : Option Machine :=
  (makeCall fuel m call).map Prod.fst

def globalCount (fi : FiSystem) (counter : Counter) : Word :=
  -- a counter of allthreads, which counts nothing before the first START creates it
  (fi.allthreads.map fun all => all.all.get counter).getD 0

def threadSum (fi : FiSystem) (counter : Counter) : Word :=
  (fi.threads.map fun t => t.info.all.get counter).sum

def GlobalsAreTotals (m : Machine) : Prop :=
  ∀ counter, globalCount m.fi counter = threadSum m.fi counter

variable {fuel : Nat} {m next : Machine} {fi fi' : FiSystem} {ptr : ThreadPtr}

def moved (event : Option CounterCall) (counter : Counter) : Word :=
  event.elim 0 fun call => call.event.amount counter +
    (if call.curCpu = allcores then call.event.amount counter else 0)

theorem counted_all (event : Option CounterCall) (t : ThreadEnabledFault) (counter : Counter) :
    (event.elim t t.count).all.get counter = t.all.get counter + moved event counter := by
  cases event with
  | none => exact (add_zero _).symm
  | some call =>
      rw [Option.elim_some, count_all, add_assoc]
      rfl

theorem threadSum_counts {event : Option CounterCall} (counts : Counts fi ptr event fi')
    (counter : Counter) : threadSum fi' counter = threadSum fi counter + moved event counter := by
  unfold GlobalTotals.threadSum
  rw [counts.threads]
  exact sum_map_modify _ _ _ (fun t => counted_all event t.info counter) _ _ counts.live

theorem globalCount_counts {event : Option CounterCall} (counts : Counts fi ptr event fi')
    (counter : Counter) :
    globalCount fi' counter = globalCount fi counter + moved event counter := by
  obtain ⟨all, before, after⟩ := counts.allthreads
  unfold GlobalTotals.globalCount
  rw [before, after]
  exact counted_all event all counter

theorem counter_counts {other : ThreadPtr} {event : Option CounterCall}
    (counts : Counts fi other event fi') (ptr : ThreadPtr) (counter : Counter) :
    (fi'.threadInfo ptr).map (fun t => t.all.get counter) =
      (fi.threadInfo ptr).map fun t =>
        t.all.get counter + if other = ptr then moved event counter else 0 := by
  unfold threadInfo
  rw [counts.threads, List.getElem?_modify]
  by_cases same : other = ptr
  · cases fi.threads[ptr]? <;> simp [same, counted_all]
  · cases fi.threads[ptr]? <;> simp [same]

theorem threadSum_updateThread (fi : FiSystem) (ptr : ThreadPtr)
    (change : ThreadEnabledFault → ThreadEnabledFault) (kept : ∀ t, (change t).all = t.all)
    (counter : Counter) :
    threadSum (fi.updateThread ptr change) counter = threadSum fi counter := by
  unfold threadSum updateThread
  congr 1
  apply List.ext_getElem?
  intro index
  simp only [List.getElem?_map, List.getElem?_modify]
  by_cases same : ptr = index
  · cases fi.threads[index]? <;> simp [same, kept]
  · cases fi.threads[index]? <;> simp [same]

theorem threadSum_setMode (fi : FiSystem) (ptr : ThreadPtr) (mode : FiCommand)
    (counter : Counter) : threadSum (fi.setMode ptr mode) counter = threadSum fi counter :=
  threadSum_updateThread fi ptr (fun t => { t with mode := some mode }) (fun _ => rfl) counter

theorem activate_totals (fi : FiSystem) (tc : ThreadContext) (threadid : Word) (counter : Counter) :
    globalCount (fi.activate tc threadid) counter = globalCount fi counter ∧
      threadSum (fi.activate tc threadid) counter = threadSum fi counter := by
  constructor
  · unfold globalCount activate
    cases fi.allthreads <;> simp [ThreadEnabledFault.new]
  · simp [threadSum, activate, ThreadEnabledFault.new]

theorem controlStep_totals {action : Control} (totals : GlobalsAreTotals m)
    (stepped : controlStep fuel m action = some next) : GlobalsAreTotals next := by
  intro counter
  cases controlStep_effect stepped with
  | created i threadid curTick unknown =>
      obtain ⟨global, sum⟩ := activate_totals m.fi (m.contexts i) threadid counter
      rw [global, sum]
      exact totals counter
  | resumed i threadid curTick ptr known wasPaused =>
      have kept := threadSum_setMode { m.fi with fiEnable := m.fi.fiEnable + 1 } ptr .start counter
      exact (totals counter).trans kept.symm
  | ignored i threadid curTick ptr known notPaused => exact totals counter
  | paused i threadid curTick ptr known =>
      have kept := threadSum_setMode { m.fi with fiEnable := m.fi.fiEnable - 1 } ptr .pause counter
      exact (totals counter).trans kept.symm
  | stopped i threadid curTick ptr known => exact totals counter
  | notActive i req threadid curTick pauseOrStop unknown => exact totals counter
  | dumped i threadid curTick =>
      have kept := totals counter
      unfold scheduleswitch
      split <;> exact kept
  | marked i pc =>
      dsimp only
      unfold FiSystem.getPcAddress
      split
      · exact totals counter
      · rename_i ptr known
        have kept := threadSum_updateThread m.fi ptr
          (fun t => { t with magicInstVirtualAddr := pc }) (fun _ => rfl) counter
        exact (totals counter).trans kept.symm
  | switched i val => exact totals counter
  | modeSet i dtbCm => exact totals counter
  | reloaded records fi returned =>
      obtain ⟨store, rfl⟩ := reset_frame returned
      exact totals counter

theorem callStep_totals {call : Call} (totals : GlobalsAreTotals m)
    (stepped : callStep fuel m call = some next) : GlobalsAreTotals next := by
  obtain ⟨⟨after, fired⟩, made, rfl⟩ := Option.map_eq_some_iff.mp stepped
  cases makeCall_effect made with
  | controlled action next controlled => exact controlStep_totals totals controlled
  | idle => exact totals
  | hooked _ i ptr fi' _ works effect =>
      cases effect with
      | quiet metadata => exact totals
      | active _ _ event started counts =>
          -- the sum and the global counter move by the same amount
          intro counter
          rw [globalCount_counts counts, threadSum_counts counts, totals counter]
  | ticked i ptr ticks fi' counts =>
      intro counter
      rw [globalCount_counts counts, threadSum_counts counts, totals counter]

/-- Whatever the order of requests, context switches and hooks on any contexts,
the counters of allthreads are the sums over all objects ever created. -/
theorem global_counters_are_totals (fuel : Nat) (m : Machine) (calls : List Call)
    (booted : Booted m.fi) : Always (callStep fuel) GlobalsAreTotals calls m := by
  have preserves : ∀ state call next, GlobalsAreTotals state → True →
      callStep fuel state call = some next → GlobalsAreTotals next :=
    fun _ _ _ totals _ stepped => callStep_totals totals stepped
  apply always_of_preserved preserves calls m
  · intro counter
    simp [globalCount, threadSum, booted.allthreads, booted.threads]
  · intro before action after reached next _ _ _
    trivial

/-- A thread that is stopped and started again has two objects, each of which has
fetched one instruction; the ticks of a CPU cycle come on top. -/
theorem restarted_thread_adds_up :
    Always (callStep 9) GlobalsAreTotals
      [.control (.request 0 .start 7 0), .fetch 0 0 ⟨0x40, 0, 500, 0⟩ 0,
        .increaseTicks 0 0 500, .control (.request 0 .stop 7 0),
        .control (.request 0 .start 7 0), .fetch 0 1 ⟨0x44, 0, 500, 0⟩ 0]
      bootedMachine :=
  global_counters_are_totals 9 bootedMachine _ bootedMachine_booted

end GemFi.GlobalTotals
