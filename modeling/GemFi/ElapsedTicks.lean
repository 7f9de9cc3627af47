import GemFi.ClockedObjects
import GemFi.Cycles
import GemFi.GlobalTotals

/-!
The tick counters against simulated time. Both CPU models pass
`clockEdge(Cycles(1))` of their ClockedObject to increaseTicks when a cycle
begins: the absolute tick of the next clock edge but one, where the length of a
cycle is meant. The atomic CPU also charges the latency of the cycle when it
ends.
-/

namespace GemFi.ElapsedTicks

open ThreadInfo Transitions FaultQueue Corruption FaultScan Activation Activation.FiSystem Hooks
open Calls GlobalTotals Cycles ClockedObjects

inductive StageCall where
  | main (hook : HookCall)
  | fetch (hook : HookCall) (inst : MachInst)
  | decode (hook : HookCall) (inst : StaticInst)
  | iew (hook : HookCall) (operand : Operand)
  | lds (hook : HookCall) (operand : Operand)

def StageCall.action (i : Nat) : StageCall → Action
  | .main hook => .main i hook
  | .fetch hook inst => .fetch i hook inst
  | .decode hook inst => .decode i hook inst
  | .iew hook operand => .iew i hook operand
  | .lds hook operand => .lds i hook operand

structure ClockedCpu where
  -- a CPU with its clock; `begun` counts the cycles
  processor : Processor
  clock : ClockedObject
  begun : Nat

/-- `aligns` is any other use of the clock, which may move the edge cache. -/
inductive CpuAction where
  | aligns (curTick : Word)
  | begins (model : CpuModel) (curTick : Word)
  | calls (call : StageCall)
  | ends (latency : Word)
  | leaves

def cycleLatency (period latency : Word) : Word := if latency < period then period else latency

def cpuStep (fuel i : Nat) (period : Word) (r : ClockedCpu) : CpuAction → Option ClockedCpu
  -- what the CPU that runs context `i` does, at a constant clock period
  | .aligns curTick => some { r with clock := r.clock.update curTick period }
  | .begins model curTick => do
      let (clock, edge) := r.clock.clockEdge curTick period 1
      let processor ← r.processor.step fuel (.beginCycle i model edge)
      some ⟨processor, clock, r.begun + 1⟩
  | .calls call => do
      let processor ← r.processor.step fuel (call.action i)
      some { r with processor := processor }
  | .ends latency => do
      let processor ← r.processor.step fuel (.endCycle i (cycleLatency period latency))
      some { r with processor := processor }
  | .leaves => do
      let processor ← r.processor.step fuel (.leaveCycle i)
      some { r with processor := processor }

def ticksOf (ptr : ThreadPtr) (s : Processor) : Option Word :=
  (s.machine.fi.threadInfo ptr).map fun t => t.all.get .ticks

/-- The counter has moved by one period for each cycle. -/
def TicksElapsed (ptr : ThreadPtr) (period base : Word) (r : ClockedCpu) : Prop :=
  ticksOf ptr r.processor = some (base + BitVec.ofNat 64 r.begun * period)

/-- Cycles are begun for the thread `ptr`: fault injection is on, in user mode,
and the context is enabled for it. -/
def ActiveUser (i : Nat) (ptr : ThreadPtr) (r : ClockedCpu) : CpuAction → Prop
  | .begins _ _ =>
      gateOpen r.processor.machine.fi (r.processor.machine.contexts i) ∧
        (r.processor.machine.contexts i).enabledFI = true ∧
        (r.processor.machine.contexts i).fiThread = some ptr
  | _ => True

def OnTime (i : Nat) (period : Word) (r : ClockedCpu) : CpuAction → Prop
  -- a cycle begins when the next clock edge is tick zero, and the cycle that ends is not one of the
  -- atomic CPU
  | .begins _ curTick => (r.clock.update curTick period).tick = 0
  | .ends _ => ∀ cycle, r.processor.cycles i = some cycle → cycle.model = .o3
  | _ => True

structure Runs (i : Nat) (ptr : ThreadPtr) (r : ClockedCpu) : Prop where
  -- the CPU has a name of its own, and a cycle in progress is one of `ptr`
  named : (r.processor.machine.contexts i).cpuName ≠ allcores
  cycle : ∀ cycle, r.processor.cycles i = some cycle →
    cycle.enabledFi = true ∧ cycle.currThread = some ptr

section Steps

variable {fuel i : Nat} {ptr : ThreadPtr} {s s' : Processor}

theorem perform_ticks {call : Call} (performed : s.perform fuel i call = some s')
    (hook : call.IsHook) :
    ticksOf ptr s' = ticksOf ptr s ∧ s'.machine.contexts = s.machine.contexts ∧
      s'.cycles = s.cycles := by
  obtain ⟨⟨m, fired⟩, made, result⟩ := Option.bind_eq_some_iff.mp performed
  cases result
  have works : ∀ action, call ≠ .control action := by
    rintro action rfl
    exact hook
  have still : moved (call.event s.machine) .ticks = 0 := by
    cases call with
    | control action => exact hook.elim
    | increaseTicks j p ticks => exact hook.elim
    | _ => simp [Call.event, moved, Event.amount]
  obtain ⟨contexts, quiet | ⟨other, counts⟩⟩ := makeCall_counts made works
  · obtain ⟨metadata, same⟩ := quiet
    refine ⟨?_, contexts, rfl⟩
    unfold ticksOf
    dsimp only
    rw [same]
    rfl
  · refine ⟨?_, contexts, rfl⟩
    unfold ticksOf
    dsimp only
    rw [counter_counts counts ptr .ticks, still]
    simp

theorem performFor_hook_ticks {guard : Bool} {thread : Option ThreadPtr} {call : ThreadPtr → Call}
    (performed : s.performFor fuel i guard thread call = some s') (hooks : ∀ p, (call p).IsHook) :
    ticksOf ptr s' = ticksOf ptr s ∧ s'.machine.contexts = s.machine.contexts ∧
      s'.cycles = s.cycles := by
  unfold Processor.performFor at performed
  split at performed
  · obtain ⟨p, _, performed⟩ := Option.bind_eq_some_iff.mp performed
    exact perform_ticks performed (hooks p)
  · cases performed
    exact ⟨rfl, rfl, rfl⟩

theorem stageCall_ticks (call : StageCall) (stepped : s.step fuel (call.action i) = some s') :
    ticksOf ptr s' = ticksOf ptr s ∧ s'.machine.contexts = s.machine.contexts ∧
      s'.cycles = s.cycles := by
  cases call with
  | main hook =>
      obtain ⟨cycle, _, performed⟩ := Option.bind_eq_some_iff.mp stepped
      exact performFor_hook_ticks performed (fun _ => trivial)
  | fetch hook inst =>
      obtain ⟨cycle, _, performed⟩ := Option.bind_eq_some_iff.mp stepped
      exact performFor_hook_ticks performed (fun _ => trivial)
  | decode hook inst =>
      obtain ⟨cycle, _, performed⟩ := Option.bind_eq_some_iff.mp stepped
      exact performFor_hook_ticks performed (fun _ => trivial)
  | iew hook operand => exact perform_ticks stepped trivial
  | lds hook operand => exact perform_ticks stepped trivial

theorem performFor_charges {ticks : Word} (named : (s.machine.contexts i).cpuName ≠ allcores)
    (performed : s.performFor fuel i true (some ptr) (fun p => .increaseTicks i p ticks) =
      some s') :
    ticksOf ptr s' = (ticksOf ptr s).map (· + ticks) ∧
      s'.machine.contexts = s.machine.contexts ∧ s'.cycles = s.cycles := by
  obtain ⟨⟨m, fired⟩, made, result⟩ := Option.bind_eq_some_iff.mp performed
  obtain ⟨fi', counted, after⟩ := Option.bind_eq_some_iff.mp made
  cases after
  cases result
  have counts : Counts s.machine.fi ptr (some ⟨(s.machine.contexts i).cpuName, .ticks ticks⟩) fi' :=
    countBoth_counts (fun _ => rfl) counted
  refine ⟨?_, rfl, rfl⟩
  unfold ticksOf
  dsimp only
  rw [counter_counts counts ptr .ticks, Option.map_map]
  simp [moved, named, Event.amount, Function.comp_def]

theorem capture_active {model : CpuModel} {fi : FiSystem} {tc : ThreadContext} {enabledFi : Bool}
    {currThread : Option ThreadPtr} (open' : gateOpen fi tc) (enabled : tc.enabledFI = true)
    (thread : tc.fiThread = some ptr)
    (captured : capture model fi tc = some (enabledFi, currThread)) :
    enabledFi = true ∧ currThread = some ptr := by
  cases model with
  | atomic =>
      have guard : fi.fiEnable ≠ 0 ∧ fi.fullSystem = true ∧ inUserMode tc = true := open'
      simp only [capture, ContextAgreement.captureThread] at captured
      rw [if_pos guard, if_pos enabled] at captured
      split at captured
      · cases captured
      · split at captured
        · cases captured
        · cases captured
          exact ⟨rfl, thread⟩
  | o3 =>
      simp only [capture] at captured
      rw [if_pos open'] at captured
      cases captured
      exact ⟨enabled, thread⟩

/-- What each step does to the counter of the thread, to the cycle in progress
and to the number of cycles. -/
theorem cpuStep_ticks {period : Word} {r next : ClockedCpu} {action : CpuAction}
    (runs : Runs i ptr r) (active : ActiveUser i ptr r action)
    (stepped : cpuStep fuel i period r action = some next) :
    Runs i ptr next ∧ match action with
      | .begins _ curTick => next.begun = r.begun + 1 ∧ ticksOf ptr next.processor =
          (ticksOf ptr r.processor).map (· + ((r.clock.update curTick period).tick + period * 1))
      | .ends latency => next.begun = r.begun ∧ ∃ cycle, r.processor.cycles i = some cycle ∧
          ticksOf ptr next.processor = (ticksOf ptr r.processor).map
            (· + if cycle.model = .atomic then cycleLatency period latency else 0)
      | _ => next.begun = r.begun ∧ ticksOf ptr next.processor = ticksOf ptr r.processor := by
  cases action with
  | aligns curTick =>
      cases stepped
      exact ⟨⟨runs.named, runs.cycle⟩, rfl, rfl⟩
  | begins model curTick =>
      obtain ⟨s', moved', result⟩ := Option.bind_eq_some_iff.mp stepped
      cases result
      obtain ⟨⟨enabledFi, currThread⟩, read, performed⟩ := Option.bind_eq_some_iff.mp moved'
      obtain ⟨open', enabled, thread⟩ := active
      obtain ⟨rfl, rfl⟩ := capture_active open' enabled thread read
      obtain ⟨charged, contexts, cycles⟩ := performFor_charges (by exact runs.named) performed
      refine ⟨⟨?_, ?_⟩, rfl, ?_⟩
      · dsimp only
        rw [contexts]
        exact runs.named
      · intro cycle current
        dsimp only at current
        rw [cycles] at current
        simp only [Processor.setCycle, Function.update_self] at current
        cases current
        exact ⟨rfl, rfl⟩
      · exact charged
  | calls call =>
      obtain ⟨s', moved', result⟩ := Option.bind_eq_some_iff.mp stepped
      cases result
      obtain ⟨still, contexts, cycles⟩ := stageCall_ticks call moved'
      refine ⟨⟨?_, ?_⟩, rfl, still⟩
      · dsimp only
        rw [contexts]
        exact runs.named
      · dsimp only
        rw [cycles]
        exact runs.cycle
  | ends latency =>
      obtain ⟨s', moved', result⟩ := Option.bind_eq_some_iff.mp stepped
      cases result
      obtain ⟨cycle, current, rest⟩ := Option.bind_eq_some_iff.mp moved'
      obtain ⟨after, performed, result⟩ := Option.bind_eq_some_iff.mp rest
      cases result
      obtain ⟨enabled, thread⟩ := runs.cycle cycle current
      have idle : ∀ c, (after.setCycle i none).cycles i ≠ some c := by
        intro c current
        simp [Processor.setCycle] at current
      cases model : cycle.model with
      | atomic =>
          have guard : cycle.chargesLatency = true := by simp [Cycle.chargesLatency, model, enabled]
          rw [guard, thread] at performed
          obtain ⟨charged, contexts, _⟩ := performFor_charges runs.named performed
          refine ⟨⟨?_, fun c current => absurd current (idle c)⟩, rfl, cycle, current, ?_⟩
          · exact contexts ▸ runs.named
          · rw [model]
            exact charged
      | o3 =>
          -- the O3 CPU charges nothing when its cycle ends
          have guard : cycle.chargesLatency = false := by simp [Cycle.chargesLatency, model]
          rw [guard] at performed
          cases performed
          refine ⟨⟨runs.named, fun c current => absurd current (idle c)⟩, rfl, cycle, current, ?_⟩
          rw [model]
          simp [ticksOf, Processor.setCycle, Function.comp_def]
  | leaves =>
      cases stepped
      refine ⟨⟨runs.named, ?_⟩, rfl, rfl⟩
      intro cycle current
      simp [Processor.setCycle] at current

end Steps

section Elapsed

variable {fuel i : Nat} {ptr : ThreadPtr} {period base : Word} {r next : ClockedCpu}
  {action : CpuAction}

theorem map_add_some_iff (x y amount : Word) :
    (some x).map (· + amount) = some y ↔ x + amount = y := by
  simp

theorem cycleLatency_ne_zero (ticking : period ≠ 0) (latency : Word) :
    cycleLatency period latency ≠ 0 := by
  unfold cycleLatency
  split
  · exact ticking
  · rename_i long
    rintro rfl
    exact long ((BitVec.pos_iff_ne_zero period).mpr ticking)

theorem cpuStep_elapsed_iff (ticking : period ≠ 0) (runs : Runs i ptr r)
    (active : ActiveUser i ptr r action) (elapsed : TicksElapsed ptr period base r)
    (stepped : cpuStep fuel i period r action = some next) :
    TicksElapsed ptr period base next ↔ OnTime i period r action := by
  obtain ⟨_, effect⟩ := cpuStep_ticks runs active stepped
  unfold TicksElapsed at elapsed ⊢
  cases action with
  | aligns curTick =>
      obtain ⟨begun, ticks⟩ := effect
      rw [begun, ticks]
      exact iff_of_true elapsed True.intro
  | calls call =>
      obtain ⟨begun, ticks⟩ := effect
      rw [begun, ticks]
      exact iff_of_true elapsed True.intro
  | leaves =>
      obtain ⟨begun, ticks⟩ := effect
      rw [begun, ticks]
      exact iff_of_true elapsed True.intro
  | begins model curTick =>
      obtain ⟨begun, ticks⟩ := effect
      -- clockEdge adds the tick of the clock to the period that is due
      have oneMore : BitVec.ofNat 64 (r.begun + 1) * period =
          BitVec.ofNat 64 r.begun * period + period := by
        rw [BitVec.ofNat_add, add_mul, BitVec.one_mul]
      rw [begun, ticks, elapsed, map_add_some_iff, oneMore, mul_one, ← add_assoc, ← add_assoc]
      constructor
      · intro same
        exact add_eq_left.mp (add_right_cancel same)
      · intro zero
        change (r.clock.update curTick period).tick = 0 at zero
        rw [zero, add_zero]
  | ends latency =>
      obtain ⟨begun, cycle, current, ticks⟩ := effect
      rw [begun, ticks, elapsed, map_add_some_iff, add_eq_left]
      constructor
      · intro nothing other isCurrent
        rw [current] at isCurrent
        cases isCurrent
        cases model : cycle.model with
        | atomic =>
            rw [if_pos model] at nothing
            -- the latency comes on top of the charge at the begin of the cycle
            exact absurd nothing (cycleLatency_ne_zero ticking latency)
        | o3 => rfl
      · intro onTime
        have o3 : cycle.model = .o3 := onTime cycle current
        rw [if_neg (by rw [o3]; decide)]

/-- A run in which every cycle is one of the active thread `ptr`, from the state
in which its counter reads `base` and no cycle is in progress. -/
structure ActiveRun (fuel i : Nat) (ptr : ThreadPtr) (period base : Word) (start : ClockedCpu)
    (actions : List CpuAction) : Prop where
  named : (start.processor.machine.contexts i).cpuName ≠ allcores
  idle : start.processor.cycles i = none
  fresh : start.begun = 0
  counter : ticksOf ptr start.processor = some base
  active : EachStep (cpuStep fuel i period) (ActiveUser i ptr) actions start

theorem active_run_elapsed_iff {start : ClockedCpu} {actions : List CpuAction}
    (ticking : period ≠ 0) (activated : ActiveRun fuel i ptr period base start actions) :
    Always (cpuStep fuel i period) (TicksElapsed ptr period base) actions start ↔
      EachStep (cpuStep fuel i period) (OnTime i period) actions start := by
  apply always_iff_eachStep_of_allowed (Runs i ptr) _ _ actions start _ _ activated.active
  · intro r action next runs active stepped
    exact (cpuStep_ticks runs active stepped).1
  · intro r action next runs active elapsed stepped
    exact cpuStep_elapsed_iff ticking runs active elapsed stepped
  · refine ⟨activated.named, fun cycle current => ?_⟩
    rw [activated.idle] at current
    cases current
  · unfold TicksElapsed
    rw [activated.counter, activated.fresh]
    simp

/-- The tick counter of a thread is one period for each cycle, in every state of
a run, exactly when every cycle begins with the clock at tick zero and none of
the atomic CPU is ended. Two runs on time that have begun as many cycles then
read the same counter, against which Tick faults are compared, whatever the
clocks of their CPUs were. -/
theorem tick_counter_elapsed_iff (fuel i : Nat) (ptr : ThreadPtr) (period base : Word)
    (start : ClockedCpu) (actions : List CpuAction) (ticking : period ≠ 0)
    (activated : ActiveRun fuel i ptr period base start actions) :
    (Always (cpuStep fuel i period) (TicksElapsed ptr period base) actions start ↔
      EachStep (cpuStep fuel i period) (OnTime i period) actions start) ∧
    ∀ otherStart others reached otherReached,
      ActiveRun fuel i ptr period base otherStart others →
      EachStep (cpuStep fuel i period) (OnTime i period) actions start →
      EachStep (cpuStep fuel i period) (OnTime i period) others otherStart →
      run (cpuStep fuel i period) actions start = some reached →
      run (cpuStep fuel i period) others otherStart = some otherReached →
      reached.begun = otherReached.begun →
      ticksOf ptr reached.processor = ticksOf ptr otherReached.processor := by
  refine ⟨active_run_elapsed_iff ticking activated, ?_⟩
  intro otherStart others reached otherReached otherActivated onTime otherOnTime ran otherRan same
  have elapsed := (active_run_elapsed_iff ticking activated).mpr onTime
  have otherElapsed := (active_run_elapsed_iff ticking otherActivated).mpr otherOnTime
  rw [elapsed actions [] reached (List.append_nil _).symm ran,
    otherElapsed others [] otherReached (List.append_nil _).symm otherRan, same]

end Elapsed

def startedCpu : ClockedCpu :=
  -- a CPU whose only thread has just been started
  let fi := (bootedMachine.fi.startFi (bootedMachine.contexts 0) 0).1
  let tc := (bootedMachine.fi.startFi (bootedMachine.contexts 0) 0).2
  ⟨⟨⟨fi, fun _ => tc⟩, fun _ => none, []⟩, ⟨0, 0⟩, 0⟩

theorem startedCpu_active (curTick : Word) :
    ActiveRun 9 0 0 500 0 startedCpu [.begins .o3 curTick] := by
  constructor
  · decide
  · rfl
  · rfl
  · rfl
  · rw [eachStep_cons_iff]
    intro next _
    have running : gateOpen startedCpu.processor.machine.fi
        (startedCpu.processor.machine.contexts 0) := by decide
    exact ⟨⟨running, rfl, rfl⟩, eachStep_nil _ _⟩

theorem cycle_at_zero_elapsed :
    Always (cpuStep 9 0 500) (TicksElapsed 0 500 0) [.begins .o3 0] startedCpu := by
  apply (tick_counter_elapsed_iff 9 0 0 500 0 startedCpu _ (by decide)
    (startedCpu_active 0)).1.mpr
  rw [eachStep_cons_iff]
  intro next _
  exact ⟨rfl, eachStep_nil _ _⟩

/-- The same cycle when the thread is started a little later: 1500 ticks are
added for the 500 that passed. -/
theorem later_cycle_counts_absolute_time :
    ¬ Always (cpuStep 9 0 500) (TicksElapsed 0 500 0) [.begins .o3 1000] startedCpu := by
  intro always
  have elapsed := always [.begins .o3 1000] [] _ rfl rfl
  revert elapsed
  unfold TicksElapsed
  decide

end GemFi.ElapsedTicks
