import GemFi.Calls
import GemFi.ContextAgreement

/-!
The CPU models as callers of Fi_System. AtomicSimpleCPU::tick and the fetch of
the O3 CPU read `enabled_fi` and `curr_thread` once, when the cycle begins, and
use these locals until it ends; requests, context switches and the operand hooks
of the executed instructions come in between. The atomic CPU charges the ticks
of a cycle at both ends, the O3 CPU at the beginning only.
-/

namespace GemFi.Cycles

open ThreadInfo FaultQueue Corruption FaultScan Activation Activation.FiSystem Hooks Calls
open ContextAgreement

inductive CpuModel where
  | atomic | o3
  deriving DecidableEq, Repr

structure Cycle where
  model : CpuModel
  enabledFi : Bool
  currThread : Option ThreadPtr

/-- `manifested` records each fault that was fired, with the PCB address of the
thread whose instruction or value it hit. -/
structure Processor where
  machine : Machine
  cycles : Nat → Option Cycle
  manifested : List (Addr × FaultPtr)

/-- The guard of both cycles: `fi_enable && FullSystem && inUserMode`. -/
def gateOpen (fi : FiSystem) (tc : ThreadContext) : Prop :=
  fi.fiEnable ≠ 0 ∧ fi.fullSystem = true ∧ inUserMode tc = true

instance (fi : FiSystem) (tc : ThreadContext) : Decidable (gateOpen fi tc) :=
  inferInstanceAs (Decidable (_ ∧ _ ∧ _))

def capture : CpuModel → FiSystem → ThreadContext → Option (Bool × Option ThreadPtr)
  -- what a cycle reads when it begins. Only the atomic CPU compares the thread with the entry of
  -- its PCB.
  | .atomic, fi, tc => captureThread fi tc
  | .o3, fi, tc => if gateOpen fi tc then some (tc.enabledFI, tc.fiThread) else some (false, none)

namespace Cycle

/-- `if(enabled_fi)` in the atomic CPU, `if(fi_system->fi_main)` in the O3 CPU. -/
def runsMain (cycle : Cycle) (fi : FiSystem) : Bool :=
  match cycle.model with
  | .atomic => cycle.enabledFi
  | .o3 => fi.gate .main

def runsDecode (cycle : Cycle) (fi : FiSystem) : Bool :=
  match cycle.model with
  | .atomic => cycle.enabledFi
  | .o3 => cycle.enabledFi && fi.gate .decodeStage

/-- Whether `increaseTicks` is called when the cycle ends. -/
def chargesLatency (cycle : Cycle) : Bool := decide (cycle.model = .atomic) && cycle.enabledFi

end Cycle

/-- `leaveCycle` is an early return of tick, before the latency is charged. -/
inductive Action where
  | control (action : Control)
  | beginCycle (i : Nat) (model : CpuModel) (clockEdge : Word)
  | main (i : Nat) (hook : HookCall)
  | fetch (i : Nat) (hook : HookCall) (inst : MachInst)
  | decode (i : Nat) (hook : HookCall) (inst : StaticInst)
  | iew (i : Nat) (hook : HookCall) (operand : Operand)
  | lds (i : Nat) (hook : HookCall) (operand : Operand)
  | endCycle (i : Nat) (latency : Word)
  | leaveCycle (i : Nat)

namespace Processor

def perform (fuel : Nat) (i : Nat) (call : Call) (s : Processor) : Option Processor := do
  let (m, fired) ← makeCall fuel s.machine call
  some { s with
    machine := m
    manifested := s.manifested ++ fired.map fun f => (getFiThread (s.machine.contexts i), f) }

def performFor (fuel : Nat) (i : Nat) (guard : Bool) (thread : Option ThreadPtr)
    (call : ThreadPtr → Call) (s : Processor) : Option Processor :=
  if guard then thread.bind fun ptr => s.perform fuel i (call ptr) else some s

def setCycle (s : Processor) (i : Nat) (cycle : Option Cycle) : Processor :=
  { s with cycles := Function.update s.cycles i cycle }

def step (fuel : Nat) (s : Processor) : Action → Option Processor
  | .control action => do
      let m ← controlStep fuel s.machine action
      some { s with machine := m }
  | .beginCycle i model clockEdge => do
      let (enabledFi, currThread) ← capture model s.machine.fi (s.machine.contexts i)
      -- the locals are set before the ticks are charged
      (s.setCycle i (some ⟨model, enabledFi, currThread⟩)).performFor fuel i enabledFi currThread
        fun ptr => .increaseTicks i ptr clockEdge
  | .main i hook => do
      let cycle ← s.cycles i
      s.performFor fuel i (cycle.runsMain s.machine.fi) cycle.currThread fun ptr =>
        .main i ptr hook
  | .fetch i hook inst => do
      let cycle ← s.cycles i
      s.performFor fuel i cycle.enabledFi cycle.currThread fun ptr => .fetch i ptr hook inst
  | .decode i hook inst => do
      let cycle ← s.cycles i
      s.performFor fuel i (cycle.runsDecode s.machine.fi) cycle.currThread fun ptr =>
        .decode i ptr hook inst
  -- the operand hooks ask the context, not the locals of the cycle
  | .iew i hook operand => s.perform fuel i (.iew i hook operand)
  | .lds i hook operand => s.perform fuel i (.lds i hook operand)
  | .endCycle i latency => do
      let cycle ← s.cycles i
      let s ← s.performFor fuel i cycle.chargesLatency cycle.currThread fun ptr =>
        .increaseTicks i ptr latency
      some (s.setCycle i none)
  | .leaveCycle i => some (s.setCycle i none)

/-- Context `i`, or the cycle in progress on it, has the object at `ptr` to work
for. -/
def WorksFor (s : Processor) (i : Nat) (ptr : ThreadPtr) : Prop :=
  (s.machine.contexts i).fiThread = some ptr ∨ (s.cycles i).bind Cycle.currThread = some ptr

/-- The step calls `increaseTicks` for the object at `ptr`. -/
def Charges (s : Processor) (ptr : ThreadPtr) : Action → Prop
  | .beginCycle i _ _ =>
      gateOpen s.machine.fi (s.machine.contexts i) ∧ (s.machine.contexts i).enabledFI = true ∧
        (s.machine.contexts i).fiThread = some ptr
  | .endCycle i _ =>
      ∃ cycle, s.cycles i = some cycle ∧ cycle.chargesLatency = true ∧
        cycle.currThread = some ptr
  | _ => False

end Processor

section Effects

open Processor

inductive StepEffect (fuel : Nat) (s : Processor) : Action → Processor → Prop where
  -- everything a step can do. Only a charge can work for an object that is not started.
  | controlled (action : Control) (m : Machine)
      (stepped : controlStep fuel s.machine action = some m) :
      StepEffect fuel s (.control action) { s with machine := m }
  | idle (action : Action) (cycles : Nat → Option Cycle)
      (captured : ∀ i ptr, (cycles i).bind Cycle.currThread = some ptr → s.WorksFor i ptr) :
      StepEffect fuel s action { s with cycles := cycles }
  | hooked (action : Action) (i : Nat) (ptr : ThreadPtr) (fi' : FiSystem) (fired : List FaultPtr)
      (works : s.WorksFor i ptr) (effect : HookEffect s.machine.fi ptr fi' fired) :
      StepEffect fuel s action { s with
        machine := ⟨fi', s.machine.contexts⟩
        manifested := s.manifested ++ fired.map fun f => (getFiThread (s.machine.contexts i), f) }
  | charged (action : Action) (i : Nat) (ptr : ThreadPtr) (event : Option CounterCall)
      (fi' : FiSystem) (cycles : Nat → Option Cycle) (works : s.WorksFor i ptr)
      (charges : s.Charges ptr action) (counts : Counts s.machine.fi ptr event fi')
      (captured : ∀ i ptr, (cycles i).bind Cycle.currThread = some ptr → s.WorksFor i ptr) :
      StepEffect fuel s action { s with machine := ⟨fi', s.machine.contexts⟩, cycles := cycles }

variable {fuel i : Nat} {s next : Processor} {action : Action}

theorem perform_hook {call : Call} (performed : s.perform fuel i call = some next)
    (hook : call.IsHook) (uses : ∀ j ptr, call.WorksFor s.machine j ptr → s.WorksFor i ptr) :
    StepEffect fuel s action next := by
  obtain ⟨⟨m, fired⟩, made, result⟩ := Option.bind_eq_some_iff.mp performed
  cases result
  cases makeCall_effect made with
  | controlled request _ _ => exact hook.elim
  | idle =>
      rw [List.map_nil, List.append_nil]
      exact .idle action s.cycles (fun _ _ => Or.inr)
  | hooked _ j ptr fi' _ works effect =>
      exact .hooked action i ptr fi' fired (uses j ptr works) effect
  | ticked j ptr ticks _ _ => exact hook.elim

theorem performFor_hook {cycle : Cycle} {guard : Bool} {call : ThreadPtr → Call}
    (current : s.cycles i = some cycle)
    (performed : s.performFor fuel i guard cycle.currThread call = some next)
    (hooks : ∀ ptr, (call ptr).IsHook)
    (uses : ∀ j ptr ptr', (call ptr).WorksFor s.machine j ptr' → ptr' = ptr) :
    StepEffect fuel s action next := by
  unfold performFor at performed
  split at performed
  · obtain ⟨ptr, thread, performed⟩ := Option.bind_eq_some_iff.mp performed
    refine perform_hook performed (hooks ptr) ?_
    intro j ptr' works
    rw [uses j ptr ptr' works]
    exact Or.inr (by rw [current]; exact thread)
  · cases performed
    exact .idle action s.cycles (fun _ _ => Or.inr)

theorem performFor_ticks {guard : Bool} {thread : Option ThreadPtr} {ticks : Word}
    (performed : s.performFor fuel i guard thread (fun ptr => .increaseTicks i ptr ticks) =
      some next) :
    next = s ∨ ∃ ptr event fi', guard = true ∧ thread = some ptr ∧
      Counts s.machine.fi ptr event fi' ∧
      next = { s with machine := ⟨fi', s.machine.contexts⟩ } := by
  unfold performFor at performed
  split at performed
  · rename_i guarded
    obtain ⟨ptr, points, performed⟩ := Option.bind_eq_some_iff.mp performed
    obtain ⟨⟨m, fired⟩, made, result⟩ := Option.bind_eq_some_iff.mp performed
    obtain ⟨fi', counted, after⟩ := Option.bind_eq_some_iff.mp made
    cases after
    cases result
    have counts : Counts s.machine.fi ptr (some ⟨_, .ticks ticks⟩) fi' :=
      countBoth_counts (fun _ => rfl) counted
    refine Or.inr ⟨ptr, _, fi', guarded, points, counts, ?_⟩
    rw [List.map_nil, List.append_nil]
  · cases performed
    exact Or.inl rfl

theorem capture_cases {model : CpuModel} {fi : FiSystem} {tc : ThreadContext} {enabledFi : Bool}
    {currThread : Option ThreadPtr}
    (captured : capture model fi tc = some (enabledFi, currThread)) :
    (enabledFi = true → gateOpen fi tc ∧ tc.enabledFI = true) ∧
      (currThread = none ∨ currThread = tc.fiThread) := by
  cases model with
  | atomic =>
      simp only [capture, captureThread] at captured
      split at captured
      · rename_i gate
        split at captured
        · rename_i enabled
          split at captured
          · cases captured
          · split at captured
            · cases captured
            · cases captured
              exact ⟨fun _ => ⟨gate, enabled⟩, Or.inr rfl⟩
        · cases captured
          exact ⟨nofun, Or.inr rfl⟩
      · cases captured
        exact ⟨nofun, Or.inl rfl⟩
  | o3 =>
      simp only [capture] at captured
      split at captured
      · rename_i gate
        cases captured
        exact ⟨fun enabled => ⟨gate, enabled⟩, Or.inr rfl⟩
      · cases captured
        exact ⟨nofun, Or.inl rfl⟩

theorem setCycle_captured (s : Processor) (i : Nat) (cycle : Option Cycle)
    (taken : ∀ ptr, cycle.bind Cycle.currThread = some ptr → s.WorksFor i ptr) (j : Nat)
    (ptr : ThreadPtr) (works : ((s.setCycle i cycle).cycles j).bind Cycle.currThread = some ptr) :
    s.WorksFor j ptr := by
  by_cases same : j = i
  · subst j
    simp only [setCycle, Function.update_self] at works
    exact taken ptr works
  · simp only [setCycle, Function.update_of_ne same] at works
    exact Or.inr works

theorem step_effect (stepped : s.step fuel action = some next) :
    StepEffect fuel s action next := by
  cases action with
  | control request =>
      obtain ⟨m, controlled, result⟩ := Option.bind_eq_some_iff.mp stepped
      cases result
      exact .controlled request m controlled
  | beginCycle i model clockEdge =>
      obtain ⟨⟨enabledFi, currThread⟩, read, performed⟩ := Option.bind_eq_some_iff.mp stepped
      obtain ⟨enabled, thread⟩ := capture_cases read
      have captured := setCycle_captured s i (some ⟨model, enabledFi, currThread⟩) (by
        intro ptr works
        rcases thread with rfl | rfl
        · cases works
        · exact Or.inl works)
      rcases performFor_ticks performed with rfl | ⟨ptr, event, fi', guarded, rfl, counts, rfl⟩
      · exact .idle _ _ captured
      · have points : (s.machine.contexts i).fiThread = some ptr := by
          rcases thread with impossible | same
          · cases impossible
          · exact same.symm
        obtain ⟨gate, context⟩ := enabled guarded
        exact .charged _ i ptr event fi' _ (Or.inl points) ⟨gate, context, points⟩ counts captured
  | main i hook =>
      obtain ⟨cycle, current, performed⟩ := Option.bind_eq_some_iff.mp stepped
      exact performFor_hook current performed (fun _ => trivial) (fun _ _ _ works => works.2.symm)
  | fetch i hook inst =>
      obtain ⟨cycle, current, performed⟩ := Option.bind_eq_some_iff.mp stepped
      exact performFor_hook current performed (fun _ => trivial) (fun _ _ _ works => works.2.symm)
  | decode i hook inst =>
      obtain ⟨cycle, current, performed⟩ := Option.bind_eq_some_iff.mp stepped
      exact performFor_hook current performed (fun _ => trivial) (fun _ _ _ works => works.2.symm)
  | iew i hook operand =>
      exact perform_hook stepped trivial (fun _ _ works => Or.inl (works.1 ▸ works.2.2))
  | lds i hook operand =>
      exact perform_hook stepped trivial (fun _ _ works => Or.inl (works.1 ▸ works.2.2))
  | endCycle i latency =>
      obtain ⟨cycle, current, rest⟩ := Option.bind_eq_some_iff.mp stepped
      obtain ⟨after, performed, result⟩ := Option.bind_eq_some_iff.mp rest
      cases result
      have captured := setCycle_captured s i none (fun _ => nofun)
      rcases performFor_ticks performed with rfl | ⟨ptr, event, fi', guarded, points, counts, rfl⟩
      · exact .idle _ _ captured
      · exact .charged _ i ptr event fi' _ (Or.inr (by rw [current]; exact points))
          ⟨cycle, current, guarded, points⟩ counts captured
  | leaveCycle i =>
      cases stepped
      exact .idle _ _ (setCycle_captured s i none (fun _ => nofun))

end Effects

end GemFi.Cycles
