import GemFi.Cycles
import GemFi.GlobalTotals
import GemFi.StageGates

/-!
The thread that DefaultFetch::fetch hands to main_fault. The pointer is read
under the guard of the cycle and stays null where the guard fails; main_fault is
called wherever the flag fi_main is set, and looks at the mode of the thread
first. The other two hooks of the loop ask for `enabled_fi`, as
AtomicSimpleCPU::tick does for all of them.
-/

namespace GemFi.FetchThread

open ThreadInfo Transitions FaultQueue Corruption FaultScan FaultRuns Activation
open Activation.FiSystem Hooks Calls GlobalTotals Cycles

structure Pass where
  -- one round of the loop of fetch: a word may be taken from the buffer, and instructions decoded
  hook : HookCall
  word : Option MachInst
  decoded : List (HookCall × StaticInst)

/-- A call under a guard; `none` is a null pointer dereferenced in it. -/
def guardedCall (fuel : Nat) (guard : Bool) (thread : Option ThreadPtr) (call : ThreadPtr → Call)
    (m : Machine) : Option Machine :=
  if guard then thread.bind fun ptr => callStep fuel m (call ptr) else some m

def decodeStep (fuel i : Nat) (enabledFi : Bool) (thread : Option ThreadPtr) (m : Machine)
    (ready : HookCall × StaticInst) : Option Machine :=
  guardedCall fuel (enabledFi && m.fi.gate .decodeStage) thread
    (fun ptr => .decode i ptr ready.1 ready.2) m

def wordStep (fuel i : Nat) (enabledFi : Bool) (thread : Option ThreadPtr) (hook : HookCall)
    (word : Option MachInst) (m : Machine) : Option Machine :=
  match word with
  | none => some m
  | some inst => guardedCall fuel enabledFi thread (fun ptr => .fetch i ptr hook inst) m

def passStep (fuel i : Nat) (enabledFi : Bool) (thread : Option ThreadPtr) (m : Machine)
    (pass : Pass) : Option Machine := do
  let m ← guardedCall fuel (m.fi.gate .main) thread (fun ptr => .main i ptr pass.hook) m
  let m ← wordStep fuel i enabledFi thread pass.hook pass.word m
  run (decodeStep fuel i enabledFi thread) pass.decoded m

/-- `DefaultFetch::fetch` of context `i`, from where the thread is read. -/
def fetch (fuel i : Nat) (clockEdge : Word) (passes : List Pass) (m : Machine) : Option Machine := do
  let (enabledFi, thread) ← capture .o3 m.fi (m.contexts i)
  let m ← guardedCall fuel enabledFi thread (fun ptr => .increaseTicks i ptr clockEdge) m
  run (passStep fuel i enabledFi thread) passes m

inductive Event where
  -- what reaches fault injection on O3 CPUs: fetches, and requests, context switches, mode changes
  -- and hooks in any order
  | call (call : Call)
  | fetch (i : Nat) (clockEdge : Word) (passes : List Pass)

def eventStep (fuel : Nat) (m : Machine) : Event → Option Machine
  | .call call => callStep fuel m call
  | .fetch i clockEdge passes => fetch fuel i clockEdge passes m

/-- Wherever a round of this fetch calls main_fault, its thread argument is not
null. -/
def HandsThread (fuel i : Nat) (clockEdge : Word) (passes : List Pass) (m : Machine) : Prop :=
  ∀ enabledFi thread m', capture .o3 m.fi (m.contexts i) = some (enabledFi, thread) →
    guardedCall fuel enabledFi thread (fun ptr => .increaseTicks i ptr clockEdge) m = some m' →
    Admissible (passStep fuel i enabledFi thread)
      (fun m _ => m.fi.gate .main = true → thread ≠ none) passes m'

/-- Injection is enabled and the context in user mode, with a thread. A context that is
enabled without a thread stops the program before, in increaseTicks. -/
def Ready (fi : FiSystem) (tc : ThreadContext) : Prop :=
  gateOpen fi tc ∧ (tc.enabledFI = true ∨ tc.fiThread ≠ none)

def NonNull (fuel : Nat) (m : Machine) : Event → Prop
  | .call _ => True
  | .fetch i clockEdge passes => HandsThread fuel i clockEdge passes m

def Guarded (m : Machine) : Event → Prop
  | .call _ => True
  | .fetch i _ passes =>
      passes ≠ [] → m.fi.gate .main = true → Ready m.fi (m.contexts i)

section Frames

variable {fuel i : Nat} {fi fi' : FiSystem} {m next : Machine}

structure SameGuards (fi fi' : FiSystem) : Prop where
  fullSystem : fi'.fullSystem = fi.fullSystem
  fiEnable : fi'.fiEnable = fi.fiEnable
  gate : fi'.gate = fi.gate

theorem SameGuards.trans {fi'' : FiSystem} (first : SameGuards fi fi')
    (second : SameGuards fi' fi'') : SameGuards fi fi'' :=
  ⟨second.fullSystem.trans first.fullSystem, second.fiEnable.trans first.fiEnable,
    second.gate.trans first.gate⟩

theorem fireDue_guards {q : StageQueue} {tc : ThreadContext} {ptr : ThreadPtr} {hook : HookCall}
    {value value' : StageValue q} {fired : List FaultPtr}
    (returned : fireDue fuel q tc ptr hook value fi = some (fi', value', fired)) :
    SameGuards fi fi' := by
  obtain ⟨_, _, looped⟩ := Option.bind_eq_some_iff.mp returned
  have kept := fireLoop_faultsOnly _ _ _ _ _ _ looped
  exact ⟨kept.fullSystem, kept.fiEnable, kept.gate⟩

theorem countBoth_guards {ptr : ThreadPtr} {change : ThreadEnabledFault → ThreadEnabledFault}
    (counted : countBoth ptr change fi = some fi') : SameGuards fi fi' := by
  obtain ⟨_, _, rest⟩ := Option.bind_eq_some_iff.mp counted
  obtain ⟨_, _, result⟩ := Option.bind_eq_some_iff.mp rest
  cases result
  exact ⟨rfl, rfl, rfl⟩

theorem operandFault_guards {q : StageQueue}
    {count : String → ThreadEnabledFault → ThreadEnabledFault} {tc : ThreadContext}
    {hook : HookCall} {value value' : StageValue q} {fired : List FaultPtr}
    (returned : operandFault q count fuel tc hook value fi = some (fi', value', fired)) :
    SameGuards fi fi' := by
  obtain ⟨fullSystem, fiEnable, gate⟩ := operandFault_frame returned
  exact ⟨fullSystem, fiEnable, gate⟩

theorem sameGuards_metadata (fi : FiSystem) (metadata : Metadata) :
    SameGuards fi { fi with metadata := metadata } := ⟨rfl, rfl, rfl⟩

theorem mainFault_guards {tc : ThreadContext} {ptr : ThreadPtr} {hook : HookCall}
    {fired : List FaultPtr} (returned : mainFault fuel tc ptr hook fi = some (fi', fired)) :
    SameGuards fi fi' := by
  obtain ⟨thread, _, rest⟩ := Option.bind_eq_some_iff.mp returned
  split at rest
  · cases rest
    exact ⟨rfl, rfl, rfl⟩
  · obtain ⟨⟨_, _, _⟩, due, result⟩ := Option.bind_eq_some_iff.mp rest
    cases result
    exact fireDue_guards due

theorem fetchFault_guards {tc : ThreadContext} {ptr : ThreadPtr} {hook : HookCall}
    {inst inst' : MachInst} {fired : List FaultPtr}
    (returned : fetchFault fuel tc ptr hook inst fi = some (fi', inst', fired)) :
    SameGuards fi fi' := by
  obtain ⟨thread, _, rest⟩ := Option.bind_eq_some_iff.mp returned
  have read := sameGuards_metadata fi (getSignificance hook.pc hook.stale fi.metadata).2
  split at rest
  · cases rest
    exact ⟨rfl, rfl, rfl⟩
  · dsimp only at rest
    split at rest
    · cases rest
      exact read
    · split at rest
      · obtain ⟨counted, both, due⟩ := Option.bind_eq_some_iff.mp rest
        exact (read.trans (countBoth_guards both)).trans (fireDue_guards due)
      · cases rest
        exact read

theorem decodeFault_guards {tc : ThreadContext} {ptr : ThreadPtr} {hook : HookCall}
    {inst inst' : StaticInst} {fired : List FaultPtr}
    (returned : decodeFault fuel tc ptr hook inst fi = some (fi', inst', fired)) :
    SameGuards fi fi' := by
  obtain ⟨thread, _, rest⟩ := Option.bind_eq_some_iff.mp returned
  have read := sameGuards_metadata fi (getSignificance hook.pc hook.stale fi.metadata).2
  split at rest
  · cases rest
    exact ⟨rfl, rfl, rfl⟩
  · dsimp only at rest
    split at rest
    · cases rest
      exact read
    · exact read.trans (fireDue_guards rest)

theorem callStep_guards {call : Call} (works : ∀ action, call ≠ .control action)
    (stepped : callStep fuel m call = some next) :
    SameGuards m.fi next.fi ∧ next.contexts = m.contexts := by
  obtain ⟨⟨_, _⟩, made, rfl⟩ := Option.map_eq_some_iff.mp stepped
  cases call with
  | control action => exact absurd rfl (works action)
  | main i ptr hook =>
      obtain ⟨⟨fi', _⟩, returned, result⟩ := Option.bind_eq_some_iff.mp made
      cases result
      exact ⟨mainFault_guards returned, rfl⟩
  | fetch i ptr hook inst =>
      obtain ⟨⟨fi', _, _⟩, returned, result⟩ := Option.bind_eq_some_iff.mp made
      cases result
      exact ⟨fetchFault_guards returned, rfl⟩
  | decode i ptr hook inst =>
      obtain ⟨⟨fi', _, _⟩, returned, result⟩ := Option.bind_eq_some_iff.mp made
      cases result
      exact ⟨decodeFault_guards returned, rfl⟩
  | iew i hook operand =>
      obtain ⟨⟨fi', _, _⟩, returned, result⟩ := Option.bind_eq_some_iff.mp made
      cases result
      exact ⟨operandFault_guards returned, rfl⟩
  | lds i hook operand =>
      obtain ⟨⟨fi', _, _⟩, returned, result⟩ := Option.bind_eq_some_iff.mp made
      cases result
      exact ⟨operandFault_guards returned, rfl⟩
  | increaseTicks i ptr ticks =>
      obtain ⟨fi', returned, result⟩ := Option.bind_eq_some_iff.mp made
      cases result
      exact ⟨countBoth_guards returned, rfl⟩

end Frames

section Fetches

variable {fuel i : Nat} {m next : Machine} {enabledFi : Bool} {thread : Option ThreadPtr}

theorem guardedCall_guards {guard : Bool} {call : ThreadPtr → Call}
    (works : ∀ ptr action, call ptr ≠ .control action)
    (made : guardedCall fuel guard thread call m = some next) :
    SameGuards m.fi next.fi ∧ next.contexts = m.contexts := by
  unfold guardedCall at made
  split at made
  · obtain ⟨ptr, _, stepped⟩ := Option.bind_eq_some_iff.mp made
    exact callStep_guards (works ptr) stepped
  · cases made
    exact ⟨⟨rfl, rfl, rfl⟩, rfl⟩

theorem run_guards {Action : Type} {step : Machine → Action → Option Machine}
    (keeps : ∀ m action next, step m action = some next →
      SameGuards m.fi next.fi ∧ next.contexts = m.contexts)
    (actions : List Action) (m next : Machine) (ran : run step actions m = some next) :
    SameGuards m.fi next.fi ∧ next.contexts = m.contexts := by
  induction actions generalizing m with
  | nil =>
      cases ran
      exact ⟨⟨rfl, rfl, rfl⟩, rfl⟩
  | cons action rest ih =>
      obtain ⟨m', stepped, ran⟩ := Option.bind_eq_some_iff.mp ran
      obtain ⟨first, contexts⟩ := keeps m action m' stepped
      obtain ⟨later, contexts'⟩ := ih m' ran
      exact ⟨first.trans later, contexts'.trans contexts⟩

theorem passStep_guards {pass : Pass}
    (stepped : passStep fuel i enabledFi thread m pass = some next) :
    SameGuards m.fi next.fi ∧ next.contexts = m.contexts := by
  obtain ⟨m₁, main, rest⟩ := Option.bind_eq_some_iff.mp stepped
  obtain ⟨m₂, fetched, decoded⟩ := Option.bind_eq_some_iff.mp rest
  obtain ⟨first, contexts⟩ := guardedCall_guards (fun _ _ => by simp) main
  have second : SameGuards m₁.fi m₂.fi ∧ m₂.contexts = m₁.contexts := by
    unfold wordStep at fetched
    split at fetched
    · cases fetched
      exact ⟨⟨rfl, rfl, rfl⟩, rfl⟩
    · exact guardedCall_guards (fun _ _ => by simp) fetched
  obtain ⟨third, contexts'⟩ := run_guards
    (fun _ _ _ => guardedCall_guards (fun _ _ => by simp)) pass.decoded m₂ next decoded
  exact ⟨(first.trans second.1).trans third, (contexts'.trans second.2).trans contexts⟩

theorem passes_handThread_iff (passes : List Pass) (m : Machine) :
    Admissible (passStep fuel i enabledFi thread)
        (fun m _ => m.fi.gate .main = true → thread ≠ none) passes m ↔
      (passes ≠ [] → m.fi.gate .main = true → thread ≠ none) := by
  induction passes generalizing m with
  | nil => exact iff_of_true (admissible_nil _ _) (fun some' => absurd rfl some')
  | cons pass rest ih =>
      rw [admissible_cons_iff]
      constructor
      · intro admissible _
        exact admissible.1
      · intro here
        refine ⟨here (by simp), ?_⟩
        intro next stepped
        rw [ih, (passStep_guards stepped).1.gate]
        intro _
        exact here (by simp)

/-- A fetch hands over a thread exactly if it does not get to its loop, fi_main is
clear, or its context is ready. -/
theorem handsThread_iff (fuel i : Nat) (clockEdge : Word) (passes : List Pass) (m : Machine) :
    HandsThread fuel i clockEdge passes m ↔
      (passes ≠ [] → m.fi.gate .main = true → Ready m.fi (m.contexts i)) := by
  unfold HandsThread
  simp only [passes_handThread_iff, capture]
  by_cases isOpen : gateOpen m.fi (m.contexts i)
  · rw [if_pos isOpen]
    have ready : Ready m.fi (m.contexts i) ↔
        (m.contexts i).enabledFI = true ∨ (m.contexts i).fiThread ≠ none := by
      unfold Ready
      rw [and_iff_right isOpen]
    rw [ready]
    constructor
    · intro hands some' flag
      cases enabled : (m.contexts i).enabledFI with
      | true => exact Or.inl rfl
      | false =>
          -- no ticks are counted, and the loop begins at once
          rw [enabled] at hands
          exact Or.inr (hands false _ m rfl rfl some' flag)
    · intro here enabledFi thread m' read ticked some' flag
      cases read
      rw [(guardedCall_guards (fun _ _ => by simp) ticked).1.gate] at flag
      rcases here some' flag with enabled | points
      · rw [enabled] at ticked
        obtain ⟨ptr, points, _⟩ := Option.bind_eq_some_iff.mp ticked
        simp [points]
      · exact points
  · rw [if_neg isOpen]
    constructor
    · intro hands some' flag
      exact absurd rfl (hands false none m rfl rfl some' flag)
    · intro here enabledFi thread m' read ticked some' flag
      cases read
      cases ticked
      exact absurd (here some' flag).1 isOpen

theorem nonNull_iff (m : Machine) (event : Event) : NonNull fuel m event ↔ Guarded m event := by
  cases event with
  | call _ => exact Iff.rfl
  | fetch i clockEdge passes => exact handsThread_iff fuel i clockEdge passes m

end Fetches

/-- As long as fi_main is set all contexts are ready. -/
def AllReady (m : Machine) : Prop :=
  m.fi.gate .main = true → ∀ i, Ready m.fi (m.contexts i)

def ReadyKept (m : Machine) : Control → Prop
  -- as long as fi_main is set no context is paused, stopped or dumped, switched to a thread without
  -- an entry or taken out of user mode, and fi_enable does not wrap; and a START that sets the flag
  -- finds all contexts in user mode, the others with a thread
  | .request i .start _ _ =>
      match m.fi.activation.lookup (getFiThread (m.contexts i)) with
      | none =>
          (m.fi.fiEnable + 1).toNat % 2 = 1 → m.fi.store.empty .main = false →
            inUserMode (m.contexts i) = true ∧ ∀ j, j ≠ i →
              inUserMode (m.contexts j) = true ∧
                ((m.contexts j).enabledFI = true ∨ (m.contexts j).fiThread ≠ none)
      | some ptr =>
          m.fi.modeOf ptr = some .pause → m.fi.gate .main = true → m.fi.fiEnable + 1 ≠ 0
  | .request i .pause _ _ | .request i .stop _ _ =>
      m.fi.activation.lookup (getFiThread (m.contexts i)) ≠ none → m.fi.gate .main = false
  | .request _ .dump _ _ => m.fi.gate .main = false
  | .switchTo _ val => m.fi.gate .main = true → m.fi.activation.lookup val ≠ none
  | .setMode i dtbCm =>
      m.fi.gate .main = true → inUserMode { m.contexts i with dtbCm := dtbCm } = true
  | .getPcAddress _ _ | .reset _ => True

def EventKept (m : Machine) : Event → Prop
  -- the same of all events: only control steps matter
  | .call (.control action) => ReadyKept m action
  | _ => True

theorem allReady_iff (fuel : Nat) (m : Machine) :
    AllReady m ↔ ∀ event, NonNull fuel m event := by
  simp only [nonNull_iff]
  constructor
  · intro ready event
    cases event with
    | call _ => trivial
    | fetch i clockEdge passes =>
        intro _ flag
        exact ready flag i
  · intro guarded flag i
    exact guarded (.fetch i 0 [⟨⟨0, 0, 0, 0⟩, none, []⟩]) (by simp) flag

section Requests

variable {fuel i : Nat} {m next : Machine}

theorem ready_congr {fi fi' : FiSystem} {tc : ThreadContext} (same : SameGuards fi fi') :
    Ready fi' tc ↔ Ready fi tc := by
  unfold Ready gateOpen
  rw [same.fiEnable, same.fullSystem]

theorem allReady_congr (same : SameGuards m.fi next.fi) (contexts : next.contexts = m.contexts) :
    AllReady next ↔ AllReady m := by
  unfold AllReady
  rw [same.gate, contexts]
  simp only [ready_congr same]

/-- With the flag set, a context that is replaced has to be ready and the others
to stay so. -/
theorem allReady_setContext_iff {fi : FiSystem} {tc : ThreadContext} :
    AllReady ⟨fi, m.setContext i tc⟩ ↔
      (fi.gate .main = true → Ready fi tc ∧ ∀ j, j ≠ i → Ready fi (m.contexts j)) := by
  unfold AllReady
  apply imp_congr_right
  intro _
  constructor
  · intro all
    have here := all i
    dsimp only at here
    rw [Machine.setContext, Function.update_self] at here
    refine ⟨here, ?_⟩
    intro j other
    have there := all j
    dsimp only at there
    rwa [setContext_other i j tc other] at there
  · rintro ⟨here, others⟩ j
    dsimp only
    by_cases same : j = i
    · rw [same, Machine.setContext, Function.update_self]
      exact here
    · rw [setContext_other i j tc same]
      exact others j same

theorem not_ready_disabled (fi : FiSystem) (tc : ThreadContext) :
    ¬ Ready fi { tc with enabledFI := false, fiThread := none } := by
  rintro ⟨_, enabled | points⟩
  · cases enabled
  · exact points rfl

theorem allReady_disabled_iff {fi : FiSystem} {tc : ThreadContext} :
    AllReady ⟨fi, m.setContext i { tc with enabledFI := false, fiThread := none }⟩ ↔
      fi.gate .main = false := by
  rw [allReady_setContext_iff, ← Bool.not_eq_true]
  constructor
  · intro ready flag
    exact not_ready_disabled fi tc (ready flag).1
  · intro clear flag
    exact absurd flag clear

theorem request_fullSystem {req : FiCommand} {threadid curTick : Word}
    (stepped : controlStep fuel m (.request i req threadid curTick) = some next) :
    m.fi.fullSystem = true := by
  obtain ⟨_, requested, _⟩ := Option.bind_eq_some_iff.mp stepped
  unfold FiSystem.fiActivateInst at requested
  split at requested
  · rename_i full
    exact full
  · cases requested

theorem created_allReady_iff (full : m.fi.fullSystem = true) (threadid : Word) :
    AllReady ⟨m.fi.activate (m.contexts i) threadid, m.setContext i
        { m.contexts i with enabledFI := true, fiThread := some m.fi.threads.length }⟩ ↔
      ((m.fi.fiEnable + 1).toNat % 2 = 1 → m.fi.store.empty .main = false →
        inUserMode (m.contexts i) = true ∧ ∀ j, j ≠ i →
          inUserMode (m.contexts j) = true ∧
            ((m.contexts j).enabledFI = true ∨ (m.contexts j).fiThread ≠ none)) := by
  have flag : (m.fi.activate (m.contexts i) threadid).gate .main = true ↔
      (m.fi.fiEnable + 1).toNat % 2 = 1 ∧ m.fi.store.empty .main = false :=
    StageGates.stageFlag_iff _ .main
  rw [allReady_setContext_iff, flag, and_imp]
  apply imp_congr_right
  intro odd
  apply imp_congr_right
  intro _
  have counting : (m.fi.activate (m.contexts i) threadid).fiEnable ≠ 0 := by
    intro zero
    have none' : m.fi.fiEnable + 1 = 0 := zero
    rw [none'] at odd
    cases odd
  have isFull : (m.fi.activate (m.contexts i) threadid).fullSystem = true := full
  unfold Ready gateOpen
  simp only [counting, isFull, ne_eq, not_false_iff, true_and, true_or, and_true]
  exact Iff.rfl

theorem resumed_allReady_iff (ready : AllReady m) (ptr : ThreadPtr) :
    AllReady ⟨{ m.fi with fiEnable := m.fi.fiEnable + 1 }.setMode ptr .start,
        m.setContext i { m.contexts i with enabledFI := true, fiThread := some ptr }⟩ ↔
      (m.fi.gate .main = true → m.fi.fiEnable + 1 ≠ 0) := by
  rw [allReady_setContext_iff]
  apply imp_congr_right
  intro flag
  have before := ready flag
  constructor
  · intro after
    exact after.1.1.1
  · intro counting
    refine ⟨⟨⟨counting, (before i).1.2⟩, Or.inl rfl⟩, ?_⟩
    intro j _
    exact ⟨⟨counting, (before j).1.2⟩, (before j).2⟩

theorem switched_allReady_iff (ready : AllReady m) (val : Addr) :
    AllReady ⟨m.fi, m.setContext i (m.fi.setIpr val (m.contexts i))⟩ ↔
      (m.fi.gate .main = true → m.fi.activation.lookup val ≠ none) := by
  rw [allReady_setContext_iff]
  apply imp_congr_right
  intro flag
  have before := ready flag
  unfold FiSystem.setIpr
  cases entry : m.fi.activation.lookup val with
  | none =>
      refine iff_of_false ?_ (fun differs => differs rfl)
      intro after
      rcases after.1.2 with enabled | points
      · cases enabled
      · exact points rfl
  | some ptr =>
      refine iff_of_true ⟨⟨(before i).1, Or.inl rfl⟩, ?_⟩ (by simp)
      intro j _
      exact before j

theorem modeSet_allReady_iff (ready : AllReady m) (dtbCm : Word) :
    AllReady ⟨m.fi, m.setContext i { m.contexts i with dtbCm := dtbCm }⟩ ↔
      (m.fi.gate .main = true → inUserMode { m.contexts i with dtbCm := dtbCm } = true) := by
  rw [allReady_setContext_iff]
  apply imp_congr_right
  intro flag
  have before := ready flag
  constructor
  · intro after
    exact after.1.1.2.2
  · intro user
    refine ⟨⟨⟨(before i).1.1, (before i).1.2.1, user⟩, (before i).2⟩, ?_⟩
    intro j _
    exact before j

theorem controlStep_allReady_iff {action : Control} (ready : AllReady m)
    (stepped : controlStep fuel m action = some next) :
    AllReady next ↔ ReadyKept m action := by
  cases controlStep_effect stepped with
  | created i threadid curTick unknown =>
      rw [created_allReady_iff (request_fullSystem stepped)]
      simp only [ReadyKept, unknown]
  | resumed i threadid curTick ptr known wasPaused =>
      rw [resumed_allReady_iff ready]
      simp only [ReadyKept, known, wasPaused, true_implies]
  | ignored i threadid curTick ptr known notPaused =>
      refine iff_of_true ready ?_
      simp [ReadyKept, known, notPaused]
  | paused i threadid curTick ptr known =>
      rw [allReady_disabled_iff]
      simp [ReadyKept, known, FiSystem.setMode, updateThread]
  | stopped i threadid curTick ptr known =>
      rw [allReady_disabled_iff]
      simp [ReadyKept, known]
  | notActive i req threadid curTick pauseOrStop unknown =>
      refine iff_of_true ready ?_
      rcases pauseOrStop with rfl | rfl
      · exact fun known => absurd unknown known
      · exact fun known => absurd unknown known
  | dumped i threadid curTick =>
      rw [allReady_disabled_iff, (scheduleswitch_frame curTick _).2.2.2.1]
      exact Iff.rfl
  | marked i pc =>
      have same : SameGuards m.fi (m.fi.getPcAddress (m.contexts i) pc) := by
        unfold FiSystem.getPcAddress
        split <;> exact ⟨rfl, rfl, rfl⟩
      have kept : AllReady ⟨m.fi.getPcAddress (m.contexts i) pc, m.contexts⟩ ↔ AllReady m :=
        allReady_congr same rfl
      exact iff_of_true (kept.mpr ready) trivial
  | switched i val => exact switched_allReady_iff ready val
  | modeSet i dtbCm => exact modeSet_allReady_iff ready dtbCm
  | reloaded records fi returned =>
      obtain ⟨store, rfl⟩ := reset_frame returned
      exact iff_of_true ready trivial

theorem fetch_guards {clockEdge : Word} {passes : List Pass}
    (fetched : fetch fuel i clockEdge passes m = some next) :
    SameGuards m.fi next.fi ∧ next.contexts = m.contexts := by
  obtain ⟨⟨enabledFi, thread⟩, _, rest⟩ := Option.bind_eq_some_iff.mp fetched
  obtain ⟨ticked, charged, ran⟩ := Option.bind_eq_some_iff.mp rest
  obtain ⟨first, contexts⟩ := guardedCall_guards (fun _ _ => by simp) charged
  obtain ⟨second, contexts'⟩ := run_guards (fun _ _ _ => passStep_guards) passes ticked next ran
  exact ⟨first.trans second, contexts'.trans contexts⟩

theorem eventStep_allReady_iff {event : Event} (ready : AllReady m)
    (stepped : eventStep fuel m event = some next) : AllReady next ↔ EventKept m event := by
  cases event with
  | fetch i clockEdge passes =>
      obtain ⟨same, contexts⟩ := fetch_guards stepped
      exact iff_of_true ((allReady_congr same contexts).mpr ready) trivial
  | call call =>
      by_cases works : ∀ action, call ≠ .control action
      · obtain ⟨same, contexts⟩ := callStep_guards works stepped
        refine iff_of_true ((allReady_congr same contexts).mpr ready) ?_
        cases call with
        | control action => exact absurd rfl (works action)
        | _ => trivial
      · push Not at works
        obtain ⟨action, rfl⟩ := works
        obtain ⟨⟨_, _⟩, made, rfl⟩ := Option.map_eq_some_iff.mp stepped
        obtain ⟨after, controlled, result⟩ := Option.bind_eq_some_iff.mp made
        cases result
        exact controlStep_allReady_iff ready controlled

end Requests

/-- What holds of each event exactly if another condition does, holds along a run exactly
if that does. -/
theorem admissible_congr {State Action : Type} {step : State → Action → Option State}
    {condition condition' : State → Action → Prop}
    (same : ∀ state action, condition state action ↔ condition' state action)
    (actions : List Action) (state : State) :
    Admissible step condition actions state ↔ Admissible step condition' actions state := by
  unfold Admissible
  simp only [same]

/-- In a run of requests, context switches, mode changes, hooks and fetches, main_fault gets a
thread in every fetch exactly if each fetch that gets to its loop finds fi_main clear, or
injection enabled and its context in user mode with a thread. That every context could
fetch so, in every state, is the same as that the first state allows it and that each step
keeps it. -/
theorem main_fault_thread_iff (fuel : Nat) (m : Machine) (events : List Event) :
    (Admissible (eventStep fuel) (NonNull fuel) events m ↔
      Admissible (eventStep fuel) Guarded events m) ∧
    (Always (eventStep fuel) (fun m => ∀ event, NonNull fuel m event) events m ↔
      AllReady m ∧ EachStep (eventStep fuel) EventKept events m) := by
  refine ⟨admissible_congr nonNull_iff events m, ?_⟩
  have same : (fun m => ∀ event, NonNull fuel m event) = AllReady :=
    funext fun m => propext (allReady_iff fuel m).symm
  rw [same]
  have kept : AllReady m → (Always (eventStep fuel) AllReady events m ↔
      EachStep (eventStep fuel) EventKept events m) := by
    intro ready
    apply always_iff_eachStep (fun _ => True) (fun _ _ _ _ _ => trivial) _ events m trivial ready
    intro state event next _ holds stepped
    exact eventStep_allReady_iff holds stepped
  constructor
  · intro always
    have ready := always [] events m rfl rfl
    exact ⟨ready, (kept ready).mp always⟩
  · rintro ⟨ready, each⟩
    exact (kept ready).mpr each

def mainFaultMachine : Machine where
  fi := { bootedMachine.fi with
    store := singleFault ⟨.pc, .instruction, .flipBit, 5, 1, "all", "all", 1, .src, 0, 0⟩ }
  contexts := bootedMachine.contexts

/-- The thread is started and enters the kernel, whose next fetch hands over a null pointer. -/
theorem kernel_fetch_hands_null :
    ¬ Admissible (eventStep 9) (NonNull 9)
      [.call (.control (.request 0 .start 0 0)), .call (.control (.setMode 0 0)),
        .fetch 0 500 [⟨⟨0x40, 0, 500, 0⟩, none, []⟩]] mainFaultMachine := by
  intro admissible
  obtain ⟨_, later⟩ := admissible.cons
  obtain ⟨_, last⟩ := (later _ rfl).cons
  have hands := (last _ rfl).cons.1
  rw [nonNull_iff] at hands
  have ready := hands (by simp) rfl
  revert ready
  unfold Ready
  decide

end GemFi.FetchThread
