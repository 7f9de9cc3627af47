import GemFi.Hooks
import GemFi.Transitions

/-!
Every call that reaches Fi_System, in any order: control requests, the hooks of
the five stages and increaseTicks. A hook either does nothing that lasts, or the
thread object it works for is started; then it fires faults and counts the event
for that object and for allthreads alike.
-/

namespace GemFi.Calls

open ThreadInfo FaultQueue Corruption FaultScan Activation Activation.FiSystem Hooks

inductive Call where
  -- the main, fetch and decode hooks and increaseTicks get their thread from the CPU model, the
  -- other two take it from the context
  | control (action : Control)
  | main (i : Nat) (ptr : ThreadPtr) (hook : HookCall)
  | fetch (i : Nat) (ptr : ThreadPtr) (hook : HookCall) (inst : MachInst)
  | decode (i : Nat) (ptr : ThreadPtr) (hook : HookCall) (inst : StaticInst)
  | iew (i : Nat) (hook : HookCall) (operand : Operand)
  | lds (i : Nat) (hook : HookCall) (operand : Operand)
  | increaseTicks (i : Nat) (ptr : ThreadPtr) (ticks : Word)

def makeCall (fuel : Nat) (m : Machine) : Call → Option (Machine × List FaultPtr)
  -- the machine after a call, and the faults fired by it
  | .control action => do
      let m ← controlStep fuel m action
      some (m, [])
  | .main i ptr hook => do
      let (fi, fired) ← mainFault fuel (m.contexts i) ptr hook m.fi
      some ({ m with fi := fi }, fired)
  | .fetch i ptr hook inst => do
      let (fi, _, fired) ← fetchFault fuel (m.contexts i) ptr hook inst m.fi
      some ({ m with fi := fi }, fired)
  | .decode i ptr hook inst => do
      let (fi, _, fired) ← decodeFault fuel (m.contexts i) ptr hook inst m.fi
      some ({ m with fi := fi }, fired)
  | .iew i hook operand => do
      let (fi, _, fired) ← iewFault fuel (m.contexts i) hook operand m.fi
      some ({ m with fi := fi }, fired)
  | .lds i hook operand => do
      let (fi, _, fired) ← ldsFault fuel (m.contexts i) hook operand m.fi
      some ({ m with fi := fi }, fired)
  | .increaseTicks i ptr ticks => do
      let fi ← increaseTicks (m.contexts i).cpuName ptr ticks m.fi
      some ({ m with fi := fi }, [])

def Call.IsHook : Call → Prop
  | .control _ | .increaseTicks _ _ _ => False
  | _ => True

def Call.WorksFor (m : Machine) (i : Nat) (ptr : ThreadPtr) : Call → Prop
  -- the call is a hook that works on context `i` for the thread object `ptr`
  | .control _ | .increaseTicks _ _ _ => False
  | .main j p _ | .fetch j p _ _ | .decode j p _ _ => j = i ∧ p = ptr
  | .iew j _ _ | .lds j _ _ =>
      j = i ∧ (m.contexts j).enabledFI = true ∧ (m.contexts j).fiThread = some ptr

/-- Faults may have been fired, and `event`, if there is one, was counted for
the thread object and for allthreads. -/
structure Counts (fi : FiSystem) (ptr : ThreadPtr) (event : Option CounterCall)
    (fi' : FiSystem) : Prop where
  activation : fi'.activation = fi.activation
  fiEnable : fi'.fiEnable = fi.fiEnable
  live : ptr < fi.threads.length
  threads : fi'.threads = fi.threads.modify ptr fun t =>
    { t with info := event.elim t.info t.info.count }
  allthreads : ∃ all, fi.allthreads = some all ∧ fi'.allthreads = some (event.elim all all.count)

variable {fuel : Nat} {fi fi' : FiSystem} {tc : ThreadContext} {ptr : ThreadPtr} {hook : HookCall}
  {fired : List FaultPtr} {q : StageQueue}

theorem modify_same (threads : List FiThread) (ptr : ThreadPtr) :
    (threads.modify ptr fun t => { t with info := t.info }) = threads :=
  List.modify_id ptr threads

theorem live_of_threadInfo {thread : ThreadEnabledFault}
    (object : fi.threadInfo ptr = some thread) : ptr < fi.threads.length := by
  unfold threadInfo at object
  obtain ⟨t, found, _⟩ := Option.map_eq_some_iff.mp object
  exact (List.getElem?_eq_some_iff.mp found).1

/-- Firing the due faults counts nothing. -/
theorem fireDue_counts {value value' : StageValue q}
    (returned : fireDue fuel q tc ptr hook value fi = some (fi', value', fired)) :
    Counts fi ptr none fi' := by
  obtain ⟨c, context, looped⟩ := Option.bind_eq_some_iff.mp returned
  obtain ⟨all, global, rest⟩ := Option.bind_eq_some_iff.mp context
  obtain ⟨thread, object, _⟩ := Option.bind_eq_some_iff.mp rest
  have kept := fireLoop_faultsOnly _ _ _ _ _ _ looped
  refine ⟨kept.activation, kept.fiEnable, live_of_threadInfo object, ?_, all, global, ?_⟩
  · rw [kept.threads]
    exact (modify_same fi.threads ptr).symm
  · rw [kept.allthreads, global]
    rfl

theorem countBoth_counts {event : CounterCall} {change : ThreadEnabledFault → ThreadEnabledFault}
    (counting : ∀ t, change t = t.count event)
    (returned : countBoth ptr change fi = some fi') : Counts fi ptr (some event) fi' := by
  obtain ⟨thread, object, rest⟩ := Option.bind_eq_some_iff.mp returned
  obtain ⟨all, global, result⟩ := Option.bind_eq_some_iff.mp rest
  cases result
  refine ⟨rfl, rfl, live_of_threadInfo object, ?_, all, global, ?_⟩
  · simp [updateThread, counting]
  · simp [counting]

/-- One part of a hook fires, the other counts. -/
theorem Counts.trans {fi'' : FiSystem} {event event' : Option CounterCall}
    (first : Counts fi ptr event fi') (second : Counts fi' ptr event' fi'')
    (one : event = none ∨ event' = none) : Counts fi ptr (event.or event') fi'' := by
  obtain ⟨all, global, middle⟩ := first.allthreads
  obtain ⟨all', global', last⟩ := second.allthreads
  rw [middle] at global'
  cases global'
  refine ⟨second.activation.trans first.activation, second.fiEnable.trans first.fiEnable,
    first.live, ?_, all, global, ?_⟩
  -- two updates of one object are one, and one of the two does nothing
  · rw [second.threads, first.threads, List.modify_modify_eq]
    rcases one with rfl | rfl
    · rfl
    · cases event <;> rfl
  · rw [last]
    rcases one with rfl | rfl
    · rfl
    · cases event <;> rfl

theorem Counts.metadata {event : Option CounterCall} {metadata : Metadata}
    (counts : Counts { fi with metadata := metadata } ptr event fi') : Counts fi ptr event fi' :=
  ⟨counts.activation, counts.fiEnable, counts.live, counts.threads, counts.allthreads⟩

/-- A hook that works for `ptr` either leaves everything but the metadata stream
as it is, or finds the object started; then it fires and counts. -/
inductive HookEffect (fi : FiSystem) (ptr : ThreadPtr) : FiSystem → List FaultPtr → Prop where
  | quiet (metadata : Metadata) : HookEffect fi ptr { fi with metadata := metadata } []
  | active (fi' : FiSystem) (fired : List FaultPtr) (event : Option CounterCall)
      (started : fi.modeOf ptr = some .start) (counts : Counts fi ptr event fi') :
      HookEffect fi ptr fi' fired

theorem modeOf_of_threadInfo {thread : ThreadEnabledFault}
    (object : fi.threadInfo ptr = some thread) : fi.modeOf ptr = thread.mode := by
  simp [modeOf, object]

def Worked (fi : FiSystem) (ptr : ThreadPtr) (event : Option CounterCall) (fi' : FiSystem)
    (fired : List FaultPtr) : Prop :=
  -- the same with the event named: a hook counts `event` and nothing else
  (fired = [] ∧ ∃ metadata, fi' = { fi with metadata := metadata }) ∨
    (fi.modeOf ptr = some .start ∧ Counts fi ptr event fi')

theorem Worked.effect {event : Option CounterCall} (worked : Worked fi ptr event fi' fired) :
    HookEffect fi ptr fi' fired := by
  rcases worked with ⟨rfl, metadata, rfl⟩ | ⟨started, counts⟩
  · exact .quiet metadata
  · exact .active fi' fired event started counts

theorem mainFault_worked (returned : mainFault fuel tc ptr hook fi = some (fi', fired)) :
    Worked fi ptr none fi' fired := by
  obtain ⟨thread, object, rest⟩ := Option.bind_eq_some_iff.mp returned
  split at rest
  · cases rest
    exact Or.inl ⟨rfl, fi.metadata, rfl⟩
  · rename_i started
    obtain ⟨⟨_, _, _⟩, due, result⟩ := Option.bind_eq_some_iff.mp rest
    cases result
    exact Or.inr ⟨(modeOf_of_threadInfo object).trans (not_not.mp started), fireDue_counts due⟩

theorem fetchFault_worked {inst inst' : MachInst}
    (returned : fetchFault fuel tc ptr hook inst fi = some (fi', inst', fired)) :
    Worked fi ptr (some ⟨tc.cpuName, .fetched⟩) fi' fired := by
  obtain ⟨thread, object, rest⟩ := Option.bind_eq_some_iff.mp returned
  split at rest
  · cases rest
    exact Or.inl ⟨rfl, fi.metadata, rfl⟩
  · rename_i started
    dsimp only at rest
    split at rest
    · cases rest
      exact Or.inl ⟨rfl, _, rfl⟩
    · split at rest
      · obtain ⟨counted, both, due⟩ := Option.bind_eq_some_iff.mp rest
        have counts : Counts _ ptr (some ⟨tc.cpuName, .fetched⟩) counted :=
          countBoth_counts (fun _ => rfl) both
        exact Or.inr ⟨(modeOf_of_threadInfo object).trans (not_not.mp started),
          (counts.trans (fireDue_counts due) (Or.inr rfl)).metadata⟩
      · cases rest
        exact Or.inl ⟨rfl, _, rfl⟩

theorem decodeFault_worked {inst inst' : StaticInst}
    (returned : decodeFault fuel tc ptr hook inst fi = some (fi', inst', fired)) :
    Worked fi ptr none fi' fired := by
  obtain ⟨thread, object, rest⟩ := Option.bind_eq_some_iff.mp returned
  split at rest
  · cases rest
    exact Or.inl ⟨rfl, fi.metadata, rfl⟩
  · rename_i started
    dsimp only at rest
    split at rest
    · cases rest
      exact Or.inl ⟨rfl, _, rfl⟩
    · exact Or.inr ⟨(modeOf_of_threadInfo object).trans (not_not.mp started),
        (fireDue_counts rest).metadata⟩

theorem operandFault_worked {count : String → ThreadEnabledFault → ThreadEnabledFault}
    (event : Event) (counting : ∀ cpu t, count cpu t = t.count ⟨cpu, event⟩)
    {value value' : StageValue q}
    (returned : operandFault q count fuel tc hook value fi = some (fi', value', fired)) :
    (fi' = fi ∧ fired = []) ∨
      ∃ ptr, tc.enabledFI = true ∧ tc.fiThread = some ptr ∧
        Worked fi ptr (some ⟨tc.cpuName, event⟩) fi' fired := by
  unfold operandFault at returned
  split at returned
  · cases returned
    exact Or.inl ⟨rfl, rfl⟩
  · rename_i enabled
    obtain ⟨ptr, points, rest⟩ := Option.bind_eq_some_iff.mp returned
    obtain ⟨thread, object, rest⟩ := Option.bind_eq_some_iff.mp rest
    refine Or.inr ⟨ptr, by simpa using enabled, points, ?_⟩
    split at rest
    · rename_i guards
      dsimp only at rest
      split at rest
      · cases rest
        exact Or.inl ⟨rfl, _, rfl⟩
      · obtain ⟨⟨_, _, _⟩, due, rest⟩ := Option.bind_eq_some_iff.mp rest
        obtain ⟨counted, both, result⟩ := Option.bind_eq_some_iff.mp rest
        cases result
        have counts := countBoth_counts (counting tc.cpuName) both
        exact Or.inr ⟨(modeOf_of_threadInfo object).trans guards.1,
          ((fireDue_counts due).trans counts (Or.inl rfl)).metadata⟩
    · cases rest
      exact Or.inl ⟨rfl, fi.metadata, rfl⟩

/-- An operand of a started thread in user mode, whose instruction is not
significant, is always counted. -/
theorem operandFault_active {count : String → ThreadEnabledFault → ThreadEnabledFault}
    (event : Event) (counting : ∀ cpu t, count cpu t = t.count ⟨cpu, event⟩)
    {value value' : StageValue q}
    (returned : operandFault q count fuel tc hook value fi = some (fi', value', fired))
    (enabled : tc.enabledFI = true) (points : tc.fiThread = some ptr)
    (started : fi.modeOf ptr = some .start) (full : fi.fullSystem = true)
    (user : inUserMode tc = true)
    (plain : (getSignificance hook.pc hook.stale fi.metadata).1 = false) :
    Counts fi ptr (some ⟨tc.cpuName, event⟩) fi' := by
  unfold operandFault at returned
  rw [if_neg (by simp [enabled])] at returned
  obtain ⟨pointer, isPtr, rest⟩ := Option.bind_eq_some_iff.mp returned
  rw [points] at isPtr
  cases isPtr
  obtain ⟨thread, object, rest⟩ := Option.bind_eq_some_iff.mp rest
  rw [if_pos ⟨(modeOf_of_threadInfo object).symm.trans started, full, user⟩] at rest
  dsimp only at rest
  rw [if_neg (by simp [plain])] at rest
  obtain ⟨⟨_, _, _⟩, due, rest⟩ := Option.bind_eq_some_iff.mp rest
  obtain ⟨counted, both, result⟩ := Option.bind_eq_some_iff.mp rest
  cases result
  have counts := countBoth_counts (counting tc.cpuName) both
  exact ((fireDue_counts due).trans counts (Or.inl rfl)).metadata

inductive CallEffect (fuel : Nat) (m : Machine) : Call → Machine → List FaultPtr → Prop where
  -- everything a call can do. Of the calls that count, increaseTicks alone does not look at the
  -- mode.
  | controlled (action : Control) (next : Machine)
      (stepped : controlStep fuel m action = some next) :
      CallEffect fuel m (.control action) next []
  | idle (call : Call) : CallEffect fuel m call m []
  | hooked (call : Call) (i : Nat) (ptr : ThreadPtr) (fi' : FiSystem) (fired : List FaultPtr)
      (works : call.WorksFor m i ptr) (effect : HookEffect m.fi ptr fi' fired) :
      CallEffect fuel m call ⟨fi', m.contexts⟩ fired
  | ticked (i : Nat) (ptr : ThreadPtr) (ticks : Word) (fi' : FiSystem)
      (counts : Counts m.fi ptr (some ⟨(m.contexts i).cpuName, .ticks ticks⟩) fi') :
      CallEffect fuel m (.increaseTicks i ptr ticks) ⟨fi', m.contexts⟩ []

def Call.event (m : Machine) : Call → Option CounterCall
  -- what a call counts if it counts anything
  | .control _ | .main _ _ _ | .decode _ _ _ _ => none
  | .fetch i _ _ _ => some ⟨(m.contexts i).cpuName, .fetched⟩
  | .iew i _ _ => some ⟨(m.contexts i).cpuName, .executed⟩
  | .lds i _ _ => some ⟨(m.contexts i).cpuName, .loadStore⟩
  | .increaseTicks i _ ticks => some ⟨(m.contexts i).cpuName, .ticks ticks⟩

inductive CallWorked (fuel : Nat) (m : Machine) : Call → Machine → List FaultPtr → Prop where
  | controlled (action : Control) (next : Machine)
      (stepped : controlStep fuel m action = some next) :
      CallWorked fuel m (.control action) next []
  | idle (call : Call) : CallWorked fuel m call m []
  | worked (call : Call) (i : Nat) (ptr : ThreadPtr) (fi' : FiSystem) (fired : List FaultPtr)
      (works : call.WorksFor m i ptr) (worked : Worked m.fi ptr (call.event m) fi' fired) :
      CallWorked fuel m call ⟨fi', m.contexts⟩ fired
  | ticked (i : Nat) (ptr : ThreadPtr) (ticks : Word) (fi' : FiSystem)
      (counts : Counts m.fi ptr (some ⟨(m.contexts i).cpuName, .ticks ticks⟩) fi') :
      CallWorked fuel m (.increaseTicks i ptr ticks) ⟨fi', m.contexts⟩ []

theorem makeCall_worked {m next : Machine} {call : Call}
    (made : makeCall fuel m call = some (next, fired)) : CallWorked fuel m call next fired := by
  cases call with
  | control action =>
      obtain ⟨after, stepped, result⟩ := Option.bind_eq_some_iff.mp made
      cases result
      exact .controlled action _ stepped
  | main i ptr hook =>
      obtain ⟨⟨fi', fired'⟩, returned, result⟩ := Option.bind_eq_some_iff.mp made
      cases result
      exact .worked _ i ptr _ _ ⟨rfl, rfl⟩ (mainFault_worked returned)
  | fetch i ptr hook inst =>
      obtain ⟨⟨fi', inst', fired'⟩, returned, result⟩ := Option.bind_eq_some_iff.mp made
      cases result
      exact .worked _ i ptr _ _ ⟨rfl, rfl⟩ (fetchFault_worked returned)
  | decode i ptr hook inst =>
      obtain ⟨⟨fi', inst', fired'⟩, returned, result⟩ := Option.bind_eq_some_iff.mp made
      cases result
      exact .worked _ i ptr _ _ ⟨rfl, rfl⟩ (decodeFault_worked returned)
  | iew i hook operand =>
      obtain ⟨⟨fi', value', fired'⟩, returned, result⟩ := Option.bind_eq_some_iff.mp made
      cases result
      rcases operandFault_worked .executed (fun _ _ => rfl) returned with
        ⟨rfl, rfl⟩ | ⟨ptr, enabled, points, worked⟩
      · exact .idle _
      · exact .worked _ i ptr _ _ ⟨rfl, enabled, points⟩ worked
  | lds i hook operand =>
      obtain ⟨⟨fi', value', fired'⟩, returned, result⟩ := Option.bind_eq_some_iff.mp made
      cases result
      rcases operandFault_worked .loadStore (fun _ _ => rfl) returned with
        ⟨rfl, rfl⟩ | ⟨ptr, enabled, points, worked⟩
      · exact .idle _
      · exact .worked _ i ptr _ _ ⟨rfl, enabled, points⟩ worked
  | increaseTicks i ptr ticks =>
      obtain ⟨fi', returned, result⟩ := Option.bind_eq_some_iff.mp made
      cases result
      exact .ticked i ptr ticks _ (countBoth_counts (fun _ => rfl) returned)

theorem makeCall_effect {m next : Machine} {call : Call}
    (made : makeCall fuel m call = some (next, fired)) : CallEffect fuel m call next fired := by
  cases makeCall_worked made with
  | controlled action _ stepped => exact .controlled action _ stepped
  | idle => exact .idle _
  | worked _ i ptr _ _ works worked => exact .hooked _ i ptr _ _ works worked.effect
  | ticked i ptr ticks _ counts => exact .ticked i ptr ticks _ counts

/-- A call other than a control request counts its event for one object, or
leaves all counters as they are. -/
theorem makeCall_counts {m next : Machine} {call : Call}
    (made : makeCall fuel m call = some (next, fired)) (works : ∀ action, call ≠ .control action) :
    next.contexts = m.contexts ∧
      ((∃ metadata, next.fi = { m.fi with metadata := metadata }) ∨
        ∃ ptr, Counts m.fi ptr (call.event m) next.fi) := by
  cases makeCall_worked made with
  | controlled action => exact absurd rfl (works action)
  | idle => exact ⟨rfl, Or.inl ⟨m.fi.metadata, rfl⟩⟩
  | worked _ _ ptr _ _ _ worked =>
      rcases worked with ⟨_, quiet⟩ | ⟨_, counts⟩
      · exact ⟨rfl, Or.inl quiet⟩
      · exact ⟨rfl, Or.inr ⟨ptr, counts⟩⟩
  | ticked i ptr ticks _ counts => exact ⟨rfl, Or.inr ⟨ptr, counts⟩⟩

end GemFi.Calls
