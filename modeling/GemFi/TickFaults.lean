import GemFi.Cycles
import GemFi.FetchSchedule
import GemFi.StageFrames

/-!
A fault Tick:t with several occurrences, alone in the queue of main_fault or of
fetch_fault. Rescheduling adds the clock edge at its firing to its timing; it is due
again when the counter of all threads has moved by just that much, and what the
counter moves by is decided by the cycles that come.
-/

namespace GemFi.TickFaults

open LinkedLists ThreadInfo Transitions FaultQueue QueueRepresentation Corruption FaultScan
open Activation Activation.FiSystem Hooks Calls Cycles StageFrames FaultRuns

inductive Front where
  -- the two hooks that are called with the thread of the cycle and whose faults are compared with
  -- what was fetched
  | main | fetch
  deriving DecidableEq, Repr

def Front.queue : Front → StageQueue
  | .main => .main
  | .fetch => .fetchStage

structure TickFault (front : Front) (timing : Word) (occurrence : Int) (p : InjectedFault) :
    Prop where
  typed : stageOf p.faultType = front.queue
  timingType : p.timingType = .tick
  timing : p.timing = timing
  where_ : p.where_ = "all"
  thread : p.thread = "all"
  occurrence : p.occurrence = occurrence
  manifested : p.manifested = false

/-- The ticks of all threads have come to `timing`; if nothing has been counted at all,
a scan takes the fault for one that is out of scope. -/
def Reached (timing : Word) (counters : CpuExecutedTicks) : Prop :=
  counters.ticks = timing ∧ counters.ticks ||| counters.instrFetched ≠ 0

instance (timing : Word) (counters : CpuExecutedTicks) : Decidable (Reached timing counters) :=
  inferInstanceAs (Decidable (_ ∧ _))

section Rounds

variable {front : Front} {timing clockEdge : Word} {occurrence : Int} {p : InjectedFault}
  {c : ScanContext} {fuel : Nat} {s s' : FaultStore} {lists : StageQueue → List FaultPtr}
  {f : FaultPtr}

theorem TickFault.readings (fault : TickFault front timing occurrence p) :
    readings front.queue c p = (c.allthreads.all.instrFetched, c.allthreads.all.ticks) := by
  unfold FaultScan.readings scopeCounters
  rw [fault.where_, fault.thread]
  by_cases named : c.curCpu = "all"
  · cases front <;>
      simp [named, Front.queue, calculateFor, ThreadEnabledFault.calculateFetchedTime,
        ThreadEnabledFault.calculateTime, allcores]
  · cases front <;>
      simp [Ne.symm named, Front.queue, calculateFor, ThreadEnabledFault.calculateFetchedTime,
        ThreadEnabledFault.calculateTime, allcores]

theorem TickFault.verdict_due_iff (fault : TickFault front timing occurrence p) :
    (∃ servicedAt, verdict front.queue c p = .due servicedAt) ↔
      Reached timing c.allthreads.all := by
  rw [FaultScan.verdict_due_iff fault.typed]
  unfold Due Triggered InScope Counting Reached
  rw [fault.readings, fault.manifested, fault.timingType, fault.timing, fault.where_, fault.thread]
  constructor
  · rintro ⟨⟨_, _, reached⟩, counting⟩
    exact ⟨reached, counting⟩
  · rintro ⟨reached, counting⟩
    exact ⟨⟨rfl, ⟨Or.inr rfl, Or.inl rfl⟩, reached⟩, counting⟩

theorem TickFault.congr {p' : InjectedFault} (fault : TickFault front timing occurrence p)
    (same : SameSchedule p p') : TickFault front timing occurrence p' where
  typed := same.faultType ▸ fault.typed
  timingType := same.timingType.trans fault.timingType
  timing := same.timing.trans fault.timing
  where_ := same.where_.trans fault.where_
  thread := same.thread.trans fault.thread
  occurrence := same.occurrence.trans fault.occurrence
  manifested := same.manifested.trans fault.manifested

/-- The absolute tick of a clock edge is added to the timing. -/
theorem TickFault.rescheduled (fault : TickFault front timing occurrence p) (clockEdge : Word) :
    TickFault front (timing + clockEdge) ((occurrence - 1).bmod (2 ^ 32))
      (rescheduled clockEdge p) where
  typed := fault.typed
  timingType := fault.timingType
  timing := by
    show nextTiming clockEdge p = _
    unfold nextTiming
    rw [fault.timingType, fault.timing]
  where_ := fault.where_
  thread := fault.thread
  occurrence := congrArg (fun n => (n - 1).bmod (2 ^ 32)) fault.occurrence
  manifested := rfl

structure Waiting (front : Front) (f : FaultPtr) (timing : Word) (occurrence : Int)
    (lists : StageQueue → List FaultPtr) (s : FaultStore) : Prop where
  held : Represents s lists
  alone : lists front.queue = [f]
  fault : TickFault front timing occurrence (s.mem f)

theorem Waiting.member (waiting : Waiting front f timing occurrence lists s) :
    f ∈ lists front.queue := by
  rw [waiting.alone]
  exact List.mem_singleton_self f

theorem Waiting.apart (waiting : Waiting front f timing occurrence lists s) (q : StageQueue)
    (other : q ≠ front.queue) : f ∉ lists q := fun member =>
  other (waiting.held.apart q front.queue f member waiting.member)

/-- A scan of the queue finds the fault, or nothing. -/
theorem Waiting.scan_cases {found : Option FaultPtr}
    (waiting : Waiting front f timing occurrence lists s)
    (returned : scan fuel front.queue c s = some (s', found)) :
    (¬ Reached timing c.allthreads.all ∧ s' = s ∧ found = none) ∨
      (Reached timing c.allthreads.all ∧ found = some f ∧
        Waiting front f timing occurrence lists s') := by
  have chain : Chain s.nxt (s.head front.queue) [f] none :=
    waiting.alone ▸ (waiting.held.linked front.queue).forward
  rcases FaultScan.scan_cases chain returned with
    ⟨rfl, rfl, stops⟩ | ⟨g, servicedAt, first, due, rfl, rfl⟩
  · refine Or.inl ⟨fun reached => ?_, rfl, rfl⟩
    obtain ⟨servicedAt, due⟩ := waiting.fault.verdict_due_iff.mpr reached
    have first : firstNotPassed front.queue c s' [f] = some f := by simp [firstNotPassed, due]
    have stop := stops f first
    rw [due] at stop
    cases stop
  · have same : g = f := List.mem_singleton.mp (List.mem_of_find?_eq_some first)
    subst g
    have written : (serviced s f servicedAt).mem f = { s.mem f with servicedAt := servicedAt } := by
      simp [serviced, FaultStore.write]
    refine Or.inr ⟨waiting.fault.verdict_due_iff.mp ⟨servicedAt, due⟩, rfl,
      waiting.held.write rfl rfl rfl, waiting.alone, ?_⟩
    rw [written]
    exact waiting.fault.congr (by constructor <;> rfl)

/-- A fired fault leaves the queue with its last occurrence, else it stays there with
one fewer and the clock edge on top of its timing. -/
theorem Waiting.fires {value value' : StageValue front.queue}
    (waiting : Waiting front f timing occurrence lists s)
    (fired : fire fuel front.queue clockEdge f value s = some (s', value')) :
    (occurrence = 1 ∧ Represents s' (Function.update lists front.queue [])) ∨
      (occurrence ≠ 1 ∧
        Waiting front f (timing + clockEdge) ((occurrence - 1).bmod (2 ^ 32)) lists s') := by
  obtain ⟨⟨p, _⟩, processed, rest⟩ := Option.bind_eq_some_iff.mp fired
  obtain ⟨store, checked, result⟩ := Option.bind_eq_some_iff.mp rest
  cases result
  have kept := process_schedule processed
  have written : (s.write f fun _ => p).mem f = p := by simp [FaultStore.write]
  have held : Represents (s.write f fun _ => p) lists :=
    waiting.held.write kept.nxt kept.prv kept.queue
  have fault : TickFault front timing occurrence p := waiting.fault.congr kept
  unfold check4reschedule at checked
  rw [written, fault.occurrence] at checked
  split at checked
  · rename_i last
    rw [held.owned front.queue f waiting.member] at checked
    have removed := remove_represents held waiting.member checked
    rw [waiting.alone, List.erase_cons_head] at removed
    exact Or.inl ⟨last, removed⟩
  · rename_i again
    cases checked
    refine Or.inr ⟨again, held.write rfl rfl rfl, waiting.alone, ?_⟩
    have left : ((s.write f fun _ => p).write f (FaultScan.rescheduled clockEdge)).mem f =
        FaultScan.rescheduled clockEdge p := by
      simp [FaultStore.write]
    rw [left]
    exact fault.rescheduled clockEdge

variable {call : HookCall} {value value' : StageValue front.queue} {fi fi' : FiSystem}
  {fired : List FaultPtr}

theorem fireLoop_cases {q : StageQueue} {value value' : StageValue q} (rounds : Nat)
    (returned : fireLoop fuel q c call rounds value fi = some (fi', value', fired)) :
    ∃ store found rest, rounds = rest + 1 ∧ scan fuel q c fi.store = some (store, found) ∧
      ((found = none ∧ fi'.store = store ∧ fired = []) ∨
        ∃ g store' value'' later, found = some g ∧
          fire fuel q call.clockEdge g value store = some (store', value'') ∧
          fireLoop fuel q c call rest value'' (firedOne fi q call g store') =
            some (fi', value', later) ∧ fired = g :: later) := by
  cases rounds with
  | zero => cases returned
  | succ rest =>
      obtain ⟨⟨store, found⟩, scanned, ended⟩ := Option.bind_eq_some_iff.mp returned
      refine ⟨store, found, rest, rfl, scanned, ?_⟩
      cases found with
      | none =>
          cases ended
          exact Or.inl ⟨rfl, rfl, rfl⟩
      | some g =>
          rw [fireLoop_found scanned] at returned
          obtain ⟨⟨store', value''⟩, fires, after⟩ := Option.bind_eq_some_iff.mp returned
          obtain ⟨⟨fi'', value''', later⟩, looped, result⟩ := Option.bind_eq_some_iff.mp after
          cases result
          exact Or.inr ⟨g, store', value'', later, rfl, fires, looped, rfl⟩

theorem vacant_loop (rounds : Nat) (held : Represents fi.store lists)
    (vacant : lists front.queue = [])
    (returned : fireLoop fuel front.queue c call rounds value fi = some (fi', value', fired)) :
    fired = [] ∧ fi'.store = fi.store := by
  obtain ⟨store, found, _, _, scanned, ended⟩ := fireLoop_cases rounds returned
  have chain : Chain fi.store.nxt (fi.store.head front.queue) [] none :=
    vacant ▸ (held.linked front.queue).forward
  rcases FaultScan.scan_cases chain scanned with ⟨rfl, rfl, _⟩ | ⟨_, _, first, _⟩
  · rcases ended with ⟨_, kept, nothing⟩ | ⟨_, _, _, _, isSome, _⟩
    · exact ⟨nothing, kept⟩
    · cases isSome
  · cases first

theorem Waiting.loop_idle (rounds : Nat)
    (waiting : Waiting front f timing occurrence lists fi.store)
    (early : ¬ Reached timing c.allthreads.all)
    (returned : fireLoop fuel front.queue c call rounds value fi = some (fi', value', fired)) :
    fired = [] ∧ fi'.store = fi.store := by
  obtain ⟨store, found, _, _, scanned, ended⟩ := fireLoop_cases rounds returned
  rcases waiting.scan_cases scanned with ⟨_, rfl, rfl⟩ | ⟨reached, _⟩
  · rcases ended with ⟨_, kept, nothing⟩ | ⟨_, _, _, _, isSome, _⟩
    · exact ⟨nothing, kept⟩
    · cases isSome
  · exact absurd reached early

/-- In a loop that begins when the counter has come to the timing, the fault is fired
once, unless the clock edge is at zero: then it is due again before the loop ends. -/
theorem Waiting.loop_due (rounds : Nat)
    (waiting : Waiting front f timing occurrence lists fi.store)
    (reached : Reached timing c.allthreads.all)
    (returned : fireLoop fuel front.queue c call rounds value fi = some (fi', value', fired)) :
    (occurrence = 1 ∧ fired = [f] ∧
        Represents fi'.store (Function.update lists front.queue [])) ∨
      (occurrence ≠ 1 ∧ call.clockEdge ≠ 0 ∧ fired = [f] ∧
        Waiting front f (timing + call.clockEdge) ((occurrence - 1).bmod (2 ^ 32)) lists
          fi'.store) ∨
      (occurrence ≠ 1 ∧ call.clockEdge = 0 ∧ ∃ later, fired = f :: f :: later) := by
  obtain ⟨store, found, rest, _, scanned, ended⟩ := fireLoop_cases rounds returned
  obtain ⟨isFound, noted⟩ : found = some f ∧ Waiting front f timing occurrence lists store := by
    rcases waiting.scan_cases scanned with ⟨early, _⟩ | ⟨_, isFound, noted⟩
    · exact absurd reached early
    · exact ⟨isFound, noted⟩
  subst isFound
  rcases ended with ⟨isNone, _⟩ | ⟨_, store', value'', later, isFound, fires, looped, rfl⟩
  · cases isNone
  cases isFound
  rcases noted.fires fires with ⟨last, gone⟩ | ⟨again, next⟩
  · obtain ⟨rfl, kept⟩ := vacant_loop rest (by rw [firedOne_store]; exact gone)
      (Function.update_self _ _ _) looped
    rw [firedOne_store] at kept
    exact Or.inl ⟨last, rfl, kept ▸ gone⟩
  · right
    have next' : Waiting front f (timing + call.clockEdge) ((occurrence - 1).bmod (2 ^ 32)) lists
        (firedOne fi front.queue call f store').store := by
      rw [firedOne_store]
      exact next
    by_cases still : call.clockEdge = 0
    · -- the trigger has not moved, and the loop scans the same counters again
      right
      rw [still, add_zero] at next'
      obtain ⟨_, found, _, _, scanned, ended⟩ := fireLoop_cases rest looped
      rcases next'.scan_cases scanned with ⟨early, _⟩ | ⟨_, rfl, _⟩
      · exact absurd reached early
      · rcases ended with ⟨isNone, _⟩ | ⟨_, _, _, later', isFound, _, _, rfl⟩
        · cases isNone
        · cases isFound
          exact ⟨again, still, later', rfl⟩
    · left
      have moved : ¬ Reached (timing + call.clockEdge) c.allthreads.all := by
        intro also
        exact still (add_eq_left.mp (also.1.symm.trans reached.1))
      obtain ⟨rfl, kept⟩ := next'.loop_idle rest moved looped
      rw [firedOne_store] at kept
      exact ⟨again, still, rfl, kept ▸ next⟩

end Rounds

def callOf (s : Processor) : Action → Option Call
  | .control _ | .leaveCycle _ => none
  | .beginCycle i model clockEdge =>
      (capture model s.machine.fi (s.machine.contexts i)).bind fun read =>
        if read.1 then read.2.map fun ptr => .increaseTicks i ptr clockEdge else none
  | .main i hook =>
      (s.cycles i).bind fun cycle =>
        if cycle.runsMain s.machine.fi then cycle.currThread.map fun ptr => .main i ptr hook
        else none
  | .fetch i hook inst =>
      (s.cycles i).bind fun cycle =>
        if cycle.enabledFi then cycle.currThread.map fun ptr => .fetch i ptr hook inst else none
  | .decode i hook inst =>
      (s.cycles i).bind fun cycle =>
        if cycle.runsDecode s.machine.fi then cycle.currThread.map fun ptr => .decode i ptr hook inst
        else none
  | .iew i hook operand => some (.iew i hook operand)
  | .lds i hook operand => some (.lds i hook operand)
  | .endCycle i latency =>
      (s.cycles i).bind fun cycle =>
        if cycle.chargesLatency then cycle.currThread.map fun ptr => .increaseTicks i ptr latency
        else none

def Front.looksAt (front : Front) (m : Machine) : Call → Option (Nat × HookCall)
  -- the context and the arguments of a call that gets to the queue: the thread is started, and
  -- fetch_fault counts the instruction
  | .main i ptr hook =>
      if front = .main ∧ m.fi.modeOf ptr = some .start then some (i, hook) else none
  | .fetch i ptr hook inst =>
      if front = .fetch ∧ FetchSchedule.counted m.fi ⟨m.contexts i, ptr, hook, inst⟩ = true then
        some (i, hook)
      else none
  | _ => none

def Front.looks (front : Front) (s : Processor) (action : Action) : Option (Nat × HookCall) :=
  (callOf s action).bind (front.looksAt s.machine)

def Front.counters (front : Front) (m : Machine) (i : Nat) : Option CpuExecutedTicks :=
  -- the counters of all threads as such a call scans them; fetch_fault has counted its instruction
  -- by then
  match front with
  | .main => m.fi.allthreads.map fun all => all.all
  | .fetch => m.fi.allthreads.map fun all =>
      (all.increaseFetchedInstr (m.contexts i).cpuName).all

section Steps

variable {front : Front} {fuel i : Nat} {m m' : Machine} {call : Call} {hook : HookCall}
  {fired : List FaultPtr} {s next : Processor} {action : Action}

theorem fireDue_loop {q : StageQueue} {tc : ThreadContext} {ptr : ThreadPtr} {fi fi' : FiSystem}
    {value value' : StageValue q}
    (returned : fireDue fuel q tc ptr hook value fi = some (fi', value', fired)) :
    ∃ c, fi.allthreads = some c.allthreads ∧
      fireLoop fuel q c hook fuel value fi = some (fi', value', fired) := by
  obtain ⟨c, context, looped⟩ := Option.bind_eq_some_iff.mp returned
  obtain ⟨all, global, read⟩ := Option.bind_eq_some_iff.mp context
  obtain ⟨_, _, result⟩ := Option.bind_eq_some_iff.mp read
  cases result
  exact ⟨_, global, looped⟩

theorem looking_call (looks : front.looksAt m call = some (i, hook))
    (made : makeCall fuel m call = some (m', fired)) :
    ∃ c value fi value' fi', fi.store = m.fi.store ∧
      front.counters m i = some c.allthreads.all ∧
      fireLoop fuel front.queue c hook fuel value fi = some (fi', value', fired) ∧
      m'.fi.store = fi'.store := by
  cases call with
  | main j ptr hook' =>
      obtain ⟨⟨rfl, started⟩, same⟩ := Option.ite_none_right_eq_some.mp looks
      cases same
      obtain ⟨⟨fi', fired'⟩, returned, result⟩ := Option.bind_eq_some_iff.mp made
      cases result
      obtain ⟨thread, object, rest⟩ := Option.bind_eq_some_iff.mp returned
      rw [if_neg (not_not.mpr ((modeOf_of_threadInfo object).symm.trans started))] at rest
      obtain ⟨⟨fi'', value', fired''⟩, due, result⟩ := Option.bind_eq_some_iff.mp rest
      cases result
      obtain ⟨c, global, looped⟩ := fireDue_loop due
      refine ⟨c, (), m.fi, value', fi', rfl, ?_, looped, rfl⟩
      rw [Front.counters, global, Option.map_some]
  | fetch j ptr hook' inst =>
      obtain ⟨⟨rfl, counts⟩, same⟩ := Option.ite_none_right_eq_some.mp looks
      cases same
      obtain ⟨⟨fi', inst', fired'⟩, returned, result⟩ := Option.bind_eq_some_iff.mp made
      cases result
      obtain ⟨thread, object, rest⟩ := Option.bind_eq_some_iff.mp returned
      simp only [FetchSchedule.counted, Bool.and_eq_true, decide_eq_true_eq,
        Bool.not_eq_true'] at counts
      obtain ⟨⟨⟨started, plain⟩, full⟩, user⟩ := counts
      rw [if_neg (not_not.mpr ((modeOf_of_threadInfo object).symm.trans started))] at rest
      dsimp only at rest
      rw [if_neg (by simp [plain]), if_pos (by simp [full, user])] at rest
      obtain ⟨counted, both, due⟩ := Option.bind_eq_some_iff.mp rest
      have counts : Counts _ ptr (some ⟨(m.contexts i).cpuName, .fetched⟩) counted :=
        countBoth_counts (fun _ => rfl) both
      obtain ⟨all, before, after⟩ := counts.allthreads
      obtain ⟨c, global, looped⟩ := fireDue_loop due
      rw [after] at global
      have store := countBoth_store both
      refine ⟨c, inst, counted, inst', fi', store, ?_, looped, rfl⟩
      rw [Front.counters]
      dsimp only at before
      rw [before, Option.map_some, ← Option.some.inj global]
      rfl
  | control _ | decode _ _ _ _ | iew _ _ _ | lds _ _ _ | increaseTicks _ _ _ => cases looks

theorem unstarted_main {j : Nat} {ptr : ThreadPtr} {hook' : HookCall}
    (unstarted : m.fi.modeOf ptr ≠ some .start)
    (made : makeCall fuel m (.main j ptr hook') = some (m', fired)) :
    m'.fi.store = m.fi.store ∧ fired = [] := by
  obtain ⟨⟨fi', fired'⟩, returned, result⟩ := Option.bind_eq_some_iff.mp made
  cases result
  obtain ⟨thread, object, rest⟩ := Option.bind_eq_some_iff.mp returned
  rw [if_pos (fun started => unstarted ((modeOf_of_threadInfo object).trans started))] at rest
  cases rest
  exact ⟨rfl, rfl⟩

theorem uncounted_fetch {j : Nat} {ptr : ThreadPtr} {hook' : HookCall} {inst : MachInst}
    (uncounted : ¬ FetchSchedule.counted m.fi ⟨m.contexts j, ptr, hook', inst⟩ = true)
    (made : makeCall fuel m (.fetch j ptr hook' inst) = some (m', fired)) :
    m'.fi.store = m.fi.store ∧ fired = [] := by
  obtain ⟨⟨fi', inst', fired'⟩, returned, result⟩ := Option.bind_eq_some_iff.mp made
  cases result
  obtain ⟨thread, object, rest⟩ := Option.bind_eq_some_iff.mp returned
  split at rest
  · cases rest
    exact ⟨rfl, rfl⟩
  · rename_i started
    dsimp only at rest
    split at rest
    · cases rest
      exact ⟨rfl, rfl⟩
    · rename_i plain
      split at rest
      · rename_i user
        have mode := (modeOf_of_threadInfo object).trans (not_not.mp started)
        exact absurd (by simpa [FetchSchedule.counted, mode, plain] using user) uncounted
      · cases rest
        exact ⟨rfl, rfl⟩

/-- Every other call leaves the queue alone: it touches no fault, or works on another
queue. -/
theorem other_call {lists : StageQueue → List FaultPtr} (held : Represents m.fi.store lists)
    (elsewhere : front.looksAt m call = none) (works : ∀ request, call ≠ .control request)
    (made : makeCall fuel m call = some (m', fired)) :
    (m'.fi.store = m.fi.store ∧ fired = []) ∨
      ∃ q, q ≠ front.queue ∧ (∃ lists', Within q m.fi.store lists m'.fi.store lists') ∧
        ∀ g ∈ fired, g ∈ lists q := by
  rcases makeCall_within held made works with ⟨_, kept, nothing⟩ | ⟨q, isQueue, within, members⟩
  · exact Or.inl ⟨kept, nothing⟩
  · by_cases own : q = front.queue
    · -- the hook of the queue itself, but it returns before it scans
      left
      subst own
      cases call with
      | main j ptr hook' =>
          apply unstarted_main _ made
          intro started
          have isMain : front = .main := by
            cases front with
            | main => rfl
            | fetch => cases isQueue
          rw [Front.looksAt, if_pos ⟨isMain, started⟩] at elsewhere
          cases elsewhere
      | fetch j ptr hook' inst =>
          apply uncounted_fetch _ made
          intro counts
          have isFetch : front = .fetch := by
            cases front with
            | main => cases isQueue
            | fetch => rfl
          rw [Front.looksAt, if_pos ⟨isFetch, counts⟩] at elsewhere
          cases elsewhere
      | control request => exact absurd rfl (works request)
      | decode _ _ _ _ | iew _ _ _ | lds _ _ _ | increaseTicks _ _ _ => cases front <;> cases isQueue
    · exact Or.inr ⟨q, own, within, members⟩

/-- The step from `s` to `next` made this call and no other, and noted the faults that
it fired. -/
def Makes (fuel : Nat) (s next : Processor) : Option Call → Prop
  | none => next.machine = s.machine ∧ next.manifested = s.manifested
  | some call => (∀ request, call ≠ .control request) ∧
      ∃ i fired, makeCall fuel s.machine call = some (next.machine, fired) ∧
        next.manifested =
          s.manifested ++ fired.map fun f => (getFiThread (s.machine.contexts i), f)

theorem perform_makes (works : ∀ request, call ≠ .control request)
    (performed : s.perform fuel i call = some next) : Makes fuel s next (some call) := by
  obtain ⟨⟨m, fired⟩, made, result⟩ := Option.bind_eq_some_iff.mp performed
  cases result
  exact ⟨works, i, fired, made, rfl⟩

theorem performFor_makes {guard : Bool} {thread : Option ThreadPtr} {call : ThreadPtr → Call}
    (works : ∀ ptr request, call ptr ≠ .control request)
    (performed : s.performFor fuel i guard thread call = some next) :
    Makes fuel s next (if guard then thread.map call else none) := by
  unfold Processor.performFor at performed
  split at performed
  · rename_i guarded
    obtain ⟨ptr, points, performed⟩ := Option.bind_eq_some_iff.mp performed
    rw [if_pos guarded, points, Option.map_some]
    exact perform_makes (works ptr) performed
  · rename_i shut
    cases performed
    rw [if_neg shut]
    exact ⟨rfl, rfl⟩

theorem step_makes (stepped : s.step fuel action = some next) :
    (∃ request, action = .control request ∧
      controlStep fuel s.machine request = some next.machine ∧ next.manifested = s.manifested) ∨
    Makes fuel s next (callOf s action) := by
  cases action with
  | control request =>
      obtain ⟨m, controlled, result⟩ := Option.bind_eq_some_iff.mp stepped
      cases result
      exact Or.inl ⟨request, rfl, controlled, rfl⟩
  | beginCycle i model clockEdge =>
      obtain ⟨⟨enabledFi, thread⟩, read, performed⟩ := Option.bind_eq_some_iff.mp stepped
      have makes := performFor_makes (fun _ _ => by simp) performed
      rw [callOf, read, Option.bind_some]
      exact Or.inr makes
  | main i hook =>
      obtain ⟨cycle, current, performed⟩ := Option.bind_eq_some_iff.mp stepped
      rw [callOf, current, Option.bind_some]
      exact Or.inr (performFor_makes (fun _ _ => by simp) performed)
  | fetch i hook inst =>
      obtain ⟨cycle, current, performed⟩ := Option.bind_eq_some_iff.mp stepped
      rw [callOf, current, Option.bind_some]
      exact Or.inr (performFor_makes (fun _ _ => by simp) performed)
  | decode i hook inst =>
      obtain ⟨cycle, current, performed⟩ := Option.bind_eq_some_iff.mp stepped
      rw [callOf, current, Option.bind_some]
      exact Or.inr (performFor_makes (fun _ _ => by simp) performed)
  | iew i hook operand => exact Or.inr (perform_makes (fun _ => by simp) stepped)
  | lds i hook operand => exact Or.inr (perform_makes (fun _ => by simp) stepped)
  | endCycle i latency =>
      obtain ⟨cycle, current, rest⟩ := Option.bind_eq_some_iff.mp stepped
      obtain ⟨after, performed, result⟩ := Option.bind_eq_some_iff.mp rest
      cases result
      have makes := performFor_makes (fun _ _ => by simp) performed
      rw [callOf, current, Option.bind_some]
      exact Or.inr makes
  | leaveCycle i =>
      cases stepped
      exact Or.inr ⟨rfl, rfl⟩

end Steps

section Cycles

def firingsOf (f : FaultPtr) (s : Processor) : Nat := (s.manifested.map Prod.snd).count f

/-- A run after the first firing of a fault. `armed` are the contexts with a ticked
cycle that began since and whose hook has not got to the queue yet, `firings` is how
often the fault should have been fired: once more for each such cycle. `mark` is the
counter of all threads at the last of these firings and `edge` the clock edge then. -/
structure TickRun where
  processor : Processor
  firings : Nat
  armed : Nat → Bool
  mark : Word
  edge : Word

def TickRun.follow (front : Front) (n : Nat) (r : TickRun) (action : Action) : TickRun :=
  match front.looks r.processor action with
  | some (i, hook) =>
      if r.armed i = true ∧ r.firings < n then
        { r with
          firings := r.firings + 1
          armed := Function.update r.armed i false
          mark := ((front.counters r.processor.machine i).map CpuExecutedTicks.ticks).getD 0
          edge := hook.clockEdge }
      else r
  | none =>
      match action with
      | .beginCycle i _ _ =>
          -- a cycle is ticked if it calls increaseTicks when it begins
          { r with armed := Function.update r.armed i (callOf r.processor action).isSome }
      | _ => r

def tickStep (fuel : Nat) (front : Front) (n : Nat) (r : TickRun) (action : Action) :
    Option TickRun :=
  (r.processor.step fuel action).map fun s => { r.follow front n action with processor := s }

/-- The fault was fired at the first call in each ticked cycle and at no other, and is
removed after the last of its occurrences. -/
def FiresEachCycle (front : Front) (f : FaultPtr) (n base : Nat) (r : TickRun) : Prop :=
  firingsOf f r.processor = base + r.firings ∧
    (r.firings = n → r.processor.machine.fi.store.empty front.queue = true)

/-- A call that gets to the queue while occurrences are left finds the counter of all
threads moved by the clock edge of the last firing exactly if it is the first of a
ticked cycle; and unless no occurrence is left then, the clock edge is not at zero. -/
def Timely (front : Front) (n : Nat) (r : TickRun) (action : Action) : Prop :=
  ∀ i hook, front.looks r.processor action = some (i, hook) → r.firings < n →
    ∀ counters, front.counters r.processor.machine i = some counters →
      (Reached (r.mark + r.edge) counters ↔ r.armed i = true) ∧
        (r.armed i = true → r.firings + 1 < n → hook.clockEdge ≠ 0)

def Continues (_ : TickRun) (action : Action) : Prop := ∀ records, action ≠ .control (.reset records)

/-- All is well so far: the fault waits with its remaining occurrences, or has left. -/
structure OnTime (front : Front) (f : FaultPtr) (n base : Nat) (r : TickRun) : Prop where
  fired : firingsOf f r.processor = base + r.firings
  within : r.firings ≤ n
  waiting : r.firings < n → ∃ lists, Waiting front f (r.mark + r.edge) ((n : Int) - r.firings)
    lists r.processor.machine.fi.store
  gone : r.firings = n → ∃ lists, Represents r.processor.machine.fi.store lists ∧
    lists front.queue = [] ∧ ∀ q, f ∉ lists q

variable {front : Front} {fuel n base : Nat} {f : FaultPtr} {r next : TickRun} {action : Action}
  {s s' : Processor}

theorem OnTime.firesEachCycle (onTime : OnTime front f n base r) :
    FiresEachCycle front f n base r := by
  refine ⟨onTime.fired, fun used => ?_⟩
  obtain ⟨lists, held, vacant, _⟩ := onTime.gone used
  exact (empty_linked_iff (held.linked front.queue)).mpr vacant

theorem firingsOf_noted {addr : Addr} {fired : List FaultPtr}
    (noted : s'.manifested = s.manifested ++ fired.map fun f => (addr, f)) :
    firingsOf f s' = firingsOf f s + fired.count f := by
  rw [firingsOf, noted, List.map_append, List.count_append, List.map_map]
  have same : (Prod.snd ∘ fun f : FaultPtr => (addr, f)) = id := rfl
  rw [same, List.map_id]
  rfl

theorem control_store {m m' : Machine} {request : Control}
    (continues : ∀ records, request ≠ .reset records)
    (stepped : controlStep fuel m request = some m') : m'.fi.store = m.fi.store := by
  cases controlStep_effect stepped with
  | reloaded records _ _ => exact absurd rfl (continues records)
  | dumped _ _ curTick => exact (scheduleswitch_frame curTick _).2.2.2.2
  | marked i pc =>
      unfold FiSystem.getPcAddress
      dsimp only
      split <;> rfl
  | created | resumed | ignored | paused | stopped | notActive | switched | modeSet => rfl

theorem follow_quiet (elsewhere : front.looks r.processor action = none) :
    ∃ armed, r.follow front n action = { r with armed := armed } := by
  unfold TickRun.follow
  rw [elsewhere]
  cases action <;> exact ⟨_, rfl⟩

structure LeavesAlone (front : Front) (f : FaultPtr) (lists : StageQueue → List FaultPtr)
    (s s' : Processor) : Prop where
  count : firingsOf f s' = firingsOf f s
  mem : s'.machine.fi.store.mem f = s.machine.fi.store.mem f
  held : ∃ lists', Represents s'.machine.fi.store lists' ∧
    lists' front.queue = lists front.queue ∧ ((∀ q, f ∉ lists q) → ∀ q, f ∉ lists' q)

/-- What a step that does not get to the queue does to a fault that no other queue
holds. -/
theorem step_elsewhere {lists : StageQueue → List FaultPtr}
    (held : Represents s.machine.fi.store lists)
    (apart : ∀ q, q ≠ front.queue → f ∉ lists q)
    (continues : ∀ records, action ≠ .control (.reset records))
    (elsewhere : front.looks s action = none) (stepped : s.step fuel action = some s') :
    LeavesAlone front f lists s s' := by
  have unchanged (store : s'.machine.fi.store = s.machine.fi.store)
      (count : firingsOf f s' = firingsOf f s) : LeavesAlone front f lists s s' :=
    ⟨count, by rw [store], lists, store ▸ held, rfl, fun absent => absent⟩
  rcases step_makes stepped with ⟨request, rfl, controlled, noted⟩ | makes
  · apply unchanged (control_store (fun records same => continues records (same ▸ rfl)) controlled)
    rw [firingsOf, noted]
    rfl
  · cases isCall : callOf s action with
    | none =>
        rw [isCall] at makes
        obtain ⟨machine, noted⟩ := makes
        apply unchanged (by rw [machine])
        rw [firingsOf, noted]
        rfl
    | some call =>
        rw [isCall] at makes
        rw [Front.looks, isCall, Option.bind_some] at elsewhere
        obtain ⟨works, i, fired, made, noted⟩ := makes
        rcases other_call held elsewhere works made with
          ⟨kept, rfl⟩ | ⟨q, other, ⟨lists', within⟩, members⟩
        · exact unchanged kept (firingsOf_noted noted)
        · have outside := apart q other
          have none' : fired.count f = 0 :=
            List.count_eq_zero.mpr fun member => outside (members f member)
          refine ⟨?_, within.untouched f outside, lists', within.held, ?_, within.absent⟩
          · rw [firingsOf_noted noted, none', Nat.add_zero]
          · exact within.others _ (Ne.symm other)

/-- Such a step leaves all as it is. -/
theorem OnTime.elsewhere (onTime : OnTime front f n base r) (continues : Continues r action)
    (quiet : front.looks r.processor action = none)
    (stepped : tickStep fuel front n r action = some next) : OnTime front f n base next := by
  obtain ⟨s', moved, rfl⟩ := Option.map_eq_some_iff.mp stepped
  obtain ⟨armed, follows⟩ := follow_quiet (n := n) quiet
  rw [follows]
  by_cases used : r.firings < n
  · obtain ⟨lists, waiting⟩ := onTime.waiting used
    obtain ⟨count, mem, ⟨lists', held, own, _⟩⟩ :=
      step_elsewhere waiting.held waiting.apart continues quiet moved
    refine ⟨count.trans onTime.fired, onTime.within, fun _ => ⟨lists', held, ?_, ?_⟩, fun all => ?_⟩
    · exact own.trans waiting.alone
    · exact mem ▸ waiting.fault
    · exact absurd all (Nat.ne_of_lt used)
  · have all : r.firings = n := Nat.le_antisymm onTime.within (Nat.not_lt.mp used)
    obtain ⟨lists, held, vacant, absent⟩ := onTime.gone all
    obtain ⟨count, _, ⟨lists', held', own, gone⟩⟩ :=
      step_elsewhere held (fun q _ => absent q) continues quiet moved
    refine ⟨count.trans onTime.fired, onTime.within, fun more => absurd more used, fun _ => ?_⟩
    exact ⟨lists', held', own.trans vacant, gone absent⟩

variable {i : Nat} {hook : HookCall} {counters : CpuExecutedTicks}

theorem step_looks (looks : front.looks s action = some (i, hook))
    (stepped : s.step fuel action = some s') :
    ∃ c value fi value' fi' fired, fi.store = s.machine.fi.store ∧
      front.counters s.machine i = some c.allthreads.all ∧
      fireLoop fuel front.queue c hook fuel value fi = some (fi', value', fired) ∧
      s'.machine.fi.store = fi'.store ∧ firingsOf f s' = firingsOf f s + fired.count f := by
  obtain ⟨call, isCall, looksAt⟩ := Option.bind_eq_some_iff.mp looks
  rcases step_makes stepped with ⟨request, rfl, _⟩ | makes
  · cases isCall
  · rw [isCall] at makes
    obtain ⟨_, j, fired, made, noted⟩ := makes
    obtain ⟨c, value, fi, value', fi', before, read, looped, after⟩ := looking_call looksAt made
    exact ⟨c, value, fi, value', fi', fired, before, read, looped, after, firingsOf_noted noted⟩

/-- What a step that gets to the queue does to the fault that waits there. -/
theorem Waiting.looked {timing : Word} {occurrence : Int} {lists : StageQueue → List FaultPtr}
    (waiting : Waiting front f timing occurrence lists s.machine.fi.store)
    (looks : front.looks s action = some (i, hook)) (stepped : s.step fuel action = some s')
    (read : front.counters s.machine i = some counters) :
    (¬ Reached timing counters ∧ firingsOf f s' = firingsOf f s ∧
        s'.machine.fi.store = s.machine.fi.store) ∨
      (Reached timing counters ∧ occurrence = 1 ∧ firingsOf f s' = firingsOf f s + 1 ∧
        Represents s'.machine.fi.store (Function.update lists front.queue [])) ∨
      (Reached timing counters ∧ occurrence ≠ 1 ∧ hook.clockEdge ≠ 0 ∧
        firingsOf f s' = firingsOf f s + 1 ∧
        Waiting front f (timing + hook.clockEdge) ((occurrence - 1).bmod (2 ^ 32)) lists
          s'.machine.fi.store) ∨
      (Reached timing counters ∧ occurrence ≠ 1 ∧ hook.clockEdge = 0 ∧
        firingsOf f s + 1 < firingsOf f s') := by
  obtain ⟨c, value, fi, value', fi', fired, before, read', looped, after, noted⟩ :=
    step_looks (f := f) looks stepped
  rw [read] at read'
  cases read'
  rw [← before] at waiting
  rw [noted, after, ← before]
  by_cases reached : Reached timing c.allthreads.all
  · rcases waiting.loop_due fuel reached looped with
      ⟨last, rfl, gone⟩ | ⟨again, moving, rfl, next⟩ | ⟨again, still, later, rfl⟩
    · exact Or.inr (Or.inl ⟨reached, last, by simp, gone⟩)
    · exact Or.inr (Or.inr (Or.inl ⟨reached, again, moving, by simp, next⟩))
    · refine Or.inr (Or.inr (Or.inr ⟨reached, again, still, ?_⟩))
      rw [List.count_cons_self, List.count_cons_self]
      omega
  · obtain ⟨rfl, kept⟩ := waiting.loop_idle fuel reached looped
    exact Or.inl ⟨reached, rfl, kept⟩

/-- A step that gets to the queue when all occurrences are used up. -/
theorem OnTime.used (onTime : OnTime front f n base r) (all : r.firings = n)
    (looks : front.looks r.processor action = some (i, hook))
    (stepped : tickStep fuel front n r action = some next) : OnTime front f n base next := by
  obtain ⟨s', moved, rfl⟩ := Option.map_eq_some_iff.mp stepped
  obtain ⟨lists, held, vacant, absent⟩ := onTime.gone all
  obtain ⟨c, value, fi, value', fi', fired, before, _, looped, after, noted⟩ :=
    step_looks (f := f) looks moved
  obtain ⟨rfl, kept⟩ := vacant_loop fuel (before.symm ▸ held) vacant looped
  have same : r.follow front n action = r := by
    unfold TickRun.follow
    rw [looks]
    dsimp only
    rw [if_neg (fun armed => Nat.ne_of_lt armed.2 all)]
  rw [same]
  refine ⟨noted.trans onTime.fired, onTime.within, fun more => absurd all (Nat.ne_of_lt more), ?_⟩
  intro _
  refine ⟨lists, ?_, vacant, absent⟩
  dsimp only
  rw [after, kept, before]
  exact held

theorem timely_iff (left : r.firings < n)
    (looks : front.looks r.processor action = some (i, hook))
    (read : front.counters r.processor.machine i = some counters) :
    Timely front n r action ↔
      (Reached (r.mark + r.edge) counters ↔ r.armed i = true) ∧
        (r.armed i = true → r.firings + 1 < n → hook.clockEdge ≠ 0) := by
  constructor
  · intro timely
    exact timely i hook looks left counters read
  · intro here j hook' looks' _ counters' read'
    rw [looks] at looks'
    cases looks'
    rw [read] at read'
    cases read'
    exact here

theorem OnTime.unarmed (onTime : OnTime front f n base r) (left : r.firings < n)
    (looks : front.looks r.processor action = some (i, hook)) (unarmed : r.armed i = false)
    (stepped : tickStep fuel front n r action = some next) :
    (Timely front n r action → OnTime front f n base next) ∧
      (¬ Timely front n r action → ¬ FiresEachCycle front f n base next) := by
  obtain ⟨s', moved, rfl⟩ := Option.map_eq_some_iff.mp stepped
  obtain ⟨lists, waiting⟩ := onTime.waiting left
  obtain ⟨c, _, _, _, _, _, _, read, _⟩ := step_looks (f := f) looks moved
  have same : r.follow front n action = r := by
    unfold TickRun.follow
    rw [looks]
    dsimp only
    rw [if_neg (by simp [unarmed])]
  have fired := onTime.fired
  have early : Timely front n r action ↔ ¬ Reached (r.mark + r.edge) c.allthreads.all := by
    rw [timely_iff left looks read, unarmed]
    simp
  rw [early, same, not_not]
  constructor
  · intro early
    rcases waiting.looked looks moved read with ⟨_, count, store⟩ | ⟨reached, _⟩ | ⟨reached, _⟩ |
      ⟨reached, _⟩
    · exact ⟨count.trans fired, onTime.within, fun _ => ⟨lists, store ▸ waiting⟩,
        fun all => absurd all (Nat.ne_of_lt left)⟩
    · exact absurd reached early
    · exact absurd reached early
    · exact absurd reached early
  · intro reached once
    have count : firingsOf f s' = base + r.firings := once.1
    rcases waiting.looked looks moved read with ⟨early, _⟩ | ⟨_, _, more, _⟩ | ⟨_, _, _, more, _⟩ |
      ⟨_, _, _, more⟩
    · exact early reached
    all_goals omega

/-- The first call of a ticked cycle has to find it due. -/
theorem OnTime.armed (onTime : OnTime front f n base r) (small : n < 2 ^ 31)
    (left : r.firings < n) (looks : front.looks r.processor action = some (i, hook))
    (armed : r.armed i = true) (stepped : tickStep fuel front n r action = some next) :
    (Timely front n r action → OnTime front f n base next) ∧
      (¬ Timely front n r action → ¬ FiresEachCycle front f n base next) := by
  obtain ⟨s', moved, rfl⟩ := Option.map_eq_some_iff.mp stepped
  obtain ⟨lists, waiting⟩ := onTime.waiting left
  obtain ⟨c, _, _, _, _, _, _, read, _⟩ := step_looks (f := f) looks moved
  have follows : r.follow front n action =
      { r with
        firings := r.firings + 1
        armed := Function.update r.armed i false
        mark := c.allthreads.all.ticks
        edge := hook.clockEdge } := by
    unfold TickRun.follow
    rw [looks]
    dsimp only
    rw [if_pos ⟨armed, left⟩, read]
    rfl
  have fired := onTime.fired
  have due : Timely front n r action ↔ Reached (r.mark + r.edge) c.allthreads.all ∧
      (r.firings + 1 < n → hook.clockEdge ≠ 0) := by
    rw [timely_iff left looks read, armed]
    simp
  rw [due, follows]
  constructor
  · rintro ⟨reached, moving⟩
    rcases waiting.looked looks moved read with ⟨early, _⟩ | ⟨_, last, count, gone⟩ |
      ⟨_, again, _, count, next⟩ | ⟨_, again, still, _⟩
    · exact absurd reached early
    · have all : r.firings + 1 = n := by omega
      refine ⟨by dsimp only; omega, left, fun more => absurd all (Nat.ne_of_lt more), fun _ => ?_⟩
      refine ⟨_, gone, Function.update_self _ _ _, fun q => ?_⟩
      by_cases own : q = front.queue
      · rw [own, Function.update_self]
        exact List.not_mem_nil
      · rw [Function.update_of_ne own]
        exact waiting.apart q own
    · refine ⟨by dsimp only; omega, left, fun _ => ⟨lists, ?_⟩, fun all => ?_⟩
      · rw [FetchSchedule.bmod_small _ (by omega) (by omega)] at next
        dsimp only
        rw [reached.1, Nat.cast_add, Nat.cast_one, ← sub_sub]
        exact next
      · dsimp only at all
        omega
    · exact absurd still (moving (by omega))
  · intro untimely once
    have count : firingsOf f s' = base + (r.firings + 1) := once.1
    rcases waiting.looked looks moved read with ⟨_, same, _⟩ | ⟨reached, last, _⟩ |
      ⟨reached, _, moving, _⟩ | ⟨_, _, _, more⟩
    · omega
    · exact untimely ⟨reached, fun more => by omega⟩
    · exact untimely ⟨reached, fun _ => moving⟩
    · omega

/-- One step of the run: a timely call leaves all well, and an untimely one shows. -/
theorem OnTime.step (onTime : OnTime front f n base r) (small : n < 2 ^ 31)
    (continues : Continues r action) (stepped : tickStep fuel front n r action = some next) :
    (Timely front n r action → OnTime front f n base next) ∧
      (¬ Timely front n r action → ¬ FiresEachCycle front f n base next) := by
  cases looks : front.looks r.processor action with
  | none =>
      refine ⟨fun _ => onTime.elsewhere continues looks stepped, fun untimely => ?_⟩
      refine absurd (fun i hook isLook => ?_) untimely
      rw [looks] at isLook
      cases isLook
  | some call =>
      by_cases left : r.firings < n
      · cases isArmed : r.armed call.1 with
        | false => exact onTime.unarmed left looks isArmed stepped
        | true => exact onTime.armed small left looks isArmed stepped
      · have all : r.firings = n := Nat.le_antisymm onTime.within (Nat.not_lt.mp left)
        refine ⟨fun _ => onTime.used all looks stepped, fun untimely => ?_⟩
        exact absurd (fun _ _ _ more => absurd more left) untimely

end Cycles

/-- The fault has the timing `t` and `n` occurrences, and the step from `s` to `next` is
the first to fire it. -/
structure FirstFiring (fuel : Nat) (front : Front) (f : FaultPtr) (t : Word) (n : Nat)
    (s next : Processor) (first : Action) (hook : HookCall) : Prop where
  waits : ∃ lists, Waiting front f t n lists s.machine.fi.store
  looks : ∃ i, front.looks s first = some (i, hook)
  stepped : s.step fuel first = some next
  happens : firingsOf f s < firingsOf f next

/-- In every run from its first firing on, a fault Tick:t fires once more at the first
call in each ticked cycle until its occurrences are used up, and is then removed,
exactly when the clock edge at that firing is not at zero and every call is timely. -/
theorem tick_fault_fires_iff (fuel : Nat) (front : Front) (f : FaultPtr) (t : Word) (n : Nat)
    (s next : Processor) (first : Action) (hook : HookCall) (rest : List Action)
    (several : 2 ≤ n) (small : n < 2 ^ 31)
    (firing : FirstFiring fuel front f t n s next first hook)
    (continues : ∀ records, .control (.reset records) ∉ rest) :
    Always (tickStep fuel front n) (FiresEachCycle front f n (firingsOf f s)) rest
        ⟨next, 1, fun _ => false, t, hook.clockEdge⟩ ↔
      hook.clockEdge ≠ 0 ∧ EachStep (tickStep fuel front n) (Timely front n) rest
        ⟨next, 1, fun _ => false, t, hook.clockEdge⟩ := by
  obtain ⟨lists, waiting⟩ := firing.waits
  obtain ⟨i, looks⟩ := firing.looks
  obtain ⟨c, _, _, _, _, _, _, read, _⟩ := step_looks (f := f) looks firing.stepped
  have happens := firing.happens
  have continuing : EachStep (tickStep fuel front n) Continues rest
      ⟨next, 1, fun _ => false, t, hook.clockEdge⟩ := by
    intro before action after _ _ split _ _ records isReset
    apply continues records
    rw [split, ← isReset]
    exact List.mem_append_right before List.mem_cons_self
  rcases waiting.looked looks firing.stepped read with ⟨_, same, _⟩ | ⟨_, last, _⟩ |
    ⟨_, again, moving, count, waits⟩ | ⟨_, _, still, more⟩
  · omega
  · omega
  · rw [and_iff_right moving]
    apply always_iff_eachStep_of_invariant (fun _ => OnTime.firesEachCycle) _ _ rest _ _ continuing
    · intro r action r' onTime goesOn stepped timely
      exact (onTime.step small goesOn stepped).1 timely
    · intro r action r' onTime goesOn stepped untimely
      exact (onTime.step small goesOn stepped).2 untimely
    · refine ⟨count, by dsimp only; omega, fun _ => ⟨lists, ?_⟩, fun all => ?_⟩
      · rw [FetchSchedule.bmod_small _ (by omega) (by omega)] at waits
        exact waits
      · dsimp only at all
        omega
  · constructor
    · intro always
      have once := (always [] rest _ rfl rfl).1
      dsimp only at once
      omega
    · rintro ⟨moving, _⟩
      exact absurd still moving

def tickingProcessor : Processor :=
  -- a started thread, with a fault Tick:1000 of two occurrences in the fetch queue, in the first
  -- cycle of a CPU whose clock ticks every 1000
  let fi := { bootedMachine.fi with store := singleFault (fetchRecord .tick 1000 2) }
  let fi' := (fi.startFi (bootedMachine.contexts 0) 0).1
  let tc := (fi.startFi (bootedMachine.contexts 0) 0).2
  ((⟨⟨fi', fun _ => tc⟩, fun _ => none, []⟩ : Processor).step 9 (.beginCycle 0 .o3 1000)).getD
    ⟨⟨fi', fun _ => tc⟩, fun _ => none, []⟩

def fetchAt (i : Nat) (edge : Word) : Action := .fetch i ⟨0, 0, edge, 0⟩ 0x47ff041f

def firedProcessor : Processor := (tickingProcessor.step 9 (fetchAt 0 1000)).getD tickingProcessor

theorem tickingProcessor_fires :
    FirstFiring 9 .fetch 0 1000 2 tickingProcessor firedProcessor (fetchAt 0 1000)
      ⟨0, 0, 1000, 0⟩ where
  waits := by
    refine ⟨_, (singleFault_holds (fetchRecord .tick 1000 2)).held, rfl, ?_⟩
    constructor <;> rfl
  looks := ⟨0, rfl⟩
  stepped := rfl
  happens := by decide

/-- A second CPU, whose clock ticks every 500, begins its cycle at tick 500: its next
clock edge but one is at 1000 too. -/
theorem other_cpu_repeats :
    Always (tickStep 9 .fetch 2) (FiresEachCycle .fetch 0 2 0)
      [.beginCycle 1 .o3 1000, fetchAt 1 1000] ⟨firedProcessor, 1, fun _ => false, 1000, 1000⟩ := by
  apply (tick_fault_fires_iff 9 .fetch 0 1000 2 tickingProcessor firedProcessor (fetchAt 0 1000)
    ⟨0, 0, 1000, 0⟩ _ (by decide) (by decide) tickingProcessor_fires (by simp [fetchAt])).mpr
  refine ⟨by decide, ?_⟩
  rw [eachStep_cons_iff]
  intro begun began
  refine ⟨fun _ _ looks => absurd looks (Option.some_ne_none _).symm, ?_⟩
  rw [eachStep_cons_iff]
  intro ended _
  cases began
  refine ⟨?_, eachStep_nil _ _⟩
  apply (timely_iff (i := 1) (by decide) rfl rfl).mpr
  decide

/-- On the first CPU the next cycle begins at tick 1000 and charges the edge at 2000:
the counter reads 3000, the fault waits for 2000. -/
theorem next_cycle_misses :
    ¬ Always (tickStep 9 .fetch 2) (FiresEachCycle .fetch 0 2 0)
      [.endCycle 0 0, .beginCycle 0 .o3 2000, fetchAt 0 2000]
      ⟨firedProcessor, 1, fun _ => false, 1000, 1000⟩ := by
  intro always
  have once := (always _ [] _ (List.append_nil _).symm rfl).1
  revert once
  decide

end GemFi.TickFaults
