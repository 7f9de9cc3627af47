import GemFi.Hooks
import GemFi.Rescheduling

/-!
The schedule of one fault in the fetch queue that waits for an instruction
count over all CPUs and threads. Fetches that count move the counter by one, the
fault is due when the counter meets its timing, and rescheduling moves the
timing to the next instruction until the occurrences are used up.
-/

namespace GemFi.FetchSchedule

open LinkedLists ThreadInfo Transitions FaultQueue QueueRepresentation Corruption FaultScan
open Activation Activation.FiSystem Hooks Rescheduling

/-- The fetch queue holds just the fault `f`, a GeneralFetchInjectedFault with
when=Inst, where=all and thread=all. -/
structure Alone (s : FaultStore) (f : FaultPtr) (timing : Word) (occurrence : Int)
    (value : Word) (valueType : ValueType) : Prop where
  head : s.head .fetchStage = some f
  tail : s.tail .fetchStage = some f
  nxt : s.nxt f = none
  prv : s.prv f = none
  owner : s.owner f = some .fetchStage
  faultType : (s.mem f).faultType = .generalFetch
  timingType : (s.mem f).timingType = .instruction
  where_ : (s.mem f).where_ = "all"
  thread : (s.mem f).thread = "all"
  manifested : (s.mem f).manifested = false
  timing : (s.mem f).timing = timing
  occurrence : (s.mem f).occurrence = occurrence
  value : (s.mem f).value = value
  valueType : (s.mem f).valueType = valueType

variable {s s' : FaultStore} {f : FaultPtr} {timing value : Word} {occurrence : Int}
  {valueType : ValueType} {c : ScanContext} {fuel : Nat}

theorem Alone.chain (alone : Alone s f timing occurrence value valueType) :
    Chain s.nxt (s.head .fetchStage) [f] none := ⟨alone.head, alone.nxt⟩

theorem Alone.linked (alone : Alone s f timing occurrence value valueType) :
    Linked s.nxt s.prv (s.head .fetchStage) (s.tail .fetchStage) ([] ++ f :: []) :=
  ⟨alone.chain, alone.tail, alone.prv⟩

/-- Servicing or processing the fault changes nothing that `Alone` speaks of
but what the change itself says. -/
theorem Alone.write (alone : Alone s f timing occurrence value valueType)
    {change : InjectedFault → InjectedFault} {timing' : Word} {occurrence' : Int}
    (kept : ∀ p, (change p).nxt = p.nxt ∧ (change p).prv = p.prv ∧ (change p).queue = p.queue ∧
      (change p).faultType = p.faultType ∧ (change p).timingType = p.timingType ∧
      (change p).where_ = p.where_ ∧ (change p).thread = p.thread ∧
      (change p).value = p.value ∧ (change p).valueType = p.valueType)
    (manifested : (change (s.mem f)).manifested = false)
    (moved : (change (s.mem f)).timing = timing')
    (counted : (change (s.mem f)).occurrence = occurrence') :
    Alone (s.write f change) f timing' occurrence' value valueType := by
  obtain ⟨nxt, prv, queue, faultType, timingType, where_, thread, sameValue, sameType⟩ :=
    kept (s.mem f)
  have written : (s.write f change).mem f = change (s.mem f) := by simp [FaultStore.write]
  constructor
  · exact alone.head
  · exact alone.tail
  · rw [FaultStore.nxt, written, nxt]
    exact alone.nxt
  · rw [FaultStore.prv, written, prv]
    exact alone.prv
  · rw [FaultStore.owner, written, queue]
    exact alone.owner
  · rw [written, faultType, alone.faultType]
  · rw [written, timingType, alone.timingType]
  · rw [written, where_, alone.where_]
  · rw [written, thread, alone.thread]
  · rw [written, manifested]
  · rw [written, moved]
  · rw [written, counted]
  · rw [written, sameValue, alone.value]
  · rw [written, sameType, alone.valueType]

/-- The fault compares its timing with the fetch count over all threads. -/
theorem Alone.verdict (alone : Alone s f timing occurrence value valueType)
    (began : c.allthreads.all.instrFetched ≠ 0) :
    verdict .fetchStage c (s.mem f) = compareCounter c.allthreads.all.instrFetched timing := by
  have read : readings .fetchStage c (s.mem f) =
      (c.allthreads.all.instrFetched, c.allthreads.all.ticks) := by
    unfold readings scopeCounters
    rw [alone.where_, alone.thread]
    by_cases named : c.curCpu = "all"
    · simp [named, calculateFor, ThreadEnabledFault.calculateFetchedTime,
        ThreadEnabledFault.calculateTime, allcores]
    · simp [Ne.symm named, calculateFor, ThreadEnabledFault.calculateFetchedTime,
        ThreadEnabledFault.calculateTime, allcores]
  have typed : stageOf (s.mem f).faultType = .fetchStage := by rw [alone.faultType]; rfl
  have counting : Counting .fetchStage c (s.mem f) := by
    unfold Counting
    rw [read]
    simpa using fun _ => began
  unfold FaultScan.verdict
  rw [alone.manifested, countersFor_counting typed counting, read, alone.timingType, alone.timing]
  rfl

theorem Alone.scan_due (alone : Alone s f timing occurrence value valueType)
    (enough : 2 ≤ fuel) (began : timing ≠ 0) (due : c.allthreads.all.instrFetched = timing) :
    scan fuel .fetchStage c s = some (serviced s f timing, some f) := by
  have decided : FaultScan.verdict .fetchStage c (s.mem f) = .due timing := by
    rw [alone.verdict (due ▸ began), due]
    simp [compareCounter]
  rw [scan_single f alone.chain enough, decided]

theorem Alone.scan_early (alone : Alone s f timing occurrence value valueType)
    (enough : 2 ≤ fuel) (began : c.allthreads.all.instrFetched ≠ 0)
    (early : c.allthreads.all.instrFetched < timing) :
    scan fuel .fetchStage c s = some (s, none) := by
  have decided : FaultScan.verdict .fetchStage c (s.mem f) = .pass := by
    rw [alone.verdict began]
    have differs : c.allthreads.all.instrFetched ≠ timing := by bv_omega
    have below : ¬ c.allthreads.all.instrFetched > timing := by bv_omega
    simp [compareCounter, differs, below]
  rw [scan_single f alone.chain enough, decided]

theorem Alone.reschedule_last (alone : Alone s f timing 1 value valueType) (clockEdge : Word)
    (enough : 2 ≤ fuel) :
    ∃ s', check4reschedule fuel clockEdge f s = some s' ∧ s'.head .fetchStage = none ∧
      s'.tail .fetchStage = none := by
  have member : f ∈ [] ++ f :: [] := List.mem_singleton.mpr rfl
  obtain ⟨s', removed⟩ := remove_returns alone.linked member enough
  have effect := remove_effect [] [] alone.linked removed
  refine ⟨s', ?_, ?_, ?_⟩
  · unfold check4reschedule
    rw [if_pos alone.occurrence, alone.owner]
    exact removed
  · rw [effect.head, if_pos rfl]
    rfl
  · rw [effect.tail, if_pos rfl]
    rfl

theorem Alone.reschedule_again (alone : Alone s f timing occurrence value valueType)
    (clockEdge : Word) (again : occurrence ≠ 1) :
    ∃ s', check4reschedule fuel clockEdge f s = some s' ∧
      Alone s' f (((timing + 1).setWidth 32).signExtend 64) ((occurrence - 1).bmod (2 ^ 32))
        value valueType := by
  refine ⟨s.write f (rescheduled clockEdge), ?_, ?_⟩
  · unfold check4reschedule
    rw [if_neg (by rw [alone.occurrence]; exact again)]
  · apply alone.write
    · intro p
      exact ⟨rfl, rfl, rfl, rfl, rfl, rfl, rfl, rfl, rfl⟩
    · rfl
    · show nextTiming clockEdge (s.mem f) = _
      unfold nextTiming
      rw [alone.timingType, alone.timing]
    · show ((s.mem f).occurrence - 1).bmod (2 ^ 32) = _
      rw [alone.occurrence]

theorem Alone.serviced (alone : Alone s f timing occurrence value valueType) (servicedAt : Word) :
    Alone (serviced s f servicedAt) f timing occurrence value valueType := by
  apply alone.write
  · intro p
    exact ⟨rfl, rfl, rfl, rfl, rfl, rfl, rfl, rfl, rfl⟩
  · exact alone.manifested
  · exact alone.timing
  · exact alone.occurrence

theorem write_same (s : FaultStore) (f : FaultPtr) : (s.write f fun _ => s.mem f) = s := by
  unfold FaultStore.write
  congr 1
  funext p
  by_cases same : p = f <;> simp [same]

theorem fire_fetch (clockEdge : Word) (inst : MachInst) (s s' : FaultStore) (f : FaultPtr)
    (checked : check4reschedule fuel clockEdge f s = some s') :
    fire fuel .fetchStage clockEdge f inst s =
      (GeneralFetchInjectedFault.process (s.mem f) inst).map fun inst => (s', inst) := by
  have stage : process .fetchStage (s.mem f) inst =
      (GeneralFetchInjectedFault.process (s.mem f) inst).map (Prod.mk (s.mem f)) := rfl
  unfold fire
  rw [stage]
  cases processed : GeneralFetchInjectedFault.process (s.mem f) inst with
  | none => rfl
  | some inst' =>
      show (check4reschedule fuel clockEdge f (s.write f fun _ => s.mem f)).bind _ = _
      rw [write_same, checked]
      rfl

/-- What the hook's loop leaves when it fires the fault once: the queue is empty
after the last occurrence, else the fault waits for a later instruction. -/
theorem Alone.fireLoop_due {fi : FiSystem} (call : HookCall) (inst : MachInst)
    (alone : Alone fi.store f timing occurrence value valueType) (enough : 2 ≤ fuel)
    (began : timing ≠ 0) (due : c.allthreads.all.instrFetched = timing)
    (later : occurrence ≠ 1 → timing < ((timing + 1).setWidth 32).signExtend 64) :
    ∃ next, FaultsOnly fi next ∧
      fireLoop fuel .fetchStage c call fuel inst fi =
        ((manifestWord 4 inst value valueType).map fun inst => (next, inst, [f])) ∧
      (occurrence = 1 → next.store.head .fetchStage = none ∧ next.store.tail .fetchStage = none) ∧
      (occurrence ≠ 1 →
        Alone next.store f (((timing + 1).setWidth 32).signExtend 64)
          ((occurrence - 1).bmod (2 ^ 32)) value valueType) := by
  have first := alone.scan_due enough began due
  have waiting := alone.serviced timing
  obtain ⟨store, checked, last, again⟩ : ∃ store,
      check4reschedule fuel call.clockEdge f (FaultScan.serviced fi.store f timing) =
        some store ∧
      (occurrence = 1 → store.head .fetchStage = none ∧ store.tail .fetchStage = none) ∧
      (occurrence ≠ 1 → Alone store f (((timing + 1).setWidth 32).signExtend 64)
        ((occurrence - 1).bmod (2 ^ 32)) value valueType) := by
    by_cases isLast : occurrence = 1
    · subst isLast
      obtain ⟨store, checked, ends⟩ := waiting.reschedule_last call.clockEdge enough
      exact ⟨store, checked, fun _ => ends, fun again => absurd rfl again⟩
    · obtain ⟨store, checked, moved⟩ := waiting.reschedule_again call.clockEdge isLast
      exact ⟨store, checked, fun one => absurd one isLast, fun _ => moved⟩
  -- the second scan finds nothing: the queue is empty or the fault is ahead again
  have second : scan fuel .fetchStage c store = some (store, none) := by
    by_cases isLast : occurrence = 1
    · exact scan_vacant (by omega) (last isLast).1
    · exact (again isLast).scan_early enough (due ▸ began) (due ▸ later isLast)
  refine ⟨firedOne fi .fetchStage call f store, firedOne_faultsOnly fi f store, ?_, ?_, ?_⟩
  · obtain ⟨rounds, rfl⟩ : ∃ rounds, fuel = rounds + 1 + 1 := ⟨fuel - 2, by omega⟩
    rw [fireLoop_found first, fire_fetch call.clockEdge inst _ store f checked,
      GeneralFetchInjectedFault.process, waiting.value, waiting.valueType]
    cases manifestWord 4 inst value valueType with
    | none => rfl
    | some inst' =>
        rw [Option.map_some, Option.bind_some, fireLoop_idle (by rw [firedOne_store]; exact second)]
        rfl
  · rw [firedOne_store]
    exact last
  · rw [firedOne_store]
    exact again

section Hook

structure FetchCall where
  tc : ThreadContext
  ptr : ThreadPtr
  hook : HookCall
  inst : MachInst

/-- The call is for a thread object, on a CPU that is not named like the word
for all CPUs. CPUs are named by their place in the configuration, as in
system.cpu. -/
def Genuine (fi : FiSystem) (call : FetchCall) : Prop :=
  call.ptr < fi.threads.length ∧ call.tc.cpuName ≠ allcores

def counted (fi : FiSystem) (call : FetchCall) : Bool :=
  -- the thread is started, the instruction not significant, and the CPU in user mode
  decide (fi.modeOf call.ptr = some .start) &&
    !(getSignificance call.hook.pc call.hook.stale fi.metadata).1 &&
    fi.fullSystem && inUserMode call.tc

def afterCount (fi : FiSystem) (call : FetchCall) (all : ThreadEnabledFault) : FiSystem :=
  { ({ fi with metadata :=
        (getSignificance call.hook.pc call.hook.stale fi.metadata).2 }.updateThread call.ptr
      (ThreadEnabledFault.increaseFetchedInstr call.tc.cpuName)) with
    allthreads := some (all.increaseFetchedInstr call.tc.cpuName) }

variable {fi : FiSystem} {call : FetchCall}

theorem Genuine.object (genuine : Genuine fi call) :
    ∃ thread, fi.threadInfo call.ptr = some thread := by
  unfold threadInfo
  rw [List.getElem?_eq_getElem genuine.1]
  exact ⟨_, rfl⟩

theorem fetchFault_uncounted (fuel : Nat) (genuine : Genuine fi call)
    (uncounted : counted fi call = false) :
    ∃ metadata, fetchFault fuel call.tc call.ptr call.hook call.inst fi =
      some ({ fi with metadata := metadata }, call.inst, []) := by
  obtain ⟨thread, object⟩ := genuine.object
  have mode : fi.modeOf call.ptr = thread.mode := by rw [modeOf, object]; rfl
  unfold fetchFault
  rw [object, Option.bind_eq_bind, Option.bind_some]
  by_cases started : thread.mode = some .start
  · rw [if_neg (not_not.mpr started)]
    cases significance : getSignificance call.hook.pc call.hook.stale fi.metadata with
    | mk sigInstr metadata =>
        refine ⟨metadata, ?_⟩
        cases sigInstr with
        | true => rfl
        | false =>
            have kernel : (fi.fullSystem && inUserMode call.tc) = false := by
              simpa [counted, mode, started, significance] using uncounted
            simp [kernel]
  · exact ⟨fi.metadata, if_pos started⟩

theorem fetchFault_counted (fuel : Nat) (genuine : Genuine fi call) (all : ThreadEnabledFault)
    (global : fi.allthreads = some all) (counts : counted fi call = true) :
    ∃ c, c.allthreads = all.increaseFetchedInstr call.tc.cpuName ∧
      fetchFault fuel call.tc call.ptr call.hook call.inst fi =
        fireLoop fuel .fetchStage c call.hook fuel call.inst (afterCount fi call all) := by
  obtain ⟨thread, object⟩ := genuine.object
  have mode : fi.modeOf call.ptr = thread.mode := by rw [modeOf, object]; rfl
  simp only [counted, mode, Bool.and_eq_true, decide_eq_true_eq, Bool.not_eq_true'] at counts
  obtain ⟨⟨⟨started, notSignificant⟩, full⟩, user⟩ := counts
  have updated : (afterCount fi call all).threadInfo call.ptr =
      some (thread.increaseFetchedInstr call.tc.cpuName) := by
    unfold threadInfo at object ⊢
    unfold afterCount updateThread
    dsimp only
    rw [List.getElem?_modify_eq]
    obtain ⟨t, found, same⟩ := Option.map_eq_some_iff.mp object
    rw [found, ← same]
    rfl
  refine ⟨⟨all.increaseFetchedInstr call.tc.cpuName,
    thread.increaseFetchedInstr call.tc.cpuName, call.tc.cpuName, call.hook.pc⟩, rfl, ?_⟩
  have both : countBoth call.ptr (ThreadEnabledFault.increaseFetchedInstr call.tc.cpuName)
      { fi with metadata := (getSignificance call.hook.pc call.hook.stale fi.metadata).2 } =
      some (afterCount fi call all) := by
    have same : ({ fi with metadata :=
        (getSignificance call.hook.pc call.hook.stale fi.metadata).2 } : FiSystem).threadInfo
          call.ptr = some thread := object
    unfold countBoth
    rw [same, Option.bind_eq_bind, Option.bind_some]
    unfold updateAllthreads
    show (fi.allthreads).bind _ = _
    rw [global]
    rfl
  have context : scanContext call.tc call.ptr call.hook (afterCount fi call all) =
      some ⟨all.increaseFetchedInstr call.tc.cpuName,
        thread.increaseFetchedInstr call.tc.cpuName, call.tc.cpuName, call.hook.pc⟩ := by
    unfold scanContext
    rw [updated]
    rfl
  unfold fetchFault
  rw [object, Option.bind_eq_bind, Option.bind_some, if_neg (not_not.mpr started)]
  dsimp only
  rw [notSignificant, if_neg (by simp), if_pos (by simp [full, user]), both, Option.bind_eq_bind,
    Option.bind_some, fireDue, context]
  rfl

theorem afterCount_fetched (all : ThreadEnabledFault) (named : call.tc.cpuName ≠ allcores) :
    (all.increaseFetchedInstr call.tc.cpuName).all.instrFetched = all.all.instrFetched + 1 := by
  have moved := count_all all ⟨call.tc.cpuName, .fetched⟩ .fetched
  rw [if_neg named] at moved
  simpa [ThreadEnabledFault.count, CpuExecutedTicks.get, Event.amount] using moved

end Hook

section Schedule

structure FetchRun where
  fi : FiSystem
  count : Nat

def fetchStep (fuel : Nat) (r : FetchRun) (call : FetchCall) : Option FetchRun := do
  let (fi, _, _) ← fetchFault fuel call.tc call.ptr call.hook call.inst r.fi
  some ⟨fi, if counted r.fi call then r.count + 1 else r.count⟩

def Planned (t n number : Nat) : Prop := t ≤ number ∧ (n ≠ 0 → number < t + n)

def done (t count : Nat) : Nat := count + 1 - t

/-- Where the fault stands after `count` counted instructions. -/
structure OnSchedule (f : FaultPtr) (t n : Nat) (value : Word) (valueType : ValueType)
    (r : FetchRun) : Prop where
  global : ∃ all, r.fi.allthreads = some all ∧ all.all.instrFetched = BitVec.ofNat 64 r.count
  waiting : (n = 0 ∧ r.count + 1 < 2 ^ 31) ∨ done t r.count < n →
    Alone r.fi.store f (BitVec.ofNat 64 (t + done t r.count)) ((n : Int) - done t r.count)
      value valueType
  gone : n ≠ 0 → n ≤ done t r.count →
    r.fi.store.head .fetchStage = none ∧ r.fi.store.tail .fetchStage = none

variable {t n : Nat} {r next : FetchRun} {call : FetchCall}

theorem bmod_small (x : Int) (above : -2 ^ 31 ≤ x) (below : x < 2 ^ 31) :
    x.bmod (2 ^ 32) = x := by
  apply Int.bmod_eq_of_le <;> omega

theorem next_timing_small (number : Nat) (small : number + 1 < 2 ^ 31) :
    ((BitVec.ofNat 64 number + 1).setWidth 32).signExtend 64 = BitVec.ofNat 64 (number + 1) := by
  have value : (BitVec.ofNat 64 number).toNat = number := Nat.mod_eq_of_lt (by omega)
  have next := (nextCount_exact_iff (BitVec.ofNat 64 number) (by omega)).mpr (Or.inl (by omega))
  apply BitVec.eq_of_toNat_eq
  rw [next, value, BitVec.toNat_ofNat, Nat.mod_eq_of_lt (by omega)]

theorem next_timing_later (number : Nat) (small : number < 2 ^ 31) :
    BitVec.ofNat 64 number < ((BitVec.ofNat 64 number + 1).setWidth 32).signExtend 64 := by
  have value : (BitVec.ofNat 64 number).toNat = number := Nat.mod_eq_of_lt (by omega)
  have succ : (BitVec.ofNat 64 number + 1).toNat = number + 1 := by bv_omega
  rw [BitVec.lt_def, toNat_nextCount, value, succ]
  split
  · omega
  · omega

theorem OnSchedule.counts_on {f : FaultPtr} {value : Word} {valueType : ValueType} {fi : FiSystem}
    {all : ThreadEnabledFault} (genuine : Genuine r.fi call)
    (fetched : all.all.instrFetched = BitVec.ofNat 64 r.count)
    (kept : FaultsOnly (afterCount r.fi call all) fi)
    (waiting : (n = 0 ∧ r.count + 1 + 1 < 2 ^ 31) ∨ done t (r.count + 1) < n →
      Alone fi.store f (BitVec.ofNat 64 (t + done t (r.count + 1)))
        ((n : Int) - done t (r.count + 1)) value valueType)
    (gone : n ≠ 0 → n ≤ done t (r.count + 1) →
      fi.store.head .fetchStage = none ∧ fi.store.tail .fetchStage = none) :
    OnSchedule f t n value valueType ⟨fi, r.count + 1⟩ := by
  refine ⟨⟨all.increaseFetchedInstr call.tc.cpuName, kept.allthreads, ?_⟩, waiting, gone⟩
  rw [afterCount_fetched all genuine.2, fetched]
  apply BitVec.eq_of_toNat_eq
  simp [BitVec.toNat_add]

/-- A planned instruction is corrupted, and the fault moves on or leaves. -/
theorem OnSchedule.fires (sched : OnSchedule f t n value valueType r) (enough : 2 ≤ fuel)
    (first : 1 ≤ t) (small : t + n < 2 ^ 31) (genuine : Genuine r.fi call)
    (counts : counted r.fi call = true) (planned : Planned t n (r.count + 1))
    (inRange : n = 0 → r.count + 1 < 2 ^ 31) :
    ∃ fi, fetchFault fuel call.tc call.ptr call.hook call.inst r.fi =
        ((manifestWord 4 call.inst value valueType).map fun inst => (fi, inst, [f])) ∧
      OnSchedule f t n value valueType ⟨fi, r.count + 1⟩ := by
  obtain ⟨all, global, fetched⟩ := sched.global
  obtain ⟨c, counters, hook⟩ := fetchFault_counted fuel genuine all global counts
  obtain ⟨reached, notPast⟩ := planned
  have number : t + done t r.count = r.count + 1 := by unfold done; omega
  have below : r.count + 1 < 2 ^ 31 := by
    by_cases permanent : n = 0
    · exact inRange permanent
    · have before := notPast permanent
      omega
  have alone : Alone (afterCount r.fi call all).store f (BitVec.ofNat 64 (r.count + 1))
      ((n : Int) - done t r.count) value valueType := by
    rw [← number]
    apply sched.waiting
    by_cases permanent : n = 0
    · exact Or.inl ⟨permanent, below⟩
    · right
      have before := notPast permanent
      unfold done
      omega
  have due : c.allthreads.all.instrFetched = BitVec.ofNat 64 (r.count + 1) := by
    rw [counters, afterCount_fetched all genuine.2, fetched]
    apply BitVec.eq_of_toNat_eq
    simp [BitVec.toNat_add]
  have began : BitVec.ofNat 64 (r.count + 1) ≠ 0 := by
    intro zero
    have value := congrArg BitVec.toNat zero
    rw [BitVec.toNat_ofNat] at value
    have none' : (0 : BitVec 64).toNat = 0 := rfl
    omega
  obtain ⟨fi, kept, looped, last, again⟩ :=
    alone.fireLoop_due call.hook call.inst enough began due
      (fun _ => next_timing_later (r.count + 1) below)
  refine ⟨fi, hook.trans looped, ?_⟩
  apply OnSchedule.counts_on genuine fetched kept
  · intro stays
    have next : t + done t (r.count + 1) = r.count + 1 + 1 := by unfold done at *; omega
    have again' := again (by unfold done at *; omega)
    rw [next_timing_small (r.count + 1) (by unfold done at *; omega),
      bmod_small _ (by unfold done at *; omega) (by unfold done at *; omega)] at again'
    have oneLess : (n : Int) - done t r.count - 1 = (n : Int) - done t (r.count + 1) := by
      unfold done
      omega
    rw [next, ← oneLess]
    exact again'
  · intro limited used
    apply last
    have before := notPast limited
    unfold done at *
    omega

/-- Any other counted instruction passes as it is. -/
theorem OnSchedule.passes (sched : OnSchedule f t n value valueType r) (enough : 2 ≤ fuel)
    (small : t + n < 2 ^ 31) (genuine : Genuine r.fi call)
    (counts : counted r.fi call = true) (unplanned : ¬ Planned t n (r.count + 1)) :
    ∃ fi, fetchFault fuel call.tc call.ptr call.hook call.inst r.fi = some (fi, call.inst, []) ∧
      OnSchedule f t n value valueType ⟨fi, r.count + 1⟩ := by
  obtain ⟨all, global, fetched⟩ := sched.global
  obtain ⟨c, counters, hook⟩ := fetchFault_counted fuel genuine all global counts
  obtain ⟨rounds, rfl⟩ : ∃ rounds, fuel = rounds + 1 := ⟨fuel - 1, by omega⟩
  refine ⟨afterCount r.fi call all, ?_, ?_⟩
  · rw [hook]
    apply fireLoop_idle
    by_cases early : r.count + 1 < t
    · have alone := sched.waiting (by unfold done; omega)
      have notYet : done t r.count = 0 := by unfold done; omega
      rw [notYet, Nat.add_zero] at alone
      have read : c.allthreads.all.instrFetched.toNat = r.count + 1 := by
        rw [counters, afterCount_fetched all genuine.2, fetched, BitVec.toNat_add,
          BitVec.toNat_ofNat]
        have one : (1 : BitVec 64).toNat = 1 := rfl
        omega
      apply alone.scan_early enough
      · intro zero
        rw [zero] at read
        have none' : (0 : BitVec 64).toNat = 0 := rfl
        omega
      · rw [BitVec.lt_def, read, BitVec.toNat_ofNat]
        omega
    · have limited : n ≠ 0 := fun permanent =>
        unplanned ⟨by omega, fun some' => absurd permanent some'⟩
      have used : n ≤ done t r.count := by
        by_contra few
        unfold done at few
        exact unplanned ⟨by omega, fun _ => by omega⟩
      exact scan_vacant (by omega) (sched.gone limited used).1
  · apply OnSchedule.counts_on genuine fetched (FaultsOnly.store _ _)
    · intro stays
      have same : done t (r.count + 1) = done t r.count := by
        unfold done at *
        by_contra moved
        exact unplanned ⟨by omega, fun _ => by omega⟩
      rw [same] at stays ⊢
      apply sched.waiting
      omega
    · intro limited used
      apply sched.gone limited
      by_contra few
      unfold done at *
      exact unplanned ⟨by omega, fun _ => by omega⟩

theorem OnSchedule.uncounted (sched : OnSchedule f t n value valueType r) (metadata : Metadata) :
    OnSchedule f t n value valueType ⟨{ r.fi with metadata := metadata }, r.count⟩ :=
  ⟨sched.global, sched.waiting, sched.gone⟩

theorem fetchStep_onSchedule (sched : OnSchedule f t n value valueType r) (enough : 2 ≤ fuel)
    (first : 1 ≤ t) (small : t + n < 2 ^ 31) (genuine : Genuine r.fi call)
    (stepped : fetchStep fuel r call = some next) : OnSchedule f t n value valueType next := by
  obtain ⟨⟨fi, inst, fired⟩, hooked, result⟩ := Option.bind_eq_some_iff.mp stepped
  cases result
  by_cases counts : counted r.fi call = true
  · rw [if_pos counts]
    by_cases planned : Planned t n (r.count + 1)
    · by_cases inRange : n = 0 → r.count + 1 < 2 ^ 31
      · obtain ⟨fi', returned, kept⟩ :=
          sched.fires enough first small genuine counts planned inRange
        rw [returned] at hooked
        obtain ⟨_, _, same⟩ := Option.map_eq_some_iff.mp hooked
        cases same
        exact kept
      · -- a permanent fault beyond the range: only the count is still known
        obtain ⟨all, global, fetched⟩ := sched.global
        obtain ⟨c, _, hook⟩ := fetchFault_counted fuel genuine all global counts
        rw [hook] at hooked
        apply OnSchedule.counts_on genuine fetched (fireLoop_faultsOnly _ _ _ _ _ _ hooked)
        · intro stays
          exfalso
          apply inRange
          intro permanent
          omega
        · intro limited
          exact absurd (fun permanent => absurd permanent limited) inRange
    · obtain ⟨fi', returned, kept⟩ := sched.passes enough small genuine counts planned
      rw [returned] at hooked
      cases hooked
      exact kept
  · rw [if_neg counts]
    obtain ⟨metadata, returned⟩ := fetchFault_uncounted fuel genuine (by simpa using counts)
    rw [returned] at hooked
    cases hooked
    exact sched.uncounted metadata

theorem fetchStep_threads (stepped : fetchStep fuel r call = some next)
    (genuine : Genuine r.fi call) (sched : OnSchedule f t n value valueType r) :
    next.fi.threads.length = r.fi.threads.length := by
  obtain ⟨⟨fi, inst, fired⟩, hooked, result⟩ := Option.bind_eq_some_iff.mp stepped
  cases result
  by_cases counts : counted r.fi call = true
  · obtain ⟨all, global, _⟩ := sched.global
    obtain ⟨c, _, hook⟩ := fetchFault_counted fuel genuine all global counts
    rw [hook] at hooked
    have kept := fireLoop_faultsOnly _ _ _ _ _ _ hooked
    dsimp only
    rw [kept.threads]
    simp [afterCount, updateThread]
  · obtain ⟨metadata, returned⟩ := fetchFault_uncounted fuel genuine (by simpa using counts)
    rw [returned] at hooked
    cases hooked
    rfl

/-- The schedule as seen in a state of the run and in the call that is made
there, if any: the global counter, the fault gone once its occurrences are used
up, and what the call does by the number its instruction has if it counts. -/
structure FollowsSchedule (fuel : Nat) (f : FaultPtr) (t n : Nat) (value : Word)
    (valueType : ValueType) (r : FetchRun) (call? : Option FetchCall) : Prop where
  globalCount : ∃ all, r.fi.allthreads = some all ∧
    all.all.instrFetched = BitVec.ofNat 64 r.count
  gone : n ≠ 0 → t + n ≤ r.count + 1 → r.fi.store.empty .fetchStage = true
  uncounted : ∀ call ∈ call?, counted r.fi call = false → ∃ metadata,
    fetchFault fuel call.tc call.ptr call.hook call.inst r.fi =
      some ({ r.fi with metadata := metadata }, call.inst, [])
  planned : ∀ call ∈ call?, counted r.fi call = true → Planned t n (r.count + 1) →
    (n = 0 → r.count + 1 < 2 ^ 31) →
    ∃ fi, fetchFault fuel call.tc call.ptr call.hook call.inst r.fi =
      (manifestWord 4 call.inst value valueType).map fun inst => (fi, inst, [f])
  unplanned : ∀ call ∈ call?, counted r.fi call = true → ¬ Planned t n (r.count + 1) →
    ∃ fi, fetchFault fuel call.tc call.ptr call.hook call.inst r.fi = some (fi, call.inst, [])

theorem OnSchedule.follows {call? : Option FetchCall}
    (sched : OnSchedule f t n value valueType r) (enough : 2 ≤ fuel)
    (first : 1 ≤ t) (small : t + n < 2 ^ 31) (genuine : ∀ call ∈ call?, Genuine r.fi call) :
    FollowsSchedule fuel f t n value valueType r call? := by
  constructor
  · exact sched.global
  · intro limited past
    obtain ⟨head, tail⟩ := sched.gone limited (by unfold done; omega)
    simp [FaultStore.empty, head, tail]
  · intro call isCall
    exact fetchFault_uncounted fuel (genuine call isCall)
  · intro call isCall counts planned inRange
    obtain ⟨fi, returned, _⟩ :=
      sched.fires enough first small (genuine call isCall) counts planned inRange
    exact ⟨fi, returned⟩
  · intro call isCall counts unplanned
    obtain ⟨fi, returned, _⟩ :=
      sched.passes enough small (genuine call isCall) counts unplanned
    exact ⟨fi, returned⟩

theorem run_onSchedule (calls : List FetchCall) (r reached : FetchRun)
    (sched : OnSchedule f t n value valueType r) (enough : 2 ≤ fuel) (first : 1 ≤ t)
    (small : t + n < 2 ^ 31) (genuine : ∀ call ∈ calls, Genuine r.fi call)
    (ran : run (fetchStep fuel) calls r = some reached) :
    OnSchedule f t n value valueType reached ∧
      reached.fi.threads.length = r.fi.threads.length := by
  induction calls generalizing r with
  | nil =>
      cases ran
      exact ⟨sched, rfl⟩
  | cons call rest ih =>
      obtain ⟨next, stepped, ran⟩ := Option.bind_eq_some_iff.mp ran
      have here := genuine call List.mem_cons_self
      have same := fetchStep_threads stepped here sched
      have kept := fetchStep_onSchedule sched enough first small here stepped
      obtain ⟨after, length⟩ := ih next kept
        (fun other member => by
          have there := genuine other (List.mem_cons_of_mem call member)
          exact ⟨same ▸ there.1, there.2⟩) ran
      exact ⟨after, length.trans same⟩

/-- For every sequence of fetch_fault calls, the fault corrupts exactly the
instructions number t to t + n - 1 of the global count, all from t on when n is
zero, and every other instruction passes unchanged. -/
theorem fetch_fault_schedule (fuel : Nat) (fi : FiSystem) (f : FaultPtr) (t n count : Nat)
    (value : Word) (valueType : ValueType) (calls : List FetchCall)
    (enough : 2 ≤ fuel) (first : 1 ≤ t) (small : t + n < 2 ^ 31)
    (alone : Alone fi.store f (BitVec.ofNat 64 t) n value valueType)
    (global : ∃ all, fi.allthreads = some all ∧ all.all.instrFetched = BitVec.ofNat 64 count)
    (ahead : count < t) (genuine : ∀ call ∈ calls, Genuine fi call) :
    ∀ before after reached, calls = before ++ after →
      run (fetchStep fuel) before ⟨fi, count⟩ = some reached →
      FollowsSchedule fuel f t n value valueType reached after.head? := by
  have start : OnSchedule f t n value valueType ⟨fi, count⟩ := by
    have notYet : done t count = 0 := by unfold done; omega
    refine ⟨global, fun _ => ?_, fun limited used => ?_⟩
    · simpa [notYet] using alone
    · dsimp only at used
      omega
  intro before after reached split ran
  have genuineBefore : ∀ other ∈ before, Genuine fi other := by
    intro other member
    exact genuine other (by rw [split]; exact List.mem_append_left _ member)
  obtain ⟨sched, length⟩ := run_onSchedule before ⟨fi, count⟩ reached start enough first small
    genuineBefore ran
  apply sched.follows enough first small
  intro call isNext
  have here := genuine call (by
    rw [split]
    exact List.mem_append_right _ (List.mem_of_head? isNext))
  exact ⟨length ▸ here.1, here.2⟩

def firstFetch : FetchCall :=
  ⟨pendingMachine.contexts 0, 0, ⟨0, 0, 1000, 0⟩, 0x47ff041f⟩

theorem first_fetch_follows_schedule :
    FollowsSchedule 2 0 5 1 1 .flipBit
      ⟨(pendingMachine.fi.startFi (pendingMachine.contexts 0) 0).1, 0⟩ (some firstFetch) := by
  apply fetch_fault_schedule 2 (pendingMachine.fi.startFi (pendingMachine.contexts 0) 0).1 0 5 1 0
    1 .flipBit [firstFetch] (by decide) (by decide) (by decide) _ ⟨_, rfl, rfl⟩ (by decide) _ []
    [firstFetch] _ rfl rfl
  · constructor <;> rfl
  · intro call isFirst
    rw [List.mem_singleton.mp isFirst]
    exact ⟨by decide, by decide⟩

end Schedule

end GemFi.FetchSchedule
