import GemFi.AssocTotals
import GemFi.Transitions
import Mathlib.Data.BitVec

/-!
The counter classes of fi/cpu_threadInfo.cc. A `ThreadEnabledFault` counts the
instructions and ticks of one software thread, in total (`all`) and for each
core it ran on (`cores`). In the source `cores` also maps the word "all" to the
object `all` points to; here that entry is `all` itself and `cores` holds the
other names, so the aliasing shows as a second update of `all`.
-/

namespace GemFi.ThreadInfo

open AssocTotals Transitions

/-- The source's `uint64_t`, with wrap-around arithmetic. -/
abbrev Word := BitVec 64
abbrev Addr := BitVec 64

def allcores : String := "all"

/-- START, STOP, PAUSE and DUMP of fi_system.hh: requests, and START and PAUSE
also the two modes a thread is set to. -/
inductive FiCommand where
  | start | stop | pause | dump
  deriving DecidableEq, Repr

structure CpuExecutedTicks where
  instrFetched : Word
  instrExecuted : Word
  instrLoadStore : Word
  ticks : Word
  deriving DecidableEq, Repr

namespace CpuExecutedTicks

def new : CpuExecutedTicks := ⟨0, 0, 0, 0⟩

def increaseFetchInstr (c : CpuExecutedTicks) : CpuExecutedTicks :=
  { c with instrFetched := c.instrFetched + 1 }

def increaseExecInstr (c : CpuExecutedTicks) : CpuExecutedTicks :=
  { c with instrExecuted := c.instrExecuted + 1 }

def increaseLoadStoreInstr (c : CpuExecutedTicks) : CpuExecutedTicks :=
  { c with instrLoadStore := c.instrLoadStore + 1 }

def increaseTicks (ticks : Word) (c : CpuExecutedTicks) : CpuExecutedTicks :=
  { c with ticks := c.ticks + ticks }

end CpuExecutedTicks

/-- The constructor leaves `mode` unset; `none` stands for that. -/
structure ThreadEnabledFault where
  mode : Option FiCommand
  magicInstVirtualAddr : Addr
  threadId : Int
  all : CpuExecutedTicks
  cores : AList fun _ : String => CpuExecutedTicks

namespace ThreadEnabledFault

/-- `cores.insert` does not overwrite, so a thread created on a core named
"all" gets no entry of its own. -/
def new (threadId : Int) (name : String) : ThreadEnabledFault where
  mode := none
  magicInstVirtualAddr := -1
  threadId := threadId
  all := .new
  cores := if name = allcores then ∅ else AList.singleton name .new

/-- The common body of the four `increase` methods: `all` first, then the
entry of the current core, which a first visit creates and does not bump. -/
def increase (bump : CpuExecutedTicks → CpuExecutedTicks) (curCpu : String)
    (t : ThreadEnabledFault) : ThreadEnabledFault :=
  let t := { t with all := bump t.all }
  -- the entry found under the word "all" is the same object again
  if curCpu = allcores then { t with all := bump t.all }
  else match t.cores.lookup curCpu with
    | none => { t with cores := t.cores.insert curCpu .new }
    | some core => { t with cores := t.cores.insert curCpu (bump core) }

def increaseTicks (curCpu : String) (ticks : Word) : ThreadEnabledFault → ThreadEnabledFault :=
  increase (.increaseTicks ticks) curCpu

def increaseFetchedInstr (curCpu : String) : ThreadEnabledFault → ThreadEnabledFault :=
  increase .increaseFetchInstr curCpu

def increaseExecutedInstr (curCpu : String) : ThreadEnabledFault → ThreadEnabledFault :=
  increase .increaseExecInstr curCpu

def increaseLoadStoreInstr (curCpu : String) : ThreadEnabledFault → ThreadEnabledFault :=
  increase .increaseLoadStoreInstr curCpu

/-- The common body of the `Calculate` methods: instruction count and ticks of
a core, or of all of them. The callers clear both results first, so a core
without an entry reads as zero. -/
def calculateTime (instr : CpuExecutedTicks → Word) (curCpu : String)
    (t : ThreadEnabledFault) : Word × Word :=
  if curCpu = allcores then (instr t.all, t.all.ticks)
  else match t.cores.lookup curCpu with
    | none => (0, 0)
    | some core => (instr core, core.ticks)

def calculateFetchedTime : String → ThreadEnabledFault → Word × Word :=
  calculateTime CpuExecutedTicks.instrFetched

def calculateExecutedTime : String → ThreadEnabledFault → Word × Word :=
  calculateTime CpuExecutedTicks.instrExecuted

def calculateLoadStoreTime : String → ThreadEnabledFault → Word × Word :=
  calculateTime CpuExecutedTicks.instrLoadStore

@[simp] theorem increase_mode (bump : CpuExecutedTicks → CpuExecutedTicks) (curCpu : String)
    (t : ThreadEnabledFault) : (t.increase bump curCpu).mode = t.mode := by
  unfold increase
  dsimp only
  split
  · rfl
  · split <;> rfl

end ThreadEnabledFault

section PerCore

/-- The four counters of a `cpuExecutedTicks`. -/
inductive Counter where
  | fetched | executed | loadStore | ticks
  deriving DecidableEq, Repr

def CpuExecutedTicks.get (c : CpuExecutedTicks) : Counter → Word
  | .fetched => c.instrFetched
  | .executed => c.instrExecuted
  | .loadStore => c.instrLoadStore
  | .ticks => c.ticks

/-- One `increase` call, by what it counts. -/
inductive Event where
  | fetched | executed | loadStore
  | ticks (count : Word)
  deriving DecidableEq, Repr

def Event.bump : Event → CpuExecutedTicks → CpuExecutedTicks
  | .fetched => .increaseFetchInstr
  | .executed => .increaseExecInstr
  | .loadStore => .increaseLoadStoreInstr
  | .ticks count => .increaseTicks count

def Event.amount : Event → Counter → Word
  | .fetched, .fetched | .executed, .executed | .loadStore, .loadStore => 1
  | .ticks count, .ticks => count
  | _, _ => 0

@[simp] theorem get_bump (event : Event) (c : CpuExecutedTicks) (counter : Counter) :
    (event.bump c).get counter = c.get counter + event.amount counter := by
  cases event <;> cases counter <;>
    simp [Event.bump, Event.amount, CpuExecutedTicks.get, CpuExecutedTicks.increaseFetchInstr,
      CpuExecutedTicks.increaseExecInstr, CpuExecutedTicks.increaseLoadStoreInstr,
      CpuExecutedTicks.increaseTicks]

@[simp] theorem get_new (counter : Counter) : CpuExecutedTicks.new.get counter = 0#64 := by
  cases counter <;> rfl

structure CounterCall where
  curCpu : String
  event : Event

def ThreadEnabledFault.count (t : ThreadEnabledFault) (call : CounterCall) : ThreadEnabledFault :=
  match call.event with
  | .fetched => t.increaseFetchedInstr call.curCpu
  | .executed => t.increaseExecutedInstr call.curCpu
  | .loadStore => t.increaseLoadStoreInstr call.curCpu
  | .ticks count => t.increaseTicks call.curCpu count

theorem count_eq_increase (t : ThreadEnabledFault) (call : CounterCall) :
    t.count call = t.increase call.event.bump call.curCpu := by
  cases call with
  | mk curCpu event => cases event <;> rfl

def countStep (t : ThreadEnabledFault) (call : CounterCall) : Option ThreadEnabledFault :=
  some (t.count call)

/-- The sum of a counter over the entries of `cores` other than "all", in the
counters' own arithmetic. -/
def coreSum (counter : Counter) (t : ThreadEnabledFault) : Word :=
  total (fun _ core => core.get counter) t.cores

def CoresAddUp (t : ThreadEnabledFault) : Prop :=
  ∀ counter, t.all.get counter = coreSum counter t

/-- The calls that count the same in total and on their core: those on a core
that has an entry, and those that add nothing. A core named "all" is counted
twice in the total and on no core, which only cancels modulo 2^64. -/
def CountedOnce (t : ThreadEnabledFault) (call : CounterCall) : Prop :=
  call.event = .ticks 0#64 ∨ (call.curCpu ≠ allcores ∧ call.curCpu ∈ t.cores) ∨
    (call.curCpu = allcores ∧ call.event = .ticks (1#64 <<< 63))

theorem new_coresAddUp (threadId : Int) (name : String) :
    CoresAddUp (ThreadEnabledFault.new threadId name) := by
  intro counter
  by_cases named : name = allcores <;>
    simp [ThreadEnabledFault.new, coreSum, total, named]

/-- How far one call moves the total, and how far it moves the sum of the
cores. -/
theorem count_all (t : ThreadEnabledFault) (call : CounterCall) (counter : Counter) :
    (t.count call).all.get counter = t.all.get counter + call.event.amount counter +
      (if call.curCpu = allcores then call.event.amount counter else 0) := by
  rw [count_eq_increase]
  unfold ThreadEnabledFault.increase
  by_cases named : call.curCpu = allcores
  · simp [named]
  · simp only [named, if_false, add_zero]
    split <;> simp

theorem count_coreSum (t : ThreadEnabledFault) (call : CounterCall) (counter : Counter) :
    coreSum counter (t.count call) = coreSum counter t +
      (if call.curCpu ≠ allcores ∧ call.curCpu ∈ t.cores then call.event.amount counter
        else 0) := by
  rw [count_eq_increase]
  unfold ThreadEnabledFault.increase coreSum
  by_cases named : call.curCpu = allcores
  · simp [named]
  · cases found : t.cores.lookup call.curCpu with
    | none =>
        have absent : call.curCpu ∉ t.cores := AList.lookup_eq_none.mp found
        simp [named, found, absent, erase_absent _ _ found]
    | some core =>
        have present : call.curCpu ∈ t.cores := AList.lookup_isSome.mp (by simp [found])
        simp only [named, if_false, found, total_insert, get_bump, ne_eq, not_false_eq_true,
          present, and_self, if_true]
        rw [total_split _ t.cores call.curCpu core found]
        exact add_right_comm _ _ _

theorem amount_zero_iff (event : Event) :
    (∀ counter, event.amount counter = 0#64) ↔ event = .ticks 0#64 := by
  constructor
  · intro nothing
    cases event with
    | fetched => exact absurd (nothing .fetched) (by decide)
    | executed => exact absurd (nothing .executed) (by decide)
    | loadStore => exact absurd (nothing .loadStore) (by decide)
    | ticks count => exact congrArg Event.ticks (nothing .ticks)
  · rintro rfl counter
    cases counter <;> rfl

theorem twice_eq_zero_iff (count : Word) :
    count + count = 0#64 ↔ count = 0#64 ∨ count = 1#64 <<< 63 := by
  constructor
  · intro wrapped
    by_cases nothing : count = 0#64
    · exact Or.inl nothing
    · right
      bv_omega
  · rintro (rfl | rfl) <;> decide

theorem amount_twice_zero_iff (event : Event) :
    (∀ counter, event.amount counter + event.amount counter = 0#64) ↔
      event = .ticks 0#64 ∨ event = .ticks (1#64 <<< 63) := by
  constructor
  · intro nothing
    cases event with
    | fetched => exact absurd (nothing .fetched) (by decide)
    | executed => exact absurd (nothing .executed) (by decide)
    | loadStore => exact absurd (nothing .loadStore) (by decide)
    | ticks count => simpa using (twice_eq_zero_iff count).mp (nothing .ticks)
  · rintro (rfl | rfl) counter <;> cases counter <;> decide

theorem count_coresAddUp_iff (t : ThreadEnabledFault) (call : CounterCall)
    (before : CoresAddUp t) : CoresAddUp (t.count call) ↔ CountedOnce t call := by
  have reduced : CoresAddUp (t.count call) ↔ ∀ counter,
      call.event.amount counter +
        (if call.curCpu = allcores then call.event.amount counter else 0) =
      (if call.curCpu ≠ allcores ∧ call.curCpu ∈ t.cores then call.event.amount counter
        else 0) := by
    refine forall_congr' fun counter => ?_
    rw [count_all, count_coreSum, before counter, add_assoc, add_right_inj]
  rw [reduced, CountedOnce]
  by_cases named : call.curCpu = allcores
  · simp [named, amount_twice_zero_iff]
  · by_cases present : call.curCpu ∈ t.cores
    · simp [named, present]
    · simp [named, present, amount_zero_iff]

/-- The per-core counters add up to the totals throughout a sequence of calls
exactly when every call is counted once: a call on a core without an entry
creates the entry and loses the count. -/
theorem cores_add_up_iff_counted_once (threadId : Int) (name : String)
    (calls : List CounterCall) :
    Always countStep CoresAddUp calls (ThreadEnabledFault.new threadId name) ↔
      EachStep countStep CountedOnce calls (ThreadEnabledFault.new threadId name) := by
  apply always_iff_eachStep (fun _ => True) (fun _ _ _ _ _ => trivial) _ calls _ trivial
    (new_coresAddUp threadId name)
  rintro t call next _ before stepped
  cases stepped
  exact count_coresAddUp_iff t call before

/-- A thread created on one core that fetches its first instruction on another:
one in total, none on any core. -/
theorem migrated_fetch_lost :
    ¬ Always countStep CoresAddUp [⟨"system.cpu1", .fetched⟩]
      (ThreadEnabledFault.new 0 "system.cpu0") := by
  intro always
  have addUp := always [⟨"system.cpu1", .fetched⟩] [] _ rfl rfl .fetched
  revert addUp
  decide

end PerCore

end GemFi.ThreadInfo
