import GemFi.GlobalTotals

/-!
Loads that the load/store queue of the O3 CPU sends back. LSQUnit::executeLoad
calls initiateAcc, whose first part computes the effective address and hands it
to iew_fault; LSQUnit::read may then find an older store that covers only a part
of the load, and reschedule it. Each further attempt runs initiateAcc from the
beginning. The stores older than a load are given youngest first, as the loop of
`read` meets them. On Alpha a translation is finished at once, and no access is
split.
-/

namespace GemFi.LoadReplays

open ThreadInfo Transitions FaultQueue Corruption FaultScan Activation Activation.FiSystem Hooks
open Calls GlobalTotals

/-- An entry of the store queue, with what `read` asks its instruction for. -/
structure SQEntry where
  effAddr : Addr
  size : Byte
  uncacheable : Bool
  completed : Bool
  isAllZeros : Bool
  data : List Byte

inductive Overlap where
  | none | part | whole
  deriving DecidableEq, Repr

namespace SQEntry

def overlap (vaddr size : Word) (e : SQEntry) : Overlap :=
  let storeSize := e.size.setWidth 64
  let storeHasLowerLimit := vaddr ≥ e.effAddr
  let storeHasUpperLimit := vaddr + size ≤ e.effAddr + storeSize
  let lowerLoadHasStorePart := vaddr < e.effAddr + storeSize
  let upperLoadHasStorePart := vaddr + size > e.effAddr
  if e.size = 0 ∨ e.uncacheable = true then .none
  else if storeHasLowerLimit ∧ storeHasUpperLimit then .whole
  else if (storeHasLowerLimit ∧ lowerLoadHasStorePart) ∨
      (storeHasUpperLimit ∧ upperLoadHasStorePart) ∨
      (lowerLoadHasStorePart ∧ upperLoadHasStorePart) then .part
  else .none

def forward (vaddr size : Word) (e : SQEntry) : List Byte :=
  if e.isAllZeros then List.replicate size.toNat 0
  else (e.data.drop (vaddr - e.effAddr).toNat).take size.toNat

end SQEntry

/-- What becomes of one attempt. `blocked` is a load that the cache refuses: it
is squashed and fetched again as another instruction. -/
inductive Outcome where
  | performed
  | forwarded (data : List Byte)
  | rescheduled
  | blocked
  | faulted
  deriving DecidableEq, Repr

def searchStores (vaddr size : Word) : List SQEntry → Option (Option Outcome)
  -- the loop over the older stores; `none` is the panic on a completed store
  | [] => some none
  | e :: rest =>
      match e.overlap vaddr size with
      | .none => searchStores vaddr size rest
      | .whole => some (some (.forwarded (e.forward vaddr size)))
      | .part => if e.completed then none else some (some .rescheduled)

structure DynLoad where
  pc : Addr
  address : Addr
  size : Word

/-- What one attempt finds. `dtb` is the data TLB: a fault, or whether the page
is uncacheable. -/
structure Attempt where
  hook : HookCall
  dtb : Addr → Option Bool
  headAtCommit : Bool
  olderStores : List SQEntry
  cacheBlocked : Bool

/-- `LSQUnit::read`. -/
def read (attempt : Attempt) (vaddr size : Word) (uncacheable : Bool) : Option Outcome := do
  if uncacheable && !attempt.headAtCommit then some .rescheduled
  else
    match ← searchStores vaddr size attempt.olderStores with
    | some outcome => some outcome
    | none => if attempt.cacheBlocked then some .blocked else some .performed

/-- `LSQUnit::executeLoad` with the initiateAcc of a load, up to the effective
address it went to memory with. -/
def executeLoad (fuel : Nat) (tc : ThreadContext) (load : DynLoad) (attempt : Attempt)
    (fi : FiSystem) : Option (FiSystem × Addr × List FaultPtr × Outcome) := do
  let (fi, value, fired) ←
    iewFault fuel tc { attempt.hook with pc := load.pc } (.uint64 load.address) fi
  match value with
  | .uint64 ea =>
      match attempt.dtb ea with
      | none => some (fi, ea, fired, .faulted)
      | some uncacheable => do
          let outcome ← read attempt ea load.size uncacheable
          some (fi, ea, fired, outcome)
  | _ => none

inductive LoadStatus where
  | waiting
  | accessed (ea : Addr)
  | gone
  deriving DecidableEq, Repr

structure LoadRecord where
  -- the history of a load: how often it was rescheduled, how far it has moved the counter of its
  -- thread, and the addresses that faults left on it
  rescheduled : Nat
  advanced : Nat
  corrupted : List Addr
  status : LoadStatus

def LoadRecord.new : LoadRecord := ⟨0, 0, [], .waiting⟩

def LoadStatus.after (ea : Addr) : Outcome → LoadStatus
  | .performed | .forwarded _ => .accessed ea
  | .rescheduled => .waiting
  | .blocked | .faulted => .gone

def LoadRecord.attempted (r : LoadRecord) (advance : Nat) (ea : Addr) (fired : List FaultPtr)
    (outcome : Outcome) : LoadRecord where
  rescheduled := r.rescheduled + if outcome = .rescheduled then 1 else 0
  advanced := r.advanced + advance
  corrupted := if fired = [] then r.corrupted else r.corrupted ++ [ea]
  status := .after ea outcome

structure LoadUnit where
  machine : Machine
  records : Nat → LoadRecord

def executedOf (fi : FiSystem) (ptr : ThreadPtr) : Word :=
  ((fi.threadInfo ptr).map fun t => t.all.get .executed).getD 0

inductive LsqAction where
  | call (call : Call)
  | execute (id : Nat) (attempt : Attempt)

def lsqStep (fuel i : Nat) (ptr : ThreadPtr) (loads : Nat → DynLoad) (s : LoadUnit) :
    LsqAction → Option LoadUnit
  -- context `i` runs the thread `ptr`, whose loads are `loads`
  | .call call => do
      let (m, _) ← makeCall fuel s.machine call
      some { s with machine := m }
  | .execute id attempt =>
      -- assert(!load_inst->isExecuted())
      if (s.records id).status ≠ .waiting then none
      else do
        let (fi, ea, fired, outcome) ←
          executeLoad fuel (s.machine.contexts i) (loads id) attempt s.machine.fi
        let advance := (executedOf fi ptr - executedOf s.machine.fi ptr).toNat
        some {
          machine := { s.machine with fi := fi }
          records := Function.update s.records id
            ((s.records id).attempted advance ea fired outcome) }

def ActiveLoad (i : Nat) (ptr : ThreadPtr) (loads : Nat → DynLoad) (s : LoadUnit) :
    LsqAction → Prop
  -- loads are executed for a started thread in user mode, as instructions that count
  | .call _ => True
  | .execute id attempt =>
      (s.machine.contexts i).enabledFI = true ∧ (s.machine.contexts i).fiThread = some ptr ∧
        (s.machine.contexts i).cpuName ≠ allcores ∧ inUserMode (s.machine.contexts i) = true ∧
        s.machine.fi.fullSystem = true ∧ s.machine.fi.modeOf ptr = some .start ∧
        (getSignificance (loads id).pc attempt.hook.stale s.machine.fi.metadata).1 = false

section Attempts

variable {fuel i : Nat} {ptr : ThreadPtr} {loads : Nat → DynLoad} {s next : LoadUnit}

theorem executedOf_counts {fi fi' : FiSystem} {cpu : String}
    (counts : Counts fi ptr (some ⟨cpu, .executed⟩) fi') (named : cpu ≠ allcores) :
    executedOf fi' ptr = executedOf fi ptr + 1 := by
  obtain ⟨t, object⟩ : ∃ t, fi.threadInfo ptr = some t := by
    unfold threadInfo
    rw [List.getElem?_eq_getElem counts.live]
    exact ⟨_, rfl⟩
  unfold executedOf
  rw [counter_counts counts ptr .executed, object]
  simp [moved, named, Event.amount]

theorem execute_cases {id : Nat} {attempt : Attempt}
    (active : ActiveLoad i ptr loads s (.execute id attempt))
    (stepped : lsqStep fuel i ptr loads s (.execute id attempt) = some next) :
    (s.records id).status = .waiting ∧ ∃ ea fired outcome,
      next.records = Function.update s.records id
        ((s.records id).attempted 1 ea fired outcome) := by
  obtain ⟨enabled, points, named, user, full, started, plain⟩ := active
  unfold lsqStep at stepped
  dsimp only at stepped
  split at stepped
  · cases stepped
  · rename_i waiting
    obtain ⟨⟨fi, ea, fired, outcome⟩, executed, result⟩ := Option.bind_eq_some_iff.mp stepped
    cases result
    refine ⟨not_not.mp waiting, ea, fired, outcome, ?_⟩
    obtain ⟨⟨fi', value, fired'⟩, hooked, rest⟩ := Option.bind_eq_some_iff.mp executed
    have counts : Counts s.machine.fi ptr _ fi' :=
      operandFault_active .executed (fun _ _ => rfl) hooked enabled points started full user plain
    have counted := executedOf_counts counts named
    dsimp only at rest
    -- behind the hook only the outcome is decided
    have same : fi' = fi := by
      split at rest
      · split at rest
        · cases rest
          rfl
        · obtain ⟨_, _, result⟩ := Option.bind_eq_some_iff.mp rest
          cases result
          rfl
      · cases rest
    subst same
    have once : (executedOf fi' ptr - executedOf s.machine.fi ptr).toNat = 1 := by
      rw [counted, add_sub_cancel_left]
      rfl
    dsimp only
    rw [once]

end Attempts

/-- What holds of the history of every load. -/
structure Tracked (r : LoadRecord) : Prop where
  advanced : r.advanced = r.rescheduled + if r.status = .waiting then 0 else 1
  first : r.rescheduled = 0 → r.status = .waiting → r.corrupted = []
  only : r.rescheduled = 0 → ∀ ea, r.status = .accessed ea → ∀ c ∈ r.corrupted, c = ea

theorem Tracked.attempted {r : LoadRecord} (tracked : Tracked r) (waiting : r.status = .waiting)
    (ea : Addr) (fired : List FaultPtr) (outcome : Outcome) :
    Tracked (r.attempted 1 ea fired outcome) := by
  have advanced := tracked.advanced
  rw [if_pos waiting] at advanced
  -- a rescheduled load waits on, with one count more; any other outcome ends it
  by_cases again : outcome = .rescheduled
  · subst again
    refine ⟨?_, ?_, ?_⟩
    · simp [LoadRecord.attempted, LoadStatus.after, advanced]
    · intro never
      simp [LoadRecord.attempted] at never
    · intro never
      simp [LoadRecord.attempted] at never
  · have ended : LoadStatus.after ea outcome ≠ .waiting := by
      cases outcome with
      | rescheduled => exact absurd rfl again
      | _ => simp [LoadStatus.after]
    refine ⟨?_, ?_, ?_⟩
    · simp [LoadRecord.attempted, again, ended, advanced]
    · intro _ waits
      exact absurd waits ended
    · intro once other accessed c member
      have fresh : r.rescheduled = 0 := by simpa [LoadRecord.attempted, again] using once
      have address : other = ea := by
        cases outcome with
        | rescheduled => exact absurd rfl again
        | performed | forwarded data =>
            cases accessed
            rfl
        | blocked | faulted => cases accessed
      -- the first attempt: nothing was corrupted before it
      have none' := tracked.first fresh waiting
      unfold LoadRecord.attempted at member
      dsimp only at member
      split at member
      · rw [none'] at member
        cases member
      · rw [none', List.nil_append, List.mem_singleton] at member
        rw [member, address]

theorem lsqStep_tracked {fuel i : Nat} {ptr : ThreadPtr} {loads : Nat → DynLoad}
    (s : LoadUnit) (action : LsqAction) (next : LoadUnit) (tracked : ∀ id, Tracked (s.records id))
    (active : ActiveLoad i ptr loads s action)
    (stepped : lsqStep fuel i ptr loads s action = some next) (id : Nat) :
    Tracked (next.records id) := by
  cases action with
  | call call =>
      obtain ⟨_, _, result⟩ := Option.bind_eq_some_iff.mp stepped
      cases result
      exact tracked id
  | execute executed attempt =>
      obtain ⟨waiting, ea, fired, outcome, records⟩ := execute_cases active stepped
      rw [records]
      by_cases same : id = executed
      · subst same
        rw [Function.update_self]
        exact (tracked id).attempted waiting ea fired outcome
      · rw [Function.update_of_ne same]
        exact tracked id

/-- The load has moved the counter once, and went to memory with the address that
a fault had left on it. -/
structure Survives (r : LoadRecord) (ea : Addr) : Prop where
  counted : r.advanced = 1
  address : ∀ c ∈ r.corrupted, c = ea

/-- In every run, a load that was rescheduled `k` times has moved the counter of
its thread `k + 1` times when it is performed or forwarded; it was counted once,
with its corrupted address used, exactly when it was never rescheduled. -/
theorem replayed_load_survives_iff (fuel i : Nat) (ptr : ThreadPtr) (loads : Nat → DynLoad)
    (start reached : LoadUnit) (actions : List LsqAction)
    (fresh : ∀ id, start.records id = LoadRecord.new)
    (active : EachStep (lsqStep fuel i ptr loads) (ActiveLoad i ptr loads) actions start)
    (ran : run (lsqStep fuel i ptr loads) actions start = some reached) (id : Nat) (ea : Addr)
    (accessed : (reached.records id).status = .accessed ea) :
    (reached.records id).advanced = (reached.records id).rescheduled + 1 ∧
      (Survives (reached.records id) ea ↔ (reached.records id).rescheduled = 0) := by
  have tracked : ∀ id, Tracked (reached.records id) := by
    apply run_preserves lsqStep_tracked actions start reached _ active ran
    intro id
    rw [fresh id]
    exact ⟨rfl, fun _ _ => rfl, fun _ _ accessed => by cases accessed⟩
  have advanced := (tracked id).advanced
  rw [accessed, if_neg (by simp)] at advanced
  refine ⟨advanced, ?_, ?_⟩
  · intro survives
    have once := survives.counted
    omega
  · intro never
    refine ⟨by omega, (tracked id).only never ea accessed⟩

def secondOperandRecord : FaultRecord :=
  -- an execute fault for the event after the first
  ⟨.execution, .instruction, .flipBit, 1, 3, "all", "all", 1, .src, 0, 0⟩

def replayStart : LoadUnit where
  machine := ⟨(startedWith secondOperandRecord).1, fun _ => (startedWith secondOperandRecord).2⟩
  records _ := .new

def quadLoad : DynLoad := ⟨0x44, 0x1000, 8⟩

def attemptWith (olderStores : List SQEntry) : Attempt :=
  ⟨⟨0x44, 0, 1000, 0⟩, fun _ => some false, false, olderStores, false⟩

def earlierOperand : LsqAction := .call (.iew 0 ⟨0x40, 0, 1000, 0⟩ (.uint64 0))

def halfStore : SQEntry := ⟨0x1008, 4, false, false, false, [1, 2, 3, 4]⟩

theorem first_attempt_survives :
    ∃ reached, run (lsqStep 9 0 0 fun _ => quadLoad)
        [earlierOperand, .execute 0 (attemptWith [])] replayStart = some reached ∧
      Survives (reached.records 0) 0x1004 := by
  refine ⟨_, rfl, ?_⟩
  refine (replayed_load_survives_iff 9 0 0 (fun _ => quadLoad) replayStart _
    [earlierOperand, .execute 0 (attemptWith [])] (fun _ => rfl) ?_ rfl 0 0x1004 rfl).2.mpr rfl
  rw [eachStep_cons_iff]
  intro called first
  cases first
  refine ⟨True.intro, ?_⟩
  rw [eachStep_cons_iff]
  intro executed _
  exact ⟨⟨rfl, rfl, by decide, rfl, rfl, rfl, rfl⟩, eachStep_nil _ _⟩

/-- The store that the corrupted load overlaps sends it back; the second attempt
is counted again, and reads 0x1000, the fault being used up. -/
theorem replayed_load_loses_the_fault :
    ∃ reached, run (lsqStep 9 0 0 fun _ => quadLoad)
        [earlierOperand, .execute 0 (attemptWith [halfStore]), .execute 0 (attemptWith [])]
        replayStart = some reached ∧
      (reached.records 0).rescheduled = 1 ∧ (reached.records 0).advanced = 2 ∧
      (reached.records 0).corrupted = [0x1004] ∧
      (reached.records 0).status = .accessed 0x1000 ∧
      ¬ Survives (reached.records 0) 0x1000 := by
  refine ⟨_, rfl, rfl, rfl, rfl, rfl, fun survives => ?_⟩
  have counted : 2 = 1 := survives.counted
  cases counted

end GemFi.LoadReplays
