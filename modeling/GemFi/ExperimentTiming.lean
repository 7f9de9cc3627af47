import GemFi.FaultGenerators
import GemFi.StageNumbering

/-!
When the faults of final_create_exp.c strike. The program draws the instruction
number of a fault below the number of instructions of its stage, and the hooks
compare it with a counter that fetch_fault has moved before, iew_fault and
lds_fault after the comparison. A run here is any sequence of calls except a
reset, which would read another file.
-/

namespace GemFi.ExperimentTiming

open LinkedLists ThreadInfo Transitions FaultQueue QueueRepresentation FaultScan
open Activation Activation.FiSystem Hooks Calls GlobalTotals StageNumbering
open FaultFile FaultRecords FaultRoundTrip FaultGenerators

structure ShotRun where
  here : NumberedRun
  hits : List Nat

def shotStep (fuel : Nat) (stage : Stage) (f : FaultPtr) (r : ShotRun) (call : Call) :
    Option ShotRun := do
  let (m, fired) ← makeCall fuel r.here.machine call
  let number := if countsFor r.here.machine stage call then r.here.number + 1 else r.here.number
  some ⟨⟨m, number⟩, r.hits ++ List.replicate (fired.count f) number⟩

/-- The call is a counted event of the stage at which a fault Inst:k is due: the
counter it reads is `k`, and that counter or the ticks are not zero. -/
def DueEvent (stage : Stage) (k : Nat) (r : ShotRun) (call : Call) : Prop :=
  countsFor r.here.machine stage call = true ∧
    globalCount r.here.machine.fi stage.counter + (if stage = .fetch then 1 else 0) =
      BitVec.ofNat 64 k ∧
    globalCount r.here.machine.fi .ticks ||| BitVec.ofNat 64 k ≠ 0

structure Standing (stage : Stage) (f : FaultPtr) (p : InjectedFault) (r : ShotRun) : Prop where
  named : ∀ i, (r.here.machine.contexts i).cpuName ≠ allcores
  founded : r.here.machine.fi.allthreads = none → r.here.machine.fi.threads = []
  counter : globalCount r.here.machine.fi stage.counter = BitVec.ofNat 64 r.here.number
  place : (r.hits = [] ∧ ∃ lists, Waiting stage f p lists r.here.machine.fi.store) ∨
    (∃ n, r.hits = [n]) ∧ Gone stage f r.here.machine.fi.store

section Steps

variable {fuel : Nat} {stage : Stage} {f : FaultPtr} {k : Nat} {p : InjectedFault}
  {r next : ShotRun} {call : Call} {m m' : Machine} {fired : List FaultPtr}

theorem globalCount_of_some {fi : FiSystem} {all : ThreadEnabledFault} {counter : Counter}
    (global : fi.allthreads = some all) : globalCount fi counter = all.all.get counter := by
  simp [globalCount, global]

theorem global_of_counts {call : Call} (founded : m.fi.allthreads = none → m.fi.threads = [])
    (counts : countsFor m stage call = true) : ∃ all, m.fi.allthreads = some all := by
  cases global : m.fi.allthreads with
  | some all => exact ⟨all, rfl⟩
  | none =>
      have idle : ∀ ptr, m.fi.modeOf ptr = none := by
        intro ptr
        simp [modeOf, threadInfo, founded global]
      unfold countsFor at counts
      split at counts
      · simp [FetchSchedule.counted, idle] at counts
      · obtain ⟨_, ⟨ptr, _, started⟩, _⟩ := operandCounts_iff.mp counts
        simp [idle] at started
      · obtain ⟨_, ⟨ptr, _, started⟩, _⟩ := operandCounts_iff.mp counts
        simp [idle] at started
      · cases counts

/-- A control request other than a reset touches neither the faults nor the
counters of allthreads. -/
structure Quiet (m m' : Machine) : Prop where
  names : ∀ i, (m'.contexts i).cpuName = (m.contexts i).cpuName
  founded : (m.fi.allthreads = none → m.fi.threads = []) →
    m'.fi.allthreads = none → m'.fi.threads = []
  counter : ∀ counter, globalCount m'.fi counter = globalCount m.fi counter
  store : m'.fi.store = m.fi.store

theorem names_setContext {i : Nat} {tc : ThreadContext}
    (same : tc.cpuName = (m.contexts i).cpuName) (j : Nat) :
    (m.setContext i tc j).cpuName = (m.contexts j).cpuName := by
  unfold Machine.setContext
  rw [Function.update_apply]
  split
  · next here => rw [here, same]
  · rfl

theorem quiet_updateThread {contexts : Nat → ThreadContext} {fi : FiSystem} (ptr : ThreadPtr)
    (change : ThreadEnabledFault → ThreadEnabledFault)
    (names : ∀ i, (contexts i).cpuName = (m.contexts i).cpuName)
    (allthreads : fi.allthreads = m.fi.allthreads) (threads : fi.threads = m.fi.threads)
    (store : fi.store = m.fi.store) : Quiet m ⟨fi.updateThread ptr change, contexts⟩ where
  names := names
  founded founded none := by
    have empty : fi.threads = [] := threads.trans (founded (allthreads.symm.trans none))
    simp [updateThread, empty]
  counter counter := by
    simp only [globalCount, updateThread, allthreads]
  store := store

theorem control_quiet {action : Control} (loaded : ∀ records, action ≠ .reset records)
    (stepped : controlStep fuel m action = some m') : Quiet m m' := by
  cases controlStep_effect stepped with
  | created i threadid curTick unknown =>
      refine ⟨names_setContext rfl, ?_, ?_, rfl⟩
      · intro _ none
        cases none
      · intro counter
        exact (activate_totals m.fi (m.contexts i) threadid counter).1
  | resumed i threadid curTick ptr known wasPaused =>
      exact quiet_updateThread ptr _ (names_setContext rfl) rfl rfl rfl
  | ignored i threadid curTick ptr known notPaused =>
      exact ⟨fun _ => rfl, id, fun _ => rfl, rfl⟩
  | paused i threadid curTick ptr known =>
      exact quiet_updateThread ptr _ (names_setContext rfl) rfl rfl rfl
  | stopped i threadid curTick ptr known =>
      exact ⟨names_setContext rfl, id, fun _ => rfl, rfl⟩
  | notActive i req threadid curTick pauseOrStop unknown =>
      exact ⟨fun _ => rfl, id, fun _ => rfl, rfl⟩
  | dumped i threadid curTick =>
      refine ⟨names_setContext rfl, ?_, ?_, ?_⟩
      · unfold scheduleswitch
        split <;> exact id
      · intro counter
        unfold scheduleswitch
        split <;> rfl
      · unfold scheduleswitch
        split <;> rfl
  | marked i pc =>
      unfold FiSystem.getPcAddress
      split
      · exact ⟨fun _ => rfl, id, fun _ => rfl, rfl⟩
      · rename_i ptr known
        exact quiet_updateThread ptr _ (fun _ => rfl) rfl rfl rfl
  | switched i val =>
      refine ⟨names_setContext ?_, id, fun _ => rfl, rfl⟩
      unfold setIpr
      split <;> rfl
  | modeSet i dtbCm => exact ⟨names_setContext rfl, id, fun _ => rfl, rfl⟩
  | reloaded records fi returned => exact absurd rfl (loaded records)

structure Calm (stage : Stage) (f : FaultPtr) (p : InjectedFault) (m m' : Machine)
    (fired : List FaultPtr) : Prop where
  names : ∀ i, (m'.contexts i).cpuName = (m.contexts i).cpuName
  founded : (m.fi.allthreads = none → m.fi.threads = []) →
    m'.fi.allthreads = none → m'.fi.threads = []
  counter : globalCount m'.fi stage.counter = globalCount m.fi stage.counter
  waiting : (∃ lists, Waiting stage f p lists m.fi.store) →
    f ∉ fired ∧ ∃ lists, Waiting stage f p lists m'.fi.store
  gone : Gone stage f m.fi.store → f ∉ fired ∧ Gone stage f m'.fi.store

theorem uncounted_calm (loaded : ∀ records, call ≠ .control (.reset records))
    (named : ∀ i, (m.contexts i).cpuName ≠ allcores)
    (made : makeCall fuel m call = some (m', fired)) (uncounted : countsFor m stage call = false) :
    Calm stage f p m m' fired := by
  by_cases works : ∀ action, call ≠ .control action
  · have undisturbed : Undisturbed stage f p m m' fired :=
      uncounted_undisturbed named made works uncounted
    obtain ⟨contexts, effect⟩ := makeCall_counts made works
    refine ⟨fun i => by rw [contexts], ?_, ?_, undisturbed.waiting, undisturbed.gone⟩
    · rcases effect with ⟨metadata, same⟩ | ⟨ptr, counts⟩
      · rw [same]
        exact id
      · obtain ⟨all, _, after⟩ := counts.allthreads
        intro _ none
        rw [after] at none
        cases none
    · cases global : m.fi.allthreads with
      | some all =>
          obtain ⟨all', global', same⟩ := undisturbed.counter all global
          rw [globalCount_of_some global', globalCount_of_some global, same]
      | none =>
          rcases effect with ⟨metadata, same⟩ | ⟨ptr, counts⟩
          · rw [same]
            rfl
          · obtain ⟨all, before, _⟩ := counts.allthreads
            rw [global] at before
            cases before
  · obtain ⟨action, isControl⟩ := not_forall_not.mp works
    subst isControl
    obtain ⟨after, stepped, result⟩ := Option.bind_eq_some_iff.mp made
    cases result
    have quiet : Quiet m m' := by
      refine control_quiet (fun records isReset => ?_) stepped
      exact loaded records (congrArg Call.control isReset)
    refine ⟨quiet.names, quiet.founded, quiet.counter _, ?_, ?_⟩
    · rw [quiet.store]
      exact fun waiting => ⟨List.not_mem_nil, waiting⟩
    · rw [quiet.store]
      exact fun gone => ⟨List.not_mem_nil, gone⟩

theorem globalCount_counted {all : ThreadEnabledFault} {number : Nat}
    (global : m.fi.allthreads = some all) (counted : Counted stage all m m')
    (counter : globalCount m.fi stage.counter = BitVec.ofNat 64 number) :
    globalCount m'.fi stage.counter = BitVec.ofNat 64 (number + 1) := by
  obtain ⟨all', global', same⟩ := counted.counter
  rw [globalCount_of_some global', same, ← globalCount_of_some global, counter, BitVec.ofNat_add]
  rfl

/-- The state after a counted event, wherever the fault is then. -/
theorem Standing.counted (standing : Standing stage f p r) {all : ThreadEnabledFault}
    (global : r.here.machine.fi.allthreads = some all) (counted : Counted stage all r.here.machine m')
    {hits : List Nat}
    (place : (hits = [] ∧ ∃ lists, Waiting stage f p lists m'.fi.store) ∨
      (∃ n, hits = [n]) ∧ Gone stage f m'.fi.store) :
    Standing stage f p ⟨⟨m', r.here.number + 1⟩, hits⟩ := by
  refine ⟨?_, ?_, globalCount_counted global counted standing.counter, place⟩
  · intro i
    dsimp only
    rw [counted.contexts]
    exact standing.named i
  · intro none
    obtain ⟨all', global', _⟩ := counted.counter
    dsimp only at none
    rw [global'] at none
    cases none

/-- A call that is no counted event changes neither the number nor what was hit. -/
theorem Standing.uncounted (standing : Standing stage f p r)
    (loaded : ∀ records, call ≠ .control (.reset records))
    (made : makeCall fuel r.here.machine call = some (m', fired))
    (counts : countsFor r.here.machine stage call = false) :
    Standing stage f p ⟨⟨m', r.here.number⟩, r.hits⟩ ∧ f ∉ fired := by
  have calm : Calm stage f p r.here.machine m' fired :=
    uncounted_calm loaded standing.named made counts
  have missed : f ∉ fired ∧ ((r.hits = [] ∧ ∃ lists, Waiting stage f p lists m'.fi.store) ∨
      (∃ n, r.hits = [n]) ∧ Gone stage f m'.fi.store) := by
    rcases standing.place with ⟨none, waiting⟩ | ⟨one, gone⟩
    · obtain ⟨notFired, still⟩ := calm.waiting waiting
      exact ⟨notFired, .inl ⟨none, still⟩⟩
    · obtain ⟨notFired, still⟩ := calm.gone gone
      exact ⟨notFired, .inr ⟨one, still⟩⟩
  refine ⟨⟨?_, calm.founded standing.founded, calm.counter.trans standing.counter, missed.2⟩,
    missed.1⟩
  intro i
  dsimp only
  rw [calm.names i]
  exact standing.named i

theorem number_step (stepped : shotStep fuel stage f r call = some next) :
    next.here.number =
      if countsFor r.here.machine stage call then r.here.number + 1 else r.here.number := by
  obtain ⟨⟨m, fired⟩, _, result⟩ := Option.bind_eq_some_iff.mp stepped
  cases result
  rfl

theorem standing_step (fault : InstFault stage k p) (enough : 2 ≤ fuel)
    (loaded : ∀ records, call ≠ .control (.reset records)) (standing : Standing stage f p r)
    (stepped : shotStep fuel stage f r call = some next) :
    Standing stage f p next ∧
      (r.hits = [] → DueEvent stage k r call → next.hits = [r.here.number + 1]) ∧
      (r.hits = [] → ¬ DueEvent stage k r call → next.hits = []) ∧
      (r.hits ≠ [] → next.hits = r.hits) := by
  obtain ⟨⟨m', fired⟩, made, result⟩ := Option.bind_eq_some_iff.mp stepped
  cases result
  cases counts : countsFor r.here.machine stage call with
  | false =>
      obtain ⟨standing', notFired⟩ := standing.uncounted loaded made counts
      have zero : fired.count f = 0 := List.count_eq_zero.mpr notFired
      have same : r.hits ++ List.replicate (fired.count f) r.here.number = r.hits := by simp [zero]
      simp only [Bool.false_eq_true, if_false, same]
      refine ⟨standing', ?_, fun none _ => none, fun _ => trivial⟩
      rintro _ ⟨counted, _⟩
      rw [counts] at counted
      cases counted
  | true =>
      obtain ⟨all, global⟩ := global_of_counts standing.founded counts
      have due : DueEvent stage k r call ↔ DueNext stage k all := by
        unfold DueEvent DueNext
        rw [globalCount_of_some global, globalCount_of_some global]
        exact and_iff_right counts
      simp only [if_true]
      rcases standing.place with ⟨none, waiting⟩ | ⟨⟨n, one⟩, gone⟩
      · obtain ⟨hit, pass⟩ :=
          counted_waiting fault enough standing.named global counts waiting
        by_cases isDue : DueNext stage k all
        · -- the run went on, so the process of the fault returned
          obtain ⟨fires, stops⟩ := hit isDue
          cases returns : processes (servicedFault k p) call with
          | false =>
              rw [stops returns] at made
              cases made
          | true =>
              obtain ⟨after, made', counted, left⟩ := fires returns
              rw [made'] at made
              cases made
              simp only [none, List.nil_append, List.count_singleton_self, List.replicate_one]
              refine ⟨standing.counted global counted (.inr ⟨⟨_, rfl⟩, left⟩), ?_, ?_, ?_⟩
              · intro _ _
                trivial
              · intro _ notDue
                exact absurd (due.mpr isDue) notDue
              · intro some
                exact absurd rfl some
        · obtain ⟨after, made', counted, still⟩ := pass isDue
          rw [made'] at made
          cases made
          simp only [none, List.nil_append, List.count_nil, List.replicate_zero]
          refine ⟨standing.counted global counted (.inl ⟨rfl, still⟩), ?_, ?_, ?_⟩
          · intro _ isDue'
            exact absurd (due.mp isDue') isDue
          · intro _ _
            trivial
          · intro some
            exact absurd rfl some
      · obtain ⟨after, made', counted, left⟩ :=
          counted_gone enough standing.named global counts gone
        rw [made'] at made
        cases made
        simp only [one, List.count_nil, List.replicate_zero, List.append_nil]
        refine ⟨standing.counted global counted (.inr ⟨⟨n, rfl⟩, left⟩), ?_, ?_, ?_⟩
        · intro empty
          cases empty
        · intro empty
          cases empty
        · intro _
          trivial

end Steps

section Runs

variable {fuel : Nat} {stage : Stage} {f : FaultPtr} {k : Nat} {p : InjectedFault}
  {start reached : ShotRun} {calls : List Call}

/-- Some call of the run is an event at which the fault is due. -/
def DueIn (fuel : Nat) (stage : Stage) (f : FaultPtr) (k : Nat) (calls : List Call)
    (start : ShotRun) : Prop :=
  ∃ before call after r, calls = before ++ call :: after ∧
    run (shotStep fuel stage f) before start = some r ∧ DueEvent stage k r call

def NoReset (calls : List Call) : Prop :=
  ∀ call ∈ calls, ∀ records, call ≠ .control (.reset records)

theorem run_standing (fault : InstFault stage k p) (enough : 2 ≤ fuel) (loaded : NoReset calls)
    (standing : Standing stage f p start)
    (ran : run (shotStep fuel stage f) calls start = some reached) :
    Standing stage f p reached ∧ (start.hits ≠ [] → reached.hits = start.hits) := by
  induction calls generalizing start with
  | nil =>
      cases ran
      exact ⟨standing, fun _ => rfl⟩
  | cons call rest ih =>
      obtain ⟨next, stepped, ran⟩ := Option.bind_eq_some_iff.mp ran
      obtain ⟨kept, _, _, same⟩ :=
        standing_step fault enough (loaded call List.mem_cons_self) standing stepped
      obtain ⟨last, still⟩ :=
        ih (fun other member => loaded other (List.mem_cons_of_mem call member)) kept ran
      refine ⟨last, ?_⟩
      intro struck
      have after := same struck
      rw [still (after ▸ struck), after]

theorem number_mono (ran : run (shotStep fuel stage f) calls start = some reached) :
    start.here.number ≤ reached.here.number := by
  induction calls generalizing start with
  | nil =>
      cases ran
      exact Nat.le_refl _
  | cons call rest ih =>
      obtain ⟨next, stepped, ran⟩ := Option.bind_eq_some_iff.mp ran
      refine Nat.le_trans ?_ (ih ran)
      rw [number_step stepped]
      split <;> omega

theorem run_hits (fault : InstFault stage k p) (enough : 2 ≤ fuel) (loaded : NoReset calls)
    (standing : Standing stage f p start) (fresh : start.hits = [])
    (ran : run (shotStep fuel stage f) calls start = some reached) :
    (¬ DueIn fuel stage f k calls start ∧ reached.hits = []) ∨
    ∃ before call after r, calls = before ++ call :: after ∧
      run (shotStep fuel stage f) before start = some r ∧ Standing stage f p r ∧
      DueEvent stage k r call ∧ reached.hits = [r.here.number + 1] ∧
      r.here.number < reached.here.number := by
  induction calls generalizing start with
  | nil =>
      cases ran
      refine .inl ⟨?_, fresh⟩
      rintro ⟨before, call, after, r, split, _⟩
      simp at split
  | cons call rest ih =>
      obtain ⟨next, stepped, ran⟩ := Option.bind_eq_some_iff.mp ran
      have loadedRest : NoReset rest :=
        fun other member => loaded other (List.mem_cons_of_mem call member)
      obtain ⟨kept, struck, missed, _⟩ :=
        standing_step fault enough (loaded call List.mem_cons_self) standing stepped
      by_cases due : DueEvent stage k start call
      · have here := struck fresh due
        have still := (run_standing fault enough loadedRest kept ran).2 (by simp [here])
        have passed : start.here.number < reached.here.number := by
          refine Nat.lt_of_lt_of_le ?_ (number_mono ran)
          rw [number_step stepped, if_pos due.1]
          exact Nat.lt_succ_self _
        exact .inr ⟨[], call, rest, start, rfl, rfl, standing, due, still.trans here, passed⟩
      · rcases ih loadedRest kept (missed fresh due) ran with ⟨never, none⟩ |
          ⟨before, other, after, r, split, ranBefore, standing', isDue, hits, passed⟩
        · refine .inl ⟨?_, none⟩
          rintro ⟨before, other, after, r, split, ranBefore, isDue⟩
          cases before with
          | nil =>
              obtain ⟨rfl, rfl⟩ := List.cons.inj split
              cases ranBefore
              exact due isDue
          | cons first others =>
              obtain ⟨rfl, rfl⟩ := List.cons.inj split
              obtain ⟨next', stepped', ranBefore⟩ := Option.bind_eq_some_iff.mp ranBefore
              rw [stepped] at stepped'
              cases stepped'
              exact never ⟨others, other, after, r, rfl, ranBefore, isDue⟩
        · refine .inr ⟨call :: before, other, after, r, by rw [split]; rfl, ?_, standing', isDue, hits,
            passed⟩
          rw [run_cons, stepped]
          exact ranBefore

theorem hits_length_iff (fault : InstFault stage k p) (enough : 2 ≤ fuel) (loaded : NoReset calls)
    (standing : Standing stage f p start) (fresh : start.hits = [])
    (ran : run (shotStep fuel stage f) calls start = some reached) :
    reached.hits.length = 1 ↔ DueIn fuel stage f k calls start := by
  rcases run_hits fault enough loaded standing fresh ran with ⟨never, none⟩ |
    ⟨before, call, after, r, split, ranBefore, _, due, hits, _⟩
  · exact iff_of_false (by simp [none]) never
  · exact iff_of_true (by simp [hits]) ⟨before, call, after, r, split, ranBefore, due⟩

/-- An event at which a fault Inst:k with `k` positive is due has the number to be
hit, as long as the number has not been passed. -/
theorem due_iff_number {r : ShotRun} {call : Call} (first : 1 ≤ k) (small : k < 2 ^ 64)
    (standing : Standing stage f p r) (before : r.here.number < hitNumber stage k)
    (counts : countsFor r.here.machine stage call = true) :
    DueEvent stage k r call ↔ r.here.number + 1 = hitNumber stage k := by
  have positive : BitVec.ofNat 64 k ≠ 0 := ofNat_ne_zero first small
  have ticking : globalCount r.here.machine.fi .ticks ||| BitVec.ofNat 64 k ≠ 0 :=
    fun zero => positive (BitVec.or_eq_zero_iff.mp zero).2
  unfold DueEvent
  rw [standing.counter, reading_iff small before]
  exact ⟨fun due => due.2.1, fun number => ⟨counts, number, ticking⟩⟩

theorem number_ahead (fault : InstFault stage k p) (enough : 2 ≤ fuel) (first : 1 ≤ k)
    (small : k < 2 ^ 64) (loaded : NoReset calls) (standing : Standing stage f p start)
    (fresh : start.hits = []) (ahead : start.here.number < hitNumber stage k)
    (ran : run (shotStep fuel stage f) calls start = some reached) :
    (reached.hits = [] ∧ reached.here.number < hitNumber stage k) ∨
      reached.hits = [hitNumber stage k] := by
  induction calls generalizing start with
  | nil =>
      cases ran
      exact .inl ⟨fresh, ahead⟩
  | cons call rest ih =>
      obtain ⟨next, stepped, ran⟩ := Option.bind_eq_some_iff.mp ran
      have loadedRest : NoReset rest :=
        fun other member => loaded other (List.mem_cons_of_mem call member)
      obtain ⟨kept, struck, missed, _⟩ :=
        standing_step fault enough (loaded call List.mem_cons_self) standing stepped
      by_cases due : DueEvent stage k start call
      · have number := (due_iff_number first small standing ahead due.1).mp due
        have here := struck fresh due
        have still := (run_standing fault enough loadedRest kept ran).2 (by simp [here])
        exact .inr (by rw [still, here, number])
      · apply ih loadedRest kept (missed fresh due) _ ran
        rw [number_step stepped]
        split
        · next counts =>
            have apart : start.here.number + 1 ≠ hitNumber stage k := fun here =>
              due ((due_iff_number first small standing ahead counts).mpr here)
            omega
        · exact ahead

end Runs

section Loading

def stageFor : Written → Stage
  | .generalFetch => .fetch
  | .iewStage => .execute
  | .loadStore => .loadStore

theorem stageOf_target (class_ : Written) :
    stageOf class_.target.faultType = (stageFor class_).queue := by
  cases class_ <;> rfl

theorem instFault_of_data {stage : Stage} {k : Nat} {s s' : FaultStore} {f : FaultPtr}
    (fault : InstFault stage k (s.mem f)) (same : s'.data f = s.data f) :
    InstFault stage k (s'.mem f) where
  typed := (congrArg (fun p => stageOf p.faultType) same).trans fault.typed
  timingType := (congrArg InjectedFault.timingType same).trans fault.timingType
  timing := (congrArg InjectedFault.timing same).trans fault.timing
  where_ := (congrArg InjectedFault.where_ same).trans fault.where_
  thread := (congrArg InjectedFault.thread same).trans fault.thread
  occurrence := (congrArg InjectedFault.occurrence same).trans fault.occurrence
  manifested := (congrArg InjectedFault.manifested same).trans fault.manifested

theorem load_alone {fuel : Nat} {record : FaultRecord} {s : FaultStore}
    {lists : StageQueue → List FaultPtr} (some_fuel : 0 < fuel) (held : Represents s lists)
    (vacant : lists (stageOf record.faultType) = []) (outside : ∀ q, s.fresh ∉ lists q) :
    ∃ s', load fuel record s = some s' ∧
      s'.data s.fresh = (allocate record s).data s.fresh ∧
      ∃ lists', Represents s' lists' ∧ lists' (stageOf record.faultType) = [s.fresh] := by
  have allocated : Represents (allocate record s) lists := by
    refine held.congr rfl (fun q p member => ?_)
    have other : p ≠ s.fresh := fun same => outside q (same ▸ member)
    simp [allocate, FaultStore.nxt, FaultStore.prv, FaultStore.owner, FaultStore.write, other]
  have cleared : LinksCleared (allocate record s) (stageOf record.faultType)
      (lists (stageOf record.faultType)) s.fresh := by
    constructor
    · intro occupied
      exact absurd vacant occupied
    · intro p first
      have head := (allocated.linked (stageOf record.faultType)).head_eq
      rw [vacant, first] at head
      cases head
  obtain ⟨s', loaded⟩ := insert_returns (allocated.linked (stageOf record.faultType))
    (show _ < fuel by rw [vacant]; exact some_fuel)
  refine ⟨s', loaded, congrFun (FaultStore.insert_frame loaded).1 s.fresh, _,
    insert_represents allocated outside cleared loaded, ?_⟩
  rw [Function.update_self, vacant]
  rfl

theorem experiment_loads (class_ : Written) (range : CLong) (time : Draw 0 range)
    (bit : Draw 0 class_.bits) (garbage : FaultT) (asserts : Bool) (stack : Nat → Leftovers)
    {fuel : Nat} {s : FaultStore} {lists : StageQueue → List FaultPtr} (some_fuel : 0 < fuel)
    (held : Represents s lists) (vacant : lists (stageFor class_).queue = [])
    (outside : ∀ q, s.fresh ∉ lists q) :
    ∃ s', loadFile asserts stack fuel (createExp class_ range time bit garbage).dropLast s = some s' ∧
      InstFault (stageFor class_) time.val.toNat (s'.mem s.fresh) ∧
      ∃ lists', Waiting (stageFor class_) s.fresh (s'.mem s.fresh) lists' s' := by
  obtain ⟨records, made, loads⟩ := loadFile_unterminated asserts stack fuel
    (flipLine class_.target (Draw.timing time) (BitVec.ofNat 64 (bit.val.toNat + 2))) []
  obtain ⟨record, rest, ⟨memory, isRecord⟩, noMore, rfl⟩ := List.forall₂_cons_left_iff.mp made
  cases noMore
  have queue : stageOf record.faultType = (stageFor class_).queue := by
    rw [isRecord]
    exact stageOf_target class_
  obtain ⟨s', loaded, data, lists', represented, alone⟩ :=
    load_alone some_fuel held (queue ▸ vacant) outside
  refine ⟨s', ?_, ?_, lists', represented, queue ▸ alone, rfl⟩
  · have text := loads s
    simp only [FaultRoundTrip.behind, List.flatMap_nil, List.append_nil] at text
    rw [createExp_eq, List.dropLast_concat, text]
    simp [Activation.getFromFile, loaded]
  · have fields : (allocate record s).mem s.fresh = record.construct (s.mem s.fresh) := by
      simp [allocate, FaultStore.write]
    have constructed : InstFault (stageFor class_) time.val.toNat ((allocate record s).mem s.fresh) := by
      rw [fields, isRecord]
      cases class_ <;> exact ⟨rfl, rfl, rfl, rfl, rfl, rfl, rfl⟩
    exact instFault_of_data constructed data

end Loading

section Experiments

def loadedRun (m : Machine) (store : FaultStore) : ShotRun :=
  -- the machine with the faults of an experiment read in, before any event
  ⟨⟨{ m with fi := { m.fi with store := store } }, 0⟩, []⟩

/-- An experiment of final_create_exp.c with the time it drew: its line is loaded,
without the newline, and a run counts at least as many events as the range given
to the program. -/
structure Experiment (class_ : Written) (range : CLong) (fuel : Nat) (m : Machine)
    (time : Draw 0 range) where
  bit : Draw 0 class_.bits
  garbage : FaultT
  asserts : Bool
  stack : Nat → Leftovers
  store : FaultStore
  calls : List Call
  reached : ShotRun
  loaded : loadFile asserts stack fuel (createExp class_ range time bit garbage).dropLast
    m.fi.store = some store
  noReset : NoReset calls
  ran : run (shotStep fuel (stageFor class_) m.fi.store.fresh) calls (loadedRun m store) =
    some reached
  counted : range.val ≤ reached.here.number

/-- A machine on which nothing has been counted and the queue of the class is
empty. -/
structure Ready (class_ : Written) (m : Machine) : Prop where
  named : ∀ i, (m.contexts i).cpuName ≠ allcores
  founded : m.fi.allthreads = none → m.fi.threads = []
  counter : globalCount m.fi (stageFor class_).counter = 0
  queues : ∃ lists, Represents m.fi.store lists ∧ lists (stageFor class_).queue = [] ∧
    ∀ q, m.fi.store.fresh ∉ lists q

/-- The tick counter is not zero at the first counted event. -/
def FirstTicking (fuel : Nat) (stage : Stage) (f : FaultPtr) (calls : List Call)
    (start : ShotRun) : Prop :=
  ∃ before call after r, calls = before ++ call :: after ∧
    run (shotStep fuel stage f) before start = some r ∧ r.here.number = 0 ∧
    countsFor r.here.machine stage call = true ∧ globalCount r.here.machine.fi .ticks ≠ 0

def drawnZero (range : CLong) (first : 1 ≤ range.val) : Draw 0 range :=
  ⟨0, Int.le_refl 0, by omega⟩

variable {class_ : Written} {range : CLong} {fuel : Nat} {m : Machine} {time : Draw 0 range}

theorem Experiment.standing (e : Experiment class_ range fuel m time) (enough : 2 ≤ fuel)
    (ready : Ready class_ m) :
    ∃ p, InstFault (stageFor class_) time.val.toNat p ∧
      Standing (stageFor class_) m.fi.store.fresh p (loadedRun m e.store) := by
  obtain ⟨lists, held, vacant, outside⟩ := ready.queues
  obtain ⟨store, loaded, fault, waiting⟩ := experiment_loads class_ range time e.bit e.garbage
    e.asserts e.stack (by omega : 0 < fuel) held vacant outside
  rw [e.loaded] at loaded
  cases loaded
  exact ⟨_, fault, ready.named, ready.founded, ready.counter, .inl ⟨rfl, waiting⟩⟩

/-- A time that is not zero strikes one event, whatever the ticks. -/
theorem Experiment.hits_of_positive (e : Experiment class_ range fuel m time) (enough : 2 ≤ fuel)
    (ready : Ready class_ m) (positive : time.val ≠ 0) :
    e.reached.hits = [hitNumber (stageFor class_) time.val.toNat] := by
  obtain ⟨p, fault, standing⟩ := e.standing enough ready
  have bounds := time.property
  have small := range.property
  have counted := e.counted
  have last : hitNumber (stageFor class_) time.val.toNat ≤ e.reached.here.number := by
    unfold hitNumber
    split <;> omega
  have ahead : (loadedRun m e.store).here.number < hitNumber (stageFor class_) time.val.toNat := by
    simp only [loadedRun, hitNumber]
    split <;> omega
  rcases number_ahead fault enough (by omega) (by omega) e.noReset standing rfl ahead e.ran with
    ⟨_, before⟩ | hits
  · omega
  · exact hits

/-- The time zero strikes one of the first 2^31 events only if that is the first,
of a stage that counts behind its scan, with ticks. -/
theorem Experiment.zero_hits_iff (e : Experiment class_ range fuel m time) (enough : 2 ≤ fuel)
    (ready : Ready class_ m) (zero : time.val = 0) {n : Nat} (small : n < 2 ^ 31) :
    e.reached.hits = [n] ↔ stageFor class_ ≠ .fetch ∧ n = 1 ∧
      FirstTicking fuel (stageFor class_) m.fi.store.fresh e.calls (loadedRun m e.store) := by
  obtain ⟨p, fault, standing⟩ := e.standing enough ready
  rw [zero] at fault
  have struck := run_hits fault enough e.noReset standing rfl e.ran
  constructor
  · intro hits
    rcases struck with ⟨_, none⟩ | ⟨before, call, after, r, split, ran, standing', due, here, _⟩
    · rw [none] at hits
      cases hits
    · obtain ⟨counts, reading, ticking⟩ := due
      have number : r.here.number + 1 = n := by simpa [here] using hits
      rw [standing'.counter] at reading
      have value := congrArg BitVec.toNat reading
      by_cases fetch : stageFor class_ = .fetch
      · rw [if_pos fetch] at value
        simp at value
        omega
      · rw [if_neg fetch] at value
        simp at value
        have ticks : globalCount r.here.machine.fi .ticks ≠ 0 := by
          simpa using ticking
        exact ⟨fetch, by omega, before, call, after, r, split, ran, by omega, counts, ticks⟩
  · rintro ⟨notFetch, rfl, before, call, after, r, split, ran, first, counts, ticks⟩
    have loadedCalls := e.noReset
    have ranAll := e.ran
    rw [split] at loadedCalls ranAll
    rw [run_append, ran, Option.bind_some] at ranAll
    obtain ⟨next, stepped, ranAfter⟩ := Option.bind_eq_some_iff.mp ranAll
    have loadedBefore : NoReset before := fun other member =>
      loadedCalls other (List.mem_append_left _ member)
    have loadedAfter : NoReset (call :: after) := fun other member =>
      loadedCalls other (List.mem_append_right _ member)
    have unstruck : r.hits = [] := by
      rcases run_hits fault enough loadedBefore standing rfl ran with ⟨_, none⟩ |
        ⟨_, _, _, earlier, _, _, _, _, _, passed⟩
      · exact none
      · omega
    have standing' := (run_standing fault enough loadedBefore standing ran).1
    have due : DueEvent (stageFor class_) 0 r call := by
      refine ⟨counts, ?_, ?_⟩
      · rw [standing'.counter, first, if_neg notFetch]
        rfl
      · simpa using ticks
    obtain ⟨kept, struck, _⟩ := standing_step fault enough
      (loadedAfter call List.mem_cons_self) standing' stepped
    have hits := struck unstruck due
    have still := (run_standing fault enough
      (fun other member => loadedAfter other (List.mem_cons_of_mem call member)) kept ranAfter).2
      (by simp [hits])
    rw [still, hits, first]

/-- Exactly which experiments inject and which events are hit. -/
theorem experiments_inject_iff (class_ : Written) (range : CLong) (fuel : Nat) (m : Machine)
    (enough : 2 ≤ fuel) (first : 1 ≤ range.val) (below : range.val < 2 ^ 31)
    (ready : Ready class_ m) (campaign : ∀ time, Experiment class_ range fuel m time) :
    (∀ time, (campaign time).reached.hits.length = 1 ↔ time.val ≠ 0 ∨
      DueIn fuel (stageFor class_) m.fi.store.fresh 0 (campaign time).calls
        (loadedRun m (campaign time).store)) ∧
    (((∀ time, (campaign time).reached.hits.length = 1) ∧
        ∀ n : Nat, 1 ≤ n → n ≤ range.val → ∃ time, (campaign time).reached.hits = [n]) ↔
      stageFor class_ ≠ .fetch ∧ FirstTicking fuel (stageFor class_) m.fi.store.fresh
        (campaign (drawnZero range first)).calls
        (loadedRun m (campaign (drawnZero range first)).store)) := by
  have single : ∀ time, (campaign time).reached.hits.length = 1 ↔ time.val ≠ 0 ∨
      DueIn fuel (stageFor class_) m.fi.store.fresh 0 (campaign time).calls
        (loadedRun m (campaign time).store) := by
    intro time
    by_cases zero : time.val = 0
    · obtain ⟨p, fault, standing⟩ := (campaign time).standing enough ready
      rw [zero] at fault
      rw [hits_length_iff fault enough (campaign time).noReset standing rfl (campaign time).ran]
      exact (or_iff_right (not_not.mpr zero)).symm
    · rw [(campaign time).hits_of_positive enough ready zero]
      exact iff_of_true rfl (.inl zero)
  refine ⟨single, ?_, ?_⟩
  · rintro ⟨_, covers⟩
    by_cases fetch : stageFor class_ = .fetch
    · -- the last event is too far for every time
      obtain ⟨time, hits⟩ := covers range.val.toNat (by omega) (by omega)
      have bounds := time.property
      by_cases zero : time.val = 0
      · exact absurd fetch (((campaign time).zero_hits_iff enough ready zero (by omega)).mp hits).1
      · rw [(campaign time).hits_of_positive enough ready zero, hitNumber, if_pos fetch] at hits
        have same := List.singleton_inj.mp hits
        omega
    · obtain ⟨time, hits⟩ := covers 1 (Nat.le_refl 1) (by exact_mod_cast first)
      by_cases zero : time.val = 0
      · have isZero : time = drawnZero range first := Subtype.ext zero
        subst isZero
        exact ⟨fetch, (((campaign _).zero_hits_iff enough ready rfl (by decide)).mp hits).2.2⟩
      · rw [(campaign time).hits_of_positive enough ready zero, hitNumber, if_neg fetch] at hits
        have same := List.singleton_inj.mp hits
        have bounds := time.property
        omega
  · rintro ⟨notFetch, ticking⟩
    have struck := ((campaign (drawnZero range first)).zero_hits_iff enough ready rfl
      (by decide : 1 < 2 ^ 31)).mpr ⟨notFetch, rfl, ticking⟩
    constructor
    · intro time
      by_cases zero : time.val = 0
      · have isZero : time = drawnZero range first := Subtype.ext zero
        subst isZero
        rw [struck]
        rfl
      · rw [(campaign time).hits_of_positive enough ready zero]
        rfl
    · intro n positive within
      by_cases isFirst : n = 1
      · subst isFirst
        exact ⟨_, struck⟩
      · refine ⟨⟨(n - 1 : Nat), by omega, by omega⟩, ?_⟩
        rw [(campaign _).hits_of_positive enough ready (by simp only; omega), hitNumber,
          if_neg notFetch]
        simp only [Int.toNat_natCast]
        congr 1
        omega

def oneInstruction : CLong := ⟨1, by decide⟩

def onlyTime : Draw 0 oneInstruction := drawnZero oneInstruction (by decide)

def startedMachine : Machine where
  fi := (bootedMachine.fi.startFi (bootedMachine.contexts 0) 0).1
  contexts _ := (bootedMachine.fi.startFi (bootedMachine.contexts 0) 0).2

def noMemory : FaultT := ⟨"", "", "", "", "", 0, 0, 0, 0, 0, ""⟩

def loadedStore (class_ : Written) {range : CLong} (time : Draw 0 range)
    (bit : Draw 0 class_.bits) : FaultStore :=
  (loadFile true (fun _ => zeroed) 9 (createExp class_ range time bit noMemory).dropLast
    QueueHistory.clearMemory).getD QueueHistory.clearMemory

def reachedBy (class_ : Written) {range : CLong} (time : Draw 0 range) (bit : Draw 0 class_.bits)
    (calls : List Call) : ShotRun :=
  (run (shotStep 9 (stageFor class_) 0) calls
    (loadedRun startedMachine (loadedStore class_ time bit))).getD
    (loadedRun startedMachine (loadedStore class_ time bit))

theorem startedMachine_ready (class_ : Written) : Ready class_ startedMachine where
  named i same := by
    have differs : "system.cpu" ≠ allcores := by decide
    exact differs same
  founded none := by cases none
  counter := by cases class_ <;> rfl
  queues := by
    refine ⟨fun _ => [], ⟨fun q => ?_, fun q r p => ?_, fun q p => ?_⟩, rfl, fun q => ?_⟩
    · cases q <;> exact Linked.nil
    · simp
    · simp
    · exact List.not_mem_nil

def twoInstructions : CLong := ⟨2, by decide⟩

theorem two_times (time : Draw 0 twoInstructions) :
    time = drawnZero twoInstructions (by decide) ∨ time = ⟨1, by decide⟩ := by
  have least := time.property.1
  have most : time.val < 2 := time.property.2
  by_cases zero : time.val = 0
  · exact Or.inl (Subtype.ext zero)
  · exact Or.inr (Subtype.ext (show time.val = 1 by omega))

def tickingCalls : List Call := [.increaseTicks 0 0 5, operandCall, operandCall]

def tickingExperiment (time : Draw 0 twoInstructions) :
    Experiment .iewStage twoInstructions 9 startedMachine time where
  bit := ⟨3, by decide⟩
  garbage := noMemory
  asserts := true
  stack _ := zeroed
  store := loadedStore .iewStage time ⟨3, by decide⟩
  calls := tickingCalls
  reached := reachedBy .iewStage time ⟨3, by decide⟩ tickingCalls
  loaded := by rcases two_times time with rfl | rfl <;> rfl
  noReset := by
    intro call member records isReset
    rw [isReset] at member
    simp [tickingCalls, operandCall] at member
  ran := by rcases two_times time with rfl | rfl <;> rfl
  counted := by rcases two_times time with rfl | rfl <;> decide

theorem ticking_experiments_inject :
    (∀ time, (tickingExperiment time).reached.hits.length = 1) ∧
      ∀ n : Nat, 1 ≤ n → n ≤ twoInstructions.val →
        ∃ time, (tickingExperiment time).reached.hits = [n] := by
  refine (experiments_inject_iff .iewStage twoInstructions 9 startedMachine (by decide) (by decide)
    (by decide) (startedMachine_ready _) tickingExperiment).2.mpr ⟨by decide, ?_⟩
  refine ⟨[.increaseTicks 0 0 5], operandCall, [operandCall],
    reachedBy .iewStage (drawnZero twoInstructions (by decide)) ⟨3, by decide⟩
      [.increaseTicks 0 0 5], rfl, ?_, ?_, ?_, ?_⟩
  · rfl
  · rfl
  · rfl
  · decide

def fetchExperiment : Experiment .generalFetch oneInstruction 9 startedMachine onlyTime where
  bit := ⟨3, by decide⟩
  garbage := noMemory
  asserts := true
  stack _ := zeroed
  store := loadedStore .generalFetch onlyTime ⟨3, by decide⟩
  calls := [firstFetchCall]
  reached := reachedBy .generalFetch onlyTime ⟨3, by decide⟩ [firstFetchCall]
  loaded := by rfl
  noReset := by
    intro call member records isReset
    rw [isReset] at member
    simp [firstFetchCall] at member
  ran := rfl
  counted := by decide

/-- The fetch fault of a program with one instruction is never injected. -/
theorem only_fetch_fault_is_not_injected :
    fetchExperiment.reached.here.number = 1 ∧ fetchExperiment.reached.hits = [] :=
  ⟨rfl, rfl⟩

end Experiments

end GemFi.ExperimentTiming
