import GemFi.ActivationCount
import GemFi.Cycles

/-!
What a PAUSE freezes. The hooks look at the mode of the object they work for, so
a paused thread is left alone as long as every context and every cycle that
works for it works for the object that was paused. The ticks of a cycle are
charged whatever the mode is.
-/

namespace GemFi.PauseFreeze

open AssocTotals ThreadInfo Transitions FaultQueue Corruption FaultScan Activation
open Activation.FiSystem ActivationCount Hooks Calls Cycles

def running (s : Processor) (i : Nat) : Addr := getFiThread (s.machine.contexts i)

def counters (fi : FiSystem) (p : Addr) (ptr : ThreadPtr) :
    Option (CpuExecutedTicks × AList fun _ : String => CpuExecutedTicks) :=
  -- the counters of the object at `ptr`, if it was created for thread `p`
  (fi.threads[ptr]?.filter fun t => decide (t.pcb = p)).map fun t => (t.info.all, t.info.cores)

def manifestedOn (s : Processor) (p : Addr) : List FaultPtr :=
  -- the faults that hit an instruction, operand or memory value of thread `p`
  (s.manifested.filter fun entry => decide (entry.1 = p)).map Prod.snd

structure Unchanged (p : Addr) (s s' : Processor) : Prop where
  counters : ∀ ptr, counters s'.machine.fi p ptr = counters s.machine.fi p ptr
  manifested : manifestedOn s' p = manifestedOn s p

def Starts (p : Addr) (s : Processor) : Action → Prop
  | .control (.request i .start _ _) => running s i = p
  | _ => False

/-- From every PAUSE request of a thread up to its next START, nothing changes
for the thread. -/
def PauseFreezes (fuel : Nat) (actions : List Action) (s : Processor) : Prop :=
  ∀ before i threadid curTick during after asked reached,
    actions = before ++ .control (.request i .pause threadid curTick) :: (during ++ after) →
    run (Processor.step fuel) before s = some asked →
    run (Processor.step fuel) (.control (.request i .pause threadid curTick) :: during) asked =
      some reached →
    EachStep (Processor.step fuel) (fun state action => ¬ Starts (running asked i) state action)
      (.control (.request i .pause threadid curTick) :: during) asked →
    Unchanged (running asked i) asked reached

def Undisturbed (s : Processor) : Action → Prop
  -- no ticks are charged to a paused object; PAUSE finds no context and no cycle still at work for
  -- another object of its thread; and a context switch does not come in the middle of a cycle that
  -- works for a thread
  | .control (.request i .pause _ _) =>
      ∀ j ptr, running s j = running s i → s.WorksFor j ptr →
        s.machine.fi.activation.lookup (running s i) = some ptr
  | .control (.switchTo i _) => (s.cycles i).bind Cycle.currThread = none
  | action => ∀ ptr, s.Charges ptr action → s.machine.fi.modeOf ptr ≠ some .pause

/-- The processor before the first request: no thread is known, no cycle is in
progress, and the contexts come up without a thread. -/
structure PoweredOn (s : Processor) : Prop where
  booted : Booted s.machine.fi
  contexts : ∀ i, (s.machine.contexts i).fiThread = none
  cycles : ∀ i, s.cycles i = none

def pcbOf (fi : FiSystem) (ptr : ThreadPtr) : Option Addr := fi.threads[ptr]?.map FiThread.pcb

/-- Objects belong to the threads whose entries point to them and on whose
contexts they are used. -/
structure Sound (s : Processor) : Prop where
  tidy : Tidy s.machine.fi
  owner : ∀ a ptr, s.machine.fi.activation.lookup a = some ptr →
    pcbOf s.machine.fi ptr = some a
  works : ∀ i ptr, s.WorksFor i ptr → pcbOf s.machine.fi ptr = some (running s i)

/-- Whatever works for thread `p` works for a paused object, and so will a
context that switches to it. -/
structure Frozen (p : Addr) (s : Processor) : Prop where
  entry : ∀ ptr, s.machine.fi.activation.lookup p = some ptr →
    s.machine.fi.modeOf ptr = some .pause
  works : ∀ i ptr, running s i = p → s.WorksFor i ptr → s.machine.fi.modeOf ptr = some .pause

section Objects

structure SameObjects (fi fi' : FiSystem) : Prop where
  activation : fi'.activation = fi.activation
  count : fi'.threads.length = fi.threads.length
  pcb : ∀ ptr, pcbOf fi' ptr = pcbOf fi ptr
  mode : ∀ ptr, fi'.modeOf ptr = fi.modeOf ptr

variable {fi fi' : FiSystem} {ptr : ThreadPtr}

theorem pcbOf_updateThread (fi : FiSystem) (ptr other : ThreadPtr)
    (change : ThreadEnabledFault → ThreadEnabledFault) :
    pcbOf (fi.updateThread ptr change) other = pcbOf fi other := by
  unfold pcbOf updateThread
  rw [List.getElem?_modify]
  by_cases same : ptr = other
  · cases fi.threads[other]? <;> simp [same]
  · simp [same]

theorem pcbOf_setMode (fi : FiSystem) (ptr other : ThreadPtr) (mode : FiCommand) :
    pcbOf (fi.setMode ptr mode) other = pcbOf fi other :=
  pcbOf_updateThread fi ptr other _

theorem updateThread_sameObjects (fi : FiSystem) (ptr : ThreadPtr)
    (change : ThreadEnabledFault → ThreadEnabledFault) (kept : ∀ t, (change t).mode = t.mode) :
    SameObjects fi (fi.updateThread ptr change) where
  activation := rfl
  count := List.length_modify _ _ _
  pcb other := pcbOf_updateThread fi ptr other change
  mode other := updateThread_modeOf fi ptr other change kept

theorem counted_mode (event : Option CounterCall) (t : ThreadEnabledFault) :
    (event.elim t t.count).mode = t.mode := by
  cases event with
  | none => rfl
  | some call => rw [Option.elim_some, count_eq_increase, ThreadEnabledFault.increase_mode]

theorem sameObjects_of_counts {event : Option CounterCall} (counts : Counts fi ptr event fi') :
    SameObjects fi fi' := by
  obtain ⟨activation, count, pcb, mode⟩ := updateThread_sameObjects fi ptr
    (fun t => event.elim t t.count) (counted_mode event)
  have same : fi'.threads = (fi.updateThread ptr fun t => event.elim t t.count).threads :=
    counts.threads
  constructor
  · exact counts.activation
  · rw [same, count]
  · intro other
    unfold pcbOf
    rw [same]
    exact pcb other
  · intro other
    unfold modeOf threadInfo
    rw [same]
    exact mode other

theorem sameObjects_of_hook {fired : List FaultPtr} (effect : HookEffect fi ptr fi' fired) :
    SameObjects fi fi' := by
  cases effect with
  | quiet metadata => exact ⟨rfl, rfl, fun _ => rfl, fun _ => rfl⟩
  | active _ _ event started counts => exact sameObjects_of_counts counts

theorem pcbOf_activate (tc : ThreadContext) (threadid : Word) {a : Addr}
    (owned : pcbOf fi ptr = some a) : pcbOf (fi.activate tc threadid) ptr = some a := by
  obtain ⟨t, found, pcb⟩ := Option.map_eq_some_iff.mp owned
  have live := (List.getElem?_eq_some_iff.mp found).1
  unfold pcbOf activate
  dsimp only
  rw [List.getElem?_append_left live, found, Option.map_some, pcb]

theorem pcbOf_activate_new (fi : FiSystem) (tc : ThreadContext) (threadid : Word) :
    pcbOf (fi.activate tc threadid) fi.threads.length = some (getFiThread tc) := by
  simp [pcbOf, activate]

theorem modeOf_activate_old (tc : ThreadContext) (threadid : Word) {a : Addr}
    (owned : pcbOf fi ptr = some a) : (fi.activate tc threadid).modeOf ptr = fi.modeOf ptr := by
  obtain ⟨t, found, _⟩ := Option.map_eq_some_iff.mp owned
  have live := (List.getElem?_eq_some_iff.mp found).1
  rw [modeOf_activate, if_neg (Nat.ne_of_lt live)]

/-- Changing an object of another thread, or one of this thread outside its
counters, changes none of this thread's counters. -/
theorem counters_updateThread (p : Addr) (change : ThreadEnabledFault → ThreadEnabledFault)
    (kept : pcbOf fi ptr ≠ some p ∨ ∀ t, (change t).all = t.all ∧ (change t).cores = t.cores)
    (other : ThreadPtr) : counters (fi.updateThread ptr change) p other = counters fi p other := by
  unfold counters updateThread
  rw [List.getElem?_modify]
  by_cases same : ptr = other
  · subst other
    cases object : fi.threads[ptr]? with
    | none => simp
    | some t =>
        by_cases mine : t.pcb = p
        · rcases kept with foreign | kept
          · exact absurd (by simp [pcbOf, object, mine]) foreign
          · simp [mine, Option.filter, kept t.info]
        · simp [mine, Option.filter]
  · simp [same]

theorem counters_setMode (fi : FiSystem) (ptr : ThreadPtr) (mode : FiCommand) (p : Addr)
    (other : ThreadPtr) : counters (fi.setMode ptr mode) p other = counters fi p other :=
  counters_updateThread p (fun t => { t with mode := some mode }) (Or.inr fun _ => ⟨rfl, rfl⟩) other

theorem counters_counted {event : Option CounterCall} {p : Addr}
    (counts : Counts fi ptr event fi') (foreign : pcbOf fi ptr ≠ some p) (other : ThreadPtr) :
    counters fi' p other = counters fi p other := by
  rw [← counters_updateThread p (fun t => event.elim t t.count) (Or.inl foreign) other]
  unfold counters
  rw [counts.threads]
  rfl

theorem counters_activate (tc : ThreadContext) (threadid : Word) (p : Addr)
    (foreign : getFiThread tc ≠ p) (other : ThreadPtr) :
    counters (fi.activate tc threadid) p other = counters fi p other := by
  unfold counters activate
  dsimp only
  rcases Nat.lt_trichotomy other fi.threads.length with old | rfl | beyond
  · rw [List.getElem?_append_left old]
  · simp [Option.filter, foreign]
  · rw [List.getElem?_eq_none (Nat.le_of_lt beyond), List.getElem?_eq_none]
    rw [List.length_append]
    exact beyond

end Objects

section Contexts

variable {s s' : Processor} {fi' : FiSystem} {i : Nat} {enabled : Bool} {thread : Option ThreadPtr}
  {p : Addr}

/-- The processor after a request: context `i` got another thread object or
lost the one it had. -/
def assigned (s : Processor) (fi' : FiSystem) (i : Nat) (enabled : Bool)
    (thread : Option ThreadPtr) : Processor :=
  { s with machine := ⟨fi', s.machine.setContext i
      { s.machine.contexts i with enabledFI := enabled, fiThread := thread }⟩ }

theorem running_assigned (j : Nat) : running (assigned s fi' i enabled thread) j = running s j := by
  unfold running assigned
  dsimp only
  by_cases same : j = i
  · subst j
    rw [Machine.setContext, Function.update_self]
    rfl
  · rw [setContext_other i j _ same]

theorem worksFor_assigned (j : Nat) (ptr : ThreadPtr)
    (works : (assigned s fi' i enabled thread).WorksFor j ptr) :
    (j = i ∧ thread = some ptr) ∨ s.WorksFor j ptr := by
  rcases works with context | cycle
  · by_cases same : j = i
    · subst j
      simp only [assigned, Machine.setContext, Function.update_self] at context
      exact Or.inl ⟨rfl, context⟩
    · simp only [assigned] at context
      rw [setContext_other i j _ same] at context
      exact Or.inr (Or.inl context)
  · exact Or.inr (Or.inr cycle)

theorem none_given {P : ThreadPtr → Prop} (ptr : ThreadPtr)
    (points : (none : Option ThreadPtr) = some ptr) : P ptr := by
  cases points

theorem Sound.assigned (sound : Sound s) (tidy : Tidy fi')
    (owner : ∀ a ptr, fi'.activation.lookup a = some ptr → pcbOf fi' ptr = some a)
    (kept : ∀ ptr a, pcbOf s.machine.fi ptr = some a → pcbOf fi' ptr = some a)
    (given : ∀ ptr, thread = some ptr → pcbOf fi' ptr = some (running s i)) :
    Sound (assigned s fi' i enabled thread) := by
  refine ⟨tidy, owner, ?_⟩
  intro j ptr works
  rw [running_assigned]
  rcases worksFor_assigned j ptr works with ⟨rfl, points⟩ | works
  · exact given ptr points
  · exact kept ptr _ (sound.works j ptr works)

theorem Frozen.assigned (entry : ∀ ptr, fi'.activation.lookup p = some ptr →
      fi'.modeOf ptr = some .pause)
    (kept : ∀ j ptr, running s j = p → s.WorksFor j ptr → fi'.modeOf ptr = some .pause)
    (given : ∀ ptr, thread = some ptr → running s i = p → fi'.modeOf ptr = some .pause) :
    Frozen p (assigned s fi' i enabled thread) := by
  refine ⟨entry, ?_⟩
  intro j ptr here works
  rw [running_assigned] at here
  rcases worksFor_assigned j ptr works with ⟨rfl, points⟩ | works
  · exact given ptr points here
  · exact kept j ptr here works

/-- A step that keeps the objects and their modes, moves no thread and gives no
context or cycle another object to work for. -/
structure Uninvolved (s s' : Processor) : Prop where
  objects : SameObjects s.machine.fi s'.machine.fi
  runs : ∀ j, running s' j = running s j
  works : ∀ j ptr, s'.WorksFor j ptr → s.WorksFor j ptr

theorem Sound.same (sound : Sound s) (uninvolved : Uninvolved s s') : Sound s' := by
  obtain ⟨objects, runs, works⟩ := uninvolved
  constructor
  · exact sound.tidy.congr objects.activation objects.count objects.mode
  · intro a ptr known
    rw [objects.activation] at known
    rw [objects.pcb]
    exact sound.owner a ptr known
  · intro j ptr atWork
    rw [objects.pcb, runs]
    exact sound.works j ptr (works j ptr atWork)

theorem Frozen.same (frozen : Frozen p s) (uninvolved : Uninvolved s s') : Frozen p s' := by
  obtain ⟨objects, runs, works⟩ := uninvolved
  constructor
  · intro ptr known
    rw [objects.activation] at known
    rw [objects.mode]
    exact frozen.entry ptr known
  · intro j ptr here atWork
    rw [runs] at here
    rw [objects.mode]
    exact frozen.works j ptr here (works j ptr atWork)

end Contexts

section ControlSteps

variable {fuel : Nat} {s : Processor} {m : Machine} {action : Control} {p : Addr}

theorem getPcAddress_uninvolved (s : Processor) (i : Nat) (pc : Addr) :
    Uninvolved s { s with machine :=
      ⟨s.machine.fi.getPcAddress (s.machine.contexts i) pc, s.machine.contexts⟩ } := by
  refine ⟨?_, fun _ => rfl, fun _ _ => id⟩
  dsimp only
  unfold FiSystem.getPcAddress
  split
  · exact ⟨rfl, rfl, fun _ => rfl, fun _ => rfl⟩
  · exact updateThread_sameObjects _ _ _ (fun _ => rfl)

theorem setMode_uninvolved (s : Processor) (i : Nat) (dtbCm : Word) :
    Uninvolved s { s with machine := ⟨s.machine.fi,
      s.machine.setContext i { s.machine.contexts i with dtbCm := dtbCm }⟩ } := by
  have sameContext : ∀ j, getFiThread (s.machine.setContext i
        { s.machine.contexts i with dtbCm := dtbCm } j) = running s j ∧
      (s.machine.setContext i { s.machine.contexts i with dtbCm := dtbCm } j).fiThread =
        (s.machine.contexts j).fiThread := by
    intro j
    by_cases same : j = i
    · subst j
      simp [running, Machine.setContext, getFiThread]
    · simp [running, setContext_other i j _ same]
  refine ⟨⟨rfl, rfl, fun _ => rfl, fun _ => rfl⟩, fun j => (sameContext j).1, ?_⟩
  rintro j ptr (context | cycle)
  · exact Or.inl ((sameContext j).2.symm.trans context)
  · exact Or.inr cycle

theorem reset_uninvolved (s : Processor) (store : FaultStore) :
    Uninvolved s { s with machine := ⟨{ s.machine.fi with store := store }, s.machine.contexts⟩ } :=
  ⟨⟨rfl, rfl, fun _ => rfl, fun _ => rfl⟩, fun _ => rfl, fun _ _ => id⟩

/-- A context that switches to thread `val` outside any cycle works for the
object of its entry, or for none. -/
theorem worksFor_switched {i : Nat} {val : Addr} (idle : (s.cycles i).bind Cycle.currThread = none)
    (j : Nat) (ptr : ThreadPtr)
    (works : Processor.WorksFor { s with machine := ⟨s.machine.fi,
      s.machine.setContext i (s.machine.fi.setIpr val (s.machine.contexts i))⟩ } j ptr) :
    (j = i ∧ s.machine.fi.activation.lookup val = some ptr) ∨ (j ≠ i ∧ s.WorksFor j ptr) := by
  by_cases same : j = i
  · subst j
    refine Or.inl ⟨rfl, ?_⟩
    rcases works with context | cycle
    · simp only [Machine.setContext, Function.update_self, setIpr] at context
      split at context
      · rename_i known
        rw [known]
        exact context
      · cases context
    · rw [idle] at cycle
      cases cycle
  · refine Or.inr ⟨same, ?_⟩
    rcases works with context | cycle
    · simp only [setContext_other i j _ same] at context
      exact Or.inl context
    · exact Or.inr cycle

theorem running_switched (i j : Nat) (val : Addr) :
    running { s with machine := ⟨s.machine.fi,
      s.machine.setContext i (s.machine.fi.setIpr val (s.machine.contexts i))⟩ } j =
        if j = i then val else running s j := by
  unfold running
  by_cases same : j = i
  · subst j
    simp only [Machine.setContext, Function.update_self, if_true, setIpr]
    split <;> rfl
  · simp only [setContext_other i j _ same, if_neg same]

theorem Sound.control (sound : Sound s) (undisturbed : Undisturbed s (.control action))
    (stepped : controlStep fuel s.machine action = some m) :
    Sound { s with machine := m } := by
  have tidy := sound.tidy.step stepped
  cases controlStep_effect stepped with
  | created i threadid curTick unknown =>
      refine sound.assigned tidy ?_ (fun _ _ => pcbOf_activate _ threadid) ?_
      · intro a ptr known
        rw [activate_activation] at known
        by_cases same : a = getFiThread (s.machine.contexts i)
        · rw [same, AList.lookup_insert] at known
          cases known
          rw [same]
          exact pcbOf_activate_new s.machine.fi (s.machine.contexts i) threadid
        · rw [AList.lookup_insert_ne same] at known
          exact pcbOf_activate _ threadid (sound.owner a ptr known)
      · intro ptr points
        cases points
        exact pcbOf_activate_new s.machine.fi (s.machine.contexts i) threadid
  | resumed i threadid curTick ptr known wasPaused =>
      refine sound.assigned tidy ?_ ?_ ?_
      · intro a other found
        rw [pcbOf_setMode]
        exact sound.owner a other found
      · intro other a owned
        rw [pcbOf_setMode]
        exact owned
      · intro other points
        cases points
        rw [pcbOf_setMode]
        exact sound.owner _ ptr known
  | ignored i threadid curTick ptr known notPaused => exact sound
  | paused i threadid curTick ptr known =>
      refine sound.assigned tidy ?_ ?_ none_given
      · intro a other found
        rw [pcbOf_setMode]
        exact sound.owner a other found
      · intro other a owned
        rw [pcbOf_setMode]
        exact owned
  | stopped i threadid curTick ptr known =>
      refine sound.assigned tidy ?_ (fun _ _ owned => owned) none_given
      intro a other found
      exact sound.owner a other (lookup_of_erase found).2
  | notActive i req threadid curTick pauseOrStop unknown => exact sound
  | dumped i threadid curTick =>
      obtain ⟨entries, objects, _⟩ := scheduleswitch_frame curTick
        { s.machine.fi with activation := ∅, fiEnable := 0 }
      refine sound.assigned tidy ?_ ?_ none_given
      · intro a ptr known
        rw [entries] at known
        cases known
      · intro ptr a owned
        rw [pcbOf, objects]
        exact owned
  | marked i pc => exact sound.same (getPcAddress_uninvolved s i pc)
  | switched i val =>
      refine ⟨tidy, sound.owner, ?_⟩
      intro j ptr works
      rw [running_switched]
      rcases worksFor_switched undisturbed j ptr works with ⟨rfl, known⟩ | ⟨other, works⟩
      · rw [if_pos rfl]
        exact sound.owner val ptr known
      · rw [if_neg other]
        exact sound.works j ptr works
  | modeSet i dtbCm => exact sound.same (setMode_uninvolved s i dtbCm)
  | reloaded records fi returned =>
      obtain ⟨store, rfl⟩ := reset_frame returned
      exact sound.same (reset_uninvolved s store)

theorem modeOf_setMode_foreign {fi : FiSystem} {ptr other : ThreadPtr} {a : Addr} (mode : FiCommand)
    (live : ptr < fi.threads.length) (owner : pcbOf fi ptr = some a) (foreign : a ≠ p)
    (owned : pcbOf fi other = some p) : (fi.setMode ptr mode).modeOf other = fi.modeOf other := by
  rw [modeOf_setMode fi ptr other mode live, if_neg]
  rintro rfl
  rw [owner] at owned
  exact foreign (Option.some.inj owned)

theorem modeOf_setMode_pause {fi : FiSystem} {ptr other : ThreadPtr}
    (live : ptr < fi.threads.length) (either : other = ptr ∨ fi.modeOf other = some .pause) :
    (fi.setMode ptr .pause).modeOf other = some .pause := by
  rw [modeOf_setMode fi ptr other .pause live]
  split
  · rfl
  · rename_i differs
    exact either.resolve_left differs

theorem Frozen.control (frozen : Frozen p s) (sound : Sound s)
    (undisturbed : Undisturbed s (.control action)) (noStart : ¬ Starts p s (.control action))
    (stepped : controlStep fuel s.machine action = some m) :
    Frozen p { s with machine := m } := by
  cases controlStep_effect stepped with
  | created i threadid curTick unknown =>
      have foreign : p ≠ getFiThread (s.machine.contexts i) := Ne.symm noStart
      refine Frozen.assigned ?_ ?_ ?_
      · intro ptr known
        rw [activate_activation, AList.lookup_insert_ne foreign] at known
        rw [modeOf_activate_old _ threadid (sound.owner p ptr known)]
        exact frozen.entry ptr known
      · intro j ptr here works
        rw [modeOf_activate_old _ threadid (sound.works j ptr works)]
        exact frozen.works j ptr here works
      · intro ptr _ here
        exact absurd here noStart
  | resumed i threadid curTick ptr known wasPaused =>
      have live := sound.tidy.live _ ptr known
      have owner := sound.owner _ ptr known
      refine Frozen.assigned ?_ ?_ ?_
      · intro other found
        have owned := sound.owner p other found
        exact (modeOf_setMode_foreign .start live owner noStart owned).trans
          (frozen.entry other found)
      · intro j other here works
        have owned := sound.works j other works
        rw [here] at owned
        exact (modeOf_setMode_foreign .start live owner noStart owned).trans
          (frozen.works j other here works)
      · intro other _ here
        exact absurd here noStart
  | ignored i threadid curTick ptr known notPaused => exact frozen
  | paused i threadid curTick ptr known =>
      have live := sound.tidy.live _ ptr known
      refine Frozen.assigned ?_ ?_ none_given
      · intro other found
        exact modeOf_setMode_pause live (Or.inr (frozen.entry other found))
      · intro j other here works
        exact modeOf_setMode_pause live (Or.inr (frozen.works j other here works))
  | stopped i threadid curTick ptr known =>
      -- the erased object keeps its mode
      refine Frozen.assigned ?_ frozen.works none_given
      intro other found
      exact frozen.entry other (lookup_of_erase found).2
  | notActive i req threadid curTick pauseOrStop unknown => exact frozen
  | dumped i threadid curTick =>
      obtain ⟨entries, objects, _⟩ := scheduleswitch_frame curTick
        { s.machine.fi with activation := ∅, fiEnable := 0 }
      refine Frozen.assigned ?_ ?_ none_given
      · intro ptr known
        rw [entries] at known
        cases known
      · intro j ptr here works
        rw [modeOf, threadInfo, objects]
        exact frozen.works j ptr here works
  | marked i pc => exact frozen.same (getPcAddress_uninvolved s i pc)
  | switched i val =>
      -- the context may be enabled for the thread again, but for a paused object
      refine ⟨frozen.entry, ?_⟩
      intro j ptr here works
      rw [running_switched] at here
      rcases worksFor_switched undisturbed j ptr works with ⟨rfl, known⟩ | ⟨other, works⟩
      · rw [if_pos rfl] at here
        exact frozen.entry ptr (here ▸ known)
      · rw [if_neg other] at here
        exact frozen.works j ptr here works
  | modeSet i dtbCm => exact frozen.same (setMode_uninvolved s i dtbCm)
  | reloaded records fi returned =>
      obtain ⟨store, rfl⟩ := reset_frame returned
      exact frozen.same (reset_uninvolved s store)

theorem unchanged_control (noStart : ¬ Starts p s (.control action))
    (stepped : controlStep fuel s.machine action = some m) :
    Unchanged p s { s with machine := m } := by
  refine ⟨?_, rfl⟩
  intro other
  cases controlStep_effect stepped with
  | created i threadid curTick unknown => exact counters_activate _ threadid p noStart other
  | resumed i threadid curTick ptr known wasPaused =>
      exact counters_setMode { s.machine.fi with fiEnable := s.machine.fi.fiEnable + 1 } ptr .start
        p other
  | ignored i threadid curTick ptr known notPaused => rfl
  | paused i threadid curTick ptr known =>
      exact counters_setMode { s.machine.fi with fiEnable := s.machine.fi.fiEnable - 1 } ptr .pause
        p other
  | stopped i threadid curTick ptr known => rfl
  | notActive i req threadid curTick pauseOrStop unknown => rfl
  | dumped i threadid curTick =>
      obtain ⟨_, objects, _⟩ := scheduleswitch_frame curTick
        { s.machine.fi with activation := ∅, fiEnable := 0 }
      unfold counters
      rw [objects]
  | marked i pc =>
      dsimp only
      unfold FiSystem.getPcAddress
      split
      · rfl
      · exact counters_updateThread p (fun t => { t with magicInstVirtualAddr := pc })
          (Or.inr fun _ => ⟨rfl, rfl⟩) other
  | switched i val => rfl
  | modeSet i dtbCm => rfl
  | reloaded records fi returned =>
      obtain ⟨store, rfl⟩ := reset_frame returned
      rfl

theorem Frozen.of_pause {i : Nat} {threadid curTick : Word} (sound : Sound s)
    (undisturbed : Undisturbed s (.control (.request i .pause threadid curTick)))
    (stepped : controlStep fuel s.machine (.request i .pause threadid curTick) = some m) :
    Frozen (running s i) { s with machine := m } := by
  cases controlStep_effect stepped with
  | paused _ _ _ ptr known =>
      have live := sound.tidy.live _ ptr known
      refine Frozen.assigned ?_ ?_ none_given
      · intro other found
        exact modeOf_setMode_pause live (Or.inl (Option.some.inj (found.symm.trans known)))
      · intro j other here works
        have found := undisturbed j other here works
        exact modeOf_setMode_pause live (Or.inl (Option.some.inj (found.symm.trans known)))
  | notActive _ _ _ _ _ unknown =>
      constructor
      · intro ptr known
        exact absurd (known.symm.trans unknown) (Option.some_ne_none ptr)
      · intro j ptr here works
        have known := undisturbed j ptr here works
        exact absurd (known.symm.trans unknown) (Option.some_ne_none ptr)

end ControlSteps

section Runs

variable {fuel : Nat} {s next : Processor} {action : Action} {p : Addr}

/-- Steps of a cycle leave the contexts alone, and a cycle takes its thread from
its context. -/
theorem uninvolved_of_captured {fi' : FiSystem} {cycles : Nat → Option Cycle}
    {manifested : List (Addr × FaultPtr)} (objects : SameObjects s.machine.fi fi')
    (captured : ∀ i ptr, (cycles i).bind Cycle.currThread = some ptr → s.WorksFor i ptr) :
    Uninvolved s ⟨⟨fi', s.machine.contexts⟩, cycles, manifested⟩ := by
  refine ⟨objects, fun _ => rfl, ?_⟩
  rintro j ptr (context | cycle)
  · exact Or.inl context
  · exact captured j ptr cycle

theorem Sound.step (sound : Sound s) (undisturbed : Undisturbed s action)
    (stepped : s.step fuel action = some next) : Sound next := by
  cases step_effect stepped with
  | controlled request m controlled => exact sound.control undisturbed controlled
  | idle _ cycles captured =>
      exact sound.same (uninvolved_of_captured ⟨rfl, rfl, fun _ => rfl, fun _ => rfl⟩ captured)
  | hooked _ i ptr fi' fired works effect =>
      exact sound.same (uninvolved_of_captured (sameObjects_of_hook effect) (fun _ _ => Or.inr))
  | charged _ i ptr event fi' cycles works charges counts captured =>
      exact sound.same (uninvolved_of_captured (sameObjects_of_counts counts) captured)

theorem Unchanged.trans {s' s'' : Processor} (first : Unchanged p s s')
    (second : Unchanged p s' s'') : Unchanged p s s'' :=
  ⟨fun ptr => (second.counters ptr).trans (first.counters ptr),
    second.manifested.trans first.manifested⟩

theorem Undisturbed.charged {ptr : ThreadPtr} (undisturbed : Undisturbed s action)
    (charges : s.Charges ptr action) : s.machine.fi.modeOf ptr ≠ some .pause := by
  cases action with
  | beginCycle i model clockEdge => exact undisturbed ptr charges
  | endCycle i latency => exact undisturbed ptr charges
  | _ => exact charges.elim

/-- A frozen thread is not the one that a hook or a charge works for. -/
theorem Frozen.foreign {i : Nat} {ptr : ThreadPtr} (frozen : Frozen p s) (sound : Sound s)
    (works : s.WorksFor i ptr) (notPaused : s.machine.fi.modeOf ptr ≠ some .pause) :
    running s i ≠ p ∧ pcbOf s.machine.fi ptr ≠ some p := by
  have elsewhere : running s i ≠ p := fun here => notPaused (frozen.works i ptr here works)
  refine ⟨elsewhere, ?_⟩
  rw [sound.works i ptr works]
  exact fun same => elsewhere (Option.some.inj same)

theorem manifestedOn_foreign {i : Nat} (fired : List FaultPtr) (elsewhere : running s i ≠ p)
    (m : Machine) :
    manifestedOn { s with
      machine := m
      manifested := s.manifested ++ fired.map fun f => (running s i, f) } p = manifestedOn s p := by
  unfold manifestedOn
  rw [List.filter_append, List.map_append]
  have nothing : (fired.map fun f => (running s i, f)).filter
      (fun entry => decide (entry.1 = p)) = [] := by
    rw [List.filter_eq_nil_iff]
    intro entry member
    obtain ⟨f, _, rfl⟩ := List.mem_map.mp member
    simpa using elsewhere
  rw [nothing, List.map_nil, List.append_nil]

theorem Frozen.step (frozen : Frozen p s) (sound : Sound s) (undisturbed : Undisturbed s action)
    (noStart : ¬ Starts p s action) (stepped : s.step fuel action = some next) :
    Frozen p next ∧ Unchanged p s next := by
  cases step_effect stepped with
  | controlled request m controlled =>
      exact ⟨frozen.control sound undisturbed noStart controlled,
        unchanged_control noStart controlled⟩
  | idle _ cycles captured =>
      exact ⟨frozen.same (uninvolved_of_captured ⟨rfl, rfl, fun _ => rfl, fun _ => rfl⟩ captured),
        fun _ => rfl, rfl⟩
  | hooked _ i ptr fi' fired works effect =>
      refine ⟨frozen.same
        (uninvolved_of_captured (sameObjects_of_hook effect) (fun _ _ => Or.inr)), ?_⟩
      cases effect with
      | quiet metadata => exact ⟨fun _ => rfl, by simp [manifestedOn]⟩
      | active _ _ event started counts =>
          -- The hooks count and fire for started objects only.
          have notPaused : s.machine.fi.modeOf ptr ≠ some .pause := by
            rw [started]
            decide
          obtain ⟨elsewhere, foreign⟩ := frozen.foreign sound works notPaused
          exact ⟨counters_counted counts foreign, manifestedOn_foreign fired elsewhere _⟩
  | charged _ i ptr event fi' cycles works charges counts captured =>
      obtain ⟨_, foreign⟩ := frozen.foreign sound works (undisturbed.charged charges)
      exact ⟨frozen.same (uninvolved_of_captured (sameObjects_of_counts counts) captured),
        counters_counted counts foreign, rfl⟩

theorem poweredOn_sound (powered : PoweredOn s) : Sound s := by
  constructor
  · exact booted_tidy powered.booted
  · intro a ptr known
    rw [powered.booted.activation] at known
    cases known
  · rintro i ptr (context | cycle)
    · rw [powered.contexts i] at context
      cases context
    · rw [powered.cycles i] at cycle
      cases cycle

/-- In a run that starts without threads and whose steps are all undisturbed, a
PAUSE freezes its thread until the thread's next START. -/
theorem pause_freezes_thread (fuel : Nat) (s : Processor) (actions : List Action)
    (powered : PoweredOn s) (each : EachStep (Processor.step fuel) Undisturbed actions s) :
    PauseFreezes fuel actions s := by
  intro before i threadid curTick during after asked reached split ranBefore ran noStart
  subst split
  have sound : Sound asked :=
    run_preserves (fun _ _ _ sound met stepped => sound.step met stepped) before s asked
      (poweredOn_sound powered) each.initial ranBefore
  have undisturbed : EachStep (Processor.step fuel) Undisturbed
      (.control (.request i .pause threadid curTick) :: during) asked :=
    EachStep.stretch each ranBefore
  obtain ⟨paused, stepped, ranDuring⟩ := Option.bind_eq_some_iff.mp ran
  obtain ⟨calm, calmAfter⟩ := (eachStep_cons_iff _ _ _ _).mp undisturbed paused stepped
  obtain ⟨first, noStartAfter⟩ := (eachStep_cons_iff _ _ _ _).mp noStart paused stepped
  have frozen : Frozen (running asked i) paused := by
    obtain ⟨m, controlled, result⟩ := Option.bind_eq_some_iff.mp stepped
    cases result
    exact Frozen.of_pause sound calm controlled
  have unchanged : Unchanged (running asked i) asked paused := by
    obtain ⟨m, controlled, result⟩ := Option.bind_eq_some_iff.mp stepped
    cases result
    exact unchanged_control first controlled
  have both : EachStep (Processor.step fuel) (fun state action =>
      Undisturbed state action ∧ ¬ Starts (running asked i) state action) during paused := by
    intro first action rest here next split ranFirst moved
    exact ⟨calmAfter first action rest here next split ranFirst moved,
      noStartAfter first action rest here next split ranFirst moved⟩
  -- The three facts carry each other: soundness and the freeze give the next
  -- step, which leaves what the thread shows as it was when PAUSE was asked for.
  have preserves : ∀ state action next,
      (Sound state ∧ Frozen (running asked i) state ∧ Unchanged (running asked i) asked state) →
      (Undisturbed state action ∧ ¬ Starts (running asked i) state action) →
      Processor.step fuel state action = some next →
      Sound next ∧ Frozen (running asked i) next ∧ Unchanged (running asked i) asked next := by
    rintro state action next ⟨sound, frozen, unchanged⟩ ⟨met, notStarted⟩ moved
    obtain ⟨stays, same⟩ := frozen.step sound met notStarted moved
    exact ⟨sound.step met moved, stays, unchanged.trans same⟩
  exact (run_preserves preserves during paused reached
    ⟨sound.step calm stepped, frozen, unchanged⟩ both ranDuring).2.2

end Runs

def switchedOn (m : Machine) : Processor := ⟨m, fun _ => none, []⟩

theorem switchedOn_pending : PoweredOn (switchedOn pendingMachine) :=
  ⟨pendingMachine_booted, fun _ => rfl, fun _ => rfl⟩

/-- The only thread is paused and scheduled again. Its context is enabled, but
fi_enable is zero, so its cycles charge nothing, and the hooks see its mode. -/
theorem lone_thread_stays_paused :
    PauseFreezes 9 [.control (.request 0 .start 0 0), .control (.request 0 .pause 0 0),
      .control (.switchTo 0 0x1000), .iew 0 ⟨0x40, 0, 500, 0⟩ (.uint64 0),
      .beginCycle 0 .atomic 500] (switchedOn pendingMachine) := by
  apply pause_freezes_thread 9 _ _ switchedOn_pending
  rw [eachStep_cons_iff]
  intro started first
  cases first
  refine ⟨fun _ => False.elim, ?_⟩
  rw [eachStep_cons_iff]
  intro paused second
  cases second
  constructor
  · intro j ptr here works
    rcases works with context | cycle
    · by_cases same : j = 0
      · subst j
        exact context
      · simp [switchedOn, Machine.setContext, Function.update_of_ne same, pendingMachine] at context
    · cases cycle
  rw [eachStep_cons_iff]
  intro switched third
  cases third
  refine ⟨rfl, ?_⟩
  rw [eachStep_cons_iff]
  intro executed fourth
  refine ⟨fun _ => False.elim, ?_⟩
  cases fourth
  rw [eachStep_cons_iff]
  intro begun _
  refine ⟨?_, eachStep_nil _ _⟩
  rintro ptr ⟨⟨active, _⟩, _⟩
  exact absurd rfl active

/-- A paused thread is scheduled again while another thread keeps fi_enable
above zero: the write of PALtemp23 enables its context whatever its mode, and
the next cycle charges its ticks. -/
theorem paused_thread_charged :
    ¬ PauseFreezes 9 [.control (.request 0 .start 0 0), .control (.request 1 .start 1 0),
      .control (.request 0 .pause 0 0), .control (.switchTo 0 0x2000),
      .control (.switchTo 0 0x1000), .beginCycle 0 .atomic 500] (switchedOn pendingMachine) := by
  intro freezes
  have noStart : ∀ s, EachStep (Processor.step 9)
      (fun state action => ¬ Starts 0x1000 state action)
      [.control (.request 0 .pause 0 0), .control (.switchTo 0 0x2000),
        .control (.switchTo 0 0x1000), .beginCycle 0 .atomic 500] s := by
    intro s
    simp only [eachStep_cons_iff]
    exact fun _ _ => ⟨id, fun _ _ => ⟨id, fun _ _ => ⟨id, fun _ _ => ⟨id, eachStep_nil _ _⟩⟩⟩⟩
  have unchanged := freezes [.control (.request 0 .start 0 0), .control (.request 1 .start 1 0)]
    0 0 0 [.control (.switchTo 0 0x2000), .control (.switchTo 0 0x1000),
      .beginCycle 0 .atomic 500] [] _ _ rfl rfl rfl (noStart _)
  have ticks := congrArg (Option.map fun counts => counts.1.ticks) (unchanged.counters 0)
  revert ticks
  decide

end GemFi.PauseFreeze
