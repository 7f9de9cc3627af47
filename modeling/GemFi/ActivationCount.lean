import GemFi.Activation

/-!
fi_enable as the number of active threads. Four requests change the map, the
modes and the counter separately; the entries point to different objects, so
that a request moves the number of active entries by its own entry only.
-/

namespace GemFi.ActivationCount

open AssocTotals ThreadInfo Transitions FaultQueue Corruption FaultScan Activation
open Activation.FiSystem

def activeCount (fi : FiSystem) : Nat :=
  fi.activation.entries.countP fun entry => decide (fi.modeOf entry.2 = some .start)

def CountsActive (m : Machine) : Prop := m.fi.fiEnable.toNat = activeCount m.fi

def CountKept (m : Machine) : Control → Prop
  -- a START that takes effect finds fewer than 2^32 - 1 active entries; PAUSE and STOP find the
  -- entry of the requesting thread, if it has one, active
  | .request i .start _ _ =>
      (∀ ptr, m.fi.activation.lookup (getFiThread (m.contexts i)) = some ptr →
        m.fi.modeOf ptr = some .pause) → activeCount m.fi + 1 < 2 ^ 32
  | .request i .pause _ _ | .request i .stop _ _ =>
      ∀ ptr, m.fi.activation.lookup (getFiThread (m.contexts i)) = some ptr →
        m.fi.modeOf ptr = some .start
  | _ => True

structure Tidy (fi : FiSystem) : Prop where
  distinct : ∀ a b ptr, fi.activation.lookup a = some ptr → fi.activation.lookup b = some ptr →
    a = b
  live : ∀ a ptr, fi.activation.lookup a = some ptr → ptr < fi.threads.length
  moded : ∀ a ptr, fi.activation.lookup a = some ptr →
    fi.modeOf ptr = some .start ∨ fi.modeOf ptr = some .pause

variable {fuel : Nat} {m next : Machine} {action : Control} {fi : FiSystem}

def activeWeight (fi : FiSystem) (_ : Addr) (ptr : ThreadPtr) : Nat :=
  if fi.modeOf ptr = some .start then 1 else 0

theorem activeCount_eq_total (fi : FiSystem) :
    activeCount fi = total (activeWeight fi) fi.activation := by
  unfold activeCount
  rw [countP_eq_total (fun _ ptr => decide (fi.modeOf ptr = some .start))]
  simp only [decide_eq_true_eq]
  rfl

theorem modeOf_setMode (fi : FiSystem) (ptr other : ThreadPtr) (mode : FiCommand)
    (live : ptr < fi.threads.length) :
    (fi.setMode ptr mode).modeOf other = if other = ptr then some mode else fi.modeOf other := by
  unfold modeOf threadInfo setMode updateThread
  rw [List.getElem?_modify]
  by_cases same : other = ptr
  · subst other
    simp [List.getElem?_eq_getElem live]
  · simp [same, Ne.symm same]

@[simp] theorem setMode_activation (fi : FiSystem) (ptr : ThreadPtr) (mode : FiCommand) :
    (fi.setMode ptr mode).activation = fi.activation := rfl

theorem activeCount_setMode (tidy : Tidy fi) (a : Addr) (ptr : ThreadPtr) (mode : FiCommand)
    (known : fi.activation.lookup a = some ptr) :
    activeCount (fi.setMode ptr mode) + (if fi.modeOf ptr = some .start then 1 else 0) =
      activeCount fi + (if mode = .start then 1 else 0) := by
  have live := tidy.live a ptr known
  rw [activeCount_eq_total, activeCount_eq_total, setMode_activation,
    total_split _ _ a ptr known, total_split _ _ a ptr known]
  have others : total (activeWeight (fi.setMode ptr mode)) (fi.activation.erase a) =
      total (activeWeight fi) (fi.activation.erase a) := by
    apply total_congr
    intro b other bound
    obtain ⟨differs, bound⟩ := lookup_of_erase bound
    -- no other entry points to this object
    have notSame : other ≠ ptr := fun same =>
      differs (tidy.distinct b a ptr (same ▸ bound) known)
    rw [activeWeight, activeWeight, modeOf_setMode fi ptr other mode live, if_neg notSame]
  rw [others, activeWeight, activeWeight, modeOf_setMode fi ptr ptr mode live, if_pos rfl]
  simp only [Option.some.injEq]
  omega

@[simp] theorem activate_activation (tc : ThreadContext) (threadid : Word) (fi : FiSystem) :
    (fi.activate tc threadid).activation =
      fi.activation.insert (getFiThread tc) fi.threads.length := rfl

theorem modeOf_activate (tc : ThreadContext) (threadid : Word) (fi : FiSystem)
    (ptr : ThreadPtr) :
    (fi.activate tc threadid).modeOf ptr =
      if ptr = fi.threads.length then some .start else fi.modeOf ptr := by
  unfold modeOf threadInfo activate
  by_cases same : ptr = fi.threads.length
  · simp [same]
  · simp only [same, if_false]
    rcases Nat.lt_trichotomy ptr fi.threads.length with old | equal | beyond
    · rw [List.getElem?_append_left old]
    · exact absurd equal same
    · rw [List.getElem?_eq_none (Nat.le_of_lt beyond), List.getElem?_eq_none]
      rw [List.length_append]
      exact beyond

theorem activeCount_activate (tc : ThreadContext) (threadid : Word) (tidy : Tidy fi)
    (unknown : fi.activation.lookup (getFiThread tc) = none) :
    activeCount (fi.activate tc threadid) = activeCount fi + 1 := by
  rw [activeCount_eq_total, activeCount_eq_total, activate_activation, total_insert,
    erase_absent _ _ unknown, activeWeight, modeOf_activate, if_pos rfl, if_pos rfl, Nat.add_comm]
  congr 1
  apply total_congr
  intro a ptr bound
  have old := tidy.live a ptr bound
  rw [activeWeight, activeWeight, modeOf_activate, if_neg (Nat.ne_of_lt old)]

theorem activeCount_erase (a : Addr) (ptr : ThreadPtr)
    (known : fi.activation.lookup a = some ptr) (count : BitVec 32) :
    activeCount { fi with activation := fi.activation.erase a, fiEnable := count } +
      (if fi.modeOf ptr = some .start then 1 else 0) = activeCount fi := by
  rw [activeCount_eq_total, activeCount_eq_total, total_split _ fi.activation a ptr known,
    Nat.add_comm]
  rfl

/-- Same entries, same objects, same modes. -/
theorem Tidy.congr {fi' : FiSystem} (tidy : Tidy fi) (entries : fi'.activation = fi.activation)
    (objects : fi'.threads.length = fi.threads.length)
    (modes : ∀ ptr, fi'.modeOf ptr = fi.modeOf ptr) : Tidy fi' := by
  constructor
  · rw [entries]
    exact tidy.distinct
  · rw [entries, objects]
    exact tidy.live
  · rw [entries]
    intro a ptr known
    rw [modes]
    exact tidy.moded a ptr known

theorem booted_tidy (booted : Booted fi) : Tidy fi := by
  constructor <;> rw [booted.activation] <;> intros <;> contradiction

theorem Tidy.setMode (tidy : Tidy fi) (ptr : ThreadPtr) (mode : FiCommand)
    (live : ptr < fi.threads.length) (either : mode = .start ∨ mode = .pause) :
    Tidy (fi.setMode ptr mode) := by
  constructor
  · exact tidy.distinct
  · intro a other known
    have below := tidy.live a other known
    simpa [FiSystem.setMode, updateThread] using below
  · intro a other known
    rw [modeOf_setMode fi ptr other mode live]
    by_cases same : other = ptr
    · rw [if_pos same]
      exact either.imp (congrArg some) (congrArg some)
    · rw [if_neg same]
      exact tidy.moded a other known

theorem Tidy.activate (tidy : Tidy fi) (tc : ThreadContext) (threadid : Word) :
    Tidy (fi.activate tc threadid) := by
  have lookup_cases : ∀ a ptr, (fi.activate tc threadid).activation.lookup a = some ptr →
      (a = getFiThread tc ∧ ptr = fi.threads.length) ∨
      (a ≠ getFiThread tc ∧ fi.activation.lookup a = some ptr ∧ ptr < fi.threads.length) := by
    intro a ptr known
    rw [activate_activation] at known
    by_cases same : a = getFiThread tc
    · rw [same, AList.lookup_insert] at known
      exact Or.inl ⟨same, (Option.some.inj known).symm⟩
    · rw [AList.lookup_insert_ne same] at known
      exact Or.inr ⟨same, known, tidy.live a ptr known⟩
  constructor
  · intro a b ptr knownA knownB
    rcases lookup_cases a ptr knownA with ⟨isA, newA⟩ | ⟨_, oldA, belowA⟩ <;>
      rcases lookup_cases b ptr knownB with ⟨isB, newB⟩ | ⟨_, oldB, belowB⟩
    · rw [isA, isB]
    · exact absurd newA (Nat.ne_of_lt belowB)
    · exact absurd newB (Nat.ne_of_lt belowA)
    · exact tidy.distinct a b ptr oldA oldB
  · intro a ptr known
    have longer : (fi.activate tc threadid).threads.length = fi.threads.length + 1 := by
      simp [FiSystem.activate]
    rw [longer]
    rcases lookup_cases a ptr known with ⟨_, new⟩ | ⟨_, _, below⟩
    · rw [new]
      exact Nat.lt_succ_self _
    · exact Nat.lt_succ_of_lt below
  · intro a ptr known
    rw [modeOf_activate]
    rcases lookup_cases a ptr known with ⟨_, new⟩ | ⟨_, old, below⟩
    · rw [if_pos new]
      exact Or.inl rfl
    · rw [if_neg (Nat.ne_of_lt below)]
      exact tidy.moded a ptr old

theorem Tidy.erase (tidy : Tidy fi) (a : Addr) (count : BitVec 32) :
    Tidy { fi with activation := fi.activation.erase a, fiEnable := count } := by
  constructor
  · intro b c ptr knownB knownC
    exact tidy.distinct b c ptr (lookup_of_erase knownB).2 (lookup_of_erase knownC).2
  · intro b ptr known
    exact tidy.live b ptr (lookup_of_erase known).2
  · intro b ptr known
    exact tidy.moded b ptr (lookup_of_erase known).2

theorem Tidy.step (tidy : Tidy m.fi) (stepped : controlStep fuel m action = some next) :
    Tidy next.fi := by
  cases controlStep_effect stepped with
  | created i threadid curTick unknown => exact tidy.activate (m.contexts i) threadid
  | resumed i threadid curTick ptr known wasPaused =>
      have same : Tidy { m.fi with fiEnable := m.fi.fiEnable + 1 } :=
        tidy.congr rfl rfl (fun _ => rfl)
      exact same.setMode ptr .start (tidy.live _ ptr known) (Or.inl rfl)
  | ignored i threadid curTick ptr known notPaused => exact tidy
  | paused i threadid curTick ptr known =>
      have same : Tidy { m.fi with fiEnable := m.fi.fiEnable - 1 } :=
        tidy.congr rfl rfl (fun _ => rfl)
      exact same.setMode ptr .pause (tidy.live _ ptr known) (Or.inr rfl)
  | stopped i threadid curTick ptr known => exact tidy.erase _ _
  | notActive i req threadid curTick pauseOrStop unknown => exact tidy
  | dumped i threadid curTick =>
      have cleared : Tidy { m.fi with activation := ∅, fiEnable := 0 } := by
        constructor <;> intros <;> contradiction
      obtain ⟨entries, objects, _⟩ :=
        scheduleswitch_frame curTick { m.fi with activation := ∅, fiEnable := 0 }
      refine cleared.congr entries (congrArg List.length objects) (fun ptr => ?_)
      unfold modeOf threadInfo
      rw [objects]
  | marked i pc =>
      dsimp only
      unfold FiSystem.getPcAddress
      split
      · exact tidy
      · exact tidy.congr rfl (by simp [updateThread])
          (fun _ => updateThread_modeOf _ _ _ _ fun _ => rfl)
  | switched i val => exact tidy
  | modeSet i dtbCm => exact tidy
  | reloaded records fi returned =>
      obtain ⟨store, rfl⟩ := reset_frame returned
      exact tidy.congr rfl rfl (fun _ => rfl)

/-- One more or one less in the counter follows one more or one less entry
exactly while it does not wrap. -/
theorem toNat_succ_eq_iff (count : BitVec 32) :
    (count + 1).toNat = count.toNat + 1 ↔ count.toNat + 1 < 2 ^ 32 := by
  rw [BitVec.toNat_add]
  have bound := count.isLt
  constructor
  · intro same
    simp at same
    omega
  · intro room
    simp
    omega

theorem toNat_pred_eq_iff (count : BitVec 32) (entries : Nat) (active : Bool)
    (same : count.toNat = entries + active.toNat) :
    (count - 1).toNat = entries ↔ active = true := by
  have bound := count.isLt
  cases active with
  | true =>
      refine iff_of_true ?_ rfl
      simp only [Bool.toNat_true] at same
      bv_omega
  | false =>
      refine iff_of_false ?_ (by simp)
      simp only [Bool.toNat_false] at same
      bv_omega

theorem controlStep_count_iff (tidy : Tidy m.fi) (counts : CountsActive m)
    (stepped : controlStep fuel m action = some next) :
    CountsActive next ↔ CountKept m action := by
  unfold CountsActive at counts ⊢
  cases controlStep_effect stepped with
  | created i threadid curTick unknown =>
      have enabled : (m.fi.activate (m.contexts i) threadid).fiEnable = m.fi.fiEnable + 1 := rfl
      rw [activeCount_activate _ _ tidy unknown, enabled, ← counts, toNat_succ_eq_iff]
      simp [CountKept, unknown, ← counts]
  | resumed i threadid curTick ptr known wasPaused =>
      have moved := activeCount_setMode tidy _ ptr .start known
      simp only [wasPaused, Option.some.injEq, reduceCtorEq, if_false, if_true,
        Nat.add_zero] at moved
      have enabled : ({ m.fi with fiEnable := m.fi.fiEnable + 1 }.setMode ptr .start).fiEnable =
        m.fi.fiEnable + 1 := rfl
      have counted : activeCount ({ m.fi with fiEnable := m.fi.fiEnable + 1 }.setMode ptr .start) =
        activeCount (m.fi.setMode ptr .start) := rfl
      rw [enabled, counted, moved, ← counts, toNat_succ_eq_iff]
      simp [CountKept, known, wasPaused, ← counts]
  | ignored i threadid curTick ptr known notPaused =>
      refine iff_of_true counts (fun effective => ?_)
      exact absurd (effective ptr known) notPaused
  | paused i threadid curTick ptr known =>
      have moved := activeCount_setMode tidy _ ptr .pause known
      have enabled : ({ m.fi with fiEnable := m.fi.fiEnable - 1 }.setMode ptr .pause).fiEnable =
        m.fi.fiEnable - 1 := rfl
      have counted : activeCount ({ m.fi with fiEnable := m.fi.fiEnable - 1 }.setMode ptr .pause) =
        activeCount (m.fi.setMode ptr .pause) := rfl
      rw [enabled, counted,
        toNat_pred_eq_iff _ _ (decide (m.fi.modeOf ptr = some .start))
          (by rw [counts]; simpa [Bool.toNat, Bool.cond_decide] using moved.symm)]
      simp [CountKept, known]
  | stopped i threadid curTick ptr known =>
      have erased := activeCount_erase _ ptr known (m.fi.fiEnable - 1)
      rw [toNat_pred_eq_iff _ _ (decide (m.fi.modeOf ptr = some .start))
          (by rw [counts]; simpa [Bool.toNat, Bool.cond_decide] using erased.symm)]
      simp [CountKept, known]
  | notActive i req threadid curTick pauseOrStop unknown =>
      rcases pauseOrStop with rfl | rfl <;> exact iff_of_true counts (by simp [CountKept, unknown])
  | dumped i threadid curTick =>
      obtain ⟨entries, _, enabled, _⟩ :=
        scheduleswitch_frame curTick { m.fi with activation := ∅, fiEnable := 0 }
      refine iff_of_true ?_ trivial
      unfold activeCount
      rw [entries, enabled]
      rfl
  | marked i pc =>
      refine iff_of_true ?_ trivial
      dsimp only
      unfold FiSystem.getPcAddress
      split
      · exact counts
      · rename_i ptr _
        rw [show activeCount (m.fi.updateThread ptr _) = activeCount m.fi from ?_]
        · exact counts
        · unfold activeCount
          congr 1
          funext entry
          rw [updateThread_modeOf]
          intro
          rfl
  | switched i val => exact iff_of_true counts trivial
  | modeSet i dtbCm => exact iff_of_true counts trivial
  | reloaded records fi returned =>
      obtain ⟨store, rfl⟩ := reset_frame returned
      exact iff_of_true counts trivial

/-- The counter is the number of active entries throughout a run exactly when
no PAUSE or STOP finds its thread paused already, and the counter has room for
each START. -/
theorem fi_enable_counts_active_iff (fuel : Nat) (m : Machine) (actions : List Control)
    (booted : Booted m.fi) :
    Always (controlStep fuel) CountsActive actions m ↔
      EachStep (controlStep fuel) CountKept actions m := by
  apply always_iff_eachStep (fun m => Tidy m.fi) _ _ actions m
  · exact booted_tidy booted
  · rw [CountsActive, booted.fiEnable, activeCount, booted.activation]
    rfl
  · intro state action next tidy stepped
    exact tidy.step stepped
  · intro state action next tidy counts stepped
    exact controlStep_count_iff tidy counts stepped

theorem start_then_pause_counted :
    Always (controlStep 9) CountsActive [.request 0 .start 0 0, .request 0 .pause 0 0]
      bootedMachine := by
  apply (fi_enable_counts_active_iff 9 bootedMachine _ bootedMachine_booted).mpr
  rw [eachStep_cons_iff]
  intro started first
  cases first
  refine ⟨fun _ => by decide, ?_⟩
  rw [eachStep_cons_iff]
  intro paused _
  refine ⟨?_, eachStep_nil _ _⟩
  intro ptr known
  cases known
  rfl

/-- The second of two PAUSE requests takes the counter below zero. -/
theorem second_pause_wraps :
    ¬ Always (controlStep 9) CountsActive
      [.request 0 .start 0 0, .request 0 .pause 0 0, .request 0 .pause 0 0] bootedMachine := by
  intro always
  have counts := always _ [] _ (List.append_nil _).symm rfl
  revert counts
  unfold CountsActive
  decide

end GemFi.ActivationCount
