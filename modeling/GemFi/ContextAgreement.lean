import GemFi.Activation
import GemFi.Transitions

/-!
Each hardware context caches the entry of the thread it runs. The map is global,
and requests on other contexts change it.
-/

namespace GemFi.ContextAgreement

open ThreadInfo Transitions FaultQueue Corruption FaultScan Activation Activation.FiSystem

/-- The fields of the context are what its thread's entry says. -/
def Agrees (fi : FiSystem) (tc : ThreadContext) : Prop :=
  tc.enabledFI = true → ∃ ptr, fi.activation.lookup (getFiThread tc) = some ptr ∧
    tc.fiThread = some ptr

/-- The beginning of AtomicSimpleCPU::tick: whether the cycle is one of an
enabled thread, and of which. `none` is a dereference of `end()` or the failed
assertion. -/
def captureThread (fi : FiSystem) (tc : ThreadContext) : Option (Bool × Option ThreadPtr) :=
  if fi.fiEnable ≠ 0 ∧ fi.fullSystem = true ∧ inUserMode tc = true then
    if tc.enabledFI then
      match fi.activation.lookup (getFiThread tc) with
      | none => none
      | some ptr => if some ptr ≠ tc.fiThread then none else some (true, tc.fiThread)
    else some (false, tc.fiThread)
  else some (false, none)

/-- Every enabled context agrees with fi_activation, and no cycle trips over the
lookup. -/
def ContextsAgree (m : Machine) : Prop :=
  ∀ i, Agrees m.fi (m.contexts i) ∧ captureThread m.fi (m.contexts i) ≠ none

def AgreementKept (m : Machine) : Control → Prop
  -- STOP finds no other context enabled for the same thread, and DUMP no other context enabled at
  -- all
  | .request i .stop _ _ =>
      ∀ ptr, m.fi.activation.lookup (getFiThread (m.contexts i)) = some ptr →
        ∀ j, j ≠ i → (m.contexts j).enabledFI = true →
          getFiThread (m.contexts j) ≠ getFiThread (m.contexts i)
  | .request i .dump _ _ => ∀ j, j ≠ i → (m.contexts j).enabledFI = false
  | _ => True

variable {fuel : Nat} {m next : Machine} {action : Control}

theorem captureThread_of_agrees {fi : FiSystem} {tc : ThreadContext} (agrees : Agrees fi tc) :
    captureThread fi tc ≠ none := by
  unfold captureThread
  split
  · split
    · rename_i enabled
      obtain ⟨ptr, known, thread⟩ := agrees enabled
      simp [known, thread]
    · simp
  · simp

theorem contextsAgree_iff (m : Machine) :
    ContextsAgree m ↔ ∀ i, Agrees m.fi (m.contexts i) := by
  refine forall_congr' fun i => ?_
  exact ⟨And.left, fun agrees => ⟨agrees, captureThread_of_agrees agrees⟩⟩

/-- Replacing one context leaves the agreement of the others to be shown. -/
theorem agree_setContext {fi : FiSystem} (i : Nat) (tc : ThreadContext) (agrees : Agrees fi tc)
    (others : ∀ j, j ≠ i → Agrees fi (m.contexts j)) (j : Nat) :
    Agrees fi (m.setContext i tc j) := by
  by_cases same : j = i
  · rw [same, Machine.setContext, Function.update_self]
    exact agrees
  · rw [setContext_other i j tc same]
    exact others j same

theorem agrees_disabled (fi : FiSystem) (tc : ThreadContext) :
    Agrees fi { tc with enabledFI := false, fiThread := none } := by
  intro enabled
  cases enabled

theorem agree_stopped_iff (agree : ∀ j, Agrees m.fi (m.contexts j)) (i : Nat)
    (threadid curTick : Word) (ptr : ThreadPtr)
    (known : m.fi.activation.lookup (getFiThread (m.contexts i)) = some ptr) :
    (∀ j, Agrees { m.fi with
        activation := m.fi.activation.erase (getFiThread (m.contexts i))
        fiEnable := m.fi.fiEnable - 1 }
      (m.setContext i { m.contexts i with enabledFI := false, fiThread := none } j)) ↔
      AgreementKept m (.request i .stop threadid curTick) := by
  constructor
  · intro after _ _ j other enabled same
    have here := after j
    dsimp only at here
    rw [setContext_other i j _ other] at here
    obtain ⟨ptr', found, _⟩ := here enabled
    dsimp only at found
    rw [same, AList.lookup_erase] at found
    cases found
  · intro kept
    refine agree_setContext i _ (agrees_disabled _ _) ?_
    intro j other enabled
    obtain ⟨ptr', found, thread⟩ := agree j enabled
    have differs := kept ptr known j other enabled
    exact ⟨ptr', (AList.lookup_erase_ne differs).trans found, thread⟩

theorem agree_dumped_iff (i : Nat) (threadid curTick : Word) :
    (∀ j, Agrees ({ m.fi with activation := ∅, fiEnable := 0 }.scheduleswitch curTick)
      (m.setContext i { m.contexts i with enabledFI := false, fiThread := none } j)) ↔
      AgreementKept m (.request i .dump threadid curTick) := by
  obtain ⟨entries, _⟩ :=
    scheduleswitch_frame curTick { m.fi with activation := ∅, fiEnable := 0 }
  constructor
  · intro after j other
    by_contra enabled
    have here := after j
    dsimp only at here
    rw [setContext_other i j _ other] at here
    obtain ⟨ptr, found, _⟩ := here (by simpa using enabled)
    rw [entries] at found
    cases found
  · intro kept
    refine agree_setContext i _ (agrees_disabled _ _) ?_
    intro j other enabled
    rw [kept j other] at enabled
    cases enabled

theorem controlStep_agree_iff (agree : ContextsAgree m)
    (stepped : controlStep fuel m action = some next) :
    ContextsAgree next ↔ AgreementKept m action := by
  rw [contextsAgree_iff] at agree ⊢
  cases controlStep_effect stepped with
  | created i threadid curTick unknown =>
      refine iff_of_true (agree_setContext i _ ?_ ?_) trivial
      · intro _
        exact ⟨m.fi.threads.length, AList.lookup_insert _, rfl⟩
      · intro j _ enabled
        obtain ⟨ptr, known, thread⟩ := agree j enabled
        have differs : getFiThread (m.contexts j) ≠ getFiThread (m.contexts i) := by
          intro same
          rw [same, unknown] at known
          cases known
        exact ⟨ptr, (AList.lookup_insert_ne differs).trans known, thread⟩
  | resumed i threadid curTick ptr known wasPaused =>
      refine iff_of_true (agree_setContext i _ ?_ (fun j _ => agree j)) trivial
      intro _
      exact ⟨ptr, known, rfl⟩
  | ignored i threadid curTick ptr known notPaused => exact iff_of_true agree trivial
  | paused i threadid curTick ptr known =>
      exact iff_of_true (agree_setContext i _ (agrees_disabled _ _) (fun j _ => agree j)) trivial
  | stopped i threadid curTick ptr known => exact agree_stopped_iff agree i threadid curTick ptr known
  | notActive i req threadid curTick pauseOrStop unknown =>
      rcases pauseOrStop with rfl | rfl
      · exact iff_of_true agree trivial
      · exact iff_of_true agree (by simp [AgreementKept, unknown])
  | dumped i threadid curTick => exact agree_dumped_iff i threadid curTick
  | marked i pc =>
      refine iff_of_true (fun j enabled => ?_) trivial
      obtain ⟨ptr, known, thread⟩ := agree j enabled
      refine ⟨ptr, ?_, thread⟩
      dsimp only
      unfold FiSystem.getPcAddress
      split <;> exact known
  | switched i val =>
      refine iff_of_true (agree_setContext i _ ?_ (fun j _ => agree j)) trivial
      unfold FiSystem.setIpr
      split
      · rename_i ptr known
        intro _
        exact ⟨ptr, known, rfl⟩
      · intro enabled
        cases enabled
  | modeSet i dtbCm =>
      exact iff_of_true (agree_setContext i _ (agree i) (fun j _ => agree j)) trivial
  | reloaded records fi returned =>
      obtain ⟨store, rfl⟩ := reset_frame returned
      exact iff_of_true agree trivial

/-- The contexts agree with fi_activation throughout a run exactly when none
comes up enabled and no STOP or DUMP takes away the entry that another context
runs on. -/
theorem contexts_agree_iff (fuel : Nat) (m : Machine) (actions : List Control)
    (booted : Booted m.fi) :
    Always (controlStep fuel) ContextsAgree actions m ↔
      (∀ i, (m.contexts i).enabledFI = false) ∧
        EachStep (controlStep fuel) AgreementKept actions m := by
  have start : ContextsAgree m ↔ ∀ i, (m.contexts i).enabledFI = false := by
    rw [contextsAgree_iff]
    refine forall_congr' fun i => ?_
    unfold Agrees
    rw [booted.activation]
    simp
  have exactly : ContextsAgree m → (Always (controlStep fuel) ContextsAgree actions m ↔
      EachStep (controlStep fuel) AgreementKept actions m) := by
    intro agree
    apply always_iff_eachStep (fun _ => True) (fun _ _ _ _ _ => trivial) _ actions m trivial agree
    intro state action next _ holds stepped
    exact controlStep_agree_iff holds stepped
  constructor
  · intro always
    have agree := always [] actions m rfl rfl
    exact ⟨start.mp agree, (exactly agree).mp always⟩
  · rintro ⟨down, each⟩
    exact (exactly (start.mpr down)).mpr each

theorem lone_start_agrees :
    Always (controlStep 9) ContextsAgree [.request 0 .start 0 0, .request 0 .dump 0 0]
      bootedMachine := by
  apply (contexts_agree_iff 9 bootedMachine _ bootedMachine_booted).mpr
  refine ⟨fun _ => rfl, ?_⟩
  rw [eachStep_cons_iff]
  intro started first
  cases first
  refine ⟨trivial, ?_⟩
  rw [eachStep_cons_iff]
  intro dumped _
  refine ⟨?_, eachStep_nil _ _⟩
  intro j other
  show (Function.update bootedMachine.contexts 0 _ j).enabledFI = false
  rw [Function.update_of_ne other]
  rfl

/-- A DUMP on one context leaves another enabled without an entry. -/
theorem dump_elsewhere_breaks_agreement :
    ¬ Always (controlStep 9) ContextsAgree [.request 0 .start 0 0, .request 1 .dump 0 0]
      pendingMachine := by
  intro always
  obtain ⟨agrees, _⟩ := always _ [] _ (List.append_nil _).symm rfl 0
  obtain ⟨ptr, found, _⟩ := agrees rfl
  cases found

end GemFi.ContextAgreement
