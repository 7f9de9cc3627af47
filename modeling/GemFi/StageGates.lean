import GemFi.Activation
import GemFi.Transitions

/-!
The stage flags as cached answers to the question whether injection is enabled
and a queue has a fault. start_fi computes them for a new thread only.
-/

namespace GemFi.StageGates

open ThreadInfo Transitions FaultQueue Corruption FaultScan Activation Activation.FiSystem

/-- Each flag says whether injection is enabled and its queue has a fault. -/
def GatesCurrent (m : Machine) : Prop :=
  ∀ q, m.fi.gate q = true ↔ 0 < m.fi.fiEnable.toNat ∧ m.fi.store.empty q = false

def NoFaults (m : Machine) : Prop := ∀ q, m.fi.store.empty q = true

def emptyAfterReset (fi : FiSystem) (records : List FaultRecord) (q : StageQueue) : Bool :=
  !decide (fi.inName.utf8ByteSize > 1) || records.all fun record => stageOf record.faultType != q

def GatesKept (m : Machine) : Control → Prop
  -- a new thread makes the counter odd (or zero again); a resumed, paused or stopped one leaves it
  -- on the same side of zero; DUMP finds it at zero; and a reset with injection enabled brings
  -- faults to the queues that had some
  | .request i .start _ _ =>
      match m.fi.activation.lookup (getFiThread (m.contexts i)) with
      | none => NoFaults m ∨ (m.fi.fiEnable + 1).toNat % 2 = 1 ∨ m.fi.fiEnable + 1 = 0
      | some ptr => m.fi.modeOf ptr = some .pause →
          NoFaults m ∨ (m.fi.fiEnable ≠ 0 ∧ m.fi.fiEnable + 1 ≠ 0)
  | .request i .pause _ _ | .request i .stop _ _ =>
      ∀ ptr, m.fi.activation.lookup (getFiThread (m.contexts i)) = some ptr →
        NoFaults m ∨ (m.fi.fiEnable ≠ 0 ∧ m.fi.fiEnable - 1 ≠ 0)
  | .request _ .dump _ _ => NoFaults m ∨ m.fi.fiEnable = 0
  | .reset records =>
      m.fi.fiEnable = 0 ∨ ∀ q, m.fi.store.empty q = emptyAfterReset m.fi records q
  | _ => True

variable {fuel : Nat} {m next : Machine} {action : Control}

theorem load_empty {record : FaultRecord} {s s' : FaultStore}
    (returned : load fuel record s = some s') (q : StageQueue) :
    s'.empty q = (s.empty q && stageOf record.faultType != q) := by
  have inserted := FaultStore.insert_empty returned q
  have same : (allocate record s).empty q = s.empty q := rfl
  rw [inserted, same]
  by_cases isQ : q = stageOf record.faultType
  · simp [isQ]
  · simp [isQ, Ne.symm isQ]

theorem getFromFile_empty (records : List FaultRecord) (s s' : FaultStore)
    (returned : getFromFile fuel records s = some s') (q : StageQueue) :
    s'.empty q = (s.empty q && records.all fun record => stageOf record.faultType != q) := by
  induction records generalizing s with
  | nil =>
      cases returned
      simp
  | cons record rest ih =>
      obtain ⟨loaded, read, returned⟩ := Option.bind_eq_some_iff.mp returned
      rw [ih loaded returned, load_empty read q, List.all_cons, Bool.and_assoc]

theorem reset_empty {records : List FaultRecord} {fi fi' : FiSystem}
    (returned : fi.reset fuel records = some fi') (q : StageQueue) :
    fi'.store.empty q = emptyAfterReset fi records q := by
  obtain ⟨store, deleted, rest⟩ := Option.bind_eq_some_iff.mp returned
  have cleared : store.empty q = true := by
    simp only [deleteFaults, Option.bind_eq_bind, Option.bind_eq_some_iff] at deleted
    obtain ⟨_, _, _, _, _, _, _, _, _, _, result⟩ := deleted
    cases result
    rfl
  unfold emptyAfterReset
  split at rest
  · rename_i named
    obtain ⟨store', read, result⟩ := Option.bind_eq_some_iff.mp rest
    cases result
    rw [getFromFile_empty records store store' read q, cleared]
    simp [named]
  · rename_i unnamed
    cases rest
    simp [unnamed, cleared]

/-- Whether the flags are right depends on the counter's side of zero only,
unless there is no fault at all. -/
theorem gates_same_side_iff (m : Machine) (gates : GatesCurrent m) (count : BitVec 32) :
    (∀ q, m.fi.gate q = true ↔ 0 < count.toNat ∧ m.fi.store.empty q = false) ↔
      NoFaults m ∨ (m.fi.fiEnable = 0 ↔ count = 0) := by
  have zero_iff : ∀ x : BitVec 32, 0 < x.toNat ↔ x ≠ 0 := by
    intro x
    constructor <;> intro differs <;> bv_omega
  constructor
  · intro after
    by_cases nothing : NoFaults m
    · exact Or.inl nothing
    · right
      simp only [NoFaults, not_forall, Bool.not_eq_true] at nothing
      obtain ⟨q, pending⟩ := nothing
      have before := gates q
      have later := after q
      rw [pending, zero_iff] at before later
      simp only [and_true] at before later
      exact not_iff_not.mp (before.symm.trans later)
  · rintro (nothing | sameSide) q
    · rw [gates q, nothing q]
      simp
    · rw [gates q, zero_iff, zero_iff, ne_eq, ne_eq, sameSide]

theorem stageFlag_iff (fi : FiSystem) (q : StageQueue) :
    fi.stageFlag q = true ↔ fi.fiEnable.toNat % 2 = 1 ∧ fi.store.empty q = false := by
  unfold stageFlag
  cases fi.store.empty q with
  | true => simp
  | false =>
      have lowBit : (fi.fiEnable &&& 1).toNat = fi.fiEnable.toNat % 2 := by
        rw [BitVec.toNat_and]
        exact Nat.and_one_is_mod _
      simp only [Bool.false_eq_true, if_false, bne_iff_ne, ne_eq, and_true]
      constructor
      · intro nonzero
        have differs : (fi.fiEnable &&& 1).toNat ≠ 0 := by
          intro zero
          exact nonzero (BitVec.eq_of_toNat_eq zero)
        omega
      · intro odd zero
        rw [zero] at lowBit
        simp at lowBit
        omega

theorem same_side_iff (count moved : BitVec 32) (steps : ¬ (count = 0 ∧ moved = 0)) :
    (count = 0 ↔ moved = 0) ↔ count ≠ 0 ∧ moved ≠ 0 := by
  constructor
  · intro sameSide
    exact ⟨fun zero => steps ⟨zero, sameSide.mp zero⟩, fun zero => steps ⟨sameSide.mpr zero, zero⟩⟩
  · rintro ⟨before, after⟩
    exact iff_of_false before after

/-- start_fi for a new thread computes the flags from the lowest bit of the
counter. -/
theorem activate_gates_iff (i : Nat) (threadid : Word) :
    GatesCurrent ⟨m.fi.activate (m.contexts i) threadid, m.setContext i
        { m.contexts i with enabledFI := true, fiThread := some m.fi.threads.length }⟩ ↔
      NoFaults m ∨ (m.fi.fiEnable + 1).toNat % 2 = 1 ∨ m.fi.fiEnable + 1 = 0 := by
  have flags : GatesCurrent ⟨m.fi.activate (m.contexts i) threadid, m.setContext i
        { m.contexts i with enabledFI := true, fiThread := some m.fi.threads.length }⟩ ↔
      ∀ q, ((m.fi.fiEnable + 1).toNat % 2 = 1 ∧ m.fi.store.empty q = false ↔
        0 < (m.fi.fiEnable + 1).toNat ∧ m.fi.store.empty q = false) := by
    refine forall_congr' fun q => ?_
    exact iff_congr (stageFlag_iff _ q) Iff.rfl
  rw [flags]
  have zero_iff : m.fi.fiEnable + 1 = 0 ↔ (m.fi.fiEnable + 1).toNat = 0 := by
    rw [BitVec.toNat_eq]
    rfl
  rw [zero_iff]
  generalize (m.fi.fiEnable + 1).toNat = count
  -- with a fault pending, zero and odd counts are those the lowest bit gets right
  constructor
  · intro right
    by_cases nothing : NoFaults m
    · exact Or.inl nothing
    · simp only [NoFaults, not_forall, Bool.not_eq_true] at nothing
      obtain ⟨q, pending⟩ := nothing
      have here := right q
      rw [pending] at here
      simp only [and_true] at here
      omega
  · rintro (nothing | odd) q
    · rw [nothing q]
      simp
    · refine and_congr_left fun _ => ?_
      omega

theorem reset_gates_iff {records : List FaultRecord} {store : FaultStore}
    (gates : GatesCurrent m) (emptied : ∀ q, store.empty q = emptyAfterReset m.fi records q) :
    GatesCurrent ⟨{ m.fi with store := store }, m.contexts⟩ ↔ GatesKept m (.reset records) := by
  unfold GatesCurrent GatesKept
  dsimp only
  constructor
  · intro right
    by_cases off : m.fi.fiEnable = 0
    · exact Or.inl off
    · right
      intro q
      have on : 0 < m.fi.fiEnable.toNat := by bv_omega
      have before := gates q
      have after := right q
      rw [emptied] at after
      simp only [on, true_and] at before after
      have same := before.symm.trans after
      cases old : m.fi.store.empty q <;> cases new : emptyAfterReset m.fi records q <;>
        simp [old, new] at same ⊢
  · rintro (off | same) q
    · rw [gates q, off]
      simp
    · rw [gates q, emptied, same q]

theorem controlStep_gates_iff (gates : GatesCurrent m)
    (stepped : controlStep fuel m action = some next) :
    GatesCurrent next ↔ GatesKept m action := by
  cases controlStep_effect stepped with
  | created i threadid curTick unknown =>
      rw [activate_gates_iff]
      simp [GatesKept, unknown]
  | resumed i threadid curTick ptr known wasPaused =>
      refine (gates_same_side_iff m gates (m.fi.fiEnable + 1)).trans ?_
      simp only [GatesKept, known, wasPaused, forall_const]
      exact or_congr_right (same_side_iff _ _ (by bv_omega))
  | ignored i threadid curTick ptr known notPaused =>
      refine iff_of_true gates ?_
      simp [GatesKept, known, notPaused]
  | paused i threadid curTick ptr known =>
      refine (gates_same_side_iff m gates (m.fi.fiEnable - 1)).trans ?_
      simp only [GatesKept, known, Option.some.injEq, forall_eq']
      exact or_congr_right (same_side_iff _ _ (by bv_omega))
  | stopped i threadid curTick ptr known =>
      refine (gates_same_side_iff m gates (m.fi.fiEnable - 1)).trans ?_
      simp only [GatesKept, known, Option.some.injEq, forall_eq']
      exact or_congr_right (same_side_iff _ _ (by bv_omega))
  | notActive i req threadid curTick pauseOrStop unknown =>
      rcases pauseOrStop with rfl | rfl <;>
        exact iff_of_true gates (by simp [GatesKept, unknown])
  | dumped i threadid curTick =>
      obtain ⟨_, _, enabled, flags, store⟩ :=
        scheduleswitch_frame curTick { m.fi with activation := ∅, fiEnable := 0 }
      unfold GatesCurrent
      rw [enabled, flags, store]
      refine (gates_same_side_iff m gates 0).trans ?_
      simp [GatesKept]
  | marked i pc =>
      refine iff_of_true ?_ trivial
      unfold GatesCurrent
      dsimp only
      unfold FiSystem.getPcAddress
      split <;> exact gates
  | switched i val => exact iff_of_true gates trivial
  | modeSet i dtbCm => exact iff_of_true gates trivial
  | reloaded records fi returned =>
      have emptied := reset_empty returned
      obtain ⟨store, rfl⟩ := reset_frame returned
      exact reset_gates_iff gates emptied

/-- The stage flags are right throughout a run exactly when each step keeps
them: they are computed in one branch of one request, from the lowest bit of
the counter. -/
theorem stage_gates_iff (fuel : Nat) (m : Machine) (actions : List Control)
    (booted : Booted m.fi) :
    Always (controlStep fuel) GatesCurrent actions m ↔
      EachStep (controlStep fuel) GatesKept actions m := by
  apply always_iff_eachStep (fun _ => True) (fun _ _ _ _ _ => trivial) _ actions m trivial
  · intro q
    rw [booted.gate, booted.fiEnable]
    simp
  · intro state action next _ gates stepped
    exact controlStep_gates_iff gates stepped

theorem first_start_opens_gate :
    Always (controlStep 9) GatesCurrent [.request 0 .start 0 0] pendingMachine := by
  apply (stage_gates_iff 9 pendingMachine _ pendingMachine_booted).mpr
  rw [eachStep_cons_iff]
  intro started _
  exact ⟨Or.inr (Or.inl (by decide)), eachStep_nil _ _⟩

/-- The second thread closes the gate of the fault that both wait for. -/
theorem second_start_closes_gate :
    ¬ Always (controlStep 9) GatesCurrent [.request 0 .start 0 0, .request 1 .start 1 0]
      pendingMachine := by
  intro always
  have gates := always _ [] _ (List.append_nil _).symm rfl .fetchStage
  have isOpen := gates.mpr ⟨by decide, rfl⟩
  revert isOpen
  decide

end GemFi.StageGates
