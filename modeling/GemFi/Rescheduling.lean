import GemFi.FaultRuns

/-!
Where check4reschedule moves a fault that waits for an instruction count. The
next count is kept in an `int` on its way to `increaseTiming`, whose parameter
has 64 bits again.
-/

namespace GemFi.Rescheduling

open ThreadInfo FaultQueue QueueRepresentation FaultScan FaultRuns

def CPUInjectedFault.check4reschedule := FaultScan.check4reschedule
def O3CPUInjectedFault.check4reschedule := FaultScan.check4reschedule

/-- The fault is moved to the next instruction. -/
def MovesToNext (check : Nat → Word → FaultPtr → FaultStore → Option FaultStore) (fuel : Nat)
    (clockEdge : Word) (f : FaultPtr) (s : FaultStore) : Prop :=
  ∃ s', check fuel clockEdge f s = some s' ∧ (s'.timing f).toNat = (s.timing f).toNat + 1

theorem toNat_nextCount (t : Word) :
    (((t + 1).setWidth 32).signExtend 64).toNat =
      if (t + 1).toNat % 2 ^ 32 < 2 ^ 31 then (t + 1).toNat % 2 ^ 32
      else (t + 1).toNat % 2 ^ 32 + (2 ^ 64 - 2 ^ 32) := by
  have inside : (t + 1).toNat % 2 ^ 32 < 2 ^ 32 := Nat.mod_lt _ (by decide)
  rw [BitVec.toNat_signExtend, BitVec.toNat_setWidth, BitVec.toNat_setWidth,
    BitVec.msb_eq_decide, BitVec.toNat_setWidth]
  by_cases small : (t + 1).toNat % 2 ^ 32 < 2 ^ 31
  · rw [if_pos small, if_neg (by simpa using small)]
    omega
  · rw [if_neg small, if_pos (by simpa using small)]
    omega

/-- The count survives below the range of `int`, and where its upper half is that of a
negative `int`. -/
theorem nextCount_exact_iff (t : Word) (bounded : t.toNat < 2 ^ 64 - 1) :
    (((t + 1).setWidth 32).signExtend 64).toNat = t.toNat + 1 ↔
      t.toNat + 1 < 2 ^ 31 ∨ 2 ^ 64 - 2 ^ 31 ≤ t.toNat + 1 := by
  have next : (t + 1).toNat = t.toNat + 1 := by bv_omega
  rw [toNat_nextCount, next]
  by_cases small : (t.toNat + 1) % 2 ^ 32 < 2 ^ 31
  · rw [if_pos small]
    omega
  · rw [if_neg small]
    omega

theorem nextCount_behind_iff (t : Word) (bounded : t.toNat < 2 ^ 64 - 1) :
    (((t + 1).setWidth 32).signExtend 64).toNat < t.toNat ↔
      2 ^ 32 ≤ t.toNat + 1 ∧ (t.toNat + 1) % 2 ^ 32 < 2 ^ 31 := by
  have next : (t + 1).toNat = t.toNat + 1 := by bv_omega
  rw [toNat_nextCount, next]
  by_cases small : (t.toNat + 1) % 2 ^ 32 < 2 ^ 31
  · rw [if_pos small]
    omega
  · rw [if_neg small]
    omega

theorem check4reschedule_again {fuel : Nat} {clockEdge : Word} {f : FaultPtr} {s : FaultStore}
    (again : (s.mem f).occurrence ≠ 1) :
    FaultScan.check4reschedule fuel clockEdge f s = some (s.write f (rescheduled clockEdge)) :=
  if_neg again

section Moves

variable {fuel : Nat} {clockEdge : Word} {f : FaultPtr} {s : FaultStore}

theorem rescheduled_timing (instruction : (s.mem f).timingType = .instruction) :
    (s.write f (rescheduled clockEdge)).timing f =
      ((s.timing f + 1).setWidth 32).signExtend 64 := by
  simp [FaultStore.timing, FaultStore.write, rescheduled, nextTiming, instruction]

theorem movesToNext_iff (instruction : (s.mem f).timingType = .instruction)
    (bounded : (s.timing f).toNat < 2 ^ 64 - 1) (again : (s.mem f).occurrence ≠ 1) :
    MovesToNext FaultScan.check4reschedule fuel clockEdge f s ↔
      (s.timing f).toNat + 1 < 2 ^ 31 ∨ 2 ^ 64 - 2 ^ 31 ≤ (s.timing f).toNat + 1 := by
  rw [← nextCount_exact_iff _ bounded, ← rescheduled_timing instruction]
  unfold MovesToNext
  rw [check4reschedule_again again]
  constructor
  · rintro ⟨_, same, moved⟩
    cases same
    exact moved
  · intro moved
    exact ⟨_, rfl, moved⟩

theorem moved_back_iff (instruction : (s.mem f).timingType = .instruction)
    (bounded : (s.timing f).toNat < 2 ^ 64 - 1) (again : (s.mem f).occurrence ≠ 1) :
    (∃ s', FaultScan.check4reschedule fuel clockEdge f s = some s' ∧
        (s'.timing f).toNat < (s.timing f).toNat) ↔
      2 ^ 32 ≤ (s.timing f).toNat + 1 ∧ ((s.timing f).toNat + 1) % 2 ^ 32 < 2 ^ 31 := by
  rw [← nextCount_behind_iff _ bounded, ← rescheduled_timing instruction,
    check4reschedule_again again]
  constructor
  · rintro ⟨_, same, back⟩
    cases same
    exact back
  · intro back
    exact ⟨_, rfl, back⟩

end Moves

/-- A fault on an instruction count is moved to the next instruction exactly if this is
below 2^31, or in the last 2^31 numbers of 64 bits, which a negative `int` stands for. -/
theorem moved_to_next_iff (fuel : Nat) (clockEdge : Word) (f : FaultPtr) (s : FaultStore)
    (instruction : (s.mem f).timingType = .instruction)
    (bounded : (s.timing f).toNat < 2 ^ 64 - 1) (again : (s.mem f).occurrence ≠ 1) :
    (MovesToNext CPUInjectedFault.check4reschedule fuel clockEdge f s ↔
      (s.timing f).toNat + 1 < 2 ^ 31 ∨ 2 ^ 64 - 2 ^ 31 ≤ (s.timing f).toNat + 1) ∧
    (MovesToNext O3CPUInjectedFault.check4reschedule fuel clockEdge f s ↔
      (s.timing f).toNat + 1 < 2 ^ 31 ∨ 2 ^ 64 - 2 ^ 31 ≤ (s.timing f).toNat + 1) :=
  ⟨movesToNext_iff instruction bounded again, movesToNext_iff instruction bounded again⟩

def permanentFault (timing : Word) : FaultStore := singleFault (fetchRecord .instruction timing 0)

theorem permanent_fault_moves_on :
    (MovesToNext CPUInjectedFault.check4reschedule 2 500 0 (permanentFault 7) ↔
      (7 : Word).toNat + 1 < 2 ^ 31 ∨ 2 ^ 64 - 2 ^ 31 ≤ (7 : Word).toNat + 1) ∧
    (MovesToNext O3CPUInjectedFault.check4reschedule 2 500 0 (permanentFault 7) ↔
      (7 : Word).toNat + 1 < 2 ^ 31 ∨ 2 ^ 64 - 2 ^ 31 ≤ (7 : Word).toNat + 1) :=
  moved_to_next_iff 2 500 0 (permanentFault 7) rfl (by decide) (by decide)

/-- After instruction number 2^32 - 1 the fault waits for number zero. -/
theorem permanent_fault_moves_back :
    (FaultScan.check4reschedule 2 500 0 (permanentFault 0xFFFFFFFF)).map
        (fun s => s.timing 0) = some 0 ∧
      ¬ MovesToNext CPUInjectedFault.check4reschedule 2 500 0 (permanentFault 0xFFFFFFFF) ∧
      ¬ MovesToNext O3CPUInjectedFault.check4reschedule 2 500 0 (permanentFault 0xFFFFFFFF) := by
  have notMoved : ¬ MovesToNext FaultScan.check4reschedule 2 500 0 (permanentFault 0xFFFFFFFF) := by
    rw [movesToNext_iff rfl (by decide) (by decide)]
    decide
  exact ⟨by decide, notMoved, notMoved⟩

end GemFi.Rescheduling
