import GemFi.Comparators
import GemFi.FaultGenerators

/-!
The order of the experiments. main of final_create_exp.c sorts the faults of each
stage by `compare` before it prints them. The times are long, and the function returns
their difference as an int.
-/

namespace GemFi.ExperimentOrder

open Comparators FaultGenerators

/-- A fault with a time that `create_random_time` draws; what is filled in later leaves the
time. -/
abbrev TimedFault (range : CLong) := { p : FaultT // 0 ≤ p.time ∧ p.time < range.val }

/-- `create_random_time`, for one fault. -/
def createTimed (range : CLong) (time : Draw 0 range) (memory : FaultT) : TimedFault range :=
  ⟨createRandomTime range time memory, time.property⟩

def time {range : CLong} (p : TimedFault range) : Int := p.val.time

/-- `compare`. The difference is that of two long; the result is its lower half. -/
def compare {range : CLong} (aa bb : TimedFault range) : Int := (time bb - time aa).bmod (2 ^ 32)

/-- The comparison is a total preorder of the faults, in descending order of their times, and
whatever sort is used writes them in this order. -/
structure TimesDescend {range : CLong} (faults : List (TimedFault range)) : Prop where
  consistent : Consistent compare faults
  descending : Descending compare time faults
  written : ∀ qsort, Sorts qsort →
    ((qsort compare faults).map time).Pairwise (· ≥ ·)

section Differences

variable {range : CLong} {aa bb : TimedFault range}

/-- The lower half of a difference has its sign. -/
def KeepsSign (d : Int) : Prop := 0 < d → 0 < d % 2 ^ 32 ∧ d % 2 ^ 32 < 2 ^ 31

instance (d : Int) : Decidable (KeepsSign d) := inferInstanceAs (Decidable (_ → _))

theorem compare_nonpos_iff :
    compare aa bb ≤ 0 ↔
      (time bb - time aa) % 2 ^ 32 = 0 ∨ 2 ^ 31 ≤ (time bb - time aa) % 2 ^ 32 := by
  unfold compare
  rw [Int.bmod_def]
  split <;> omega

theorem compare_descends (forth : KeepsSign (time aa - time bb))
    (back : KeepsSign (time bb - time aa)) : compare aa bb ≤ 0 ↔ time bb ≤ time aa := by
  unfold KeepsSign at forth back
  rw [compare_nonpos_iff]
  omega

theorem compare_opposed (forth : KeepsSign (time aa - time bb))
    (back : KeepsSign (time bb - time aa)) : 0 < compare aa bb ↔ compare bb aa < 0 := by
  unfold KeepsSign at forth back
  unfold compare
  rw [Int.bmod_def, Int.bmod_def]
  split <;> split <;> omega

theorem keepsSign_of_descends (descends : compare aa bb ≤ 0 ↔ time bb ≤ time aa) :
    KeepsSign (time bb - time aa) := by
  intro later
  rw [compare_nonpos_iff] at descends
  omega

end Differences

/-- The experiments of a stage are in descending order of their times, exactly if no two
times differ by more than 2^31 - 1, up to multiples of 2^32. -/
theorem times_descend_iff {range : CLong} (faults : List (TimedFault range)) :
    TimesDescend faults ↔
      ∀ aa ∈ faults, ∀ bb ∈ faults, KeepsSign (time bb - time aa) := by
  constructor
  · intro descend aa inA bb inB
    exact keepsSign_of_descends (descend.descending aa inA bb inB)
  · intro keeps
    have descending : Descending compare time faults := fun aa inA bb inB =>
      compare_descends (keeps bb inB aa inA) (keeps aa inA bb inB)
    have consistent : Consistent compare faults := descending.consistent
      fun aa inA bb inB => compare_opposed (keeps bb inB aa inA) (keeps aa inA bb inB)
    exact ⟨consistent, descending, fun qsort sorts => descending.sorted consistent sorts⟩

def fourBillion : CLong := ⟨2 ^ 32, by decide⟩

def blankFault : FaultT := ⟨"", "", "", "", "", 0, 0, 0, 0, 0, ""⟩

/-- Of the times 0 and 2^31 each is put before the other. -/
theorem far_times_before_each_other :
    ¬ ∀ faults : List (TimedFault fourBillion), TimesDescend faults := by
  intro descend
  have consistent := (descend
    [createTimed fourBillion ⟨0, by decide⟩ blankFault,
      createTimed fourBillion ⟨2 ^ 31, by decide⟩ blankFault]).consistent
  have opposed := consistent.opposed _ (List.mem_cons_of_mem _ List.mem_cons_self) _
    List.mem_cons_self
  revert opposed
  decide

end GemFi.ExperimentOrder
