import GemFi.RegisterConservation

/-!
The free-register check of renameInsts in cpu/o3/rename_impl.hh. It compares the number of
destinations with `UnifiedRenameMap::numFreeEntries`, the lesser of the integer and the
floating-point registers that are free; the condition codes are not looked at.
-/

namespace GemFi.FreeRegisters

open Outcomes (assert assert_ok)
open RegisterConservation RegisterRename

/-- `UnifiedRenameMap::numFreeEntries`. -/
def numFreeEntries (s : State) : Nat := min (s.free .int).length (s.free .float).length

/-- The check of renameInsts; it blocks where this does not hold. -/
def letsThrough (destRegs : List RegIndex) (s : State) : Prop :=
  ¬numFreeEntries s < destRegs.length

instance (destRegs : List RegIndex) (s : State) : Decidable (letsThrough destRegs s) :=
  inferInstanceAs (Decidable ¬_)

section Destinations

variable {isa : Isa} (tc : ThreadContext isa) {file : PhysRegFile}

def flat (destReg : RegIndex) : RegClass × RegIndex :=
  ((isa.classify destReg).1, tc.flatten (isa.classify destReg).1 (isa.classify destReg).2)

def takes (destReg : RegIndex) : Option RegClass :=
  -- the class whose free list a destination takes a register from. Neither misc registers nor the
  -- zero registers take one.
  if (flat tc destReg).1 = .misc ∨ isa.zeroOf (flat tc destReg).1 = some (flat tc destReg).2 then none
  else some (flat tc destReg).1

def needs (destRegs : List RegIndex) (c : RegClass) : Nat :=
  destRegs.countP fun destReg => takes tc destReg = some c

/-- What the checks other than that of the free list ask for: the free registers are of their
class, the indices are in bounds, and a zero register among the destinations is mapped to
itself. -/
structure Admissible (file : PhysRegFile) (destRegs : List RegIndex) (s : State) : Prop where
  freeClass : ∀ c, ∀ reg ∈ s.free c, file.isPhysReg c reg = true
  bounded : ∀ destReg ∈ destRegs, destReg < isa.maxRegIndex
  zeros : ∀ destReg ∈ destRegs,
    isa.zeroOf (flat tc destReg).1 = some (flat tc destReg).2 →
      s.map (flat tc destReg) = (flat tc destReg).2 ∧
        file.isPhysReg (flat tc destReg).1 (flat tc destReg).2 = true

variable {tc} {destReg : RegIndex} {destRegs : List RegIndex} {s : State} {seqNum : Nat}

theorem renameDestReg_class (file : PhysRegFile) (seqNum : Nat) (s : State)
    (bounded : destReg < isa.maxRegIndex)
    (notMisc : (flat tc destReg).1 ≠ .misc) :
    renameDestReg isa file tc seqNum s destReg =
      (renameClass isa file (flat tc destReg).1 (flat tc destReg).2 s).bind fun result =>
        .ok { result.2 with
          history := ⟨seqNum, (flat tc destReg).2 + isa.base (flat tc destReg).1, result.1.1,
            result.1.2⟩ :: result.2.history } := by
  unfold flat at notMisc ⊢
  unfold renameDestReg Isa.regIdxToClass
  rw [assert_ok (decide_eq_true bounded)]
  cases shape : isa.classify destReg with
  | mk c reg =>
      rw [shape] at notMisc
      cases c with
      | int | float | cc => rfl
      | misc => exact absurd rfl notMisc

theorem renameDestReg_misc (file : PhysRegFile) (seqNum : Nat) (s : State)
    (bounded : destReg < isa.maxRegIndex) (misc : (flat tc destReg).1 = .misc) :
    ∃ entry, renameDestReg isa file tc seqNum s destReg =
      .ok { s with history := entry :: s.history } := by
  unfold flat at misc
  unfold renameDestReg Isa.regIdxToClass
  rw [assert_ok (decide_eq_true bounded)]
  cases shape : isa.classify destReg with
  | mk c reg =>
      rw [shape] at misc
      cases misc
      exact ⟨_, rfl⟩

theorem renameClass_zero {c : RegClass} {reg : RegIndex} (zero : isa.zeroOf c = some reg)
    (stays : s.map (c, reg) = reg) (isPhys : file.isPhysReg c reg = true) :
    renameClass isa file c reg s = .ok ((reg, s.map (c, reg)), s) := by
  unfold renameClass renameSimple
  rw [if_neg (not_not.mpr zero), assert_ok (beq_iff_eq.mpr stays)]
  change (assert (file.isPhysReg c reg) >>= fun _ => _) = _
  rw [assert_ok isPhys]
  rfl

theorem renameClass_empty {c : RegClass} {reg : RegIndex} (renamed : isa.zeroOf c ≠ some reg)
    (empty : s.free c = []) : renameClass isa file c reg s = .error .assertion := by
  unfold renameClass renameSimple getReg
  rw [if_pos renamed, empty]
  rfl

theorem renameClass_some {c : RegClass} {reg : RegIndex} (renamed : isa.zeroOf c ≠ some reg)
    {phys : PhysRegIndex} {rest : List PhysRegIndex} (isFree : s.free c = phys :: rest)
    (isPhys : file.isPhysReg c phys = true) :
    renameClass isa file c reg s = .ok ((phys, s.map (c, reg)),
      { s with free := Function.update s.free c rest, map := Function.update s.map (c, reg) phys }) := by
  unfold renameClass renameSimple getReg
  rw [if_pos renamed, isFree]
  change (assert (file.isPhysReg c phys) >>= fun _ => _) = _
  rw [assert_ok isPhys]
  rfl

theorem takes_eq_none_iff : takes tc destReg = none ↔
    (flat tc destReg).1 = .misc ∨
      isa.zeroOf (flat tc destReg).1 = some (flat tc destReg).2 := by
  unfold takes
  split
  next nothing => exact iff_of_true rfl nothing
  next some => exact iff_of_false (Option.some_ne_none _) some

theorem takes_eq_some {c : RegClass} (taken : takes tc destReg = some c) :
    (flat tc destReg).1 = c ∧ (flat tc destReg).1 ≠ .misc ∧
      isa.zeroOf (flat tc destReg).1 ≠ some (flat tc destReg).2 := by
  unfold takes at taken
  split at taken
  next => cases taken
  next some => exact ⟨Option.some.inj taken, not_or.mp some⟩

theorem renameDestReg_none (seqNum : Nat)
    (admissible : Admissible tc file (destReg :: destRegs) s)
    (nothing : takes tc destReg = none) :
    ∃ s', renameDestReg isa file tc seqNum s destReg = .ok s' ∧ s'.free = s.free ∧ s'.map = s.map := by
  have bounded := admissible.bounded destReg List.mem_cons_self
  by_cases misc : (flat tc destReg).1 = .misc
  · obtain ⟨entry, renamed⟩ := renameDestReg_misc file seqNum s bounded misc
    exact ⟨_, renamed, rfl, rfl⟩
  · have zero := (takes_eq_none_iff.mp nothing).resolve_left misc
    obtain ⟨stays, isPhys⟩ := admissible.zeros destReg List.mem_cons_self zero
    have renamed := renameDestReg_class file seqNum s bounded misc
    rw [renameClass_zero zero stays isPhys] at renamed
    exact ⟨_, renamed, rfl, rfl⟩

theorem renameDestReg_empty (seqNum : Nat)
    (admissible : Admissible tc file (destReg :: destRegs) s) {c : RegClass} (taken : takes tc destReg = some c) (empty : s.free c = []) :
    renameDestReg isa file tc seqNum s destReg = .error .assertion := by
  obtain ⟨rfl, notMisc, renamed⟩ := takes_eq_some taken
  rw [renameDestReg_class file seqNum s (admissible.bounded destReg List.mem_cons_self) notMisc,
    renameClass_empty renamed empty]
  rfl

theorem renameDestReg_some (seqNum : Nat)
    (admissible : Admissible tc file (destReg :: destRegs) s) {c : RegClass} (taken : takes tc destReg = some c) {phys : PhysRegIndex} {rest : List PhysRegIndex}
    (isFree : s.free c = phys :: rest) :
    ∃ s', renameDestReg isa file tc seqNum s destReg = .ok s' ∧
      s'.free = Function.update s.free c rest ∧
      s'.map = Function.update s.map (flat tc destReg) phys := by
  obtain ⟨rfl, notMisc, renamed⟩ := takes_eq_some taken
  have isPhys := admissible.freeClass _ phys (isFree ▸ List.mem_cons_self)
  have ended := renameDestReg_class file seqNum s
    (admissible.bounded destReg List.mem_cons_self) notMisc
  rw [renameClass_some renamed isFree isPhys] at ended
  exact ⟨_, ended, rfl, rfl⟩

theorem admissible_none (admissible : Admissible tc file (destReg :: destRegs) s) {s' : State}
    (sameFree : s'.free = s.free) (sameMap : s'.map = s.map) : Admissible tc file destRegs s' := by
  refine ⟨?_, fun other member => ?_, fun other member zero => ?_⟩
  · rw [sameFree]
    exact admissible.freeClass
  · exact admissible.bounded other (List.mem_cons_of_mem _ member)
  · rw [sameMap]
    exact admissible.zeros other (List.mem_cons_of_mem _ member) zero

theorem admissible_some (admissible : Admissible tc file (destReg :: destRegs) s) {c : RegClass}
    (taken : takes tc destReg = some c) {phys : PhysRegIndex} {rest : List PhysRegIndex}
    (isFree : s.free c = phys :: rest) {s' : State}
    (free : s'.free = Function.update s.free c rest)
    (map : s'.map = Function.update s.map (flat tc destReg) phys) :
    Admissible tc file destRegs s' := by
  obtain ⟨_, _, renamed⟩ := takes_eq_some taken
  refine ⟨fun d reg member => ?_, fun other member => ?_, fun other member zero => ?_⟩
  · rw [free] at member
    by_cases here : d = c
    · subst here
      rw [Function.update_self] at member
      exact admissible.freeClass d reg (isFree ▸ List.mem_cons_of_mem _ member)
    · rw [Function.update_of_ne here] at member
      exact admissible.freeClass d reg member
  · exact admissible.bounded other (List.mem_cons_of_mem _ member)
  · have apart : flat tc other ≠ flat tc destReg := by
      intro same
      rw [same] at zero
      exact renamed zero
    rw [map, Function.update_of_ne apart]
    exact admissible.zeros other (List.mem_cons_of_mem _ member) zero

/-- All destinations are renamed if and only if each free list has as many registers as are taken
from it. -/
theorem renameDestRegs_ok_iff (admissible : Admissible tc file destRegs s) :
    (∃ s', renameDestRegs isa file tc seqNum destRegs s = .ok s') ↔
      ∀ c, needs tc destRegs c ≤ (s.free c).length := by
  induction destRegs generalizing s with
  | nil => exact iff_of_true ⟨s, rfl⟩ fun c => Nat.zero_le _
  | cons destReg destRegs ih =>
      have loop : renameDestRegs isa file tc seqNum (destReg :: destRegs) s =
          (renameDestReg isa file tc seqNum s destReg).bind
            (renameDestRegs isa file tc seqNum destRegs) := rfl
      cases taken : takes tc destReg with
      | none =>
          obtain ⟨s', renamed, free, map⟩ :=
            renameDestReg_none seqNum admissible taken
          have same : ∀ c, needs tc (destReg :: destRegs) c = needs tc destRegs c := fun c =>
            List.countP_cons_of_neg (by simp [taken])
          rw [loop, renamed]
          simp only [same, ← free]
          exact ih (admissible_none admissible free map)
      | some c =>
          have more : needs tc (destReg :: destRegs) c = needs tc destRegs c + 1 :=
            List.countP_cons_of_pos (by simp [taken])
          cases isFree : s.free c with
          | nil =>
              rw [loop, renameDestReg_empty seqNum admissible taken isFree]
              refine iff_of_false ?_ fun enough => ?_
              · rintro ⟨s', returned⟩
                cases returned
              · have none := enough c
                rw [more, isFree] at none
                exact Nat.not_succ_le_zero _ none
          | cons phys rest =>
              obtain ⟨s', renamed, free, map⟩ :=
                renameDestReg_some seqNum admissible taken isFree
              rw [loop, renamed]
              refine (ih (admissible_some admissible taken isFree free map)).trans ?_
              refine forall_congr' fun d => ?_
              by_cases here : d = c
              · subst here
                rw [free, Function.update_self, more, isFree, List.length_cons,
                  Nat.add_le_add_iff_right]
              · have same : needs tc (destReg :: destRegs) d = needs tc destRegs d :=
                  List.countP_cons_of_neg (by simpa [taken] using Ne.symm here)
                rw [free, Function.update_of_ne here, same]

theorem needs_le_length (destRegs : List RegIndex) (c : RegClass) :
    needs tc destRegs c ≤ destRegs.length :=
  List.countP_le_length

theorem admissible_of_conserved (conserved : Conserved isa file s)
    (bounded : ∀ destReg ∈ destRegs, destReg < isa.maxRegIndex)
    (nonzero : ∀ destReg ∈ destRegs,
      isa.zeroOf (flat tc destReg).1 ≠ some (flat tc destReg).2) : Admissible tc file destRegs s :=
  ⟨conserved.freeClass, bounded, fun destReg member zero => absurd zero (nonzero destReg member)⟩

theorem needs_misc (destRegs : List RegIndex) : needs tc destRegs .misc = 0 := by
  rw [needs, List.countP_eq_zero]
  intro destReg _ taken
  obtain ⟨isMisc, notMisc, _⟩ := takes_eq_some (of_decide_eq_true taken)
  exact notMisc isMisc

end Destinations

section Results

/-- An instruction that passes the check has all its destinations renamed if and only if it has no
more condition-code destinations than there are free condition-code registers. -/
theorem letsThrough_renamed_iff (isa : Isa) (file : PhysRegFile) (tc : ThreadContext isa)
    (seqNum : Nat) (destRegs : List RegIndex) (s : State)
    (admissible : Admissible tc file destRegs s) (passes : letsThrough destRegs s) :
    (∃ s', renameDestRegs isa file tc seqNum destRegs s = .ok s') ↔
      needs tc destRegs .cc ≤ (s.free .cc).length := by
  rw [renameDestRegs_ok_iff admissible]
  have enough : destRegs.length ≤ numFreeEntries s := Nat.not_lt.mp passes
  constructor
  · exact fun all => all .cc
  · intro condition c
    cases c with
    | int =>
        exact Nat.le_trans (needs_le_length destRegs .int)
          (Nat.le_trans enough (Nat.min_le_left _ _))
    | float =>
        exact Nat.le_trans (needs_le_length destRegs .float)
          (Nat.le_trans enough (Nat.min_le_right _ _))
    | cc => exact condition
    | misc =>
        rw [needs_misc destRegs]
        exact Nat.zero_le _

theorem first_condition_code_renamed :
    ∃ start, constructed smallIsa smallFile = .ok start ∧
      Admissible smallContext smallFile [0, 5] start ∧ letsThrough [0, 5] start ∧
      ∃ s, renameDestRegs smallIsa smallFile smallContext 1 [0, 5] start = .ok s := by
  obtain ⟨start, built⟩ : ∃ start, constructed smallIsa smallFile = .ok start := ⟨_, rfl⟩
  have conserved := (constructed_partitioned built).conserved
  have admissible : Admissible smallContext smallFile [0, 5] start :=
    admissible_of_conserved conserved (by decide) (by decide)
  have passes : letsThrough [0, 5] start := by
    cases built
    decide
  refine ⟨start, built, admissible, passes, ?_⟩
  rw [letsThrough_renamed_iff smallIsa smallFile smallContext 1 [0, 5] start admissible passes]
  cases built
  decide

/-- The instruction behind it passes the check as well, and no condition-code register is free. -/
theorem second_condition_code_fails :
    ∃ start s, constructed smallIsa smallFile = .ok start ∧
      renameDestRegs smallIsa smallFile smallContext 1 [5] start = .ok s ∧
      Admissible smallContext smallFile [5] s ∧ letsThrough [5] s ∧ s.free .cc = [] ∧
      renameDestRegs smallIsa smallFile smallContext 2 [5] s = .error .assertion := by
  obtain ⟨start, built⟩ : ∃ start, constructed smallIsa smallFile = .ok start := ⟨_, rfl⟩
  obtain ⟨s, renamed⟩ :
      ∃ s, renameDestRegs smallIsa smallFile smallContext 1 [5] start = .ok s := by
    cases built
    exact ⟨_, rfl⟩
  have conserved := (constructed_partitioned built).conserved
  obtain ⟨entries, after⟩ :=
    (renameDestRegs_renamed conserved smallContext 1 [5]).of_ok renamed
  refine ⟨start, s, built, renamed,
    admissible_of_conserved after.conserved (by decide) (by decide), ?_⟩
  cases built
  cases renamed
  exact ⟨by decide, rfl, rfl⟩

end Results

end GemFi.FreeRegisters
