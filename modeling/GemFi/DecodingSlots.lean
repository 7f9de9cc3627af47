import GemFi.FaultRoundTrip
import GemFi.FaultRuns
import GemFi.FaultSpecs
import GemFi.Transitions

/-!
Where a decoding fault writes. The slot is the register number of the fault line
modulo the number of registers of the instruction, and the register stored there
is moved behind the integer registers whenever the old one is not an integer
register. The move is kept in the fault, so it adds up from firing to firing.
-/

namespace GemFi.DecodingSlots

open ThreadInfo FaultQueue Corruption FaultScan FaultFile FaultRuns FaultSpecs
open Transitions

/-- The bounds of arch/alpha/registers.hh behind `fpRegBase`. -/
def ccRegBase : Nat := fpRegBase + 32
def miscRegBase : Nat := ccRegBase + 0
def numInternalProcRegs : Nat := 74
def numMiscRegs : Nat := numInternalProcRegs + 5
def maxRegIndex : Nat := miscRegBase + numMiscRegs + numInternalProcRegs

inductive RegClass where
  | intReg | floatReg | ccReg | miscReg
  deriving DecidableEq, Repr

/-- `none` is the failed assertion on an index that no register has; such
indices form a class of their own. -/
def regIdxToClass (reg : RegIndex) : Option RegClass :=
  if reg.toNat < maxRegIndex then
    if reg.toNat < fpRegBase then some .intReg
    else if reg.toNat < ccRegBase then some .floatReg
    else if reg.toNat < miscRegBase then some .ccReg
    else some .miscReg
  else none

def SameClass (old reg : RegIndex) : Prop := regIdxToClass reg = regIdxToClass old

def sideRegs (p : InjectedFault) (inst : StaticInst) : List RegIndex :=
  match p.srcOrDst with
  | .src => inst.srcRegIdx
  | .dst => inst.destRegIdx

def setSide (side : RegisterSide) (inst : StaticInst) (regs : List RegIndex) : StaticInst :=
  match side with
  | .src => { inst with srcRegIdx := regs }
  | .dst => { inst with destRegIdx := regs }

/-- `process` comes back, and all it did to the instruction is to replace the register
of one of its slots by one of the same class. -/
def StaysInside (p : InjectedFault) (inst : StaticInst) : Prop :=
  ∃ p' inst' slot old reg, RegisterDecodingInjectedFault.process p inst = some (p', inst') ∧
    (sideRegs p inst)[slot]? = some old ∧
    inst' = setSide p.srcOrDst inst ((sideRegs p inst).set slot reg) ∧ SameClass old reg

instance (old reg : RegIndex) : Decidable (SameClass old reg) :=
  inferInstanceAs (Decidable (_ = _))

abbrev Firing := StaticInst × Word

def fireAgain (p : InjectedFault) (firing : Firing) : Option InjectedFault :=
  -- the fault after a firing that is not its last
  (RegisterDecodingInjectedFault.process p firing.1).map fun r => rescheduled firing.2 r.1

def shift (old : RegIndex) : Nat := if fpRegBase ≤ old.toNat then fpRegBase else 0

/-- The remainder names a slot, and the register that arrives there after the
moves so far is in the class of the one it replaces. -/
def Fits (p : InjectedFault) (added : Nat) (inst : StaticInst) : Prop :=
  0 ≤ p.regToChange.tmod (sideRegs p inst).length ∧
    ∃ old, selected p inst = some old ∧
      SameClass old (BitVec.ofInt 8 (p.changeToReg + (added + shift old : Nat)))

def AllFit (p : InjectedFault) : Nat → List StaticInst → Prop
  -- each instruction of a sequence fits after the moves of those before it
  | _, [] => True
  | added, inst :: rest =>
      Fits p added inst ∧ AllFit p (added + ((selected p inst).elim 0 shift)) rest

theorem process_eq (p : InjectedFault) (inst : StaticInst) :
    RegisterDecodingInjectedFault.process p inst =
      (changeRegister p (sideRegs p inst)).map fun r => (r.1, setSide p.srcOrDst inst r.2) := by
  cases side : p.srcOrDst with
  | src =>
      simp only [RegisterDecodingInjectedFault.process, sideRegs, setSide, side]
      cases changeRegister p inst.srcRegIdx <;> rfl
  | dst =>
      simp only [RegisterDecodingInjectedFault.process, sideRegs, setSide, side]
      cases changeRegister p inst.destRegIdx <;> rfl

def moved (p : InjectedFault) (old : RegIndex) : InjectedFault :=
  -- the fault after it stored a register in the place of `old`
  if fpRegBase ≤ old.toNat then
    { p with changeToReg := (p.changeToReg + fpRegBase).bmod (2 ^ 32) }
  else p

theorem selected_eq (p : InjectedFault) (inst : StaticInst) :
    selected p inst =
      (sideRegs p inst)[(p.regToChange.tmod (sideRegs p inst).length).toNat]? := rfl

theorem ofInt_bmod (x : Int) : BitVec.ofInt 8 (x.bmod (2 ^ 32)) = BitVec.ofInt 8 x := by
  apply BitVec.eq_of_toInt_eq
  rw [BitVec.toInt_ofInt, BitVec.toInt_ofInt]
  exact Int.bmod_bmod_of_dvd (by decide)

theorem moved_changeToReg (p : InjectedFault) (old : RegIndex) :
    BitVec.ofInt 8 (moved p old).changeToReg = BitVec.ofInt 8 (p.changeToReg + shift old) := by
  unfold moved shift
  by_cases beyond : fpRegBase ≤ old.toNat
  · rw [if_pos beyond, if_pos beyond]
    exact ofInt_bmod _
  · rw [if_neg beyond, if_neg beyond, Int.natCast_zero, Int.add_zero]

theorem changeRegister_iff {p p' : InjectedFault} {regs regs' : List RegIndex} :
    changeRegister p regs = some (p', regs') ↔
      0 ≤ p.regToChange.tmod regs.length ∧
        ∃ old, regs[(p.regToChange.tmod regs.length).toNat]? = some old ∧ p' = moved p old ∧
          regs' = regs.set (p.regToChange.tmod regs.length).toNat
            (BitVec.ofInt 8 (moved p old).changeToReg) := by
  by_cases bare : regs.length = 0
  · have none_there := List.length_eq_zero_iff.mp bare
    subst none_there
    simp [changeRegister]
  · by_cases negative : p.regToChange.tmod regs.length < 0
    · simp only [changeRegister, if_neg bare, if_pos negative]
      simp [Int.not_le.mpr negative]
    · simp only [changeRegister, if_neg bare, if_neg negative, Option.bind_eq_bind,
        Option.bind_eq_some_iff, Option.some.injEq, Prod.mk.injEq, moved]
      constructor
      · rintro ⟨old, there, rfl, rfl⟩
        exact ⟨Int.not_lt.mp negative, old, there, rfl, rfl⟩
      · rintro ⟨_, old, there, rfl, rfl⟩
        exact ⟨old, there, rfl, rfl⟩

theorem process_iff {p p' : InjectedFault} {inst inst' : StaticInst} :
    RegisterDecodingInjectedFault.process p inst = some (p', inst') ↔
      0 ≤ p.regToChange.tmod (sideRegs p inst).length ∧
        ∃ old, selected p inst = some old ∧ p' = moved p old ∧
          inst' = setSide p.srcOrDst inst ((sideRegs p inst).set
            (p.regToChange.tmod (sideRegs p inst).length).toNat
            (BitVec.ofInt 8 (moved p old).changeToReg)) := by
  rw [process_eq, Option.map_eq_some_iff]
  constructor
  · rintro ⟨⟨_, regs⟩, changed, result⟩
    cases result
    obtain ⟨inside, old, there, same, rfl⟩ := changeRegister_iff.mp changed
    exact ⟨inside, old, there, same, rfl⟩
  · rintro ⟨inside, old, there, rfl, rfl⟩
    exact ⟨_, changeRegister_iff.mpr ⟨inside, old, there, rfl, rfl⟩, rfl⟩

theorem setSide_injective {side : RegisterSide} {inst : StaticInst} {regs regs' : List RegIndex}
    (same : setSide side inst regs = setSide side inst regs') : regs = regs' := by
  cases side with
  | src => exact congrArg StaticInst.srcRegIdx same
  | dst => exact congrArg StaticInst.destRegIdx same

theorem set_eq_set {regs : List RegIndex} {slot slot' : Nat} {old reg reg' : RegIndex}
    (there : regs[slot]? = some old) (same : regs.set slot reg = regs.set slot' reg') :
    slot = slot' ∧ reg = reg' ∨ reg = old := by
  have inside : slot < regs.length := (List.getElem?_eq_some_iff.mp there).1
  have stored : (regs.set slot' reg')[slot]? = some reg := by
    rw [← same, List.getElem?_set_self inside]
  by_cases apart : slot = slot'
  · subst apart
    rw [List.getElem?_set_self inside] at stored
    exact Or.inl ⟨rfl, (Option.some.inj stored).symm⟩
  · rw [List.getElem?_set_ne (Ne.symm apart), there] at stored
    exact Or.inr (Option.some.inj stored).symm

theorem staysInside_iff (p : InjectedFault) (inst : StaticInst) :
    StaysInside p inst ↔ Fits p 0 inst := by
  have stored (old : RegIndex) : BitVec.ofInt 8 (moved p old).changeToReg =
      BitVec.ofInt 8 (p.changeToReg + (0 + shift old : Nat)) := by
    rw [moved_changeToReg, Nat.zero_add]
  constructor
  · rintro ⟨p', inst', slot, other, reg, processed, there, kept, kind⟩
    obtain ⟨inside, old, found, rfl, written⟩ := process_iff.mp processed
    refine ⟨inside, old, found, ?_⟩
    rw [kept] at written
    rw [← stored old]
    rw [selected_eq] at found
    rcases set_eq_set found (setSide_injective written).symm with ⟨here, result⟩ | unchanged
    · rw [← here, found] at there
      cases there
      rw [result]
      exact kind
    · rw [unchanged]
      rfl
  · rintro ⟨inside, old, found, same⟩
    rw [← stored old] at same
    exact ⟨moved p old, _, _, old, _, process_iff.mpr ⟨inside, old, found, rfl, rfl⟩, found, rfl,
      same⟩

/-- The fault after some firings: the same choice of a slot, and `added` on the
register it stores. -/
structure Shifted (p p' : InjectedFault) (added : Nat) : Prop where
  side : p'.srcOrDst = p.srcOrDst
  slot : p'.regToChange = p.regToChange
  register : BitVec.ofInt 8 p'.changeToReg = BitVec.ofInt 8 (p.changeToReg + added)

section Moves

variable {p p' : InjectedFault} {added : Nat}

theorem Shifted.sideRegs_eq (shifted : Shifted p p' added) (inst : StaticInst) :
    sideRegs p' inst = sideRegs p inst := by
  unfold sideRegs
  rw [shifted.side]

theorem Shifted.selected_eq (shifted : Shifted p p' added) (inst : StaticInst) :
    selected p' inst = selected p inst := by
  rw [DecodingSlots.selected_eq, DecodingSlots.selected_eq, shifted.sideRegs_eq, shifted.slot]

theorem Shifted.register_add (shifted : Shifted p p' added) (more : Nat) :
    BitVec.ofInt 8 (p'.changeToReg + more) = BitVec.ofInt 8 (p.changeToReg + (added + more : Nat)) := by
  rw [BitVec.ofInt_add, shifted.register, ← BitVec.ofInt_add, Int.natCast_add, Int.add_assoc]

theorem Shifted.fits_iff (shifted : Shifted p p' added) (inst : StaticInst) :
    Fits p' 0 inst ↔ Fits p added inst := by
  unfold Fits
  rw [shifted.sideRegs_eq, shifted.selected_eq, shifted.slot]
  apply and_congr_right
  intro _
  apply exists_congr
  intro old
  rw [Nat.zero_add, shifted.register_add (shift old)]

/-- A firing adds the move of the register it replaced. -/
theorem Shifted.fired {p'' : InjectedFault} (shifted : Shifted p p' added) {firing : Firing}
    (fired : fireAgain p' firing = some p'') :
    Shifted p p'' (added + (selected p firing.1).elim 0 shift) := by
  obtain ⟨⟨p₁, inst'⟩, processed, rfl⟩ := Option.map_eq_some_iff.mp fired
  obtain ⟨_, old, found, rfl, _⟩ := process_iff.mp processed
  rw [shifted.selected_eq] at found
  rw [found]
  constructor
  · rw [← shifted.side]
    exact apply_ite InjectedFault.srcOrDst _ _ _ |>.trans (ite_self _)
  · rw [← shifted.slot]
    exact apply_ite InjectedFault.regToChange _ _ _ |>.trans (ite_self _)
  · exact (moved_changeToReg p' old).trans (shifted.register_add (shift old))

end Moves

theorem staysInside_run_iff {p p' : InjectedFault} {added : Nat} (shifted : Shifted p p' added)
    (firings : List Firing) :
    Admissible fireAgain (fun p firing => StaysInside p firing.1) firings p' ↔
      AllFit p added (firings.map Prod.fst) := by
  induction firings generalizing p' added with
  | nil => exact iff_of_true (admissible_nil _ _) trivial
  | cons firing rest ih =>
      rw [admissible_cons_iff, staysInside_iff, shifted.fits_iff, List.map_cons, AllFit]
      apply and_congr_right
      intro fits
      obtain ⟨inside, old, found, _⟩ := fits
      rw [← shifted.sideRegs_eq, ← shifted.slot] at inside
      rw [← shifted.selected_eq] at found
      have fired : fireAgain p' firing = some (rescheduled firing.2 (moved p' old)) :=
        congrArg _ (process_iff.mpr ⟨inside, old, found, rfl, rfl⟩)
      constructor
      · intro later
        exact (ih (shifted.fired fired)).mp (later _ fired)
      · intro allFit next stepped
        exact (ih (shifted.fired stepped)).mpr allFit

/-- A decoding fault stays inside every instruction it is fired on exactly if each
has a register on the fault's side, the remainder is not negative, and the
register of the fault line, moved by what the firings so far and this one add, is
of the class of the one it replaces. -/
theorem decoding_stays_inside_iff (p : InjectedFault) (firings : List Firing) :
    Admissible fireAgain (fun p firing => StaysInside p firing.1) firings p ↔
      AllFit p 0 (firings.map Prod.fst) := by
  apply staysInside_run_iff
  exact ⟨rfl, rfl, by rw [Int.natCast_zero, Int.add_zero]⟩

/-- A branch without a source register: the remainder divides by zero. -/
theorem sourceless_branch_divides_by_zero :
    (parseRegDec true "Src:0:5" FaultRoundTrip.zeroed.memory).toOption.map
        (fun p => RegisterDecodingInjectedFault.process
          ((singleFault (p.record .registerDecoding)).mem 0) ⟨[], [26]⟩ |>.isSome) = some false ∧
      ¬ ∀ s p inst, parseRegDec true s FaultRoundTrip.zeroed.memory = .ok p →
        StaysInside ((singleFault (p.record .registerDecoding)).mem 0) inst := by
  refine ⟨rfl, fun stays => ?_⟩
  obtain ⟨_, _, _, _, _, processed, _⟩ := stays "Src:0:5" _ ⟨[], [26]⟩ rfl
  cases processed

end GemFi.DecodingSlots
