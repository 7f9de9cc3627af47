import GemFi.FaultGenerators

/-!
The last field of a decoding fault: which register of the instruction to change,
and to what. `fill_regdec_faults` of final_create_exp.c prints it without a
character between the side and the first number, in the format of fi/description,
while `parseRegDec` looks for the number one character further on.
-/

namespace GemFi.DecodingFields

open FaultQueue FaultScan FaultFile FaultRecords FaultGenerators

/-- `SrcREG:REG` or `DstREG:REG`. -/
def regdecText (side : RegisterSide) (regToChange changeToReg : Nat) : List Char :=
  (sideText side).toList ++ unsigned regToChange ++ ':' :: unsigned changeToReg

/-- The assignment of `fill_regdec_faults` to one fault. -/
def fillRegdecFault (choice : Draw 0 3) (reg : Draw 0 8) (p : FaultT) : FaultT :=
  { p with
    regdec :=
      if choice.val = 2 then String.ofList ("Dst0:".toList ++ decimal reg)
      else String.ofList ("Src".toList ++ decimal choice ++ ':' :: decimal reg) }

def chosenSide (choice : Draw 0 3) : RegisterSide × Nat :=
  -- the side and the register that a choice stands for
  if choice.val = 2 then (.dst, 0) else (.src, choice.val.toNat)

theorem fillRegdecFault_regdec (choice : Draw 0 3) (reg : Draw 0 8) (p : FaultT) :
    (fillRegdecFault choice reg p).regdec =
      String.ofList (regdecText (chosenSide choice).1 (chosenSide choice).2 reg.val.toNat) := by
  have register : decimal reg.val = unsigned reg.val.toNat := decimal_of_nonneg reg.property.1
  have chosen : decimal choice.val = unsigned choice.val.toNat :=
    decimal_of_nonneg choice.property.1
  simp only [fillRegdecFault, regdecText, chosenSide, register, chosen]
  by_cases last : choice.val = 2
  · rw [if_pos last, if_pos last]
    rfl
  · rw [if_neg last, if_neg last]
    rfl

/-- The parser sets the side and both numbers to those printed. -/
def RoundTrips (asserts : Bool) (p : Fault) (side : RegisterSide)
    (regToChange changeToReg : Nat) : Prop :=
  ∃ p', parseRegDec asserts (String.ofList (regdecText side regToChange changeToReg)) p = .ok p' ∧
    p'.srcOrDst = side ∧ p'.regToChange = regToChange ∧ p'.changeToReg = changeToReg

theorem atoi_unsigned_iff (n : Nat) : atoi (String.ofList (unsigned n)) = n ↔ n < 2 ^ 31 := by
  constructor
  · intro same
    have range : (n : Int) < 2 ^ 31 := same ▸ atoi_lt _
    omega
  · exact atoi_decimal n

/-- The first digit of the register to change is skipped, which keeps the number
only where it is zero: without a digit left `atoi` gives zero. The other number
has to be an `int`, as everything `%d` prints is. -/
theorem regdec_round_trip_iff (asserts : Bool) (p : Fault) (side : RegisterSide)
    (regToChange changeToReg : Nat) :
    RoundTrips asserts p side regToChange changeToReg ↔
      regToChange = 0 ∧ changeToReg < 2 ^ 31 := by
  have parsed := parseRegDec_text asserts p side false regToChange changeToReg
  have text : (sideText side).toList ++ regToChangeText false regToChange ++
      ':' :: unsigned changeToReg = regdecText side regToChange changeToReg := rfl
  have unseparated : regToChangeText false regToChange = unsigned regToChange := rfl
  rw [text, unseparated] at parsed
  unfold RoundTrips
  rw [← dropped_eq_iff regToChange, ← atoi_unsigned_iff changeToReg, parsed]
  generalize atoi (String.ofList ((unsigned regToChange).drop 1)) = changed
  generalize atoi (String.ofList (unsigned changeToReg)) = changedTo
  constructor
  · rintro ⟨p', returned, _, reads, readsTo⟩
    cases returned
    exact ⟨reads, readsTo⟩
  · rintro ⟨reads, readsTo⟩
    exact ⟨_, rfl, rfl, reads, readsTo⟩

/-- One line in three of the generator names the second source register. -/
theorem second_source_read_as_first :
    (fillRegdecFault ⟨1, by decide⟩ ⟨5, by decide⟩ (fillFault "" 1 ⟨0, by decide⟩
        ⟨"", "", "", "", "", 0, 0, 0, 0, 0, ""⟩)).regdec = "Src1:5" ∧
      ¬ ∀ asserts p side regToChange changeToReg, regToChange < 2 ^ 31 → changeToReg < 2 ^ 31 →
        RoundTrips asserts p side regToChange changeToReg := by
  refine ⟨rfl, fun trips => ?_⟩
  obtain ⟨p', returned, _, changed, _⟩ :=
    trips true FaultRoundTrip.zeroed.memory .src 1 5 (by decide) (by decide)
  cases returned
  exact absurd changed (by decide)

end GemFi.DecodingFields
