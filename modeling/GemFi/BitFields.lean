import Mathlib.Data.Nat.Bitwise
import Mathlib.Tactic.Ring

/-!
`mask` and `bits` of base/bitfield.hh, as numbers. `bits` is a template: on a signed
type its shift is an arithmetic one, and in both cases the mask is 64 bits wide.
-/

namespace GemFi.BitFields

variable {w : Nat}

/-- `mask(nbits)`. -/
def mask (nbits : Nat) : BitVec 64 := if nbits = 64 then -1 else (1 : BitVec 64) <<< nbits - 1

/-- `bits(val, first, last)` on an unsigned type. -/
def bits (val : BitVec w) (first last : Nat) : BitVec w :=
  ((val >>> last).setWidth 64 &&& mask (first - last + 1)).setWidth w

/-- `bits(val, first, last)` on a signed type. -/
def signedBits (val : BitVec w) (first last : Nat) : BitVec w :=
  ((val.sshiftRight last).signExtend 64 &&& mask (first - last + 1)).setWidth w

theorem mask_toNat {nbits : Nat} (fits : nbits ≤ 64) : (mask nbits).toNat = 2 ^ nbits - 1 := by
  by_cases whole : nbits = 64
  · subst whole
    rfl
  · have short : 2 ^ nbits < 2 ^ 64 := Nat.pow_lt_pow_right (by omega) (by omega)
    have positive : 0 < 2 ^ nbits := Nat.two_pow_pos nbits
    have shifted : ((1 : BitVec 64) <<< nbits).toNat = 2 ^ nbits := by
      rw [BitVec.toNat_shiftLeft, Nat.shiftLeft_eq]
      exact (congrArg (· % 2 ^ 64) (Nat.one_mul _)).trans (Nat.mod_eq_of_lt short)
    rw [mask, if_neg whole, BitVec.toNat_sub, shifted]
    show (2 ^ 64 - 1 + 2 ^ nbits) % 2 ^ 64 = 2 ^ nbits - 1
    have sum : 2 ^ 64 - 1 + 2 ^ nbits = 2 ^ 64 + (2 ^ nbits - 1) := by omega
    rw [sum, Nat.add_mod_left, Nat.mod_eq_of_lt (by omega)]

theorem and_mask_toNat (x : BitVec 64) {nbits : Nat} (fits : nbits ≤ 64) :
    (x &&& mask nbits).toNat = x.toNat % 2 ^ nbits := by
  rw [BitVec.toNat_and, mask_toNat fits, Nat.and_two_pow_sub_one_eq_mod]

theorem mask_lt (nbits : Nat) : (mask nbits).toNat < 2 ^ nbits := by
  by_cases fits : nbits ≤ 64
  · rw [mask_toNat fits]
    exact Nat.sub_lt (Nat.two_pow_pos nbits) Nat.one_pos
  · exact (mask nbits).isLt.trans_le (Nat.pow_le_pow_right (by omega) (by omega))

theorem toNat_eq_toInt_emod (x : BitVec w) : (x.toNat : Int) = x.toInt % 2 ^ w := by
  have same := congrArg BitVec.toNat (BitVec.ofInt_toInt (x := x))
  rw [BitVec.toNat_ofInt] at same
  have positive : ((2 ^ w : Nat) : Int) ≠ 0 := Int.natCast_ne_zero.mpr (Nat.two_pow_pos w).ne'
  rw [← same, Int.toNat_of_nonneg (Int.emod_nonneg _ positive)]
  norm_cast

section Extraction

theorem bits_lt (val : BitVec w) (first last : Nat) :
    (bits val first last).toNat < 2 ^ (first - last + 1) := by
  rw [bits, BitVec.toNat_setWidth, BitVec.toNat_and]
  exact ((Nat.mod_le _ _).trans Nat.and_le_right).trans_lt (mask_lt _)

theorem bits_toNat (val : BitVec w) (first last : Nat) (narrow : w ≤ 64) (inside : first - last + 1 ≤ w) :
    (bits val first last).toNat = val.toNat / 2 ^ last % 2 ^ (first - last + 1) := by
  have width : (val >>> last).toNat < 2 ^ 64 :=
    (val >>> last).isLt.trans_le (Nat.pow_le_pow_right (by omega) narrow)
  have below : val.toNat / 2 ^ last % 2 ^ (first - last + 1) < 2 ^ w :=
    (Nat.mod_lt _ (Nat.two_pow_pos _)).trans_le (Nat.pow_le_pow_right (by omega) inside)
  rw [bits, BitVec.toNat_setWidth, and_mask_toNat _ (inside.trans narrow), BitVec.toNat_setWidth,
    Nat.mod_eq_of_lt width, BitVec.toNat_ushiftRight, Nat.shiftRight_eq_div_pow,
    Nat.mod_eq_of_lt below]

theorem signedBits_toNat (val : BitVec w) (first last : Nat) (narrow : w ≤ 64) (inside : first - last + 1 ≤ w) :
    ((signedBits val first last).toNat : Int) = val.toInt / 2 ^ last % 2 ^ (first - last + 1) := by
  have extended : (((val.sshiftRight last).signExtend 64).toNat : Int) =
      val.toInt / 2 ^ last % 2 ^ 64 := by
    rw [toNat_eq_toInt_emod, BitVec.toInt_signExtend_of_le narrow, BitVec.toInt_sshiftRight,
      Int.shiftRight_eq_div_pow]
    norm_cast
  have below : ((val.sshiftRight last).signExtend 64).toNat % 2 ^ (first - last + 1) < 2 ^ w :=
    (Nat.mod_lt _ (Nat.two_pow_pos _)).trans_le (Nat.pow_le_pow_right (by omega) inside)
  have divides : (2 : Int) ^ (first - last + 1) ∣ 2 ^ 64 := pow_dvd_pow 2 (inside.trans narrow)
  rw [signedBits, BitVec.toNat_setWidth, and_mask_toNat _ (inside.trans narrow),
    Nat.mod_eq_of_lt below, Int.natCast_emod, extended]
  push_cast
  exact Int.emod_emod_of_dvd _ divides

end Extraction

section SingleBits

theorem mask_getLsbD {nbits : Nat} (fits : nbits ≤ 64) (i : Nat) :
    (mask nbits).getLsbD i = decide (i < nbits) := by
  rw [BitVec.getLsbD, mask_toNat fits, Nat.testBit_two_pow_sub_one]

theorem bits_getLsbD (val : BitVec 64) (first last i : Nat) (inside : first - last + 1 ≤ 64) :
    (bits val first last).getLsbD i = (decide (i < first - last + 1) && val.getLsbD (last + i)) := by
  rw [bits, BitVec.setWidth_eq, BitVec.getLsbD_and, mask_getLsbD inside, BitVec.setWidth_eq,
    BitVec.getLsbD_ushiftRight, Bool.and_comm]

end SingleBits

end GemFi.BitFields
