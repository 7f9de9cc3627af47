import GemFi.BitFields
import GemFi.QuietHooks
import Mathlib.Tactic.Linarith

/-!
`addc` and `mul128` of arch/alpha/isa/util.isa, and the instruction umulh. The product
of two 64-bit words is put together from four products of 32-bit halves; the carries out
of the lower word are found by comparing a wrapped sum with its operands.
-/

namespace GemFi.WideMultiply

open ThreadInfo FaultQueue Activation Hooks BitFields QuietHooks

/-- `addc`: the sum, and the carry count with a carry out of it. -/
def addc (opa opb : Word) (carry : Int) : Word × Int :=
  let res := opa + opb
  (res, if res < opa ∨ res < opb then carry + 1 else carry)

/-- `x<63:32>`. -/
def upper (x : Word) : Word := bits x 63 32

/-- `x<31:0>`. -/
def lower (x : Word) : Word := bits x 31 0

def partial1 (opa opb : Word) : Word := upper opa * lower opb

def partial2 (opa opb : Word) : Word := lower opa * upper opb

/-- `res_lo` and `carry_out` after the first addition. -/
def firstSum (opa opb : Word) : Word × Int :=
  addc (lower (partial1 opa opb) <<< 32) (lower opa * lower opb) 0

/-- `res_lo` and `carry_out` after the second. -/
def secondSum (opa opb : Word) : Word × Int :=
  addc (lower (partial2 opa opb) <<< 32) (firstSum opa opb).1 (firstSum opa opb).2

/-- `mul128`: what it leaves in `res_hi` and in `res_lo`. -/
def mul128 (opa opb : Word) : Word × Word :=
  (upper opa * upper opb + upper (partial1 opa opb) + upper (partial2 opa opb) +
      BitVec.ofInt 64 (secondSum opa opb).2,
    (secondSum opa opb).1)

/-- `umulh`. -/
def umulh (site : HookSite) (ra rb : Word) : Option (FiSystem × Word) :=
  site.iewWord (mul128 ra rb).1

/-- The sum that forms `res_hi`, as a number. -/
def highSum (opa opb : Word) : Int :=
  (upper opa).toNat * (upper opb).toNat + (upper (partial1 opa opb)).toNat +
    (upper (partial2 opa opb)).toNat + (secondSum opa opb).2

theorem addc_exact (opa opb : Word) (carry : Int) :
    ((addc opa opb carry).1.toNat : Int) + 2 ^ 64 * (addc opa opb carry).2 =
      opa.toNat + opb.toNat + 2 ^ 64 * carry := by
  have left := opa.isLt
  have right := opb.isLt
  have sum : (opa + opb).toNat = (opa.toNat + opb.toNat) % 2 ^ 64 := BitVec.toNat_add opa opb
  unfold addc
  simp only [BitVec.lt_def]
  by_cases carried : (opa + opb).toNat < opa.toNat ∨ (opa + opb).toNat < opb.toNat
  · rw [if_pos carried]
    omega
  · rw [if_neg carried]
    omega

theorem addc_carry_le (opa opb : Word) (carry : Int) : carry ≤ (addc opa opb carry).2 := by
  unfold addc
  dsimp only
  split <;> omega

theorem upper_toNat (x : Word) : (upper x).toNat = x.toNat / 2 ^ 32 := by
  have field := bits_toNat x 63 32 (by omega) (by omega)
  have bound := x.isLt
  rw [upper, field]
  omega

theorem lower_toNat (x : Word) : (lower x).toNat = x.toNat % 2 ^ 32 := by
  have field := bits_toNat x 31 0 (by omega) (by omega)
  rw [lower, field]
  omega

theorem halves (x : Word) : x.toNat = (upper x).toNat * 2 ^ 32 + (lower x).toNat := by
  rw [upper_toNat, lower_toNat]
  omega

theorem half_mul {x y : Word} (left : x.toNat < 2 ^ 32) (right : y.toNat < 2 ^ 32) :
    (x * y).toNat = x.toNat * y.toNat := by
  have small : x.toNat * y.toNat < 2 ^ 32 * 2 ^ 32 := Nat.mul_lt_mul'' left right
  rw [BitVec.toNat_mul, Nat.mod_eq_of_lt (by omega)]

theorem upper_lt (x : Word) : (upper x).toNat < 2 ^ 32 := by
  have bound := x.isLt
  rw [upper_toNat]
  omega

theorem lower_lt (x : Word) : (lower x).toNat < 2 ^ 32 := by
  rw [lower_toNat]
  omega

theorem lower_shifted (x : Word) : (lower x <<< 32).toNat = (lower x).toNat * 2 ^ 32 := by
  have small := lower_lt x
  rw [BitVec.toNat_shiftLeft, Nat.shiftLeft_eq]
  omega

section Exact

variable (opa opb : Word)

theorem secondSum_exact :
    ((secondSum opa opb).1.toNat : Int) + 2 ^ 64 * (secondSum opa opb).2 =
      (lower (partial2 opa opb)).toNat * 2 ^ 32 + (lower (partial1 opa opb)).toNat * 2 ^ 32 +
        (lower opa).toNat * (lower opb).toNat := by
  have first := addc_exact (lower (partial1 opa opb) <<< 32) (lower opa * lower opb) 0
  have second := addc_exact (lower (partial2 opa opb) <<< 32) (firstSum opa opb).1
    (firstSum opa opb).2
  rw [lower_shifted, half_mul (lower_lt opa) (lower_lt opb)] at first
  rw [lower_shifted] at second
  unfold secondSum
  unfold firstSum at second ⊢
  push_cast at first second ⊢
  linarith

theorem highSum_exact :
    2 ^ 64 * highSum opa opb + (mul128 opa opb).2.toNat = (opa.toNat : Int) * opb.toNat := by
  have middle1 : (partial1 opa opb).toNat = (upper opa).toNat * (lower opb).toNat :=
    half_mul (upper_lt opa) (lower_lt opb)
  have middle2 : (partial2 opa opb).toNat = (lower opa).toNat * (upper opb).toNat :=
    half_mul (lower_lt opa) (upper_lt opb)
  have parts1 := halves (partial1 opa opb)
  have parts2 := halves (partial2 opa opb)
  have low := secondSum_exact opa opb
  rw [middle1] at parts1
  rw [middle2] at parts2
  calc 2 ^ 64 * highSum opa opb + ((mul128 opa opb).2.toNat : Int)
      = (2 : Int) ^ 64 * ((upper opa).toNat * (upper opb).toNat) +
          2 ^ 32 * ((upper (partial1 opa opb)).toNat * 2 ^ 32 + (lower (partial1 opa opb)).toNat) +
          2 ^ 32 * ((upper (partial2 opa opb)).toNat * 2 ^ 32 + (lower (partial2 opa opb)).toNat) +
          (lower opa).toNat * (lower opb).toNat := by
        unfold highSum mul128
        linarith
    _ = ((upper opa).toNat * (2 : Int) ^ 32 + (lower opa).toNat) *
          ((upper opb).toNat * 2 ^ 32 + (lower opb).toNat) := by
        have parts1' := congrArg Int.ofNat parts1
        have parts2' := congrArg Int.ofNat parts2
        simp only [Int.ofNat_eq_natCast, Nat.cast_add, Nat.cast_mul, Nat.cast_pow,
          Nat.cast_ofNat] at parts1' parts2'
        rw [← parts1', ← parts2']
        ring
    _ = (opa.toNat : Int) * opb.toNat := by
        rw [halves opa, halves opb]
        push_cast
        ring

theorem highSum_nonneg : 0 ≤ highSum opa opb := by
  have first : 0 ≤ (firstSum opa opb).2 := by
    unfold firstSum
    exact addc_carry_le _ _ 0
  have second : (firstSum opa opb).2 ≤ (secondSum opa opb).2 := by
    unfold secondSum
    exact addc_carry_le _ _ _
  have product : (0 : Int) ≤ (upper opa).toNat * (upper opb).toNat := by
    exact_mod_cast Nat.zero_le _
  unfold highSum
  omega

theorem highSum_lt : highSum opa opb < 2 ^ 64 := by
  have exact := highSum_exact opa opb
  have small : (opa.toNat : Int) * opb.toNat < 2 ^ 64 * 2 ^ 64 := by
    exact_mod_cast Nat.mul_lt_mul'' opa.isLt opb.isLt
  have rest : (0 : Int) ≤ (mul128 opa opb).2.toNat := Int.natCast_nonneg _
  linarith

theorem resHi_toNat : ((mul128 opa opb).1.toNat : Int) = highSum opa opb := by
  have nonneg := highSum_nonneg opa opb
  have below := highSum_lt opa opb
  have product := half_mul (upper_lt opa) (upper_lt opb)
  unfold highSum at nonneg below ⊢
  unfold mul128
  rw [BitVec.toNat_add, BitVec.toNat_add, BitVec.toNat_add, BitVec.toNat_ofInt, product]
  push_cast at nonneg below ⊢
  generalize ((upper opa).toNat : Int) * (upper opb).toNat = terms at *
  omega

end Exact

/-- The product of any two words is exact, the sum of its upper word never wraps, and
umulh returns that word. -/
theorem mul128_exact (opa opb : Word) (site : HookSite) (quiet : site.NothingDue) :
    (mul128 opa opb).1.toNat * 2 ^ 64 + (mul128 opa opb).2.toNat = opa.toNat * opb.toNat ∧
      ((mul128 opa opb).1.toNat : Int) = highSum opa opb ∧
      ∃ fi' rc, umulh site opa opb = some (fi', rc) ∧
        rc.toNat = opa.toNat * opb.toNat / 2 ^ 64 := by
  have whole : (mul128 opa opb).1.toNat * 2 ^ 64 + (mul128 opa opb).2.toNat =
      opa.toNat * opb.toNat := by
    have exact := highSum_exact opa opb
    rw [← resHi_toNat] at exact
    have natural : 2 ^ 64 * (mul128 opa opb).1.toNat + (mul128 opa opb).2.toNat =
        opa.toNat * opb.toNat := by exact_mod_cast exact
    rw [← natural, Nat.mul_comm]
  obtain ⟨fi', kept⟩ := quiet.iewWord (mul128 opa opb).1
  refine ⟨whole, resHi_toNat opa opb, fi', _, kept, ?_⟩
  have low := (mul128 opa opb).2.isLt
  rw [← whole]
  omega

theorem largest_product_exact :
    (mul128 (-1) (-1)).1.toNat * 2 ^ 64 + (mul128 (-1) (-1)).2.toNat =
        (-1 : Word).toNat * (-1 : Word).toNat ∧
      ((mul128 (-1) (-1)).1.toNat : Int) = highSum (-1) (-1) ∧
      ∃ fi' rc, umulh startedSite (-1) (-1) = some (fi', rc) ∧
        rc.toNat = (-1 : Word).toNat * (-1 : Word).toNat / 2 ^ 64 :=
  mul128_exact (-1) (-1) startedSite startedSite_quiet

end GemFi.WideMultiply
