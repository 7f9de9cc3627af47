import GemFi.WideMultiply

/-!
The trapping integer instructions of arch/alpha/isa/decoder.isa. Sums and differences
compare sign bits, mullv looks at the upper 33 bits of a signed 64-bit product, and mulqv
at the upper word that `mul128` gives for the unsigned operands.
-/

namespace GemFi.OverflowTraps

open ThreadInfo Activation BitFields QuietHooks WideMultiply

structure Executed (w : Nat) where
  -- whether an IntegerOverflowFault is raised, what is computed for Rc, and the fault injector
  -- afterwards
  overflow : Bool
  result : BitVec w
  fi : FiSystem

def highPartWrong (hi lo : Word) : Bool :=
  !(hi == 0 && bits lo 63 63 == 0 || hi == mask 64 && bits lo 63 63 == 1)

section Instructions

variable (site : HookSite)

def addlv (ra rb : BitVec 32) : Option (Executed 32) := do
  let tmp := ra + rb
  -- signed overflow occurs when operands have same sign
  -- and sign of result does not match
  let fault := signedBits ra 31 31 == signedBits rb 31 31 &&
    signedBits tmp 31 31 != signedBits ra 31 31
  let (fi, tmp) ← site.iewInt32 tmp
  some ⟨fault, tmp, fi⟩

def addqv (ra rb : Word) : Option (Executed 64) := do
  let tmp := ra + rb
  let fault := bits ra 63 63 == bits rb 63 63 && bits tmp 63 63 != bits ra 63 63
  let (fi, tmp) ← site.iewWord tmp
  some ⟨fault, tmp, fi⟩

def sublv (ra rb : BitVec 32) : Option (Executed 32) := do
  let tmp := ra - rb
  let fault := signedBits ra 31 31 != signedBits rb 31 31 &&
    signedBits tmp 31 31 != signedBits ra 31 31
  let (fi, tmp) ← site.iewInt32 tmp
  some ⟨fault, tmp, fi⟩

def subqv (ra rb : Word) : Option (Executed 64) := do
  let tmp := ra - rb
  let fault := bits ra 63 63 != bits rb 63 63 && bits tmp 63 63 != bits ra 63 63
  let (fi, tmp) ← site.iewWord tmp
  some ⟨fault, tmp, fi⟩

def mullv (ra rb : BitVec 32) : Option (Executed 32) := do
  let tmp : BitVec 64 := ra.signExtend 64 * rb.signExtend 64
  let signBits := signedBits tmp 63 31
  let fault := signBits != 0 && signBits != mask 33
  let tmp1 := (signedBits tmp 31 0).setWidth 32
  let (fi, tmp1) ← site.iewInt32 tmp1
  some ⟨fault, tmp1, fi⟩

def mulqv (ra rb : Word) : Option (Executed 64) := do
  let (hi, lo) := mul128 ra rb
  let fault := highPartWrong hi lo
  let (fi, lo) ← site.iewWord lo
  some ⟨fault, lo, fi⟩

end Instructions

inductive TrapInst where
  | addlv | addqv | sublv | subqv | mullv | mulqv
  deriving DecidableEq, Repr

namespace TrapInst

abbrev width : TrapInst → Nat
  | addlv | sublv | mullv => 32
  | addqv | subqv | mulqv => 64

def execute (site : HookSite) :
    (inst : TrapInst) → BitVec inst.width → BitVec inst.width → Option (Executed inst.width)
  | addlv => OverflowTraps.addlv site
  | addqv => OverflowTraps.addqv site
  | sublv => OverflowTraps.sublv site
  | subqv => OverflowTraps.subqv site
  | mullv => OverflowTraps.mullv site
  | mulqv => OverflowTraps.mulqv site

def exact : TrapInst → Int → Int → Int
  -- the operation the instruction stands for, on mathematical integers
  | addlv | addqv => (· + ·)
  | sublv | subqv => (· - ·)
  | mullv | mulqv => (· * ·)

end TrapInst

def Representable (w : Nat) (z : Int) : Prop := -2 ^ (w - 1) ≤ z ∧ z < 2 ^ (w - 1)

/-- The instruction raises an overflow fault exactly when the value does not fit, and
computes the value modulo its width unless a fault is injected. -/
structure TrapsExactly (inst : TrapInst) (ra rb : BitVec inst.width) : Prop where
  traps : ∀ site out, inst.execute site ra rb = some out →
    (out.overflow = true ↔ ¬ Representable inst.width (inst.exact ra.toInt rb.toInt))
  computes : ∀ site : HookSite, site.NothingDue → ∃ out, inst.execute site ra rb = some out ∧
    out.result = BitVec.ofInt inst.width (inst.exact ra.toInt rb.toInt)

section Hooked

def hook (site : HookSite) :
    (inst : TrapInst) → BitVec inst.width → Option (FiSystem × BitVec inst.width)
  | .addlv | .sublv | .mullv => site.iewInt32
  | .addqv | .subqv | .mulqv => site.iewWord

theorem hook_quiet {site : HookSite} (quiet : site.NothingDue) (inst : TrapInst)
    (tmp : BitVec inst.width) : ∃ fi', hook site inst tmp = some (fi', tmp) := by
  cases inst with
  | addlv | sublv | mullv => exact quiet.iewInt32 tmp
  | addqv | subqv | mulqv => exact quiet.iewWord tmp

variable (inst : TrapInst) {ra rb : BitVec inst.width}

/-- What is left of an instruction: the value it hands to the hook, and its test. -/
theorem trapsExactly_iff_test {fault : Bool} {tmp : BitVec inst.width}
    (executes : ∀ site, inst.execute site ra rb =
      (hook site inst tmp).bind fun hooked => some ⟨fault, hooked.2, hooked.1⟩)
    (value : tmp = BitVec.ofInt inst.width (inst.exact ra.toInt rb.toInt)) :
    TrapsExactly inst ra rb ↔
      (fault = true ↔ ¬ Representable inst.width (inst.exact ra.toInt rb.toInt)) := by
  constructor
  · intro exactly
    obtain ⟨fi', kept⟩ := hook_quiet startedSite_quiet inst tmp
    refine exactly.traps startedSite ⟨fault, tmp, fi'⟩ ?_
    rw [executes, kept]
    rfl
  · intro test
    refine ⟨fun site out returned => ?_, fun site quiet => ?_⟩
    · rw [executes] at returned
      obtain ⟨hooked, _, result⟩ := Option.bind_eq_some_iff.mp returned
      cases result
      exact test
    · obtain ⟨fi', kept⟩ := hook_quiet quiet inst tmp
      refine ⟨⟨fault, tmp, fi'⟩, ?_, value⟩
      rw [executes, kept]
      rfl

end Hooked

section Sums

variable {w : Nat}

theorem signedBits_beq (x y : BitVec 32) :
    (signedBits x 31 31 == signedBits y 31 31) = (x.msb == y.msb) := by
  have left := signedBits_toNat x 31 31 (by omega) (by omega)
  have right := signedBits_toNat y 31 31 (by omega) (by omega)
  have boundsX := And.intro x.le_toInt x.toInt_lt
  have boundsY := And.intro y.le_toInt y.toInt_lt
  rw [Bool.eq_iff_iff, beq_iff_eq, beq_iff_eq, ← BitVec.toNat_inj, BitVec.msb_eq_toInt,
    BitVec.msb_eq_toInt, decide_eq_decide]
  omega

theorem bits_beq (x y : Word) : (bits x 63 63 == bits y 63 63) = (x.msb == y.msb) := by
  have left := bits_toNat x 63 63 (by omega) (by omega)
  have right := bits_toNat y 63 63 (by omega) (by omega)
  have boundX := x.isLt
  have boundY := y.isLt
  rw [Bool.eq_iff_iff, beq_iff_eq, beq_iff_eq, ← BitVec.toNat_inj, BitVec.msb_eq_decide,
    BitVec.msb_eq_decide, decide_eq_decide]
  omega

theorem sum_test (x y : BitVec w) :
    (x.msb == y.msb && (x + y).msb != x.msb) = true ↔ ¬ Representable w (x.toInt + y.toInt) := by
  have test : (x.msb == y.msb && (x + y).msb != x.msb) = x.saddOverflow y :=
    (BitVec.saddOverflow_eq x y).symm
  rw [test, BitVec.saddOverflow, Bool.or_eq_true, decide_eq_true_iff, decide_eq_true_iff,
    Representable]
  omega

theorem difference_test (x y : BitVec w) :
    (x.msb != y.msb && (x - y).msb != x.msb) = true ↔ ¬ Representable w (x.toInt - y.toInt) := by
  have test : (x.msb != y.msb && (x - y).msb != x.msb) = x.ssubOverflow y := by
    rw [BitVec.ssubOverflow_eq]
    cases x.msb <;> cases y.msb <;> cases (x - y).msb <;> rfl
  rw [test, BitVec.ssubOverflow, Bool.or_eq_true, decide_eq_true_iff, decide_eq_true_iff,
    Representable]
  omega

theorem sum_value (x y : BitVec w) : x + y = BitVec.ofInt w (x.toInt + y.toInt) := by
  rw [BitVec.ofInt_add, BitVec.ofInt_toInt, BitVec.ofInt_toInt]

theorem difference_value (x y : BitVec w) : x - y = BitVec.ofInt w (x.toInt - y.toInt) := by
  rw [Int.sub_eq_add_neg, BitVec.ofInt_add, BitVec.ofInt_neg, BitVec.ofInt_toInt,
    BitVec.ofInt_toInt, BitVec.sub_eq_add_neg]

theorem addlv_exactly (ra rb : BitVec 32) : TrapsExactly .addlv ra rb := by
  refine (trapsExactly_iff_test .addlv (fun site => rfl) (sum_value ra rb)).mpr ?_
  simp only [bne, signedBits_beq]
  exact sum_test ra rb

theorem addqv_exactly (ra rb : Word) : TrapsExactly .addqv ra rb := by
  refine (trapsExactly_iff_test .addqv (fun site => rfl) (sum_value ra rb)).mpr ?_
  simp only [bne, bits_beq]
  exact sum_test ra rb

theorem sublv_exactly (ra rb : BitVec 32) : TrapsExactly .sublv ra rb := by
  refine (trapsExactly_iff_test .sublv (fun site => rfl) (difference_value ra rb)).mpr ?_
  simp only [bne, signedBits_beq]
  exact difference_test ra rb

theorem subqv_exactly (ra rb : Word) : TrapsExactly .subqv ra rb := by
  refine (trapsExactly_iff_test .subqv (fun site => rfl) (difference_value ra rb)).mpr ?_
  simp only [bne, bits_beq]
  exact difference_test ra rb

end Sums

section Products

theorem product_toInt (ra rb : BitVec 32) :
    (ra.signExtend 64 * rb.signExtend 64).toInt = ra.toInt * rb.toInt := by
  have lower := BitVec.le_toInt_mul_toInt (x := ra) (y := rb)
  have upper := BitVec.toInt_mul_toInt_le (x := ra) (y := rb)
  rw [BitVec.toInt_mul, BitVec.toInt_signExtend_of_le (by omega),
    BitVec.toInt_signExtend_of_le (by omega)]
  exact Int.bmod_eq_of_le (by omega) (by omega)

theorem mullv_exactly (ra rb : BitVec 32) : TrapsExactly .mullv ra rb := by
  have product := product_toInt ra rb
  have lower := BitVec.le_toInt_mul_toInt (x := ra) (y := rb)
  have upper := BitVec.toInt_mul_toInt_le (x := ra) (y := rb)
  have sign := signedBits_toNat (ra.signExtend 64 * rb.signExtend 64) 63 31
    (by omega) (by omega)
  have low := signedBits_toNat (ra.signExtend 64 * rb.signExtend 64) 31 0
    (by omega) (by omega)
  rw [product] at sign low
  have value : (signedBits (ra.signExtend 64 * rb.signExtend 64) 31 0).setWidth 32 =
      BitVec.ofInt 32 (ra.toInt * rb.toInt) := by
    apply BitVec.eq_of_toNat_eq
    rw [BitVec.toNat_setWidth, BitVec.toNat_ofInt]
    omega
  refine (trapsExactly_iff_test .mullv (fun site => rfl) value).mpr ?_
  have zero : (0 : Word).toNat = 0 := rfl
  rw [Bool.and_eq_true, bne_iff_ne, bne_iff_ne, ne_eq, ne_eq, ← BitVec.toNat_inj,
    ← BitVec.toNat_inj, mask_toNat (by omega), zero]
  simp only [Representable, TrapInst.exact, TrapInst.width]
  omega

theorem mulqv_test (ra rb : Word) :
    highPartWrong (mul128 ra rb).1 (mul128 ra rb).2 = true ↔ 2 ^ 63 ≤ ra.toNat * rb.toNat := by
  have whole := highSum_exact ra rb
  rw [← resHi_toNat] at whole
  have product : 2 ^ 64 * (mul128 ra rb).1.toNat + (mul128 ra rb).2.toNat =
      ra.toNat * rb.toNat := by exact_mod_cast whole
  have low := (mul128 ra rb).2.isLt
  have top : (bits (mul128 ra rb).2 63 63).toNat = (mul128 ra rb).2.toNat / 2 ^ 63 := by
    rw [bits_toNat _ 63 63 (by omega) (by omega)]
    omega
  have zero : (0 : Word).toNat = 0 := rfl
  have one : (1 : Word).toNat = 1 := rfl
  -- even the largest product leaves its upper word below the mask
  have largest : ra.toNat * rb.toNat ≤ (2 ^ 64 - 1) * (2 ^ 64 - 1) :=
    Nat.mul_le_mul (Nat.le_pred_of_lt ra.isLt) (Nat.le_pred_of_lt rb.isLt)
  rw [highPartWrong, Bool.not_eq_true', ← Bool.not_eq_true, Bool.or_eq_true, Bool.and_eq_true, Bool.and_eq_true]
  simp only [beq_iff_eq, ← BitVec.toNat_inj, mask_toNat (Nat.le_refl 64), zero, one, top]
  omega

theorem mulqv_value (ra rb : Word) :
    (mul128 ra rb).2 = BitVec.ofInt 64 (ra.toInt * rb.toInt) := by
  have whole := highSum_exact ra rb
  rw [← resHi_toNat] at whole
  have product : 2 ^ 64 * (mul128 ra rb).1.toNat + (mul128 ra rb).2.toNat =
      ra.toNat * rb.toNat := by exact_mod_cast whole
  have low := (mul128 ra rb).2.isLt
  rw [BitVec.ofInt_mul, BitVec.ofInt_toInt, BitVec.ofInt_toInt]
  apply BitVec.eq_of_toNat_eq
  rw [BitVec.toNat_mul, ← product]
  omega

theorem unsigned_product_large {ra rb : Word} (negative : ra.toInt < 0) (nonzero : rb ≠ 0) :
    2 ^ 63 ≤ ra.toNat * rb.toNat := by
  have left : 2 ^ 63 ≤ ra.toNat := by
    have top := BitVec.toInt_neg_iff.mp negative
    omega
  have right : 1 ≤ rb.toNat := Nat.pos_of_ne_zero fun zero =>
    nonzero (BitVec.eq_of_toNat_eq zero)
  exact left.trans (Nat.le_mul_of_pos_right _ right)

theorem mulqv_exactly_iff (ra rb : Word) :
    TrapsExactly .mulqv ra rb ↔ 0 ≤ ra.toInt ∧ 0 ≤ rb.toInt ∨ ra = 0 ∨ rb = 0 ∨
      ¬ Representable 64 (ra.toInt * rb.toInt) := by
  have executes : ∀ site, TrapInst.execute site .mulqv ra rb =
      (hook site .mulqv (mul128 ra rb).2).bind fun hooked =>
        some ⟨highPartWrong (mul128 ra rb).1 (mul128 ra rb).2, hooked.2, hooked.1⟩ :=
    fun site => rfl
  refine (trapsExactly_iff_test .mulqv executes (mulqv_value ra rb)).trans ?_
  rw [mulqv_test]
  show (2 ^ 63 ≤ ra.toNat * rb.toNat ↔ ¬ Representable 64 (ra.toInt * rb.toInt)) ↔ _
  by_cases positive : 0 ≤ ra.toInt ∧ 0 ≤ rb.toInt
  · -- the two readings of the operands agree
    have left : ra.toInt = ra.toNat := BitVec.toInt_eq_toNat_of_lt (BitVec.toInt_pos_iff.mp positive.1)
    have right : rb.toInt = rb.toNat := BitVec.toInt_eq_toNat_of_lt (BitVec.toInt_pos_iff.mp positive.2)
    refine iff_of_true ?_ (Or.inl positive)
    rw [left, right, ← Nat.cast_mul, Representable]
    omega
  by_cases zero : ra = 0 ∨ rb = 0
  · refine iff_of_true ?_ (Or.inr (by tauto))
    rcases zero with rfl | rfl <;> simp [Representable]
  · obtain ⟨left, right⟩ := not_or.mp zero
    have large : 2 ^ 63 ≤ ra.toNat * rb.toNat := by
      by_cases first : 0 ≤ ra.toInt
      · have second : rb.toInt < 0 := by omega
        rw [Nat.mul_comm]
        exact unsigned_product_large second left
      · exact unsigned_product_large (by omega) right
    rw [iff_true_left large, or_iff_right positive, or_iff_right left, or_iff_right right]

end Products

/-- The condition under which the test of an instruction is right: mulqv takes the upper
word of an unsigned product for that of the signed one. -/
def TestsSigned (inst : TrapInst) (ra rb : BitVec inst.width) : Prop :=
  inst = .mulqv → 0 ≤ ra.toInt ∧ 0 ≤ rb.toInt ∨ ra = 0 ∨ rb = 0 ∨
    ¬ Representable inst.width (ra.toInt * rb.toInt)

theorem trapsExactly_iff (inst : TrapInst) (ra rb : BitVec inst.width) :
    TrapsExactly inst ra rb ↔ TestsSigned inst ra rb := by
  cases inst with
  | addlv => exact iff_of_true (addlv_exactly ra rb) nofun
  | addqv => exact iff_of_true (addqv_exactly ra rb) nofun
  | sublv => exact iff_of_true (sublv_exactly ra rb) nofun
  | subqv => exact iff_of_true (subqv_exactly ra rb) nofun
  | mullv => exact iff_of_true (mullv_exactly ra rb) nofun
  | mulqv => exact (mulqv_exactly_iff ra rb).trans ⟨fun signed _ => signed, fun signed => signed rfl⟩

/-- The product of -1 and 1 is -1, yet mulqv raises an overflow fault. -/
theorem minus_one_traps : ¬ TrapsExactly .mulqv (-1) 1 := by
  rw [mulqv_exactly_iff]
  simp only [Representable]
  decide

end GemFi.OverflowTraps
