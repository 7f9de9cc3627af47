import GemFi.BitFields
import GemFi.QuietHooks

/-!
The byte-manipulation instructions of arch/alpha/isa/decoder.isa that unaligned accesses
are made of. The low ones work on the quadword that holds the first byte of the datum,
the high ones on the one that holds its last byte; each hands its result to the hook of
the execute stage. Their results are given bit by bit.
-/

namespace GemFi.ByteManipulation

open ThreadInfo Activation BitFields QuietHooks

abbrev Instruction := HookSite → Word → Word → Option (FiSystem × Word)

/-- `tmp = f(Ra, Rb); iew_fault(xc, xc->tcBase(), &tmp); Rc = tmp`. -/
def operate (f : Word → Word → Word) : Instruction := fun site ra rb => site.iewWord (f ra rb)

/-- `Rb<2:0> * 8`. -/
def shift (rb : Word) : Word := bits rb 2 0 * 8

def bv (rb : Word) : Nat := (bits rb 2 0).toNat

section Formulas

variable (n : Nat) (cut : Word → Word) (ra rb : Word)

def mskLow : Word := ra &&& ~~~(mask n <<< shift rb)

def mskHigh : Word := if bv rb ≠ 0 then ra &&& ~~~(mask n >>> (64 - 8 * bv rb)) else ra

def extLow : Word := cut (ra >>> shift rb)

def extHigh : Word := cut (ra <<< bits (64 - shift rb) 5 0)

def insLow : Word := cut ra <<< shift rb

def insHigh : Word := if bv rb ≠ 0 then cut ra >>> (64 - 8 * bv rb) else 0

end Formulas

/-- `x<15:0>`. -/
def lowWord (x : Word) : Word := bits x 15 0

/-- `x<31:0>`. -/
def lowLongword (x : Word) : Word := bits x 31 0

def mskwl : Instruction := operate (mskLow 16)
def mskll : Instruction := operate (mskLow 32)
def mskql : Instruction := operate (mskLow 64)

def mskwh : Instruction := operate (mskHigh 16)
def msklh : Instruction := operate (mskHigh 32)
def mskqh : Instruction := operate (mskHigh 64)

def extwl : Instruction := operate (extLow lowWord)
def extll : Instruction := operate (extLow lowLongword)
def extql : Instruction := operate (extLow id)

def extwh : Instruction := operate (extHigh lowWord)
def extlh : Instruction := operate (extHigh lowLongword)
def extqh : Instruction := operate (extHigh id)

def inswl : Instruction := operate (insLow lowWord)
def insll : Instruction := operate (insLow lowLongword)
def insql : Instruction := operate (insLow id)

def inswh : Instruction := operate (insHigh lowWord)
def inslh : Instruction := operate (insHigh lowLongword)
def insqh : Instruction := operate (insHigh id)

inductive Width where
  | word | longword | quadword
  deriving DecidableEq, Repr

namespace Width

abbrev bytes : Width → Nat
  | word => 2
  | longword => 4
  | quadword => 8

def mskl : Width → Instruction
  | word => mskwl
  | longword => mskll
  | quadword => mskql

def mskh : Width → Instruction
  | word => mskwh
  | longword => msklh
  | quadword => mskqh

def extl : Width → Instruction
  | word => extwl
  | longword => extll
  | quadword => extql

def exth : Width → Instruction
  | word => extwh
  | longword => extlh
  | quadword => extqh

def insl : Width → Instruction
  | word => inswl
  | longword => insll
  | quadword => insql

def insh : Width → Instruction
  | word => inswh
  | longword => inslh
  | quadword => insqh

def cut : Width → Word → Word
  | word => lowWord
  | longword => lowLongword
  | quadword => id

end Width

section Results

variable (width : Width) {site : HookSite} (ra rb : Word)

theorem mskl_quiet (quiet : site.NothingDue) :
    ∃ fi', width.mskl site ra rb = some (fi', mskLow (8 * width.bytes) ra rb) := by
  cases width <;> exact quiet.iewWord _

theorem mskh_quiet (quiet : site.NothingDue) :
    ∃ fi', width.mskh site ra rb = some (fi', mskHigh (8 * width.bytes) ra rb) := by
  cases width <;> exact quiet.iewWord _

theorem extl_quiet (quiet : site.NothingDue) :
    ∃ fi', width.extl site ra rb = some (fi', extLow width.cut ra rb) := by
  cases width <;> exact quiet.iewWord _

theorem exth_quiet (quiet : site.NothingDue) :
    ∃ fi', width.exth site ra rb = some (fi', extHigh width.cut ra rb) := by
  cases width <;> exact quiet.iewWord _

theorem insl_quiet (quiet : site.NothingDue) :
    ∃ fi', width.insl site ra rb = some (fi', insLow width.cut ra rb) := by
  cases width <;> exact quiet.iewWord _

theorem insh_quiet (quiet : site.NothingDue) :
    ∃ fi', width.insh site ra rb = some (fi', insHigh width.cut ra rb) := by
  cases width <;> exact quiet.iewWord _

end Results

section SingleBits

variable (width : Width) (ra rb : Word) {i : Nat}

theorem bv_eq : bv rb = rb.toNat % 8 := by
  rw [bv, bits_toNat rb 2 0 (by omega) (by omega)]
  omega

theorem shift_toNat : (shift rb).toNat = 8 * bv rb := by
  have small := bv_eq rb
  unfold shift
  unfold bv at small ⊢
  rw [BitVec.toNat_mul]
  show (bits rb 2 0).toNat * 8 % 2 ^ 64 = _
  omega

theorem highShift_toNat : (bits (64 - shift rb) 5 0).toNat = (64 - 8 * bv rb) % 64 := by
  have small := bv_eq rb
  have count := shift_toNat rb
  rw [bits_toNat _ 5 0 (by omega) (by omega), BitVec.toNat_sub, count]
  show (2 ^ 64 - 8 * bv rb + 64) % 2 ^ 64 / 2 ^ 0 % 2 ^ 6 = _
  omega

theorem cut_getLsbD (x : Word) (i : Nat) :
    (width.cut x).getLsbD i = (decide (i < 8 * width.bytes) && x.getLsbD i) := by
  cases width with
  | word => exact (bits_getLsbD x 15 0 i (by omega)).trans (by rw [Nat.zero_add]; rfl)
  | longword => exact (bits_getLsbD x 31 0 i (by omega)).trans (by rw [Nat.zero_add]; rfl)
  | quadword =>
      by_cases inside : i < 64
      · have below : i < 8 * Width.quadword.bytes := inside
        simp [Width.cut, below]
      · simp [Width.cut, BitVec.getLsbD_of_ge x i (by omega)]

theorem decide_le_eq (k i : Nat) : decide (k ≤ i) = !decide (i < k) := by
  rw [← decide_not]
  simp only [Nat.not_lt]

theorem bytes_le : width.bytes ≤ 8 := by
  cases width <;> decide

theorem extLow_bit : (extLow width.cut ra rb).getLsbD i =
    (decide (i < 8 * width.bytes) && ra.getLsbD (8 * bv rb + i)) := by
  rw [extLow, cut_getLsbD, BitVec.ushiftRight_eq', shift_toNat, BitVec.getLsbD_ushiftRight]

theorem extHigh_bit (inside : i < 64) : (extHigh width.cut ra rb).getLsbD i =
    (decide (i < 8 * width.bytes) && (decide ((64 - 8 * bv rb) % 64 ≤ i) &&
      ra.getLsbD (i - (64 - 8 * bv rb) % 64))) := by
  rw [extHigh, cut_getLsbD, BitVec.shiftLeft_eq', highShift_toNat, BitVec.getLsbD_shiftLeft,
    decide_le_eq]
  simp [inside]

theorem mskLow_bit (inside : i < 64) : (mskLow (8 * width.bytes) ra rb).getLsbD i =
    (ra.getLsbD i && !(decide (8 * bv rb ≤ i) && decide (i - 8 * bv rb < 8 * width.bytes))) := by
  have fits : 8 * width.bytes ≤ 64 := Nat.mul_le_mul_left 8 (bytes_le width)
  rw [mskLow, BitVec.getLsbD_and, BitVec.getLsbD_not, BitVec.shiftLeft_eq', shift_toNat,
    BitVec.getLsbD_shiftLeft, mask_getLsbD fits, decide_le_eq]
  simp [inside]

theorem mskHigh_bit (inside : i < 64) : (mskHigh (8 * width.bytes) ra rb).getLsbD i =
    (ra.getLsbD i && !decide (64 - 8 * bv rb + i < 8 * width.bytes)) := by
  have fits : 8 * width.bytes ≤ 64 := Nat.mul_le_mul_left 8 (bytes_le width)
  unfold mskHigh
  by_cases aligned : bv rb = 0
  · have none : ¬ 64 - 8 * bv rb + i < 8 * width.bytes := by omega
    simp [aligned] at none ⊢
    omega
  · rw [if_pos aligned, BitVec.getLsbD_and, BitVec.getLsbD_not, BitVec.getLsbD_ushiftRight,
      mask_getLsbD fits]
    simp [inside]

theorem insLow_bit (inside : i < 64) : (insLow width.cut ra rb).getLsbD i =
    (decide (8 * bv rb ≤ i) && (decide (i - 8 * bv rb < 8 * width.bytes) &&
      ra.getLsbD (i - 8 * bv rb))) := by
  rw [insLow, BitVec.shiftLeft_eq', shift_toNat, BitVec.getLsbD_shiftLeft, cut_getLsbD,
    decide_le_eq]
  simp [inside]

theorem insHigh_bit : (insHigh width.cut ra rb).getLsbD i =
    (decide (64 - 8 * bv rb + i < 8 * width.bytes) && ra.getLsbD (64 - 8 * bv rb + i)) := by
  unfold insHigh
  by_cases aligned : bv rb = 0
  · simp [aligned]
  · rw [if_pos aligned, BitVec.getLsbD_ushiftRight, cut_getLsbD]

end SingleBits

end GemFi.ByteManipulation
