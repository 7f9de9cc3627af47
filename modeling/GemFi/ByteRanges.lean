import Mathlib.Data.BitVec

/-!
Ranges of bytes in a wrapping address space: `size` bytes from an address on, where the
address after the last is the first. A range that fits does not wrap, and is an interval.
-/

namespace GemFi.ByteRanges

variable {w : Nat}

def Within (addr : BitVec w) (size : Nat) (a : BitVec w) : Prop :=
  -- the address `a` is one of the `size` bytes from `addr` on
  ∃ k < size, a = addr + BitVec.ofNat w k

/-- The range ends at or before the top of the address space. -/
def Fits (addr : BitVec w) (size : Nat) : Prop := addr.toNat + size ≤ 2 ^ w

instance (addr : BitVec w) (size : Nat) : Decidable (Fits addr size) :=
  inferInstanceAs (Decidable (_ ≤ _))

def Overlap (addr : BitVec w) (size : Nat) (addr' : BitVec w) (size' : Nat) : Prop :=
  ∃ a, Within addr size a ∧ Within addr' size' a

variable {addr addr' a : BitVec w} {size size' k : Nat}

theorem toNat_add_of_fits (fits : Fits addr size) (inside : k < size) :
    (addr + BitVec.ofNat w k).toNat = addr.toNat + k := by
  have bound : addr.toNat + k < 2 ^ w := Nat.lt_of_lt_of_le (Nat.add_lt_add_left inside _) fits
  rw [BitVec.toNat_add, BitVec.toNat_ofNat, Nat.add_mod_mod, Nat.mod_eq_of_lt bound]

theorem within_iff (fits : Fits addr size) :
    Within addr size a ↔ addr.toNat ≤ a.toNat ∧ a.toNat < addr.toNat + size := by
  constructor
  · rintro ⟨k, inside, rfl⟩
    rw [toNat_add_of_fits fits inside]
    omega
  · rintro ⟨after, before⟩
    refine ⟨a.toNat - addr.toNat, by omega, ?_⟩
    apply BitVec.eq_of_toNat_eq
    rw [toNat_add_of_fits fits (by omega)]
    omega

theorem within_start (nonempty : 0 < size) : Within addr size addr := ⟨0, nonempty, by simp⟩

theorem overlap_iff (fits : Fits addr size) (fits' : Fits addr' size') (nonempty : 0 < size)
    (nonempty' : 0 < size') :
    Overlap addr size addr' size' ↔
      addr.toNat < addr'.toNat + size' ∧ addr'.toNat < addr.toNat + size := by
  constructor
  · rintro ⟨a, first, second⟩
    rw [within_iff fits] at first
    rw [within_iff fits'] at second
    omega
  · rintro ⟨before, after⟩
    -- the later of the two starts lies in both
    rcases Nat.le_total addr.toNat addr'.toNat with earlier | later
    · exact ⟨addr', (within_iff fits).mpr ⟨earlier, after⟩, within_start nonempty'⟩
    · exact ⟨addr, within_start nonempty, (within_iff fits').mpr ⟨later, before⟩⟩

/-- The last byte of a range that fits. -/
theorem toNat_last (fits : Fits addr size) (nonempty : 0 < size) :
    (addr + BitVec.ofNat w size - 1).toNat = addr.toNat + size - 1 := by
  have split : addr + BitVec.ofNat w size - 1 = addr + BitVec.ofNat w (size - 1) := by
    have one : size = size - 1 + 1 := by omega
    rw [one, BitVec.ofNat_add, ← BitVec.add_assoc]
    simp
  rw [split, toNat_add_of_fits fits (by omega)]
  omega

theorem within_subset_iff (fits : Fits addr size) (fits' : Fits addr' size') (nonempty : 0 < size)
    (nonempty' : 0 < size') :
    (∀ a, Within addr size a → Within addr' size' a) ↔
      addr' ≤ addr ∧ addr + BitVec.ofNat w size - 1 ≤ addr' + BitVec.ofNat w size' - 1 := by
  rw [BitVec.le_def, BitVec.le_def, toNat_last fits nonempty, toNat_last fits' nonempty']
  constructor
  · intro subset
    have first := (within_iff fits').mp (subset addr (within_start nonempty))
    have last := (within_iff fits').mp (subset _ ⟨size - 1, by omega, rfl⟩)
    rw [toNat_add_of_fits fits (by omega)] at last
    omega
  · intro bounds a
    rw [within_iff fits, within_iff fits']
    omega

theorem overlap_iff_last (fits : Fits addr size) (fits' : Fits addr' size') (nonempty : 0 < size)
    (nonempty' : 0 < size') :
    Overlap addr size addr' size' ↔
      addr ≤ addr' + BitVec.ofNat w size' - 1 ∧ addr' ≤ addr + BitVec.ofNat w size - 1 := by
  rw [overlap_iff fits fits' nonempty nonempty', BitVec.le_def, BitVec.le_def, toNat_last fits nonempty,
    toNat_last fits' nonempty']
  omega

theorem fits_of_aligned (aligned : addr &&& (BitVec.ofNat w size - 1) = 0) (small : size' ≤ size % 2 ^ w) :
    Fits addr size' := by
  have sum := BitVec.toNat_add_of_and_eq_zero aligned
  have below := (addr + (BitVec.ofNat w size - 1)).isLt
  have positive := Nat.two_pow_pos w
  rw [Fits]
  rcases Nat.eq_zero_or_pos (size % 2 ^ w) with none' | some'
  · have within := addr.isLt
    omega
  · have bound := Nat.mod_lt size positive
    have one : (1 : BitVec w).toNat = 1 := Nat.mod_eq_of_lt (Nat.lt_of_le_of_lt some' bound)
    have ordered : (1 : BitVec w) ≤ BitVec.ofNat w size := by
      rw [BitVec.le_def, one, BitVec.toNat_ofNat]
      exact some'
    rw [sum, BitVec.toNat_sub_of_le ordered, one, BitVec.toNat_ofNat] at below
    omega

theorem ushiftRight_mono (ordered : addr ≤ addr') (shift : Nat) : addr >>> shift ≤ addr' >>> shift := by
  rw [BitVec.le_def] at ordered ⊢
  rw [BitVec.toNat_ushiftRight, BitVec.toNat_ushiftRight, Nat.shiftRight_eq_div_pow,
    Nat.shiftRight_eq_div_pow]
  exact Nat.div_le_div_right ordered

end GemFi.ByteRanges
