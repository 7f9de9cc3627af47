import GemFi.OperandBytes

/-!
The four kinds of corruption at the unsigned operand types. `XOR` and `IMMD`
count the bytes of the operand and those of the 64-bit fault value down
together, each from its own last byte, so that on a little-endian host the upper
end of the value is what reaches a shorter operand. `FLIP` finds its byte
through a quotient that goes through an `int`.
-/

namespace GemFi.ByteLoops

open ThreadInfo FaultQueue Corruption OperandBytes

/-- The unsigned types `manifest` is instantiated at. -/
inductive UnsignedType where
  | uint8 | uint16 | uint32 | uint64
  deriving DecidableEq, Repr

/-- `sizeof`. -/
def UnsignedType.size : UnsignedType → Nat
  | .uint8 => 1
  | .uint16 => 2
  | .uint32 => 4
  | .uint64 => 8

def UnsignedType.bits (type : UnsignedType) : Nat := 8 * type.size

theorem UnsignedType.size_le (type : UnsignedType) : type.size ≤ 8 := by
  cases type <;> decide

def upperPart (size : Nat) (out : Word) : BitVec (8 * size) :=
  -- the part of a fault's value that an operand of `size` bytes meets
  (out >>> (64 - 8 * size)).setWidth (8 * size)

/-- The byte that `FLIP` looks for, before its sign is read: the lower half of a
quotient of up to 61 bits. -/
def quotientBits (out : Word) : Nat := (out.toNat - 1) / 8 % 2 ^ 32

section Loops

variable {size : Nat} (x : BitVec (8 * size)) (out : Word)

theorem manifest_mask (fits : size ≤ 8) :
    manifestWord size x out .mask = some (x ^^^ upperPart size out) := by
  have bytes : Corruption.xor (bytesOf size x) out = bytesOf size (x ^^^ upperPart size out) := by
    rw [Corruption.xor, length_bytesOf, topBytes_eq fits, bytesOf_xor]
    rfl
  simp only [manifestWord, manifest, bytes, Option.map_some, ofBytes_bytesOf]

theorem manifest_immediate (fits : size ≤ 8) :
    manifestWord size x out .immediate = some (upperPart size out) := by
  have bytes : immd (bytesOf size x) out = bytesOf size (upperPart size out) := by
    rw [immd, length_bytesOf, topBytes_eq fits]
    apply List.ext_getElem
    · simp [length_bytesOf]
    · intro i before after
      rw [List.getElem_zipWith]
      rfl
  simp only [manifestWord, manifest, bytes, Option.map_some, ofBytes_bytesOf]

theorem manifest_all_zero : manifestWord size x 0 .all = some 0 := by
  have bytes : (bytesOf size x).map (fun _ => (0x00 : Byte)) = bytesOf size 0 := by
    apply List.ext_getElem
    · simp [length_bytesOf]
    · intro i before after
      rw [List.getElem_map, getElem_bytesOf]
      simp
  have zeros : manifest (bytesOf size x) 0 .all = some (bytesOf size 0) := congrArg some bytes
  rw [manifestWord, zeros, Option.map_some, ofBytes_bytesOf]

theorem manifest_all_one : manifestWord size x 1 .all = some (BitVec.allOnes (8 * size)) := by
  have bytes : (bytesOf size x).map (fun _ => (0xFF : Byte)) =
      bytesOf size (BitVec.allOnes (8 * size)) := by
    apply List.ext_getElem
    · simp [length_bytesOf]
    · intro i before after
      have inside : i < size := by simpa [length_bytesOf] using after
      have ones : (0xFF : Byte) = BitVec.allOnes 8 := by decide
      rw [List.getElem_map, getElem_bytesOf, ones]
      ext j small
      have position : 8 * i + j < 8 * size := by omega
      rw [BitVec.getElem_allOnes, BitVec.getElem_extractLsb', BitVec.getLsbD_allOnes,
        decide_eq_true position]
  have ones : manifest (bytesOf size x) 1 .all =
      some (bytesOf size (BitVec.allOnes (8 * size))) := congrArg some bytes
  rw [manifestWord, ones, Option.map_some, ofBytes_bytesOf]

theorem toNat_pred (positive : out ≠ 0) : (out - 1).toNat = out.toNat - 1 := by
  have apart : out.toNat ≠ 0 := fun zero => positive (BitVec.eq_of_toNat_eq zero)
  have least : (1 : Word) ≤ out := BitVec.le_def.mpr (Nat.pos_of_ne_zero apart)
  rw [BitVec.toNat_sub_of_le least]
  rfl

theorem quotient_toInt (positive : out ≠ 0) :
    (((out - 1) / 8).setWidth 32).toInt =
      if quotientBits out < 2 ^ 31 then (quotientBits out : Int)
      else (quotientBits out : Int) - 2 ^ 32 := by
  have eight : (8 : Word).toNat = 8 := rfl
  have bits : (((out - 1) / 8).setWidth 32).toNat = quotientBits out := by
    rw [BitVec.toNat_setWidth, BitVec.toNat_udiv, toNat_pred out positive, eight, quotientBits]
  rw [BitVec.toInt_eq_toNat_cond, bits]
  split <;> split <;> omega

/-- Where `FLIP` changes a bit, where it leaves the operand alone, and where it
writes below the operand. -/
theorem flip_bytes (bytes : List Byte) (short : bytes.length ≤ 2 ^ 31) (positive : out ≠ 0) :
    Corruption.flip bytes out =
      if quotientBits out < bytes.length then
        some (bytes.modify (quotientBits out) (· ^^^ (1 <<< ((out.toNat - 1) % 8))))
      else if quotientBits out < 2 ^ 31 then some bytes
      else none := by
  have remainder : ((out - 1) % 8).toNat = (out.toNat - 1) % 8 := by
    rw [BitVec.toNat_umod, toNat_pred out positive]
    rfl
  unfold Corruption.flip
  rw [if_neg positive]
  simp only [quotient_toInt out positive, remainder]
  by_cases inside : quotientBits out < bytes.length
  · have low : quotientBits out < 2 ^ 31 := by omega
    rw [if_pos inside, if_pos low, if_neg (by omega), if_neg (by omega), Int.toNat_natCast]
  · rw [if_neg inside]
    by_cases low : quotientBits out < 2 ^ 31
    · rw [if_pos low, if_pos low, if_pos (by omega)]
    · have wrapped : quotientBits out < 2 ^ 32 := Nat.mod_lt _ (by decide)
      rw [if_neg low, if_neg low, if_neg (by omega), if_pos (by omega)]

theorem flip_eq (fits : size ≤ 8) (positive : out ≠ 0) :
    (Corruption.flip (bytesOf size x) out).map (ofBytes size) =
      if quotientBits out < size then
        some (x ^^^ BitVec.twoPow (8 * size) (8 * quotientBits out + (out.toNat - 1) % 8))
      else if quotientBits out < 2 ^ 31 then some x
      else none := by
  rw [flip_bytes out (bytesOf size x) (by rw [length_bytesOf]; omega) positive, length_bytesOf,
    bytesOf_modify _ _ _ (Nat.mod_lt _ (by decide))]
  split
  · rw [Option.map_some, ofBytes_bytesOf]
  · split
    · rw [Option.map_some, ofBytes_bytesOf]
    · rfl

end Loops

section Widths

structure WidthIndependent (type : UnsignedType) (x : BitVec (8 * type.size)) (m : Word) :
    Prop where
  mask : manifestWord type.size x m .mask = some (x ^^^ m.setWidth (8 * type.size))
  immediate : manifestWord type.size x m .immediate = some (m.setWidth (8 * type.size))
  zeros : manifestWord type.size x 0 .all = some 0
  ones : manifestWord type.size x 1 .all = some (BitVec.allOnes (8 * type.size))

theorem upperPart_eq (type : UnsignedType) (m : Word) (fits : m.toNat < 2 ^ type.bits) :
    upperPart type.size m =
      if type = .uint64 then m.setWidth (8 * type.size) else 0 := by
  cases type with
  | uint64 => rfl
  | uint8 | uint16 | uint32 =>
      rw [if_neg (by decide)]
      apply BitVec.eq_of_toNat_eq
      rw [upperPart, BitVec.toNat_setWidth, BitVec.toNat_ushiftRight, Nat.shiftRight_eq_div_pow,
        Nat.div_eq_of_lt (Nat.lt_of_lt_of_le fits (by decide))]
      rfl

theorem setWidth_zero_iff (type : UnsignedType) (m : Word) (fits : m.toNat < 2 ^ type.bits) :
    m.setWidth (8 * type.size) = 0 ↔ m = 0 := by
  have kept : (m.setWidth (8 * type.size)).toNat = m.toNat := by
    rw [BitVec.toNat_setWidth]
    exact Nat.mod_eq_of_lt fits
  rw [← BitVec.toNat_inj, ← BitVec.toNat_inj, kept]
  rfl

/-- Masks and immediate values work at 64 bits. At a shorter operand the bytes
that count are those above the operand's width, which are zero. -/
theorem corruption_width_independent_iff (type : UnsignedType) (x : BitVec (8 * type.size))
    (m : Word) (fits : m.toNat < 2 ^ type.bits) :
    WidthIndependent type x m ↔ type = .uint64 ∨ m = 0 := by
  have mask := manifest_mask x m type.size_le
  have immediate := manifest_immediate x m type.size_le
  rw [upperPart_eq type m fits] at mask immediate
  constructor
  · intro same
    by_cases wide : type = .uint64
    · exact Or.inl wide
    · right
      rw [same.immediate, if_neg wide, Option.some.injEq] at immediate
      exact (setWidth_zero_iff type m fits).mp immediate
  · intro works
    have reaches : (if type = .uint64 then m.setWidth (8 * type.size) else 0) =
        m.setWidth (8 * type.size) := by
      rcases works with wide | zero
      · rw [if_pos wide]
      · have nothing : (0 : Word).setWidth (8 * type.size) = 0 := BitVec.setWidth_zero _ _
        rw [zero, nothing, ite_self]
    rw [reaches] at mask immediate
    exact ⟨mask, immediate, manifest_all_zero x, manifest_all_one x⟩

theorem word_mask_width_independent : WidthIndependent .uint64 5 0xFF00 :=
  (corruption_width_independent_iff .uint64 5 0xFF00 (by decide)).mpr (Or.inl rfl)

/-- what=Immd:1 on a 32-bit operand stores zero. -/
theorem short_immediate_lost : ¬ ∀ type x m, m.toNat < 2 ^ UnsignedType.bits type →
    WidthIndependent type x m := by
  intro independent
  have stored := (independent .uint32 7 1 (by decide)).immediate
  revert stored
  decide

end Widths

section Flips

/-- Bit `v - 1` is changed where the operand has it, and no byte outside the
operand is written. -/
def FlipsAsNumbered (type : UnsignedType) (x : BitVec (8 * type.size)) (v : Word) : Prop :=
  (Corruption.flip (bytesOf type.size x) v).map (ofBytes type.size) =
    some (if 1 ≤ v.toNat ∧ v.toNat ≤ type.bits then
      x ^^^ BitVec.twoPow (8 * type.size) (v.toNat - 1) else x)

theorem xor_twoPow_ne {w : Nat} (x : BitVec w) (bit : Nat) (inside : bit < w) :
    x ^^^ BitVec.twoPow w bit ≠ x := by
  intro same
  have changed := congrArg (fun y => y.getLsbD bit) same
  simp [inside] at changed

/-- `FLIP` does as its number says unless the narrowed quotient of a larger
number comes out inside the operand, or negative. -/
theorem flip_as_numbered_iff (type : UnsignedType) (x : BitVec (8 * type.size)) (v : Word) :
    FlipsAsNumbered type x v ↔ v.toNat ≤ type.bits ∨
      (type.size ≤ quotientBits v ∧ quotientBits v < 2 ^ 31) := by
  unfold FlipsAsNumbered
  by_cases zero : v = 0
  · subst zero
    have kept : (Corruption.flip (bytesOf type.size x) 0).map (ofBytes type.size) = some x :=
      congrArg some (ofBytes_bytesOf type.size x)
    rw [kept]
    exact iff_of_true rfl (Or.inl (Nat.zero_le _))
  · have least : 1 ≤ v.toNat := by
      have apart : v.toNat ≠ 0 := fun none' => zero (BitVec.eq_of_toNat_eq none')
      omega
    have short := type.size_le
    have width : type.bits = 8 * type.size := rfl
    rw [flip_eq x v type.size_le zero]
    by_cases small : v.toNat ≤ type.bits
    · -- the quotient is small enough to survive the conversion
      have exact' : quotientBits v = (v.toNat - 1) / 8 := Nat.mod_eq_of_lt (by omega)
      have place : 8 * quotientBits v + (v.toNat - 1) % 8 = v.toNat - 1 := by omega
      rw [if_pos (by omega), if_pos ⟨least, small⟩, place]
      exact iff_of_true rfl (Or.inl small)
    · rw [if_neg (fun inside : 1 ≤ v.toNat ∧ v.toNat ≤ type.bits => small inside.2)]
      by_cases inside : quotientBits v < type.size
      · rw [if_pos inside]
        refine iff_of_false (fun same => ?_) (fun fine => ?_)
        · exact xor_twoPow_ne x _ (by omega) (Option.some.inj same)
        · omega
      · rw [if_neg inside]
        by_cases positive : quotientBits v < 2 ^ 31
        · rw [if_pos positive]
          exact iff_of_true rfl (Or.inr ⟨by omega, positive⟩)
        · rw [if_neg positive]
          refine iff_of_false (fun same => ?_) (fun fine => ?_)
          · cases same
          · omega

/-- what=Flip:34359738369 is far outside the word of a fetch fault, and its quotient is 2^32. -/
theorem wrapped_flip_hits : ¬ ∀ type x v, FlipsAsNumbered type x v := by
  intro numbered
  have kept := numbered .uint32 0 (2 ^ 35 + 1)
  revert kept
  unfold FlipsAsNumbered
  decide

end Flips

end GemFi.ByteLoops
