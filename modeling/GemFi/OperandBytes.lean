import GemFi.Corruption

/-!
An operand and the list of its bytes. The byte loops of fi/faultq.hh take the
operand apart through a pointer to unsigned char; here each of them becomes an
operation on the operand as a whole, at every operand size.
-/

namespace GemFi.OperandBytes

open ThreadInfo FaultQueue Corruption

variable {size : Nat}

theorem length_bytesOf (size : Nat) (x : BitVec (8 * size)) : (bytesOf size x).length = size := by
  simp [bytesOf]

theorem getElem_bytesOf (x : BitVec (8 * size)) (i : Nat) (inside : i < (bytesOf size x).length) :
    (bytesOf size x)[i] = x.extractLsb' (8 * i) 8 := by
  simp [bytesOf]

theorem foldr_bytes (size value : Nat) :
    (List.ofFn fun i : Fin size => BitVec.ofNat 8 (value >>> (8 * i.val))).foldr
      (fun byte rest => byte.toNat + 256 * rest) 0 = value % 2 ^ (8 * size) := by
  induction size generalizing value with
  | zero => simp [Nat.mod_one]
  | succ size ih =>
      have shifted : (fun i : Fin size => BitVec.ofNat 8 (value >>> (8 * i.succ.val))) =
          fun i : Fin size => BitVec.ofNat 8 ((value >>> 8) >>> (8 * i.val)) := by
        funext i
        rw [← Nat.shiftRight_add, Fin.val_succ, Nat.mul_succ, Nat.add_comm 8]
      rw [List.ofFn_succ, List.foldr_cons, shifted, ih (value >>> 8), Nat.shiftRight_eq_div_pow]
      have parts : 2 ^ (8 * (size + 1)) = 256 * 2 ^ (8 * size) := by
        rw [Nat.mul_succ, Nat.pow_add, Nat.mul_comm]
      rw [parts, Nat.mod_mul, Nat.shiftRight_eq_div_pow]
      simp

theorem ofBytes_bytesOf (size : Nat) (x : BitVec (8 * size)) :
    ofBytes size (bytesOf size x) = x := by
  have bytes : bytesOf size x =
      List.ofFn fun i : Fin size => BitVec.ofNat 8 (x.toNat >>> (8 * i.val)) := rfl
  unfold ofBytes
  rw [bytes, foldr_bytes]
  apply BitVec.eq_of_toNat_eq
  rw [BitVec.toNat_ofNat, Nat.mod_mod, Nat.mod_eq_of_lt x.isLt]

theorem foldr_testBit (bytes : List Byte) (i : Nat) :
    (bytes.foldr (fun (byte : Byte) rest => byte.toNat + 256 * rest) 0).testBit i =
      (bytes.getD (i / 8) 0).getLsbD (i % 8) := by
  induction bytes generalizing i with
  | nil => simp
  | cons byte bytes ih =>
      rw [List.foldr_cons, Nat.add_comm, Nat.testBit_two_pow_mul_add _ byte.isLt]
      by_cases first : i < 8
      · rw [if_pos first, Nat.div_eq_of_lt first, Nat.mod_eq_of_lt first]
        rfl
      · have place : i / 8 = (i - 8) / 8 + 1 := by omega
        have offset : i % 8 = (i - 8) % 8 := by omega
        rw [if_neg first, ih, place, offset]
        rfl

theorem ofBytes_getLsbD (bytes : List Byte) {i : Nat} (inside : i < 8 * size) :
    (ofBytes size bytes).getLsbD i = (bytes.getD (i / 8) 0).getLsbD (i % 8) := by
  rw [ofBytes, BitVec.getLsbD_ofNat, foldr_testBit]
  simp [inside]

theorem bytesOf_xor (x y : BitVec (8 * size)) :
    List.zipWith (· ^^^ ·) (bytesOf size x) (bytesOf size y) = bytesOf size (x ^^^ y) := by
  apply List.ext_getElem
  · simp [length_bytesOf]
  · intro i before after
    rw [List.getElem_zipWith, getElem_bytesOf, getElem_bytesOf, getElem_bytesOf,
      BitVec.extractLsb'_xor]

/-- The bytes of the fault's value that the loops of an operand meet are those of
its upper end. -/
theorem topBytes_eq (fits : size ≤ 8) (out : Word) :
    topBytes size out = bytesOf size ((out >>> (64 - 8 * size)).setWidth (8 * size)) := by
  apply List.ext_getElem
  · simp only [topBytes, List.length_drop, length_bytesOf]
    omega
  · intro i before after
    have inside : i < size := by simpa [length_bytesOf] using after
    simp only [topBytes, List.getElem_drop, getElem_bytesOf]
    ext j small
    have low : 8 * i + j < 8 * size := by omega
    have place : 8 * (8 - size + i) + j = 64 - 8 * size + (8 * i + j) := by omega
    simp [low, place]

theorem bytesOf_modify (x : BitVec (8 * size)) (index bit : Nat) (small : bit < 8) :
    (bytesOf size x).modify index (· ^^^ (1 <<< bit)) =
      bytesOf size (x ^^^ BitVec.twoPow (8 * size) (8 * index + bit)) := by
  apply List.ext_getElem
  · simp [length_bytesOf]
  · intro i before after
    have inside : i < size := by simpa [length_bytesOf] using after
    rw [List.getElem_modify, getElem_bytesOf, getElem_bytesOf, BitVec.extractLsb'_xor]
    have byte : (BitVec.twoPow (8 * size) (8 * index + bit)).extractLsb' (8 * i) 8 =
        if index = i then BitVec.twoPow 8 bit else 0 := by
      ext j low
      have position : 8 * i + j < 8 * size := by omega
      by_cases here : index = i
      · subst here
        simp [position, eq_comm]
      · have apart : 8 * i + j ≠ 8 * index + bit := by omega
        simp [position, apart, here]
    rw [byte]
    by_cases here : index = i
    · rw [if_pos here, if_pos here, BitVec.twoPow_eq]
      rfl
    · rw [if_neg here, if_neg here]
      simp

end GemFi.OperandBytes
