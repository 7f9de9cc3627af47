import GemFi.ByteRanges
import GemFi.FunctionalPacket
import GemFi.Outcomes

/-!
A functional read that several values fill. The sizes of the two one-sided overlaps are one byte
too small, and a value that has all of the packet overwrites what was found before it; a read
that meets neither ends up with the byte of the first value that has it.
-/

namespace GemFi.FunctionalReads

open ByteRanges Outcomes FunctionalPacket

def Covers (pkt : Packet) (v : Value) (k : Nat) : Prop :=
  v.isSecure = pkt.isSecure ∧ v.data.isSome = true ∧
    Within v.addr v.size (pkt.addr + BitVec.ofNat 64 k)

instance (pkt : Packet) (v : Value) (k : Nat) : Decidable (Covers pkt v k) :=
  inferInstanceAs (Decidable (_ ∧ _ ∧ ∃ j < _, _))

def byteOf (pkt : Packet) (v : Value) (k : Nat) : Byte :=
  v.data.getD (fun _ => 0) (pkt.addr + BitVec.ofNat 64 k - v.addr).toNat

def expected (pkt : Packet) : List Value → Nat → Byte
  | [], k => pkt.data k
  | v :: rest, k => if Covers pkt v k then byteOf pkt v k else expected pkt rest k

def Supplied (pkt : Packet) (vs : List Value) (k : Nat) : Prop :=
  k < pkt.size ∧ ∃ v ∈ vs, Covers pkt v k

def Touches (pkt : Packet) (v : Value) : Prop := ∃ k < pkt.size, Covers pkt v k

def Whole (pkt : Packet) (v : Value) : Prop := ∀ k < pkt.size, Covers pkt v k

/-- The value does not reach out of the packet. -/
def Inside (pkt : Packet) (v : Value) : Prop :=
  pkt.addr.toNat ≤ v.addr.toNat ∧ v.addr.toNat + v.size ≤ pkt.addr.toNat + pkt.size

def LastOf (pkt : Packet) (v : Value) (k : Nat) : Prop :=
  k < pkt.size ∧ Covers pkt v k ∧ ¬ (k + 1 < pkt.size ∧ Covers pkt v (k + 1))

/-- The bytes that the values supply lie together. -/
def Contiguous (pkt : Packet) (vs : List Value) : Prop :=
  ∀ j k l, j ≤ k → k ≤ l → Supplied pkt vs j → Supplied pkt vs l → Supplied pkt vs k

/-- The value can be merged: none before it has all of the packet; it has all of the packet and
nothing came before; or it ends at an offset of 16 bits, and if it reaches out of the packet,
the last byte that it has is supplied already. A value that has none of the packet comes before
the read is done. -/
def Mergeable (pkt : Packet) (before : List Value) (v : Value) : Prop :=
  (Touches pkt v → (∀ u ∈ before, ¬ Whole pkt u) ∧
    ((Whole pkt v ∧ ∀ k, ¬ Supplied pkt before k) ∨
      ¬ Whole pkt v ∧ ∀ k, LastOf pkt v k →
        k + 1 < 2 ^ 16 ∧ (¬ Inside pkt v → Supplied pkt before k))) ∧
  (¬ Touches pkt v → ∃ k < pkt.size, ¬ Supplied pkt before k)

/-- A functional read as it sets out. -/
structure FreshRead (pkt : Packet) : Prop where
  isRead : pkt.isRead = true
  notPrint : pkt.isPrint = false
  nonempty : 0 < pkt.size
  fits : Fits pkt.addr pkt.size
  noneStart : pkt.bytesValidStart = 0
  noneEnd : pkt.bytesValidEnd = 0

structure WellFormed (v : Value) : Prop where
  -- a value is a range of bytes, and its size is an `int`
  nonempty : 0 < v.size
  int : v.size < 2 ^ 31
  fits : Fits v.addr v.size

section Bytes

variable {pkt : Packet} {v : Value} {vs : List Value} {k : Nat}

theorem covers_iff (fits : Fits pkt.addr pkt.size) (formed : WellFormed v) (inside : k < pkt.size) :
    Covers pkt v k ↔ v.isSecure = pkt.isSecure ∧ v.data.isSome = true ∧
      v.addr.toNat ≤ pkt.addr.toNat + k ∧ pkt.addr.toNat + k < v.addr.toNat + v.size := by
  rw [Covers, within_iff formed.fits, toNat_add_of_fits fits inside]

theorem supplied_append_iff :
    Supplied pkt (vs ++ [v]) k ↔ Supplied pkt vs k ∨ k < pkt.size ∧ Covers pkt v k := by
  simp only [Supplied, List.mem_append, List.mem_singleton, or_and_right, exists_or, exists_eq_left,
    and_or_left]

theorem expected_append (v : Value) (vs : List Value) (inside : k < pkt.size) :
    (Supplied pkt vs k → expected pkt (vs ++ [v]) k = expected pkt vs k) ∧
    (¬ Supplied pkt vs k → expected pkt (vs ++ [v]) k =
      if Covers pkt v k then byteOf pkt v k else pkt.data k) := by
  induction vs with
  | nil => exact ⟨fun ⟨_, _, member, _⟩ => absurd member List.not_mem_nil, fun _ => rfl⟩
  | cons first rest ih =>
      by_cases has : Covers pkt first k
      · have supplied : Supplied pkt (first :: rest) k := ⟨inside, first, List.mem_cons_self, has⟩
        refine ⟨fun _ => ?_, fun missing => absurd supplied missing⟩
        rw [List.cons_append, expected, expected, if_pos has, if_pos has]
      · have same : Supplied pkt (first :: rest) k ↔ Supplied pkt rest k := by
          simp [Supplied, has]
        rw [same, List.cons_append, expected, expected, if_neg has, if_neg has]
        exact ih

theorem expected_of_missing (missing : ¬ Supplied pkt vs k) (inside : k < pkt.size) :
    expected pkt vs k = pkt.data k := by
  induction vs with
  | nil => rfl
  | cons first rest ih =>
      have apart : ¬ Covers pkt first k := fun has => missing ⟨inside, first, List.mem_cons_self, has⟩
      rw [expected, if_neg apart]
      apply ih
      rintro ⟨_, u, member, has⟩
      exact missing ⟨inside, u, List.mem_cons_of_mem _ member, has⟩

end Bytes

section Shapes

variable {pkt : Packet} {v : Value}

theorem toNat_endOf {start : Addr} {size : Nat} (fits : Fits start size) (nonempty : 0 < size) :
    (endOf start size).toNat = start.toNat + size - 1 :=
  toNat_last fits nonempty

theorem toInt_of_lt {a : Addr} (small : a.toNat < 2 ^ 31) : toInt a = a.toNat := by
  rw [toInt, BitVec.toInt_eq_toNat_cond, BitVec.toNat_setWidth, Nat.mod_eq_of_lt (by omega),
    if_pos (by omega)]

theorem toInt_sub {a b : Addr} (ordered : b.toNat ≤ a.toNat) (small : a.toNat - b.toNat < 2 ^ 31) :
    toInt (a - b) = (a.toNat : Int) - b.toNat := by
  have difference := BitVec.toNat_sub_of_le (BitVec.le_def.mpr ordered)
  rw [toInt_of_lt (by rwa [difference]), difference]
  omega

theorem misses_eq_false_iff (fresh : FreshRead pkt) (formed : WellFormed v) :
    pkt.misses v = false ↔ v.isSecure = pkt.isSecure ∧
      v.addr.toNat < pkt.addr.toNat + pkt.size ∧ pkt.addr.toNat < v.addr.toNat + v.size := by
  have nonempty := fresh.nonempty
  have nonempty' := formed.nonempty
  rw [Packet.misses, Bool.or_eq_false_iff, Bool.or_eq_false_iff, bne_eq_false_iff_eq,
    decide_eq_false_iff_not, decide_eq_false_iff_not, BitVec.lt_def, BitVec.lt_def,
    toNat_endOf formed.fits nonempty', toNat_endOf fresh.fits nonempty, and_assoc]
  refine and_congr_right fun _ => ?_
  omega

theorem within_iff_whole (fresh : FreshRead pkt) (formed : WellFormed v)
    (data : v.data.isSome = true) (secure : v.isSecure = pkt.isSecure) :
    pkt.within v = true ↔ Whole pkt v := by
  have nonempty := fresh.nonempty
  have nonempty' := formed.nonempty
  rw [Packet.within, decide_eq_true_eq, BitVec.le_def, BitVec.le_def,
    toNat_endOf formed.fits nonempty', toNat_endOf fresh.fits nonempty]
  constructor
  · intro reaches k inside
    rw [covers_iff fresh.fits formed inside]
    exact ⟨secure, data, by omega, by omega⟩
  · intro whole
    have first := (covers_iff fresh.fits formed nonempty).mp (whole 0 nonempty)
    have last := (covers_iff fresh.fits formed (by omega)).mp (whole (pkt.size - 1) (by omega))
    omega

end Shapes

section Merge

variable {pkt : Packet} {v : Value} {f len : Nat}

theorem covers_iff_of_touches (fresh : FreshRead pkt) (formed : WellFormed v)
    (touches : Touches pkt v) {k : Nat} (within : k < pkt.size) :
    Covers pkt v k ↔
      v.addr.toNat ≤ pkt.addr.toNat + k ∧ pkt.addr.toNat + k < v.addr.toNat + v.size := by
  obtain ⟨j, inside, has⟩ := touches
  obtain ⟨secure, filled, _, _⟩ := (covers_iff fresh.fits formed inside).mp has
  rw [covers_iff fresh.fits formed within]
  simp [secure, filled]

theorem lastOf_iff_of_touches (fresh : FreshRead pkt) (formed : WellFormed v)
    (touches : Touches pkt v) {k : Nat} (within : k < pkt.size) :
    LastOf pkt v k ↔ (v.addr.toNat ≤ pkt.addr.toNat + k ∧
      pkt.addr.toNat + k < v.addr.toNat + v.size) ∧
      (k + 1 = pkt.size ∨ pkt.addr.toNat + k + 1 = v.addr.toNat + v.size) := by
  rw [LastOf, covers_iff_of_touches fresh formed touches within]
  by_cases more : k + 1 < pkt.size
  · rw [covers_iff_of_touches fresh formed touches more]
    omega
  · have top : k + 1 = pkt.size := by omega
    simp [top, within]

/-- The shared bytes, as the code computes them: all of those that the value has, less the last
one if the value reaches out of the packet. -/
theorem part_eq (fresh : FreshRead pkt) (formed : WellFormed v) (touches : Touches pkt v)
    (notWhole : ¬ Whole pkt v) (small : ∀ k, LastOf pkt v k → k + 1 < 2 ^ 16) :
    ∃ f g len : Nat, pkt.part v = .ok ⟨f, g, len⟩ ∧ pkt.addr.toNat + f = v.addr.toNat + g ∧
      f + len < 2 ^ 16 ∧ f + len ≤ pkt.size ∧
      (∀ k < pkt.size, Covers pkt v k ↔ (f ≤ k ∧ k < f + len) ∨ (LastOf pkt v k ∧ ¬ Inside pkt v)) ∧
      ∀ k < pkt.size, Covers pkt v k → f ≤ k ∧ k ≤ f + len := by
  have has_iff := fun k within => covers_iff_of_touches fresh formed touches (k := k) within
  have last_iff := fun k within => lastOf_iff_of_touches fresh formed touches (k := k) within
  obtain ⟨j, inside, has⟩ := touches
  have shared := (has_iff j inside).mp has
  have nonempty := fresh.nonempty
  have nonempty' := formed.nonempty
  have int := formed.int
  have notAll : ¬ (v.addr.toNat ≤ pkt.addr.toNat ∧
      pkt.addr.toNat + pkt.size ≤ v.addr.toNat + v.size) := by
    intro reaches
    exact notWhole fun k within => (has_iff k within).mpr (by omega)
  have valEnd := toNat_endOf formed.fits nonempty'
  have funcEnd := toNat_endOf fresh.fits nonempty
  rw [Packet.part]
  simp only [BitVec.lt_def, BitVec.le_def, Inside]
  by_cases low : v.addr.toNat < pkt.addr.toNat
  · -- the value begins before the packet, and ends in it
    have short := small (v.addr.toNat + v.size - 1 - pkt.addr.toNat)
      ((last_iff _ (by omega)).mpr (by omega))
    refine ⟨0, pkt.addr.toNat - v.addr.toNat, v.addr.toNat + v.size - 1 - pkt.addr.toNat, ?_, by omega,
      by omega, by omega, ?_, ?_⟩
    · rw [if_pos (by omega)]
      rw [toInt_sub (by omega) (by omega), toInt_sub (by omega) (by omega), valEnd]
      exact congrArg Except.ok (by congr <;> omega)
    · intro k within
      rw [has_iff k within, last_iff k within]
      omega
    · intro k within
      rw [has_iff k within]
      omega
  by_cases high : pkt.addr.toNat + pkt.size < v.addr.toNat + v.size
  · -- the value begins in the packet, and ends after it
    have short := small (pkt.size - 1) ((last_iff _ (by omega)).mpr (by omega))
    refine ⟨v.addr.toNat - pkt.addr.toNat, 0, pkt.addr.toNat + pkt.size - 1 - v.addr.toNat, ?_, by omega,
      by omega, by omega, ?_, ?_⟩
    · rw [if_neg (by omega), if_pos (by omega)]
      rw [toInt_sub (by omega) (by omega), toInt_sub (by omega) (by omega), funcEnd]
      exact congrArg Except.ok (by congr <;> omega)
    · intro k within
      rw [has_iff k within, last_iff k within]
      omega
    · intro k within
      rw [has_iff k within]
      omega
  · have short := small (v.addr.toNat + v.size - 1 - pkt.addr.toNat)
      ((last_iff _ (by omega)).mpr (by omega))
    refine ⟨v.addr.toNat - pkt.addr.toNat, 0, v.size, ?_, by omega, by omega, by omega, ?_, ?_⟩
    · rw [if_neg (by omega), if_neg (by omega), if_pos (by omega)]
      rw [toInt_sub (by omega) (by omega)]
      exact congrArg Except.ok (by congr; omega)
    · intro k within
      rw [has_iff k within, last_iff k within]
      omega
    · intro k within
      rw [has_iff k within]
      omega

theorem memcpy_at {dest src : Nat → Byte} {dest_at src_at size : Int} {k j : Nat}
    (hit : dest_at ≤ k ∧ k < dest_at + size) (place : src_at + (k - dest_at) = j) :
    memcpy dest dest_at src src_at size k = src j := by
  rw [memcpy, if_pos hit, place, Int.toNat_natCast]

theorem memcpy_off {dest src : Nat → Byte} {dest_at src_at size : Int} {k : Nat}
    (miss : ¬ (dest_at ≤ k ∧ k < dest_at + size)) :
    memcpy dest dest_at src src_at size k = dest k :=
  if_neg miss

theorem toUInt16_natCast {n : Nat} (small : n < 2 ^ 16) : toUInt16 n = n := by
  rw [toUInt16]
  omega

/-- Bytes that lie around or beside those found before are merged with them, and the bytes found
before stay. -/
theorem join_eq (g : Nat) (data : Nat → Byte) (found : pkt.bytesValidStart < pkt.bytesValidEnd)
    (bounded : f + len < 2 ^ 16) (starts : f ≤ pkt.bytesValidEnd) (ends : pkt.bytesValidStart ≤ f + len) :
    ∃ found' rest start' end', pkt.join ⟨f, g, len⟩ data = .ok
        ({ pkt with data := found', bytesValidStart := start', bytesValidEnd := end' }, rest) ∧
      start' = min pkt.bytesValidStart f ∧ end' = max pkt.bytesValidEnd (f + len) ∧
      ∀ k : Nat, memcpy found' rest.func_offset data rest.val_offset rest.overlap_size k =
        if (f ≤ k ∧ k < f + len) ∧ ¬ (pkt.bytesValidStart ≤ k ∧ k < pkt.bytesValidEnd) then
          data (g + (k - f)) else pkt.data k := by
  have shortF : toUInt16 f = f := toUInt16_natCast (by omega)
  have shortEnd : toUInt16 (pkt.bytesValidEnd + (f + len - pkt.bytesValidEnd)) = f + len := by
    have sum : (pkt.bytesValidEnd + (f + len - pkt.bytesValidEnd) : Int) = (f + len : Nat) := by omega
    rw [sum, toUInt16_natCast bounded]
  rw [Packet.join, if_neg (by omega)]
  simp only
  split
  · -- all of them were found before
    refine ⟨pkt.data, _, _, _, rfl, by omega, by omega, ?_⟩
    intro k
    rw [if_neg (by omega)]
    change memcpy pkt.data f data g 0 k = _
    exact memcpy_off (by omega)
  split
  · refine ⟨pkt.data, _, _, _, rfl, by omega, by omega, ?_⟩
    intro k
    change memcpy pkt.data f data g (pkt.bytesValidStart - f) k = _
    split
    · exact memcpy_at (by omega) (by omega)
    · exact memcpy_off (by omega)
  split
  · refine ⟨pkt.data, _, _, _, rfl, by omega, by omega, ?_⟩
    intro k
    change memcpy pkt.data pkt.bytesValidEnd data (g + (pkt.bytesValidEnd - f))
      (f + len - pkt.bytesValidEnd) k = _
    split
    · exact memcpy_at (by omega) (by omega)
    · exact memcpy_off (by omega)
  split
  · -- the bytes found before lie in the middle, and each side is copied alone
    refine ⟨_, _, _, _, rfl, by omega, by omega, ?_⟩
    intro k
    change memcpy (memcpy pkt.data f data g (pkt.bytesValidStart - f)) pkt.bytesValidEnd data
      (g + (pkt.bytesValidEnd - f)) (f + len - pkt.bytesValidEnd) k = _
    by_cases upper : pkt.bytesValidEnd ≤ k ∧ k < f + len
    · rw [if_pos (by omega)]
      exact memcpy_at (by omega) (by omega)
    · rw [memcpy_off (by omega)]
      split
      · exact memcpy_at (by omega) (by omega)
      · exact memcpy_off (by omega)
  · exfalso
    omega

end Merge

inductive Marks (pkt : Packet) (vs : List Value) (first last : Nat) : Prop where
  | none (isNone : first = 0 ∧ last = 0) (missing : ∀ k, ¬ Supplied pkt vs k)
  | whole (all : ∃ v ∈ vs, Whole pkt v)
  | some (found : first < last) (short : last < 2 ^ 16)
      (supplied : ∀ k, Supplied pkt vs k ↔ first ≤ k ∧ k < last)

def withFound (pkt : Packet) (data : Nat → Byte) (first last : Nat) : Packet :=
  { pkt with data := data, bytesValidStart := first, bytesValidEnd := last }

structure Assembled (pkt : Packet) (vs : List Value) (data : Nat → Byte) (first last : Nat) : Prop where
  data : ∀ k < pkt.size, data k = expected pkt vs k
  marks : Marks pkt vs first last

section Check

variable {pkt : Packet} {v : Value} {before : List Value} {found : Nat → Byte} {first last : Nat}

theorem assembled_fresh (fresh : FreshRead pkt) :
    Assembled pkt [] pkt.data pkt.bytesValidStart pkt.bytesValidEnd := by
  refine ⟨fun _ _ => rfl, .none ⟨fresh.noneStart, fresh.noneEnd⟩ ?_⟩
  intro k supplied
  exact absurd supplied.2 (by simp)

theorem apart_assembled (assembled : Assembled pkt before found first last) (apart : ¬ Touches pkt v) :
    Assembled pkt (before ++ [v]) found first last := by
  have same : ∀ k, Supplied pkt (before ++ [v]) k ↔ Supplied pkt before k := by
    intro k
    rw [supplied_append_iff]
    exact or_iff_left fun has => apart ⟨k, has⟩
  constructor
  · intro k inside
    obtain ⟨kept, added⟩ := expected_append v before inside
    by_cases supplied : Supplied pkt before k
    · rw [kept supplied]
      exact assembled.data k inside
    · rw [added supplied, if_neg fun has => apart ⟨k, inside, has⟩, assembled.data k inside]
      exact expected_of_missing supplied inside
  · cases assembled.marks with
    | none isNone missing => exact .none isNone fun k => (same k).not.mpr (missing k)
    | whole all =>
        obtain ⟨u, member, whole⟩ := all
        exact .whole ⟨u, List.mem_append_left _ member, whole⟩
    | some order short supplied =>
        exact .some order short fun k => (same k).trans (supplied k)

theorem byteOf_eq {data : Nat → Byte} {k : Nat} (fits : Fits pkt.addr pkt.size) (inside : k < pkt.size)
    (isData : v.data = some data) (starts : v.addr.toNat ≤ pkt.addr.toNat + k) :
    byteOf pkt v k = data (pkt.addr.toNat + k - v.addr.toNat) := by
  have address := toNat_add_of_fits fits inside
  rw [byteOf, isData, BitVec.toNat_sub_of_le (BitVec.le_def.mpr (by rwa [address])), address]
  rfl

theorem check_read {data : Nat → Byte} (fresh : FreshRead pkt) (hit : pkt.misses v = false)
    (isData : v.data = some data) :
    (withFound pkt found first last).checkFunctional v =
      if pkt.within v then .ok (true, withFound pkt
        (memcpy found 0 data (toInt (pkt.addr - v.addr)) pkt.size) first last, v)
      else ((withFound pkt found first last).readPart v data).map
        fun result => (result.1, result.2, v) := by
  have hit' : (withFound pkt found first last).misses v = false := hit
  have isRead : (withFound pkt found first last).isRead = true := fresh.isRead
  have notPrint : (withFound pkt found first last).isPrint = false := fresh.notPrint
  rw [Packet.checkFunctional, if_neg (Bool.eq_false_iff.mp hit'),
    if_neg (Bool.eq_false_iff.mp notPrint), isData]
  exact if_pos isRead

theorem whole_assembled (fresh : FreshRead pkt) (formed : WellFormed v) (whole : Whole pkt v)
    (none' : ∀ k, ¬ Supplied pkt before k) :
    ∃ found', (withFound pkt found first last).checkFunctional v =
        .ok (true, withFound pkt found' first last, v) ∧
      Assembled pkt (before ++ [v]) found' first last := by
  have atFirst := (covers_iff fresh.fits formed fresh.nonempty).mp (whole 0 fresh.nonempty)
  obtain ⟨secure, filled, startsBefore, endsAfter⟩ := atFirst
  obtain ⟨data, isData⟩ := Option.isSome_iff_exists.mp filled
  have nonempty := fresh.nonempty
  have int := formed.int
  have hit : pkt.misses v = false :=
    (misses_eq_false_iff fresh formed).mpr ⟨secure, by omega, by omega⟩
  have within : pkt.within v = true := (within_iff_whole fresh formed filled secure).mpr whole
  refine ⟨memcpy found 0 data (toInt (pkt.addr - v.addr)) pkt.size, ?_, ?_, ?_⟩
  · rw [check_read fresh hit isData]
    exact if_pos within
  · intro k inside
    obtain ⟨_, added⟩ := expected_append v before inside
    rw [added (none' k), if_pos (whole k inside), byteOf_eq fresh.fits inside isData (by omega)]
    refine memcpy_at (by omega) ?_
    rw [toInt_sub (by omega) (by omega)]
    omega
  · exact .whole ⟨v, List.mem_append_right _ (List.mem_singleton_self v), whole⟩

theorem readPart_eq {data found' : Nat → Byte} {o rest : Part} {first' last' : Nat}
    (partIs : pkt.part v = .ok o)
    (joined : (withFound pkt found first last).join o data = .ok (withFound pkt found' first' last', rest))
    (bounded : last' ≤ pkt.size) :
    (withFound pkt found first last).readPart v data = .ok (decide (first' = 0 ∧ last' = pkt.size),
      withFound pkt (memcpy found' rest.func_offset data rest.val_offset rest.overlap_size)
        first' last') := by
  have samePart : (withFound pkt found first last).part v = .ok o := partIs
  exact bind_eq_of_ok samePart (bind_eq_of_ok joined (if_pos bounded))

theorem merged_data {found' : Nat → Byte} {taken : Nat → Prop}
    (assembled : ∀ k < pkt.size, found k = expected pkt before k)
    (supplied_iff : ∀ k, Supplied pkt (before ++ [v]) k ↔ Supplied pkt before k ∨ taken k)
    (kept : ∀ k, Supplied pkt before k ∨ ¬ taken k → found' k = found k)
    (copied : ∀ k, ¬ Supplied pkt before k → taken k → found' k = byteOf pkt v k) :
    ∀ k < pkt.size, found' k = expected pkt (before ++ [v]) k := by
  intro k inside
  obtain ⟨stays, added⟩ := expected_append v before inside
  by_cases supplied : Supplied pkt before k
  · rw [stays supplied, kept k (Or.inl supplied)]
    exact assembled k inside
  · have takes : taken k ↔ Covers pkt v k := by
      have both := supplied_iff k
      rw [supplied_append_iff, or_iff_right supplied, or_iff_right supplied, and_iff_right inside] at both
      exact both.symm
    rw [added supplied]
    by_cases has : Covers pkt v k
    · rw [if_pos has]
      exact copied k supplied (takes.mpr has)
    · rw [if_neg has, kept k (Or.inr (takes.not.mpr has)), assembled k inside]
      exact expected_of_missing supplied inside

/-- The part of a value that is taken: where it stands in the packet and in the value, and what
it adds to the bytes that were supplied. -/
structure Takes (pkt : Packet) (before : List Value) (v : Value) (data : Nat → Byte)
    (f g len : Nat) : Prop where
  partIs : pkt.part v = .ok ⟨f, g, len⟩
  short : f + len < 2 ^ 16
  bounded : f + len ≤ pkt.size
  supplied_iff : ∀ k, Supplied pkt (before ++ [v]) k ↔ Supplied pkt before k ∨ (f ≤ k ∧ k < f + len)
  copied : ∀ k, f ≤ k ∧ k < f + len → data (g + (k - f)) = byteOf pkt v k

/-- What the check of a read returns: the packet with the bytes of this value, and whether it is
done. -/
def Merges (pkt : Packet) (before : List Value) (v : Value) (data found : Nat → Byte)
    (first last : Nat) : Prop :=
  ∃ returned found' first' last', (withFound pkt found first last).readPart v data =
      .ok (returned, withFound pkt found' first' last') ∧
    Assembled pkt (before ++ [v]) found' first' last' ∧
    (returned = true ↔ ∀ k < pkt.size, Supplied pkt (before ++ [v]) k)

section Takes

variable {data : Nat → Byte} {f g len j : Nat}

theorem done_iff (nonempty : 0 < pkt.size) (bounded : last ≤ pkt.size)
    (supplied : ∀ k, Supplied pkt before k ↔ first ≤ k ∧ k < last) :
    decide (first = 0 ∧ last = pkt.size) = true ↔ ∀ k < pkt.size, Supplied pkt before k := by
  rw [decide_eq_true_eq]
  constructor
  · rintro ⟨fromStart, toSize⟩ k inside
    exact (supplied k).mpr (by omega)
  · intro all
    have bottom := (supplied 0).mp (all 0 nonempty)
    have top := (supplied (pkt.size - 1)).mp (all _ (by omega))
    omega

/-- The first bytes that are found. -/
theorem Takes.alone (takes : Takes pkt before v data f g len) (nonempty : 0 < pkt.size)
    (assembled : ∀ k < pkt.size, found k = expected pkt before k)
    (missing : ∀ k, ¬ Supplied pkt before k) (some' : Supplied pkt (before ++ [v]) j) :
    Merges pkt before v data found 0 0 := by
  have short := takes.short
  have taken : ∀ k, Supplied pkt (before ++ [v]) k ↔ f ≤ k ∧ k < f + len := by
    intro k
    rw [takes.supplied_iff, or_iff_right (missing k)]
  have ordered := (taken j).mp some'
  have joined : (withFound pkt found 0 0).join ⟨f, g, len⟩ data =
      .ok (withFound pkt found f (f + len), ⟨f, g, len⟩) := by
    have ends : toUInt16 ((f : Int) + len) = f + len := toUInt16_natCast short
    rw [Packet.join, if_pos ⟨rfl, rfl⟩, ends, toUInt16_natCast (by omega)]
    rfl
  refine ⟨_, _, f, f + len, readPart_eq takes.partIs joined takes.bounded, ⟨?_, ?_⟩,
    done_iff nonempty takes.bounded taken⟩
  · refine merged_data assembled takes.supplied_iff ?_ ?_
    · intro k apart
      have outside := apart.resolve_left (missing k)
      change memcpy found f data g len k = found k
      exact memcpy_off (by omega)
    · intro k _ isTaken
      rw [← takes.copied k isTaken]
      change memcpy found f data g len k = _
      exact memcpy_at (by omega) (by omega)
  · exact .some (by omega) short taken

/-- Bytes that are found beside or around those found before. -/
theorem Takes.joined (takes : Takes pkt before v data f g len) (nonempty : 0 < pkt.size)
    (assembled : ∀ k < pkt.size, found k = expected pkt before k)
    (order : first < last) (within : last < 2 ^ 16)
    (supplied : ∀ k, Supplied pkt before k ↔ first ≤ k ∧ k < last)
    (contiguous : Contiguous pkt (before ++ [v])) (isNew : Supplied pkt (before ++ [v]) j)
    (spans : f ≤ j ∧ j ≤ f + len) :
    Merges pkt before v data found first last := by
  have short := takes.short
  have bounded := takes.bounded
  have firstIs : Supplied pkt (before ++ [v]) first :=
    (takes.supplied_iff first).mpr (Or.inl ((supplied first).mpr (by omega)))
  have lastInside := ((supplied (last - 1)).mpr (by omega)).1
  -- a gap between the two would be a byte that is not supplied
  have starts : f ≤ last := by
    by_contra gap
    have bridged := (takes.supplied_iff last).mp
      (contiguous first last j (by omega) (by omega) firstIs isNew)
    rw [supplied] at bridged
    omega
  have ends : first ≤ f + len := by
    by_contra gap
    have bridged := (takes.supplied_iff (f + len)).mp
      (contiguous j (f + len) first (by omega) (by omega) isNew firstIs)
    rw [supplied] at bridged
    omega
  have marked : (withFound pkt found first last).bytesValidStart <
    (withFound pkt found first last).bytesValidEnd := order
  obtain ⟨merged, rest, first', last', joins, isFirst, isLast, final⟩ :=
    join_eq g data marked short starts ends
  change first' = min first f at isFirst
  change last' = max last (f + len) at isLast
  have supplied' : ∀ k, Supplied pkt (before ++ [v]) k ↔ first' ≤ k ∧ k < last' := by
    intro k
    rw [takes.supplied_iff, supplied]
    omega
  have bounded' : last' ≤ pkt.size := by omega
  refine ⟨_, _, first', last', readPart_eq takes.partIs joins bounded', ⟨?_, ?_⟩,
    done_iff nonempty bounded' supplied'⟩
  · refine merged_data assembled takes.supplied_iff ?_ ?_
    · intro k apart
      rw [supplied] at apart
      refine (final k).trans (if_neg ?_)
      rintro ⟨taken, missing⟩
      exact apart.elim missing fun outside => outside taken
    · intro k missing isTaken
      rw [← takes.copied k isTaken]
      rw [supplied] at missing
      exact (final k).trans (if_pos ⟨isTaken, missing⟩)
  · exact .some (by omega) (by omega) supplied'

end Takes

theorem part_assembled (fresh : FreshRead pkt) (formed : WellFormed v)
    (assembled : Assembled pkt before found first last) (touches : Touches pkt v)
    (contiguous : Contiguous pkt (before ++ [v])) (noneWhole : ∀ u ∈ before, ¬ Whole pkt u)
    (notWhole : ¬ Whole pkt v)
    (ends : ∀ k, LastOf pkt v k → k + 1 < 2 ^ 16 ∧ (¬ Inside pkt v → Supplied pkt before k)) :
    ∃ returned found' first' last', (withFound pkt found first last).checkFunctional v =
        .ok (returned, withFound pkt found' first' last', v) ∧
      Assembled pkt (before ++ [v]) found' first' last' ∧
      (returned = true ↔ ∀ k < pkt.size, Supplied pkt (before ++ [v]) k) := by
  obtain ⟨f, g, len, partIs, place, short, bounded, covered, spans⟩ :=
    part_eq fresh formed touches notWhole fun k isLast => (ends k isLast).1
  obtain ⟨j, inside, has⟩ := touches
  obtain ⟨secure, filled, startsBefore, endsAfter⟩ := (covers_iff fresh.fits formed inside).mp has
  obtain ⟨data, isData⟩ := Option.isSome_iff_exists.mp filled
  have hit : pkt.misses v = false :=
    (misses_eq_false_iff fresh formed).mpr ⟨secure, by omega, by omega⟩
  have within : ¬ pkt.within v = true := (within_iff_whole fresh formed filled secure).not.mpr notWhole
  have takes : Takes pkt before v data f g len := by
    refine ⟨partIs, short, bounded, ?_, ?_⟩
    · intro k
      rw [supplied_append_iff]
      constructor
      · rintro (old | ⟨within', new⟩)
        · exact Or.inl old
        · rcases (covered k within').mp new with taken | ⟨isLast, outside⟩
          · exact Or.inr taken
          · exact Or.inl ((ends k isLast).2 outside)
      · rintro (old | taken)
        · exact Or.inl old
        · exact Or.inr ⟨by omega, (covered k (by omega)).mpr (Or.inl taken)⟩
    · intro k taken
      rw [byteOf_eq fresh.fits (by omega) isData (by omega)]
      congr 1
      omega
  have isNew : Supplied pkt (before ++ [v]) j := supplied_append_iff.mpr (Or.inr ⟨inside, has⟩)
  have merges : Merges pkt before v data found first last := by
    cases assembled.marks with
    | none isNone missing =>
        obtain ⟨rfl, rfl⟩ := isNone
        exact takes.alone fresh.nonempty assembled.data missing isNew
    | whole all =>
        obtain ⟨u, member, whole⟩ := all
        exact absurd whole (noneWhole u member)
    | some order within' supplied =>
        exact takes.joined fresh.nonempty assembled.data order within' supplied contiguous isNew
          (spans j inside has)
  obtain ⟨returned, found', first', last', read, kept, done⟩ := merges
  refine ⟨returned, found', first', last', ?_, kept, done⟩
  rw [check_read fresh hit isData, if_neg within, read]
  rfl

end Check

/-- After the values before it, a value leaves each byte as the first that has it says, and the
read is done when all of them are supplied. -/
def ReadsNewest (pkt : Packet) (before : List Value) (v : Value) : Prop :=
  ∃ pkt' returned pkt'', pkt.checkAll before = .ok pkt' ∧
    pkt'.checkFunctional v = .ok (returned, pkt'', v) ∧
    (returned = true ↔ ∀ k < pkt.size, Supplied pkt (before ++ [v]) k) ∧
    ∀ k < pkt.size, pkt''.data k = expected pkt (before ++ [v]) k

section Runs

variable {pkt : Packet} {v : Value} {before vs : List Value} {found : Nat → Byte} {first last : Nat}

theorem check_apart (fresh : FreshRead pkt) (formed : WellFormed v) (apart : ¬ Touches pkt v) :
    (withFound pkt found first last).checkFunctional v =
      .ok (false, withFound pkt found first last, v) := by
  have notPrint : (withFound pkt found first last).isPrint = false := fresh.notPrint
  rw [Packet.checkFunctional]
  split
  · rfl
  next hit =>
    have hit' : pkt.misses v = false := Bool.eq_false_iff.mpr hit
    obtain ⟨secure, startsBefore, endsAfter⟩ := (misses_eq_false_iff fresh formed).mp hit'
    have nonempty := fresh.nonempty
    have nonempty' := formed.nonempty
    rw [if_neg (Bool.eq_false_iff.mp notPrint)]
    cases isData : v.data with
    | none => rfl
    | some data =>
        -- a value with data that the packet meets has one of its bytes
        have inside : v.addr.toNat - pkt.addr.toNat < pkt.size := by omega
        refine absurd ⟨v.addr.toNat - pkt.addr.toNat, inside, ?_⟩ apart
        exact (covers_iff fresh.fits formed inside).mpr ⟨secure, by rw [isData]; rfl, by omega, by omega⟩

theorem step_assembled (fresh : FreshRead pkt) (formed : WellFormed v)
    (assembled : Assembled pkt before found first last) (contiguous : Contiguous pkt (before ++ [v]))
    (mergeable : Mergeable pkt before v) :
    ∃ returned found' first' last', (withFound pkt found first last).checkFunctional v =
        .ok (returned, withFound pkt found' first' last', v) ∧
      Assembled pkt (before ++ [v]) found' first' last' ∧
      (returned = true ↔ ∀ k < pkt.size, Supplied pkt (before ++ [v]) k) := by
  by_cases touches : Touches pkt v
  · obtain ⟨noneWhole, ⟨whole, none'⟩ | ⟨notWhole, ends⟩⟩ := mergeable.1 touches
    · obtain ⟨found', checked, kept⟩ := whole_assembled fresh formed whole none'
      refine ⟨true, found', first, last, checked, kept, iff_of_true rfl ?_⟩
      intro k inside
      exact supplied_append_iff.mpr (Or.inr ⟨inside, whole k inside⟩)
    · exact part_assembled fresh formed assembled touches contiguous noneWhole notWhole ends
  · obtain ⟨k, inside, missing⟩ := mergeable.2 touches
    refine ⟨false, found, first, last, check_apart fresh formed touches,
      apart_assembled assembled touches, iff_of_false Bool.false_ne_true ?_⟩
    intro all
    rcases supplied_append_iff.mp (all k inside) with earlier | ⟨_, has⟩
    · exact missing earlier
    · exact touches ⟨k, inside, has⟩

theorem checkAll_assembled (fresh : FreshRead pkt) (formed : ∀ v ∈ vs, WellFormed v)
    (contiguous : ∀ before v after, vs = before ++ v :: after → Contiguous pkt (before ++ [v]))
    (mergeable : ∀ before v after, vs = before ++ v :: after → Mergeable pkt before v) :
    ∃ found first last, pkt.checkAll vs = .ok (withFound pkt found first last) ∧
      Assembled pkt vs found first last := by
  induction vs using List.reverseRecOn with
  | nil => exact ⟨_, _, _, rfl, assembled_fresh fresh⟩
  | append_singleton before v ih =>
      obtain ⟨found, first, last, checked, assembled⟩ := ih
        (fun u member => formed u (List.mem_append_left _ member))
        (fun earlier u later split => contiguous earlier u (later ++ [v]) (by rw [split]; simp))
        (fun earlier u later split => mergeable earlier u (later ++ [v]) (by rw [split]; simp))
      obtain ⟨returned, found', first', last', stepped, kept, _⟩ := step_assembled fresh
        (formed v (by simp)) assembled (contiguous before v [] rfl) (mergeable before v [] rfl)
      refine ⟨found', first', last', ?_, kept⟩
      rw [Packet.checkAll, List.foldlM_append]
      refine bind_eq_of_ok checked ?_
      rw [List.foldlM_cons, stepped]
      rfl

/-- A functional read that is checked against well-formed values, whose bytes lie together and
which can each be merged, ends up with the newest bytes. -/
theorem functional_reads_assemble (fresh : FreshRead pkt) (vs : List Value)
    (formed : ∀ v ∈ vs, WellFormed v)
    (contiguous : ∀ before v after, vs = before ++ v :: after → Contiguous pkt (before ++ [v]))
    (mergeable : ∀ before v after, vs = before ++ v :: after → Mergeable pkt before v) :
    ∀ before v after, vs = before ++ v :: after → ReadsNewest pkt before v := by
  rintro before v after rfl
  obtain ⟨found, first, last, checked, assembled⟩ := checkAll_assembled fresh
    (fun u member => formed u (List.mem_append_left _ member))
    (fun earlier u later split => contiguous earlier u (later ++ v :: after) (by rw [split]; simp))
    (fun earlier u later split => mergeable earlier u (later ++ v :: after) (by rw [split]; simp))
  obtain ⟨returned, found', first', last', stepped, kept, done⟩ := step_assembled fresh
    (formed v (by simp)) assembled (contiguous before v after rfl) (mergeable before v after rfl)
  exact ⟨_, returned, _, checked, stepped, done, kept.data⟩

end Runs

def readOf (addr : Addr) (size : Nat) : Packet where
  addr := addr
  isSecure := false
  size := size
  isPrint := false
  isRead := true
  isWrite := false
  data := fun _ => 0
  bytesValidStart := 0
  bytesValidEnd := 0

theorem readOf_fresh {addr : Addr} {size : Nat} (nonempty : 0 < size) (fits : Fits addr size) :
    FreshRead (readOf addr size) :=
  ⟨rfl, rfl, nonempty, fits, rfl, rfl⟩

def sevens (addr : Addr) (size : Nat) : Value := ⟨addr, false, size, some fun _ => 7⟩

theorem functional_reads_assemble_bytewise :
    ReadsNewest (readOf 256 2) [] (sevens 256 1) ∧
      ReadsNewest (readOf 256 2) [sevens 256 1] (sevens 257 1) := by
  have inside : ∀ v ∈ [sevens 256 1, sevens 257 1], Inside (readOf 256 2) v := by
    simp [Inside]
    decide
  have notWhole : ∀ v ∈ [sevens 256 1, sevens 257 1], ¬ Whole (readOf 256 2) v := by
    simp [Whole]
    decide
  have fresh : FreshRead (readOf 256 2) := readOf_fresh (by decide) (by decide)
  have reads := functional_reads_assemble fresh [sevens 256 1, sevens 257 1] ?_ ?_ ?_
  · exact ⟨reads [] _ [_] rfl, reads [_] _ [] rfl⟩
  · intro v member
    rcases List.mem_pair.mp member with rfl | rfl <;> exact ⟨by decide, by decide, by decide⟩
  · intro before v after _ j k l from' to' first last
    have size : (readOf 256 2).size = 2 := rfl
    rcases (by have := last.1; omega : k = j ∨ k = l) with rfl | rfl
    · exact first
    · exact last
  · intro before v after split
    have member : v ∈ [sevens 256 1, sevens 257 1] := by rw [split]; simp
    have touches : ∀ v ∈ [sevens 256 1, sevens 257 1], Touches (readOf 256 2) v := by
      simp [Touches]
      decide
    refine ⟨fun _ => ?_, fun apart => absurd (touches v member) apart⟩
    refine ⟨fun u isBefore => notWhole u (by rw [split]; simp [isBefore]), Or.inr ⟨notWhole v member, ?_⟩⟩
    intro k isLast
    have size : (readOf 256 2).size = 2 := rfl
    exact ⟨by have := isLast.1; omega, fun outside => absurd (inside v member) outside⟩

/-- A read of twelve bytes has seven of the eight bytes of the value. The last of them is not
copied. -/
theorem last_shared_byte_is_lost :
    FreshRead (readOf 257 12) ∧ WellFormed (sevens 256 8) ∧
      Contiguous (readOf 257 12) [sevens 256 8] ∧
      ¬ ReadsNewest (readOf 257 12) [] (sevens 256 8) := by
  refine ⟨readOf_fresh (by decide) (by decide), ⟨by decide, by decide, by decide⟩, ?_, ?_⟩
  · have shared : ∀ k < 12, Covers (readOf 257 12) (sevens 256 8) k ↔ k < 7 := by decide
    rintro j k l _ to' ⟨inside, v, member, has⟩ ⟨inside', v', member', has'⟩
    rw [List.mem_singleton.mp member] at has
    rw [List.mem_singleton.mp member'] at has'
    have last := (shared l inside').mp has'
    have within : k < 12 := by omega
    exact ⟨within, _, List.mem_singleton_self _, (shared k within).mpr (by omega)⟩
  · rintro ⟨pkt', returned, pkt'', set, checked, _, newest⟩
    cases set
    have kept : ((readOf 257 12).checkFunctional (sevens 256 8)).toOption.map
        (fun result => result.2.1.data 6) = some 0 := by decide
    rw [checked] at kept
    have kept6 : pkt''.data 6 = 0 := Option.some.inj kept
    have byte := newest 6 (by decide)
    rw [kept6] at byte
    revert byte
    decide

end GemFi.FunctionalReads
