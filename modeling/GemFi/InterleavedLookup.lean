import GemFi.AddrRangeMap

/-!
Looking up one address in a map with interleaved ranges. The ranges of a group share their
start and are ordered by their match values, and the address is searched as a range with the
match value 0.
-/

namespace GemFi.InterleavedLookup

open Outcomes (Stop)
open AddrRangeMap BitFields SortedMaps

/-- `RangeSize`. -/
def rangeSize (start size : Addr) : AddrRange := rangeIn start (start + size - 1)

/-- `find`, for an address. -/
def findAddr {V : Type} (tree : RangeMap V) (a : Addr) : Except Stop Nat :=
  tree.find (rangeSize a 1)

/-- The stored ranges are plain ranges and complete groups, and no address is in two of them. -/
structure WellFormed {V : Type} (tree : RangeMap V) : Prop where
  ordered : ∀ entry ∈ tree.entries, entry.1.start ≤ entry.1.last
  plain : ∀ entry ∈ tree.entries, entry.1.interleaved = false → entry.1.intlvMatch = 0
  complete : ∀ entry ∈ tree.entries, entry.1.interleaved = true →
    ∀ value < 2 ^ entry.1.intlvBits.toNat, ∃ other ∈ tree.entries,
      entry.1.mergesWith other.1 = true ∧ other.1.intlvMatch.toNat = value
  disjoint : ∀ entry ∈ tree.entries, ∀ other ∈ tree.entries, ∀ a,
    entry.1.contains a = true → other.1.contains a = true → entry = other

/-- A search returns the entry whose range contains the address, or the end if there is none. -/
structure FindsExactly {V : Type} (tree : RangeMap V) (a : Addr) : Prop where
  contained : ∀ i entry, tree.entries[i]? = some entry → entry.1.contains a = true →
    findAddr tree a = .ok i
  absent : (∀ entry ∈ tree.entries, entry.1.contains a = false) →
    findAddr tree a = .ok tree.endIndex

section Addresses

variable {range other : AddrRange} {a : Addr}

theorem intersects_address (range : AddrRange) (a : Addr) :
    range.intersects (rangeSize a 1) = .ok (range.contains a) := by
  unfold AddrRange.intersects
  cases split : range.interleaved with
  | false =>
      have contained : range.contains a = decide (range.start ≤ a ∧ a ≤ range.last) := by
        rw [AddrRange.contains, split]
        exact Bool.and_true _
      have last : (rangeSize a 1).last = a := BitVec.add_sub_cancel a 1
      rw [contained, last]
      rfl
  | true =>
      have one : (rangeSize a 1).size = 1 := by simp [AddrRange.size, rangeSize, rangeIn]
      rw [one]
      rfl

theorem less_address_iff (range : AddrRange) (a : Addr) :
    (rangeSize a 1).less range = true ↔
      a.toNat < range.start.toNat ∨ a = range.start ∧ range.intlvMatch ≠ 0 := by
  have zero : (rangeSize a 1).intlvMatch.toNat = 0 := rfl
  rw [AddrRange.less_iff, zero, ne_eq, ← BitVec.toNat_inj, ← BitVec.toNat_inj,
    Nat.pos_iff_ne_zero]
  rfl

theorem mergesWith_iff : range.mergesWith other = true ↔
    other.start = range.start ∧ other.last = range.last ∧
      other.intlvHighBit = range.intlvHighBit ∧ other.intlvBits = range.intlvBits :=
  decide_eq_true_iff

theorem mergesWith_symm (merges : range.mergesWith other = true) : other.mergesWith range = true := by
  rw [mergesWith_iff] at merges ⊢
  exact ⟨merges.1.symm, merges.2.1.symm, merges.2.2.1.symm, merges.2.2.2.symm⟩

theorem mergesWith_trans {third : AddrRange} (first : range.mergesWith other = true)
    (second : other.mergesWith third = true) : range.mergesWith third = true := by
  rw [mergesWith_iff] at first second ⊢
  exact ⟨second.1.trans first.1, second.2.1.trans first.2.1, second.2.2.1.trans first.2.2.1,
    second.2.2.2.trans first.2.2.2⟩

theorem interleaved_of_mergesWith (merges : range.mergesWith other = true) :
    other.interleaved = range.interleaved := by
  rw [AddrRange.interleaved, AddrRange.interleaved, (mergesWith_iff.mp merges).2.2.2]

theorem stripe_lt (a : Addr) (high : Nat) {width : Nat} (some : width ≠ 0) :
    (bits a high (high + 1 - width)).toNat < 2 ^ width :=
  (bits_lt a high _).trans_le (Nat.pow_le_pow_right Nat.two_pos (by omega))

end Addresses

section Groups

variable {V : Type} {tree : RangeMap V} {entry other : AddrRange × V} {a : Addr}

theorem contains_iff (range : AddrRange) (a : Addr) :
    range.contains a = true ↔ (range.start ≤ a ∧ a ≤ range.last) ∧
      (range.interleaved = true →
        (bits a range.intlvHighBit.toNat
          (range.intlvHighBit.toNat + 1 - range.intlvBits.toNat)).toNat =
            range.intlvMatch.toNat) := by
  have wide : (range.intlvMatch.setWidth 64).toNat = range.intlvMatch.toNat := by
    rw [BitVec.toNat_setWidth]
    exact Nat.mod_eq_of_lt (range.intlvMatch.isLt.trans_le (by decide))
  rw [AddrRange.contains, Bool.and_eq_true, decide_eq_true_iff, Bool.or_eq_true, beq_iff_eq,
    ← BitVec.toNat_inj, wide]
  cases range.interleaved <;> simp

theorem exists_member (wellFormed : WellFormed tree) (stored : entry ∈ tree.entries)
    (inside : entry.1.start ≤ a ∧ a ≤ entry.1.last) :
    ∃ member ∈ tree.entries, member.1.contains a = true ∧
      (member = entry ∨ entry.1.interleaved = true ∧ entry.1.mergesWith member.1 = true) := by
  cases split : entry.1.interleaved with
  | false =>
      refine ⟨entry, stored, (contains_iff _ a).mpr ⟨inside, fun interleaved => ?_⟩, Or.inl rfl⟩
      rw [split] at interleaved
      cases interleaved
  | true =>
      have some : entry.1.intlvBits.toNat ≠ 0 := by
        have apart : entry.1.intlvBits ≠ 0 := bne_iff_ne.mp split
        exact fun none => apart (BitVec.eq_of_toNat_eq none)
      obtain ⟨member, isStored, merges, isMatch⟩ := wellFormed.complete entry stored split _
        (stripe_lt a entry.1.intlvHighBit.toNat some)
      refine ⟨member, isStored, (contains_iff _ a).mpr ⟨?_, fun _ => ?_⟩, Or.inr ⟨rfl, merges⟩⟩
      · obtain ⟨start, last, _⟩ := mergesWith_iff.mp merges
        rw [start, last]
        exact inside
      · obtain ⟨_, _, high, width⟩ := mergesWith_iff.mp merges
        rw [high, width]
        exact isMatch.symm

theorem merges_of_start_inside (wellFormed : WellFormed tree) (stored : entry ∈ tree.entries)
    (isOther : other ∈ tree.entries) (apart : other ≠ entry)
    (inside : entry.1.start ≤ other.1.start ∧ other.1.start ≤ entry.1.last) :
    other.1.interleaved = true ∧ entry.1.mergesWith other.1 = true := by
  obtain ⟨first, firstStored, firstHas, ofOther⟩ := exists_member wellFormed isOther
    ⟨BitVec.le_refl other.1.start, wellFormed.ordered other isOther⟩
  obtain ⟨second, secondStored, secondHas, ofEntry⟩ := exists_member wellFormed stored inside
  obtain rfl := wellFormed.disjoint first firstStored second secondStored _ firstHas secondHas
  obtain rfl | ⟨interleaved, merges⟩ := ofOther
  · obtain rfl | ⟨interleaved, merges⟩ := ofEntry
    · exact absurd rfl apart
    · rw [interleaved_of_mergesWith merges]
      exact ⟨interleaved, merges⟩
  · obtain rfl | ⟨_, merges'⟩ := ofEntry
    · exact ⟨interleaved, mergesWith_symm merges⟩
    · exact ⟨interleaved, mergesWith_trans merges' (mergesWith_symm merges)⟩

end Groups

section Searches

variable {V : Type} {tree : RangeMap V} {entry : AddrRange × V} {a : Addr} {i p : Nat}

theorem first_eq (found : tree.entries[i]? = some entry) : tree.first i = .ok entry.1 := by
  rw [RangeMap.first, found]

theorem check_eq (found : tree.entries[i]? = some entry) :
    tree.check (rangeSize a 1) i =
      .ok (if entry.1.contains a = true then i else tree.endIndex) := by
  rw [RangeMap.check, first_eq found]
  change (entry.1.intersects (rangeSize a 1) >>= fun hit => _) = _
  rw [intersects_address]
  rfl

theorem stepBack_succ {orig_range : AddrRange} {previous : AddrRange × V}
    (found : tree.entries[i + 1]? = some entry) (before : tree.entries[i]? = some previous) :
    tree.stepBack (rangeSize a 1) orig_range (i + 1) =
      if entry.1.mergesWith orig_range = true then
        if previous.1.contains a = true then .ok i
        else tree.stepBack (rangeSize a 1) orig_range i
      else tree.check (rangeSize a 1) (i + 1) := by
  rw [RangeMap.stepBack, first_eq found]
  change (if entry.1.mergesWith orig_range = true then _ else _) = _
  rw [first_eq before]
  change (if entry.1.mergesWith orig_range = true then
    (previous.1.intersects (rangeSize a 1) >>= fun hit => _) else _) = _
  rw [intersects_address]
  rfl

theorem stepBack_miss (orig_range : AddrRange) (inside : i < tree.entries.length)
    (misses : ∀ j entry, j ≤ i → tree.entries[j]? = some entry → entry.1.contains a = false) :
    tree.stepBack (rangeSize a 1) orig_range i = .ok tree.endIndex := by
  obtain ⟨entry, found⟩ : ∃ entry, tree.entries[i]? = some entry :=
    ⟨_, List.getElem?_eq_getElem inside⟩
  have miss : ¬entry.1.contains a = true := Bool.eq_false_iff.mp (misses i entry le_rfl found)
  induction i generalizing entry with
  | zero => rw [RangeMap.stepBack, check_eq found, if_neg miss]
  | succ i ih =>
      have inside' : i < tree.entries.length := (Nat.lt_succ_self i).trans inside
      obtain ⟨previous, before⟩ : ∃ previous, tree.entries[i]? = some previous :=
        ⟨_, List.getElem?_eq_getElem inside'⟩
      have missBefore : ¬previous.1.contains a = true :=
        Bool.eq_false_iff.mp (misses i previous (Nat.le_succ i) before)
      rw [stepBack_succ found before, if_neg missBefore, check_eq found, if_neg miss,
        ih inside' (fun j other below => misses j other (below.trans (Nat.le_succ i))) previous
          before missBefore, ite_self]

theorem stepBack_hit {orig_range : AddrRange} {target : AddrRange × V}
    (isTarget : tree.entries[p]? = some target) (hit : target.1.contains a = true) (behind : p < i)
    (inside : i < tree.entries.length)
    (between : ∀ j entry, p < j → j ≤ i → tree.entries[j]? = some entry →
      entry.1.contains a = false ∧ entry.1.mergesWith orig_range = true) :
    tree.stepBack (rangeSize a 1) orig_range i = .ok p := by
  induction i with
  | zero => exact absurd behind (Nat.not_lt_zero p)
  | succ i ih =>
      have inside' : i < tree.entries.length := (Nat.lt_succ_self i).trans inside
      obtain ⟨entry, found⟩ : ∃ entry, tree.entries[i + 1]? = some entry :=
        ⟨_, List.getElem?_eq_getElem inside⟩
      obtain ⟨previous, before⟩ : ∃ previous, tree.entries[i]? = some previous :=
        ⟨_, List.getElem?_eq_getElem inside'⟩
      rw [stepBack_succ found before, if_pos (between (i + 1) entry behind le_rfl found).2]
      by_cases here : p = i
      · subst here
        obtain rfl := Option.some.inj (isTarget.symm.trans before)
        rw [if_pos hit]
      · have below : p < i := lt_of_le_of_ne (Nat.lt_succ_iff.mp behind) here
        have miss := (between i previous below (Nat.le_succ i) before).1
        rw [if_neg (Bool.eq_false_iff.mp miss)]
        exact ih below inside' fun j other after upTo =>
          between j other after (upTo.trans (Nat.le_succ i))

theorem findAddr_zero (some : tree.entries ≠ []) (isFirst : tree.upper_bound (rangeSize a 1) = 0) :
    findAddr tree a = tree.check (rangeSize a 1) 0 := by
  rw [findAddr, RangeMap.find, if_neg (by simpa using some), isFirst]

theorem findAddr_succ (isBound : tree.upper_bound (rangeSize a 1) = i + 1)
    (found : tree.entries[i]? = some entry) :
    findAddr tree a =
      if entry.1.contains a = true then .ok i
      else if entry.1.interleaved = true then tree.stepBack (rangeSize a 1) entry.1 i
      else .ok tree.endIndex := by
  have some : tree.entries ≠ [] := List.ne_nil_of_mem (List.mem_of_getElem? found)
  rw [findAddr, RangeMap.find, if_neg (by simpa using some), isBound]
  dsimp only
  rw [first_eq found]
  change (entry.1.intersects (rangeSize a 1) >>= fun hit => _) = _
  rw [intersects_address]
  rfl

theorem upper_bound_le (tree : RangeMap V) (r : AddrRange) :
    tree.upper_bound r ≤ tree.entries.length :=
  (List.takeWhile_prefix _).length_le

theorem findAddr_miss (before : 0 < tree.upper_bound (rangeSize a 1) ∨
      ∀ entry, tree.entries[0]? = some entry → entry.1.contains a = false)
    (misses : ∀ j entry, j < tree.upper_bound (rangeSize a 1) → tree.entries[j]? = some entry →
      entry.1.contains a = false) : findAddr tree a = .ok tree.endIndex := by
  by_cases some : tree.entries = []
  · rw [findAddr, RangeMap.find, if_pos (by rw [some]; rfl)]
  · cases isBound : tree.upper_bound (rangeSize a 1) with
    | zero =>
        rw [isBound] at before
        obtain ⟨entry, found⟩ : ∃ entry, tree.entries[0]? = Option.some entry :=
          ⟨_, List.getElem?_eq_getElem (List.length_pos_iff.mpr some)⟩
        have miss := before.resolve_left (Nat.lt_irrefl 0) entry found
        rw [findAddr_zero some isBound, check_eq found, if_neg (Bool.eq_false_iff.mp miss)]
    | succ i =>
        have inside : i < tree.entries.length := by
          have bounded := upper_bound_le tree (rangeSize a 1)
          omega
        obtain ⟨entry, found⟩ : ∃ entry, tree.entries[i]? = Option.some entry :=
          ⟨_, List.getElem?_eq_getElem inside⟩
        have miss := misses i entry (by omega) found
        rw [findAddr_succ isBound found, if_neg (Bool.eq_false_iff.mp miss), ite_eq_right_iff]
        exact fun _ => stepBack_miss entry.1 inside fun j other upTo =>
          misses j other (by omega)

theorem not_less_iff_before (found : tree.entries[i]? = some entry) :
    i < tree.upper_bound (rangeSize a 1) ↔
      ¬(a.toNat < entry.1.start.toNat ∨ a = entry.1.start ∧ entry.1.intlvMatch ≠ 0) := by
  rw [← less_address_iff, Bool.not_eq_true]
  exact lt_upperBound_iff AddrRange.less_strictWeak
    (tree.ascending.sorted AddrRange.less_strictWeak) found

theorem less_of_lt {other : AddrRange × V} (found : tree.entries[i]? = some entry)
    (behind : tree.entries[p]? = some other) (ordered : i < p) : entry.1.less other.1 = true := by
  obtain ⟨inside, rfl⟩ := List.getElem?_eq_some_iff.mp found
  obtain ⟨inside', rfl⟩ := List.getElem?_eq_some_iff.mp behind
  exact List.pairwise_iff_getElem.mp tree.ascending i p inside inside' ordered

theorem ne_of_lt {other : AddrRange × V} (found : tree.entries[i]? = some entry)
    (behind : tree.entries[p]? = some other) (ordered : i < p) : other ≠ entry := by
  rintro rfl
  have loop := less_of_lt found behind ordered
  rw [AddrRange.less_strictWeak.irrefl] at loop
  cases loop

theorem between_merges (wellFormed : WellFormed tree) (found : tree.entries[p]? = some entry)
    (hit : entry.1.contains a = true) {other : AddrRange × V} (behind : p < i)
    (before : i < tree.upper_bound (rangeSize a 1)) (isOther : tree.entries[i]? = some other) :
    other.1.contains a = false ∧ other.1.interleaved = true ∧
      entry.1.mergesWith other.1 = true := by
  obtain ⟨⟨_, ends⟩, _⟩ := (contains_iff _ _).mp hit
  have stored := List.mem_of_getElem? found
  have otherStored := List.mem_of_getElem? isOther
  have apart := ne_of_lt found isOther behind
  refine ⟨Bool.eq_false_iff.mpr fun otherHit => ?_, ?_⟩
  · exact apart (wellFormed.disjoint other otherStored entry stored a otherHit hit)
  · have notAfter := (not_or.mp ((not_less_iff_before isOther).mp before)).1
    have starts := AddrRange.start_le_of_less (less_of_lt found isOther behind)
    refine merges_of_start_inside wellFormed stored otherStored apart ⟨starts, ?_⟩
    rw [BitVec.le_def] at ends ⊢
    omega

theorem findAddr_hit (wellFormed : WellFormed tree) (found : tree.entries[p]? = some entry)
    (hit : entry.1.contains a = true) (before : p < tree.upper_bound (rangeSize a 1)) :
    findAddr tree a = .ok p := by
  cases isBound : tree.upper_bound (rangeSize a 1) with
  | zero =>
      rw [isBound] at before
      exact absurd before (Nat.not_lt_zero p)
  | succ i =>
      have inside : i < tree.entries.length := by
        have bounded := upper_bound_le tree (rangeSize a 1)
        omega
      obtain ⟨last, isLast⟩ : ∃ last, tree.entries[i]? = some last :=
        ⟨_, List.getElem?_eq_getElem inside⟩
      rw [findAddr_succ isBound isLast]
      by_cases here : p = i
      · subst here
        obtain rfl := Option.some.inj (found.symm.trans isLast)
        rw [if_pos hit]
      · have behind : p < i := by omega
        have bound : i < tree.upper_bound (rangeSize a 1) := by omega
        obtain ⟨miss, interleaved, merges⟩ := between_merges wellFormed found hit behind bound isLast
        rw [if_neg (Bool.eq_false_iff.mp miss), if_pos interleaved]
        refine stepBack_hit found hit behind inside fun j other after upTo isOther => ?_
        obtain ⟨otherMiss, _, otherMerges⟩ :=
          between_merges wellFormed found hit after (by omega) isOther
        exact ⟨otherMiss, mergesWith_trans (mergesWith_symm otherMerges) merges⟩

theorem findAddr_beyond (wellFormed : WellFormed tree) (found : tree.entries[p]? = some entry)
    (hit : entry.1.contains a = true) (isStart : a = entry.1.start)
    (nonzero : entry.1.intlvMatch ≠ 0) : findAddr tree a = .ok tree.endIndex := by
  have stored := List.mem_of_getElem? found
  have beyond : ¬p < tree.upper_bound (rangeSize a 1) := fun before =>
    (not_less_iff_before found).mp before (Or.inr ⟨isStart, nonzero⟩)
  have interleaved : entry.1.interleaved = true := by
    rw [← Bool.not_eq_false]
    exact fun plain => nonzero (wellFormed.plain entry stored plain)
  -- the first range of the group is before that place
  obtain ⟨first, firstStored, merges, isZero⟩ :=
    wellFormed.complete entry stored interleaved 0 (Nat.two_pow_pos _)
  obtain ⟨j, isFirst⟩ := List.mem_iff_getElem?.mp firstStored
  have firstBefore : j < tree.upper_bound (rangeSize a 1) := by
    rw [not_less_iff_before isFirst, (mergesWith_iff.mp merges).1, ← isStart]
    rintro (less | ⟨_, nonzero'⟩)
    · exact Nat.lt_irrefl _ less
    · exact nonzero' (BitVec.eq_of_toNat_eq isZero)
  refine findAddr_miss (Or.inl (Nat.zero_lt_of_lt firstBefore)) fun i other before isOther => ?_
  rw [Bool.eq_false_iff]
  intro otherHit
  have same := wellFormed.disjoint other (List.mem_of_getElem? isOther) entry stored a otherHit hit
  exact ne_of_lt isOther found (before.trans_le (Nat.not_lt.mp beyond)) same.symm

end Searches

section Results

variable {V : Type}

/-- The search for an address is exact if and only if the address is not the start of an
interleaved range that contains it with a match value other than 0. -/
theorem findsExactly_iff (tree : RangeMap V) (wellFormed : WellFormed tree) (a : Addr) :
    FindsExactly tree a ↔ ¬∃ entry ∈ tree.entries, entry.1.contains a = true ∧
      a = entry.1.start ∧ entry.1.intlvMatch ≠ 0 := by
  constructor
  · rintro exactly ⟨entry, stored, hit, isStart, nonzero⟩
    obtain ⟨p, found⟩ := List.mem_iff_getElem?.mp stored
    have missed := findAddr_beyond wellFormed found hit isStart nonzero
    have same := (exactly.contained p entry found hit).symm.trans missed
    obtain ⟨inside, _⟩ := List.getElem?_eq_some_iff.mp found
    exact inside.ne (Except.ok.inj same)
  · intro condition
    refine ⟨fun i entry found hit => ?_, fun none => ?_⟩
    · obtain ⟨⟨starts, _⟩, _⟩ := (contains_iff _ _).mp hit
      refine findAddr_hit wellFormed found hit ((not_less_iff_before found).mpr ?_)
      rintro (less | ⟨isStart, nonzero⟩)
      · exact absurd starts (Nat.not_le.mpr less)
      · exact condition ⟨entry, List.mem_of_getElem? found, hit, isStart, nonzero⟩
    · refine findAddr_miss (Or.inr fun entry found => ?_) fun j entry _ found => ?_
      · exact none entry (List.mem_of_getElem? found)
      · exact none entry (List.mem_of_getElem? found)

def stripe (value : BitVec 8) : AddrRange := ⟨0x40, 0xbf, 6, 1, value⟩

def stripes : RangeMap Nat :=
  ⟨[(stripe 0, 0), (stripe 1, 1)], List.pairwise_pair.mpr rfl⟩

theorem stripes_wellFormed : WellFormed stripes := by
  have apart : ∀ a, (stripe 0).contains a = true → (stripe 1).contains a = true → False := by
    intro a first second
    have zero := ((contains_iff _ _).mp first).2 rfl
    have one := ((contains_iff _ _).mp second).2 rfl
    exact absurd (zero.symm.trans one) (by decide)
  refine ⟨?_, ?_, ?_, ?_⟩
  · decide
  · decide
  · decide
  · intro entry stored other otherStored a hit otherHit
    rcases List.mem_pair.mp stored with rfl | rfl <;> rcases List.mem_pair.mp otherStored with rfl | rfl
    · rfl
    · exact (apart a hit otherHit).elim
    · exact (apart a otherHit hit).elim
    · rfl

theorem stripes_find : WellFormed stripes ∧ FindsExactly stripes 0x80 :=
  ⟨stripes_wellFormed, (findsExactly_iff stripes stripes_wellFormed 0x80).mpr (by decide)⟩

/-- The first address of the chunks is in the second stripe and is not found. -/
theorem stripes_start_missed :
    WellFormed stripes ∧ findAddr stripes 0x40 = .ok stripes.endIndex ∧
      ¬FindsExactly stripes 0x40 := by
  have missed : findAddr stripes 0x40 = .ok stripes.endIndex := by decide
  refine ⟨stripes_wellFormed, missed, fun exactly => ?_⟩
  have found := exactly.contained 1 (stripe 1, 1) rfl (by decide)
  exact absurd (found.symm.trans missed) (by decide)

end Results

end GemFi.InterleavedLookup
