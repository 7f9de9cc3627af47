import GemFi.AddrRangeMap
import GemFi.Intervals
import GemFi.Outcomes
import GemFi.Transitions

/-!
Whether the stored ranges stay disjoint. An insertion looks at the range before its place only,
so it is exact as long as it does not reach into the range after it.
-/

namespace GemFi.AddressDecoding

open SortedMaps Intervals Outcomes Transitions AddrRangeMap

def Shares (range r : AddrRange) : Prop :=
  ∃ a : Addr, (range.start ≤ a ∧ a ≤ range.last) ∧ r.start ≤ a ∧ a ≤ r.last

/-- No address is in two of the stored ranges. -/
def Unambiguous {V : Type} (tree : RangeMap V) : Prop :=
  tree.entries.Pairwise fun entry other => ¬ Shares entry.1 other.1

def PlainRange (r : AddrRange) : Prop := r.interleaved = false ∧ r.valid = true

def PlainInsert {V : Type} : Action V → Prop
  -- what is inserted is a valid range that is not interleaved
  | .insert r _ => PlainRange r
  | _ => True

def InsertsExactly {V : Type} (tree : RangeMap V) : Action V → Prop
  | .insert r d =>
      ((∃ entry ∈ tree.entries, Shares entry.1 r) → tree.insert r d = .ok (tree.endIndex, tree)) ∧
      ((∀ entry ∈ tree.entries, ¬ Shares entry.1 r) → ∃ i tree', tree.insert r d = .ok (i, tree') ∧
        i < tree'.endIndex ∧ ∀ entry, entry ∈ tree'.entries ↔ entry = (r, d) ∨ entry ∈ tree.entries)
  | _ => True

def Overlooks {V : Type} (tree : RangeMap V) (r : AddrRange) : Prop :=
  -- the range before the place of `r` is clear of it, but the one after it is not
  ∃ previous next, (upTo AddrRange.less r tree.entries).getLast? = some previous ∧
    (beyond AddrRange.less r tree.entries).head? = some next ∧
    ¬ Shares previous.1 r ∧ Shares next.1 r

def SeesNext {V : Type} (tree : RangeMap V) : Action V → Prop
  -- no insertion overlooks the range after its place
  | .insert r _ => ¬ Overlooks tree r
  | _ => True

section Ranges

variable {V : Type} {tree : RangeMap V} {range r : AddrRange} {d : V}

def lower (entry : AddrRange × V) : Nat := entry.1.start.toNat
def upper (entry : AddrRange × V) : Nat := entry.1.last.toNat

theorem shares_iff_meets (entry other : AddrRange × V) :
    Shares entry.1 other.1 ↔ Meets lower upper entry other := by
  constructor
  · rintro ⟨a, inFirst, inSecond⟩
    exact ⟨a.toNat, inFirst, inSecond⟩
  · rintro ⟨a, ⟨after, before⟩, after', before'⟩
    have bounded : (BitVec.ofNat 64 a).toNat = a := by
      rw [BitVec.toNat_ofNat, Nat.mod_eq_of_lt (Nat.lt_of_le_of_lt before entry.1.last.isLt)]
    refine ⟨BitVec.ofNat 64 a, ⟨?_, ?_⟩, ?_, ?_⟩ <;> rw [BitVec.le_def, bounded] <;> assumption

theorem shares_symm (shares : Shares range r) : Shares r range := by
  obtain ⟨a, inFirst, inSecond⟩ := shares
  exact ⟨a, inSecond, inFirst⟩

theorem nonempty_of_valid {entry : AddrRange × V} (valid : entry.1.valid = true) :
    lower entry ≤ upper entry := by
  have ordered : entry.1.start < entry.1.last := of_decide_eq_true valid
  exact Nat.le_of_lt ordered

theorem intersects_plain (plain : PlainRange range) (valid : r.valid = true) :
    ∃ hit, range.intersects r = .ok hit ∧ (hit = true ↔ Shares range r) := by
  refine ⟨_, by rw [AddrRange.intersects, plain.1]; rfl, ?_⟩
  rw [decide_eq_true_eq, shares_iff_meets (range, ()) (r, ()),
    meets_iff (nonempty_of_valid plain.2) (nonempty_of_valid valid)]
  rfl

/-- The entries around the place of a range are those of the tree. -/
theorem around (tree : RangeMap V) (r : AddrRange) :
    upTo AddrRange.less r tree.entries ++ beyond AddrRange.less r tree.entries = tree.entries :=
  upTo_append_beyond _ _ _

def neighbour (tree : RangeMap V) (r : AddrRange) : Option (AddrRange × V) :=
  -- the one range that a search for `r` looks at
  (upTo AddrRange.less r tree.entries).getLast?.or (beyond AddrRange.less r tree.entries).head?

theorem check_plain {i : Nat} {entry : AddrRange × V} (found : tree.entries[i]? = some entry)
    (plain : PlainRange entry.1) (valid : r.valid = true) :
    ∃ j, tree.check r i = .ok j ∧ (j ≠ tree.endIndex ↔ Shares entry.1 r) := by
  obtain ⟨hit, compared, exact'⟩ := intersects_plain plain valid
  have first : tree.first i = .ok entry.1 := by rw [RangeMap.first, found]
  obtain ⟨within, _⟩ := List.getElem?_eq_some_iff.mp found
  refine ⟨if hit then i else tree.endIndex, bind_eq_of_ok first (bind_eq_of_ok compared rfl), ?_⟩
  rw [← exact']
  cases hit with
  | true => exact iff_of_true (Nat.ne_of_lt within) rfl
  | false => exact iff_of_false (fun apart => apart rfl) Bool.false_ne_true

theorem find_plain (plain : ∀ entry ∈ tree.entries, PlainRange entry.1) (valid : r.valid = true) :
    ∃ i, tree.find r = .ok i ∧ (i ≠ tree.endIndex ↔ ∃ entry ∈ neighbour tree r, Shares entry.1 r) := by
  have whole := around tree r
  rw [RangeMap.find, RangeMap.upper_bound, upperBound, neighbour]
  cases before : upTo AddrRange.less r tree.entries using List.reverseRecOn with
  | nil =>
      rw [before, List.nil_append] at whole
      rw [whole]
      cases after : tree.entries with
      | nil => exact ⟨tree.endIndex, rfl, by simp⟩
      | cons next later =>
          have found : tree.entries[0]? = some next := by rw [after]; rfl
          obtain ⟨j, checked, exact'⟩ := check_plain found (plain next (List.mem_of_getElem? found)) valid
          exact ⟨j, checked, by rw [exact']; simp⟩
  | append_singleton earlier previous _ =>
      have found : tree.entries[earlier.length]? = some previous := by
        rw [← whole, before]
        simp
      have plainPrevious := plain previous (List.mem_of_getElem? found)
      obtain ⟨hit, compared, exact'⟩ := intersects_plain plainPrevious valid
      obtain ⟨within, _⟩ := List.getElem?_eq_some_iff.mp found
      have first : tree.first earlier.length = .ok previous.1 := by rw [RangeMap.first, found]
      have some' : tree.entries.isEmpty = false := by
        cases empty : tree.entries with
        | nil =>
            rw [empty] at found
            cases found
        | cons => rfl
      rw [some', List.length_append, List.length_singleton]
      refine ⟨if hit then earlier.length else tree.endIndex, ?_, ?_⟩
      · refine bind_eq_of_ok first (bind_eq_of_ok compared ?_)
        rw [plainPrevious.1]
        cases hit <;> rfl
      · simp only [List.getLast?_append, List.getLast?_singleton]
        cases hit with
        | true =>
            refine iff_of_true (Nat.ne_of_lt within) ⟨previous, rfl, exact'.mp rfl⟩
        | false =>
            refine iff_of_false (fun apart => apart rfl) ?_
            rintro ⟨entry, isPrevious, shares⟩
            cases isPrevious
            cases exact'.mpr shares

theorem insert_plain (plain : ∀ entry ∈ tree.entries, PlainRange entry.1) (valid : r.valid = true) (d : V) :
    ((∃ entry ∈ neighbour tree r, Shares entry.1 r) →
      tree.insert r d = .ok (tree.endIndex, tree)) ∧
    ((∀ entry ∈ neighbour tree r, ¬ Shares entry.1 r) → tree.insert r d = .ok (tree.put r d)) := by
  obtain ⟨i, found, hits⟩ := find_plain plain valid
  have intersects : tree.intersect r = .ok (decide (i ≠ tree.endIndex)) := bind_eq_of_ok found rfl
  constructor
  · intro shared
    refine bind_eq_of_ok intersects ?_
    rw [decide_eq_true (hits.mpr shared)]
    rfl
  · intro clear
    have missed : ¬ i ≠ tree.endIndex := by
      rw [hits]
      rintro ⟨entry, member, shares⟩
      exact clear entry member shares
    refine bind_eq_of_ok intersects ?_
    rw [decide_eq_false missed]
    rfl

theorem fresh_of_clear (plain : ∀ entry ∈ tree.entries, PlainRange entry.1) (valid : r.valid = true)
    (clear : ∀ entry ∈ tree.entries, ¬ Shares entry.1 r) : tree.Fresh r := by
  intro other member
  by_contra equivalent
  rw [not_or, Bool.not_eq_true, Bool.not_eq_true] at equivalent
  have before := AddrRange.start_le_of_not_less equivalent.1
  have after := AddrRange.start_le_of_not_less equivalent.2
  have ordered : other.1.start < other.1.last := of_decide_eq_true (plain other member).2
  have ordered' : r.start < r.last := of_decide_eq_true valid
  -- equivalent ranges start at one address, which they share
  rw [BitVec.le_def] at before after
  rw [BitVec.lt_def] at ordered ordered'
  refine clear other member ⟨r.start, ⟨?_, ?_⟩, ?_, ?_⟩ <;> rw [BitVec.le_def] <;> omega

theorem ordered_starts (tree : RangeMap V) :
    tree.entries.Pairwise fun entry other => lower entry ≤ lower other :=
  tree.ascending.imp AddrRange.start_le_of_less

theorem apart_of_unambiguous (plain : ∀ entry ∈ tree.entries, PlainRange entry.1)
    (unambiguous : Unambiguous tree) : Apart lower upper tree.entries := by
  rw [apart_iff (fun entry member => nonempty_of_valid (plain entry member).2) (ordered_starts tree)]
  exact unambiguous.imp fun clear meets => clear ((shares_iff_meets _ _).mpr meets)

theorem shared_iff (plain : ∀ entry ∈ tree.entries, PlainRange entry.1) (valid : r.valid = true)
    (unambiguous : Unambiguous tree) (d : V) :
    (∃ entry ∈ tree.entries, Shares entry.1 r) ↔
      (∃ entry ∈ neighbour tree r, Shares entry.1 r) ∨ Overlooks tree r := by
  have apart := apart_of_unambiguous plain unambiguous
  have nonempty := fun entry member => nonempty_of_valid (plain entry member).2
  have sorted := tree.ascending.sorted AddrRange.less_strictWeak
  have whole := around tree r
  rw [← whole] at apart nonempty
  obtain ⟨apartBefore, apartAfter, _⟩ := List.pairwise_append.mp apart
  have nonempty' : lower (r, d) ≤ upper (r, d) := nonempty_of_valid valid
  have asMeets : ∀ entry : AddrRange × V, Meets lower upper entry (r, d) ↔ Shares entry.1 r :=
    fun entry => (shares_iff_meets entry (r, d)).symm
  have sharedBefore := meets_some_before_iff
    (fun entry member => nonempty entry (List.mem_append_left _ member)) nonempty' apartBefore
    fun entry member => AddrRange.start_le_of_not_less (not_less_of_mem_upTo member)
  have sharedAfter := meets_some_after_iff
    (fun entry member => nonempty entry (List.mem_append_right _ member)) nonempty' apartAfter
    fun entry member => AddrRange.start_le_of_less
      (less_of_mem_beyond AddrRange.less_strictWeak sorted member)
  simp only [asMeets] at sharedBefore sharedAfter
  have split : (∃ entry ∈ tree.entries, Shares entry.1 r) ↔
      (∃ entry ∈ upTo AddrRange.less r tree.entries, Shares entry.1 r) ∨
        ∃ entry ∈ beyond AddrRange.less r tree.entries, Shares entry.1 r := by
    conv_lhs => rw [← whole]
    simp only [List.mem_append, or_and_right, exists_or]
  rw [split, sharedBefore, sharedAfter, neighbour, Overlooks]
  cases (upTo AddrRange.less r tree.entries).getLast? with
  | none => simp
  | some previous =>
      cases (beyond AddrRange.less r tree.entries).head? with
      | none => simp
      | some next =>
          by_cases shares : Shares previous.1 r <;> simp [shares]

theorem place_unambiguous (unambiguous : Unambiguous tree)
    (clear : ∀ entry ∈ tree.entries, ¬ Shares entry.1 r) (d : V) :
    (place AddrRange.less (r, d) tree.entries).Pairwise fun entry other => ¬ Shares entry.1 other.1 := by
  have around' : (place AddrRange.less (r, d) tree.entries).Perm ((r, d) :: tree.entries) := by
    conv_rhs => rw [← around tree r]
    exact List.perm_middle
  rw [around'.pairwise_iff fun apart shares => apart (shares_symm shares), List.pairwise_cons]
  exact ⟨fun entry member shares => clear entry member (shares_symm shares), unambiguous⟩

end Ranges

def AllPlain {V : Type} (tree : RangeMap V) : Prop := ∀ entry ∈ tree.entries, PlainRange entry.1

section Runs

variable {V : Type} {tree : RangeMap V} {r : AddrRange} {d : V}

theorem put_entries (tree : RangeMap V) (r : AddrRange) (d : V) :
    ∀ entry ∈ (tree.put r d).2.entries, entry = (r, d) ∨ entry ∈ tree.entries := by
  intro entry member
  unfold RangeMap.put at member
  split at member
  · exact mem_place_iff.mp member
  · exact Or.inr member

/-- A step inserts, or leaves some of the entries. -/
theorem step_cases {action : Action V} {next : RangeMap V} (stepped : step tree action = some next) :
    (∃ r d i, action = .insert r d ∧ tree.insert r d = .ok (i, next)) ∨
      next.entries.Sublist tree.entries := by
  have performed := eq_ok_of_toOption stepped
  cases action with
  | insert r d =>
      rw [perform] at performed
      cases inserted : tree.insert r d with
      | error stop =>
          rw [inserted] at performed
          cases performed
      | ok result =>
          rw [inserted] at performed
          cases performed
          exact Or.inl ⟨r, d, result.1, rfl, inserted⟩
  | erase p =>
      rw [perform, RangeMap.erase] at performed
      split at performed
      · cases performed
        exact Or.inr (List.eraseIdx_sublist _ _)
      · cases performed
  | eraseRange p q =>
      rw [perform, RangeMap.eraseRange] at performed
      split at performed
      · next span =>
          cases performed
          exact Or.inr (RangeMap.cut_sublist _ span.1)
      · cases performed
  | clear =>
      cases performed
      exact Or.inr (List.nil_sublist _)

theorem step_plain (tree : RangeMap V) (action : Action V) (next : RangeMap V) (plain : AllPlain tree)
    (allowed : PlainInsert action) (stepped : step tree action = some next) : AllPlain next := by
  rcases step_cases stepped with ⟨r, d, i, rfl, inserted⟩ | fewer
  · obtain ⟨refused, taken⟩ := insert_plain plain allowed.2 d
    by_cases shared : ∃ entry ∈ neighbour tree r, Shares entry.1 r
    · rw [refused shared] at inserted
      cases inserted
      exact plain
    · rw [taken fun entry member shares => shared ⟨entry, member, shares⟩] at inserted
      intro entry member
      have put := put_entries tree r d entry
      rw [Except.ok.inj inserted] at put
      rcases put member with rfl | stored
      · exact allowed
      · exact plain entry stored
  · exact fun entry member => plain entry (fewer.subset member)

/-- An insertion that does not overlook the next range keeps the tree as it is, or adds to it. -/
theorem insert_cases (stored : AllPlain tree) (unambiguous : Unambiguous tree) (plain : PlainRange r)
    (sees : ¬ Overlooks tree r) (d : V) :
    ((∃ entry ∈ tree.entries, Shares entry.1 r) ∧ tree.insert r d = .ok (tree.endIndex, tree)) ∨
    ((∀ entry ∈ tree.entries, ¬ Shares entry.1 r) ∧ ∃ tree', tree.insert r d =
      .ok (tree.upper_bound r, tree') ∧ tree'.entries = place AddrRange.less (r, d) tree.entries) := by
  have shared := shared_iff stored plain.2 unambiguous d
  obtain ⟨refused, taken⟩ := insert_plain stored plain.2 d
  by_cases some' : ∃ entry ∈ tree.entries, Shares entry.1 r
  · exact Or.inl ⟨some', refused ((shared.mp some').resolve_right sees)⟩
  · have clear : ∀ entry ∈ tree.entries, ¬ Shares entry.1 r :=
      fun entry member shares => some' ⟨entry, member, shares⟩
    have fresh := fresh_of_clear stored plain.2 clear
    have put : tree.put r d = (tree.upper_bound r, ⟨place AddrRange.less (r, d) tree.entries,
        tree.ascending.place AddrRange.less_strictWeak fresh⟩) := dif_pos fresh
    refine Or.inr ⟨clear, _, Eq.trans (taken ?_) (congrArg Except.ok put), rfl⟩
    exact fun entry member shares => some' (shared.mpr (Or.inl ⟨entry, member, shares⟩))

theorem step_unambiguous (tree : RangeMap V) (action : Action V) (next : RangeMap V)
    (holds : AllPlain tree ∧ Unambiguous tree) (allowed : PlainInsert action ∧ SeesNext tree action)
    (stepped : step tree action = some next) : AllPlain next ∧ Unambiguous next := by
  obtain ⟨stored, unambiguous⟩ := holds
  refine ⟨step_plain tree action next stored allowed.1 stepped, ?_⟩
  rcases step_cases stepped with ⟨r, d, i, rfl, inserted⟩ | fewer
  · rcases insert_cases stored unambiguous allowed.1 allowed.2 d with ⟨_, kept⟩ | ⟨clear, tree', added, entries⟩
    · rw [kept] at inserted
      cases inserted
      exact unambiguous
    · rw [added] at inserted
      cases inserted
      rw [Unambiguous, entries]
      exact place_unambiguous unambiguous clear d
  · exact unambiguous.sublist fewer

theorem inserts_exactly (stored : AllPlain tree) (unambiguous : Unambiguous tree) (plain : PlainRange r)
    (sees : ¬ Overlooks tree r) : InsertsExactly tree (.insert r d) := by
  rcases insert_cases stored unambiguous plain sees d with ⟨some', kept⟩ | ⟨clear, tree', added, entries⟩
  · exact ⟨fun _ => kept, fun clear => by
      obtain ⟨entry, member, shares⟩ := some'
      exact absurd shares (clear entry member)⟩
  · refine ⟨?_, fun _ => ⟨_, tree', added, ?_, ?_⟩⟩
    · rintro ⟨entry, member, shares⟩
      exact absurd shares (clear entry member)
    · rw [RangeMap.endIndex, entries, place, List.length_append, List.length_cons]
      exact Nat.lt_add_of_pos_right (Nat.succ_pos _)
    · intro entry
      rw [entries, mem_place_iff]

theorem not_inserts_exactly (stored : AllPlain tree) (plain : PlainRange r)
    (overlooks : Overlooks tree r) : ¬ InsertsExactly tree (.insert r d) := by
  rintro ⟨refuses, _⟩
  obtain ⟨previous, next, before, after, clear, shares⟩ := overlooks
  have neighbourIs : neighbour tree r = some previous := by rw [neighbour, before, Option.some_or]
  have member : next ∈ tree.entries := by
    rw [← around tree r]
    exact List.mem_append_right _ (List.mem_of_head? after)
  have refused := refuses ⟨next, member, shares⟩
  rw [(insert_plain stored plain.2 d).2] at refused
  · have atEnd := congrArg Prod.fst (Except.ok.inj refused)
    have bound : (tree.put r d).1 ≤ tree.upper_bound r := by
      unfold RangeMap.put
      split
      · exact Nat.le_refl _
      · exact Nat.sub_le _ _
    have whole := congrArg List.length (around tree r)
    have later := List.length_pos_of_mem (List.mem_of_head? after)
    rw [List.length_append] at whole
    rw [RangeMap.upper_bound, upperBound] at bound
    rw [RangeMap.endIndex] at atEnd
    omega
  · intro entry isNeighbour
    rw [neighbourIs] at isNeighbour
    cases isNeighbour
    exact clear

/-- Over every sequence of operations the ranges stay unambiguous and each insertion is exact,
if and only if no insertion overlooks the range after its place. -/
theorem decoding_unambiguous_iff (actions : List (Action V))
    (plain : ∀ action ∈ actions, PlainInsert action) :
    (Always step Unambiguous actions RangeMap.empty ∧
        Admissible step InsertsExactly actions RangeMap.empty) ↔
      Admissible step SeesNext actions RangeMap.empty := by
  have plainAt : ∀ {before action after}, actions = before ++ action :: after → PlainInsert action := by
    intro before action after split
    exact plain action (by rw [split]; simp)
  have nothing : AllPlain (RangeMap.empty : RangeMap V) := fun _ member => absurd member List.not_mem_nil
  constructor
  · rintro ⟨_, exact'⟩ before action after reached split ran
    have each : EachStep step (fun _ action => PlainInsert action) actions (RangeMap.empty : RangeMap V) :=
      fun _ _ _ _ _ split _ _ => plainAt split
    have stored := always_of_preserved step_plain actions _ nothing each before _ reached split ran
    cases action with
    | insert r d =>
        intro overlooks
        exact not_inserts_exactly stored (plainAt split) overlooks
          (exact' before (.insert r d) after reached split ran)
    | erase p => exact True.intro
    | eraseRange p q => exact True.intro
    | clear => exact True.intro
  · intro sees
    have each : EachStep step (fun tree action => PlainInsert action ∧ SeesNext tree action) actions
        RangeMap.empty := fun before action after reached _ split ran _ =>
      ⟨plainAt split, sees before action after reached split ran⟩
    have always := always_of_preserved step_unambiguous actions _ ⟨nothing, List.Pairwise.nil⟩ each
    refine ⟨fun before after reached split ran => (always before after reached split ran).2, ?_⟩
    intro before action after reached split ran
    obtain ⟨stored, unambiguous⟩ := always before (action :: after) reached split ran
    cases action with
    | insert r d =>
        exact inserts_exactly stored unambiguous (plainAt split)
          (sees before (.insert r d) after reached split ran)
    | erase p => exact True.intro
    | eraseRange p q => exact True.intro
    | clear => exact True.intro

end Runs

def between (last : Addr) : List (Action Nat) :=
  -- two ranges, and a third that goes between them and reaches up to `last`
  [.insert (rangeIn 0 10) 1, .insert (rangeIn 100 110) 2, .insert (rangeIn 50 last) 3]

theorem decoding_unambiguous_iff_between :
    (Always step Unambiguous (between 99) RangeMap.empty ∧
        Admissible step InsertsExactly (between 99) RangeMap.empty) ↔
      Admissible step SeesNext (between 99) RangeMap.empty :=
  decoding_unambiguous_iff (between 99) (by simp [between, PlainInsert, PlainRange]; decide)

/-- A range that reaches into the next one is added, since the range before it is clear. -/
theorem overlapping_range_is_added :
    (∀ action ∈ between 105, PlainInsert action) ∧
      ¬ Always step Unambiguous (between 105) RangeMap.empty := by
  refine ⟨by simp [between, PlainInsert, PlainRange]; decide, ?_⟩
  intro always
  have entries : (run step (between 105) RangeMap.empty).map RangeMap.entries =
      some [(rangeIn 0 10, 1), (rangeIn 50 105, 3), (rangeIn 100 110, 2)] := by decide
  obtain ⟨reached, ran, isReached⟩ := Option.map_eq_some_iff.mp entries
  have unambiguous := always (between 105) [] reached (List.append_nil _).symm ran
  rw [Unambiguous, isReached] at unambiguous
  have clear := (List.pairwise_cons.mp unambiguous.of_cons).1 _ List.mem_cons_self
  exact clear ⟨100, by decide⟩

end GemFi.AddressDecoding
