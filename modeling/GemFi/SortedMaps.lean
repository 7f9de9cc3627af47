import Mathlib.Data.List.TakeWhile
import Mathlib.Tactic.Common

/-!
Ordered maps and multimaps as sorted lists of entries. The order of the keys is a strict weak
one: keys that are not equal may be equivalent, and a map holds at most one of them.
-/

namespace GemFi.SortedMaps

universe u v
variable {κ : Type u} {ν : Type v}

structure StrictWeak (less : κ → κ → Bool) : Prop where
  irrefl : ∀ a, less a a = false
  trans : ∀ a b c, less a b = true → less b c = true → less a c = true
  split : ∀ a b c, less a c = true → less a b = true ∨ less b c = true

/-- The entries of a multimap. -/
def Sorted (less : κ → κ → Bool) (items : List (κ × ν)) : Prop :=
  items.Pairwise fun a b => less b.1 a.1 = false

def Ascending (less : κ → κ → Bool) (items : List (κ × ν)) : Prop :=
  items.Pairwise fun a b => less a.1 b.1 = true

def upTo (less : κ → κ → Bool) (key : κ) (items : List (κ × ν)) : List (κ × ν) :=
  -- the entries that are not after a key
  items.takeWhile fun item => !less key item.1

def beyond (less : κ → κ → Bool) (key : κ) (items : List (κ × ν)) : List (κ × ν) :=
  -- the entries after a key
  items.dropWhile fun item => !less key item.1

def upperBound (less : κ → κ → Bool) (key : κ) (items : List (κ × ν)) : Nat :=
  -- the position of the first entry after a key
  (upTo less key items).length

def below (less : κ → κ → Bool) (key : κ) (items : List (κ × ν)) : List (κ × ν) :=
  -- the entries before a key
  items.takeWhile fun item => less item.1 key

def atLeast (less : κ → κ → Bool) (key : κ) (items : List (κ × ν)) : List (κ × ν) :=
  -- the entries that are not before a key
  items.dropWhile fun item => less item.1 key

def find (less : κ → κ → Bool) (key : κ) (items : List (κ × ν)) : List (κ × ν) :=
  -- the entries from the first with this key on; none if no entry has it
  match atLeast less key items with
  | [] => []
  | first :: later => if less key first.1 then [] else first :: later

def place (less : κ → κ → Bool) (item : κ × ν) (items : List (κ × ν)) : List (κ × ν) :=
  -- an entry goes after those that are equivalent to it
  upTo less item.1 items ++ item :: beyond less item.1 items

variable {less : κ → κ → Bool} {key : κ} {item other : κ × ν} {items : List (κ × ν)}

theorem StrictWeak.asymm (order : StrictWeak less) {a b : κ} (ordered : less a b = true) :
    less b a = false := by
  rw [← Bool.not_eq_true]
  intro back
  have loop := order.trans a b a ordered back
  rw [order.irrefl a] at loop
  cases loop

theorem Ascending.sorted (order : StrictWeak less) (ascending : Ascending less items) :
    Sorted less items :=
  ascending.imp order.asymm

theorem upTo_append_beyond (less : κ → κ → Bool) (key : κ) (items : List (κ × ν)) :
    upTo less key items ++ beyond less key items = items :=
  List.takeWhile_append_dropWhile

theorem not_less_of_mem_upTo (member : item ∈ upTo less key items) : less key item.1 = false := by
  simpa using List.mem_takeWhile_imp member

theorem less_of_mem_beyond (order : StrictWeak less) (sorted : Sorted less items)
    (member : item ∈ beyond less key items) : less key item.1 = true := by
  induction items with
  | nil => cases member
  | cons first rest ih =>
      cases after : less key first.1 with
      | false =>
          rw [beyond, List.dropWhile_cons_of_pos (by rw [after]; rfl)] at member
          exact ih sorted.of_cons member
      | true =>
          rw [beyond, List.dropWhile_cons_of_neg (by rw [after]; exact Bool.false_ne_true)] at member
          rcases List.mem_cons.mp member with rfl | later
          · exact after
          · rcases order.split key item.1 first.1 after with further | back
            · exact further
            · rw [(List.pairwise_cons.mp sorted).1 item later] at back
              cases back

theorem lt_upperBound_iff (order : StrictWeak less) (sorted : Sorted less items) {i : Nat}
    (found : items[i]? = some item) : i < upperBound less key items ↔ less key item.1 = false := by
  rw [← upTo_append_beyond less key items] at found
  constructor
  · intro inside
    rw [List.getElem?_append_left inside] at found
    exact not_less_of_mem_upTo (List.mem_of_getElem? found)
  · intro notAfter
    by_contra outside
    rw [List.getElem?_append_right (Nat.not_lt.mp outside)] at found
    have after := less_of_mem_beyond order sorted (List.mem_of_getElem? found)
    rw [notAfter] at after
    cases after

theorem below_append_atLeast (less : κ → κ → Bool) (key : κ) (items : List (κ × ν)) :
    below less key items ++ atLeast less key items = items :=
  List.takeWhile_append_dropWhile

theorem less_of_mem_below (member : item ∈ below less key items) : less item.1 key = true := by
  simpa using List.mem_takeWhile_imp member

theorem not_less_of_mem_atLeast (order : StrictWeak less) (sorted : Sorted less items)
    (member : item ∈ atLeast less key items) : less item.1 key = false := by
  induction items with
  | nil => cases member
  | cons first rest ih =>
      cases before : less first.1 key with
      | true =>
          rw [atLeast, List.dropWhile_cons_of_pos (by rw [before])] at member
          exact ih sorted.of_cons member
      | false =>
          rw [atLeast, List.dropWhile_cons_of_neg (by rw [before]; exact Bool.false_ne_true)] at member
          rcases List.mem_cons.mp member with rfl | later
          · exact before
          · rw [← Bool.not_eq_true]
            intro back
            rcases order.split item.1 first.1 key back with ordered | ordered
            · rw [(List.pairwise_cons.mp sorted).1 item later] at ordered
              cases ordered
            · rw [before] at ordered
              cases ordered

theorem find_eq_atLeast (order : StrictWeak less) (sorted : Sorted less items)
    (member : item ∈ items) (notBefore : less item.1 key = false) (notAfter : less key item.1 = false) :
    item ∈ find less key items ∧ find less key items = atLeast less key items := by
  have reached : item ∈ atLeast less key items := by
    rw [← below_append_atLeast less key items, List.mem_append] at member
    rcases member with early | late
    · rw [less_of_mem_below early] at notBefore
      cases notBefore
    · exact late
  unfold find
  cases found : atLeast less key items with
  | nil =>
      rw [found] at reached
      cases reached
  | cons first later =>
      have firstNotAfter : less key first.1 = false := by
        have rest : Sorted less (first :: later) :=
          found ▸ sorted.sublist (List.dropWhile_sublist _)
        rw [found] at reached
        rcases List.mem_cons.mp reached with rfl | isLater
        · exact notAfter
        · rw [← Bool.not_eq_true]
          intro after
          rcases order.split key item.1 first.1 after with ordered | ordered
          · rw [notAfter] at ordered
            cases ordered
          · rw [(List.pairwise_cons.mp rest).1 item isLater] at ordered
            cases ordered
      dsimp only
      rw [firstNotAfter]
      exact ⟨found ▸ reached, rfl⟩

theorem find_cases (less : κ → κ → Bool) (key : κ) (items : List (κ × ν)) :
    find less key items = [] ∨ find less key items = atLeast less key items := by
  unfold find
  split
  next => exact Or.inl rfl
  next first later found =>
    split
    · exact Or.inl rfl
    · exact Or.inr found.symm

theorem find_sublist (less : κ → κ → Bool) (key : κ) (items : List (κ × ν)) :
    (find less key items).Sublist items := by
  rcases find_cases less key items with isNone | isSome
  · rw [isNone]
    exact List.nil_sublist items
  · rw [isSome]
    exact List.dropWhile_sublist _

theorem mem_place_iff : other ∈ place less item items ↔ other = item ∨ other ∈ items := by
  conv_rhs => rw [← upTo_append_beyond less item.1 items, List.mem_append]
  rw [place, List.mem_append, List.mem_cons, or_left_comm]

theorem Sorted.place (order : StrictWeak less) (sorted : Sorted less items) (item : κ × ν) :
    Sorted less (place less item items) := by
  have whole := sorted
  rw [← upTo_append_beyond less item.1 items, Sorted, List.pairwise_append] at whole
  obtain ⟨before, after, across⟩ := whole
  refine List.pairwise_append.mpr ⟨before, List.pairwise_cons.mpr ⟨?_, after⟩, ?_⟩
  · intro later member
    exact order.asymm (less_of_mem_beyond order sorted member)
  · intro earlier member later found
    rcases List.mem_cons.mp found with rfl | found
    · exact not_less_of_mem_upTo member
    · exact across earlier member later found

/-- A map takes an entry to which it holds no equivalent one. -/
theorem Ascending.place (order : StrictWeak less) (ascending : Ascending less items)
    (apart : ∀ other ∈ items, less other.1 item.1 = true ∨ less item.1 other.1 = true) :
    Ascending less (place less item items) := by
  have sorted := ascending.sorted order
  have whole := ascending
  rw [← upTo_append_beyond less item.1 items, Ascending, List.pairwise_append] at whole
  obtain ⟨before, after, across⟩ := whole
  refine List.pairwise_append.mpr ⟨before, List.pairwise_cons.mpr ⟨?_, after⟩, ?_⟩
  · intro later member
    exact less_of_mem_beyond order sorted member
  · intro earlier member later found
    rcases List.mem_cons.mp found with rfl | found
    · have stored : earlier ∈ items := (List.takeWhile_prefix _).subset member
      rcases apart earlier stored with ordered | back
      · exact ordered
      · rw [not_less_of_mem_upTo member] at back
        cases back
    · exact across earlier member later found

end GemFi.SortedMaps
