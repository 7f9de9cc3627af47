import Mathlib.Data.List.Induction
import Mathlib.Order.Lattice
import Mathlib.Tactic.Common

/-!
Closed intervals that lie apart, in order. One more interval meets some of them exactly when it
meets the last that starts no later, or the first that starts no earlier.
-/

namespace GemFi.Intervals

universe u v
variable {ι : Type u} {α : Type v} [LinearOrder α] (first last : ι → α)

def Covers (i : ι) (a : α) : Prop := first i ≤ a ∧ a ≤ last i

def Meets (i j : ι) : Prop := ∃ a, Covers first last i a ∧ Covers first last j a

/-- Each interval ends before the next begins. -/
def Apart (items : List ι) : Prop := items.Pairwise fun i j => last i < first j

variable {first last} {i j r : ι} {items : List ι}

theorem meets_iff (nonempty : first i ≤ last i) (nonempty' : first j ≤ last j) :
    Meets first last i j ↔ first i ≤ last j ∧ first j ≤ last i := by
  constructor
  · rintro ⟨a, ⟨after, before⟩, after', before'⟩
    exact ⟨le_trans after before', le_trans after' before⟩
  · rintro ⟨starts, ends⟩
    -- the later of the two starts lies in both
    rcases le_total (first i) (first j) with earlier | later
    · exact ⟨first j, ⟨earlier, ends⟩, le_refl _, nonempty'⟩
    · exact ⟨first i, ⟨le_refl _, nonempty⟩, later, starts⟩

theorem meets_some_before_iff (nonempty : ∀ i ∈ items, first i ≤ last i)
    (nonempty' : first r ≤ last r) (apart : Apart first last items)
    (before : ∀ i ∈ items, first i ≤ first r) :
    (∃ i ∈ items, Meets first last i r) ↔ ∃ j ∈ items.getLast?, Meets first last j r := by
  cases items using List.reverseRecOn with
  | nil => simp
  | append_singleton earlier j _ =>
      have lastMember : j ∈ earlier ++ [j] := List.mem_append_right _ (List.mem_singleton_self j)
      rw [List.getLast?_append, List.getLast?_singleton, Option.some_or]
      constructor
      · rintro ⟨i, member, meets⟩
        rcases List.mem_append.mp member with isEarlier | isLast
        · have ends := (List.pairwise_append.mp apart).2.2 i isEarlier j (List.mem_singleton_self j)
          have reaches := ((meets_iff (nonempty i member) nonempty').mp meets).2
          exact absurd (lt_of_le_of_lt reaches ends) (not_lt.mpr (before j lastMember))
        · rw [List.mem_singleton.mp isLast] at meets
          exact ⟨j, rfl, meets⟩
      · rintro ⟨i, isLast, meets⟩
        cases isLast
        exact ⟨j, lastMember, meets⟩

theorem meets_some_after_iff (nonempty : ∀ i ∈ items, first i ≤ last i)
    (nonempty' : first r ≤ last r) (apart : Apart first last items)
    (after : ∀ i ∈ items, first r ≤ first i) :
    (∃ i ∈ items, Meets first last i r) ↔ ∃ j ∈ items.head?, Meets first last j r := by
  cases items with
  | nil => simp
  | cons j later =>
      have firstMember : j ∈ j :: later := List.mem_cons_self
      have ordered := nonempty j firstMember
      constructor
      · rintro ⟨i, member, meets⟩
        rcases List.mem_cons.mp member with rfl | isLater
        · exact ⟨i, rfl, meets⟩
        · have starts := ((meets_iff (nonempty i member) nonempty').mp meets).1
          have ends := (List.pairwise_cons.mp apart).1 i isLater
          have reaches : first j ≤ last r := le_trans ordered (le_trans (le_of_lt ends) starts)
          exact ⟨j, rfl, (meets_iff ordered nonempty').mpr
            ⟨reaches, le_trans (after j firstMember) ordered⟩⟩
      · rintro ⟨i, isFirst, meets⟩
        cases isFirst
        exact ⟨j, firstMember, meets⟩

theorem apart_iff (nonempty : ∀ i ∈ items, first i ≤ last i)
    (ordered : items.Pairwise fun i j => first i ≤ first j) :
    Apart first last items ↔ items.Pairwise fun i j => ¬ Meets first last i j := by
  induction items with
  | nil => exact iff_of_true List.Pairwise.nil List.Pairwise.nil
  | cons head rest ih =>
      obtain ⟨starts, ordered⟩ := List.pairwise_cons.mp ordered
      have headNonempty := nonempty head List.mem_cons_self
      have restNonempty := fun i member => nonempty i (List.mem_cons_of_mem head member)
      have later : ∀ j ∈ rest, last head < first j ↔ ¬ Meets first last head j := by
        intro j member
        have startsBefore := starts j member
        rw [meets_iff headNonempty (restNonempty j member), not_and, not_le]
        constructor
        · intro ends _
          exact ends
        · intro ends
          exact ends (le_trans startsBefore (restNonempty j member))
      rw [Apart, List.pairwise_cons, List.pairwise_cons, ← ih restNonempty ordered, Apart]
      refine and_congr_left' ?_
      exact forall₂_congr later

end GemFi.Intervals
