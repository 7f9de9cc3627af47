import Mathlib.Data.List.Nodup
import Mathlib.Data.List.Perm.Basic
import Mathlib.Logic.Function.Basic

/-!
Places that hold keys and are listed in the order of their last use. Places that hold nothing
stand at the end of the list, so its last place is an empty one as long as there is one, and
otherwise the place that has not been used for the longest time.
-/

namespace GemFi.RecencyOrders

universe u v
variable {ι : Type u} {K : Type v}

structure Lineup (ι : Type u) (K : Type v) where
  /-- The last used place comes first. -/
  order : List ι
  held : ι → Option K
  /-- The time of the last use of each place. -/
  last : ι → Nat
  now : Nat

namespace Lineup

variable (lineup : Lineup ι K)

def wait : Lineup ι K := { lineup with now := lineup.now + 1 }

def find [DecidableEq K] (key : K) : Option ι :=
  lineup.order.find? fun i => decide (lineup.held i = some key)

variable [DecidableEq ι]

def touch (i : ι) : Lineup ι K where
  order := i :: lineup.order.erase i
  held := lineup.held
  last := Function.update lineup.last i (lineup.now + 1)
  now := lineup.now + 1

def put (i : ι) (key : K) : Lineup ι K :=
  { lineup.touch i with held := Function.update lineup.held i (some key) }

def clear (i : ι) : Lineup ι K where
  order := lineup.order.erase i ++ [i]
  held := Function.update lineup.held i none
  last := lineup.last
  now := lineup.now + 1

def replace (key : K) : Lineup ι K :=
  match lineup.order.getLast? with
  | none => lineup.wait
  | some i => lineup.put i key

end Lineup

/-- A place stands before another one that holds something only if it holds something, too, and
was used later. -/
structure Recent (lineup : Lineup ι K) : Prop where
  nodup : lineup.order.Nodup
  ordered : lineup.order.Pairwise fun a b =>
    lineup.held b ≠ none → lineup.held a ≠ none ∧ lineup.last b < lineup.last a
  past : ∀ i, lineup.last i ≤ lineup.now

def Distinct (lineup : Lineup ι K) : Prop :=
  ∀ a ∈ lineup.order, ∀ b ∈ lineup.order, lineup.held a ≠ none → lineup.held a = lineup.held b → a = b

variable {lineup : Lineup ι K} {i : ι}

theorem of_find [DecidableEq K] {key : K} (found : lineup.find key = some i) :
    i ∈ lineup.order ∧ lineup.held i = some key := by
  have holds := List.find?_some (p := fun a => decide (lineup.held a = some key)) found
  exact ⟨List.mem_of_find?_eq_some found, of_decide_eq_true holds⟩

theorem not_held_of_find_eq_none [DecidableEq K] {key : K} (absent : lineup.find key = none) :
    ∀ a ∈ lineup.order, lineup.held a ≠ some key :=
  fun a member isHeld => List.find?_eq_none.mp absent a member (decide_eq_true isHeld)

theorem Recent.wait (recent : Recent lineup) : Recent lineup.wait where
  nodup := recent.nodup
  ordered := recent.ordered
  past i := Nat.le_succ_of_le (recent.past i)

theorem Recent.last_place (recent : Recent lineup) (isLast : lineup.order.getLast? = some i) :
    ((∃ a ∈ lineup.order, lineup.held a = none) → lineup.held i = none) ∧
      ((∀ a ∈ lineup.order, lineup.held a ≠ none) →
        ∀ a ∈ lineup.order, a ≠ i → lineup.last i < lineup.last a) := by
  obtain ⟨earlier, split⟩ := List.getLast?_eq_some_iff.mp isLast
  have ordered := recent.ordered
  rw [split, List.pairwise_append] at ordered
  have before : ∀ a ∈ lineup.order, a ≠ i →
      lineup.held i ≠ none → lineup.held a ≠ none ∧ lineup.last i < lineup.last a := by
    intro a member other
    rw [split, List.mem_append, List.mem_singleton] at member
    exact ordered.2.2 a (member.resolve_right other) i (List.mem_singleton_self i)
  constructor
  · rintro ⟨a, member, isEmpty⟩
    by_contra holds
    by_cases same : a = i
    · exact holds (same ▸ isEmpty)
    · exact (before a member same holds).1 isEmpty
  · intro full a member other
    have inside : i ∈ lineup.order := by
      rw [split]
      exact List.mem_append_right _ (List.mem_singleton_self i)
    exact (before a member other (full i inside)).2

variable [DecidableEq ι]

theorem perm_touch (member : i ∈ lineup.order) : (lineup.touch i).order.Perm lineup.order :=
  (List.perm_cons_erase member).symm

theorem perm_clear (member : i ∈ lineup.order) : (lineup.clear i).order.Perm lineup.order :=
  (List.perm_append_singleton i _).trans (List.perm_cons_erase member).symm

theorem last_touch_le (recent : Recent lineup) (i a : ι) : (lineup.touch i).last a ≤ lineup.now + 1 := by
  change Function.update lineup.last i (lineup.now + 1) a ≤ lineup.now + 1
  by_cases same : a = i
  · subst same
    exact Nat.le_of_eq (Function.update_self a _ _)
  · rw [Function.update_of_ne same]
    exact Nat.le_succ_of_le (recent.past a)

/-- A place that holds something is moved to the front when it is used. -/
theorem Recent.put (recent : Recent lineup) (member : i ∈ lineup.order) (key : K) :
    Recent (lineup.put i key) where
  nodup := (perm_touch member).nodup_iff.mpr recent.nodup
  ordered := by
    have apart : ∀ a ∈ lineup.order.erase i, a ≠ i := fun a later same =>
      (recent.nodup.mem_erase_iff.mp later).1 same
    refine List.pairwise_cons.mpr ⟨?_, ?_⟩
    · intro a later _
      constructor
      · change Function.update lineup.held i (some key) i ≠ none
        rw [Function.update_self]
        exact Option.some_ne_none key
      · change Function.update lineup.last i (lineup.now + 1) a <
          Function.update lineup.last i (lineup.now + 1) i
        rw [Function.update_self, Function.update_of_ne (apart a later)]
        exact Nat.lt_succ_of_le (recent.past a)
    · have rest : (lineup.order.erase i).Pairwise _ := recent.ordered.sublist List.erase_sublist
      refine List.Pairwise.imp_of_mem ?_ rest
      intro a b first second ordered
      change Function.update lineup.held i (some key) b ≠ none →
        Function.update lineup.held i (some key) a ≠ none ∧
          Function.update lineup.last i (lineup.now + 1) b < Function.update lineup.last i (lineup.now + 1) a
      rw [Function.update_of_ne (apart a first), Function.update_of_ne (apart b second),
        Function.update_of_ne (apart a first), Function.update_of_ne (apart b second)]
      exact ordered
  past := last_touch_le recent i

theorem Recent.touch (recent : Recent lineup) (member : i ∈ lineup.order) (holds : lineup.held i ≠ none) :
    Recent (lineup.touch i) := by
  obtain ⟨key, isHeld⟩ := Option.ne_none_iff_exists'.mp holds
  have same : lineup.put i key = lineup.touch i := by
    rw [Lineup.put, ← isHeld, Function.update_eq_self]
    rfl
  rw [← same]
  exact recent.put member key

theorem Recent.touch_found [DecidableEq K] {key : K} (recent : Recent lineup)
    (found : lineup.find key = some i) :
    Recent (lineup.touch i) ∧ (lineup.touch i).order.Perm lineup.order := by
  obtain ⟨member, isHeld⟩ := of_find found
  exact ⟨recent.touch member (isHeld ▸ Option.some_ne_none key), perm_touch member⟩

theorem Recent.clear (recent : Recent lineup) (member : i ∈ lineup.order) : Recent (lineup.clear i) where
  nodup := (perm_clear member).nodup_iff.mpr recent.nodup
  ordered := by
    have apart : ∀ a ∈ lineup.order.erase i, a ≠ i := fun a later same =>
      (recent.nodup.mem_erase_iff.mp later).1 same
    refine List.pairwise_append.mpr ⟨?_, List.pairwise_singleton _ _, ?_⟩
    · have rest : (lineup.order.erase i).Pairwise _ := recent.ordered.sublist List.erase_sublist
      refine List.Pairwise.imp_of_mem ?_ rest
      intro a b first second ordered
      change Function.update lineup.held i none b ≠ none →
        Function.update lineup.held i none a ≠ none ∧ lineup.last b < lineup.last a
      rw [Function.update_of_ne (apart a first), Function.update_of_ne (apart b second)]
      exact ordered
    · intro a _ b isNew holds
      rw [List.mem_singleton.mp isNew] at holds
      exact absurd (Function.update_self _ _ _) holds
  past a := Nat.le_succ_of_le (recent.past a)

theorem Distinct.touch (distinct : Distinct lineup) (member : i ∈ lineup.order) :
    Distinct (lineup.touch i) := by
  intro a first b second
  exact distinct a ((perm_touch member).mem_iff.mp first) b ((perm_touch member).mem_iff.mp second)

theorem Distinct.clear (distinct : Distinct lineup) (member : i ∈ lineup.order) :
    Distinct (lineup.clear i) := by
  intro a first b second
  change Function.update lineup.held i none a ≠ none →
    Function.update lineup.held i none a = Function.update lineup.held i none b → a = b
  intro holds same
  have firstOther : a ≠ i := by
    rintro rfl
    exact holds (Function.update_self _ _ _)
  rw [Function.update_of_ne firstOther] at holds same
  have secondOther : b ≠ i := by
    rintro rfl
    rw [Function.update_self] at same
    exact holds same
  rw [Function.update_of_ne secondOther] at same
  exact distinct a ((perm_clear member).mem_iff.mp first) b ((perm_clear member).mem_iff.mp second)
    holds same

theorem Distinct.put_iff (distinct : Distinct lineup) (member : i ∈ lineup.order) (key : K) :
    Distinct (lineup.put i key) ↔ ∀ a ∈ lineup.order, lineup.held a = some key → a = i := by
  have places : ∀ a, a ∈ (lineup.put i key).order ↔ a ∈ lineup.order := fun a =>
    (perm_touch member).mem_iff
  have atPlace : (lineup.put i key).held i = some key := Function.update_self _ _ _
  have elsewhere : ∀ a, a ≠ i → (lineup.put i key).held a = lineup.held a := fun a other =>
    Function.update_of_ne other _ _
  constructor
  · intro apart a stored isHeld
    by_contra other
    rw [← elsewhere a other] at isHeld
    refine other (apart a ((places a).mpr stored) i ((places i).mpr member) ?_ ?_)
    · rw [isHeld]
      exact Option.some_ne_none key
    · rw [isHeld, atPlace]
  · intro free a first b second holds same
    rw [places] at first second
    by_cases firstNew : a = i
    · subst firstNew
      by_contra other
      rw [atPlace, elsewhere b fun again => other again.symm] at same
      exact other (free b second same.symm).symm
    · rw [elsewhere a firstNew] at holds same
      by_cases secondNew : b = i
      · subst secondNew
        rw [atPlace] at same
        exact free a first same
      · rw [elsewhere b secondNew] at same
        exact distinct a first b second holds same

section Replacement

variable {key : K}

theorem replace_eq_put (isLast : lineup.order.getLast? = some i) : lineup.replace key = lineup.put i key := by
  rw [Lineup.replace, isLast]

theorem perm_replace : (lineup.replace key).order.Perm lineup.order := by
  unfold Lineup.replace
  split
  next => exact List.Perm.refl _
  next i isLast => exact perm_touch (List.mem_of_getLast? isLast)

theorem Recent.replace (recent : Recent lineup) : Recent (lineup.replace key) := by
  unfold Lineup.replace
  split
  next => exact recent.wait
  next i isLast => exact recent.put (List.mem_of_getLast? isLast) key

theorem Distinct.replace_iff (distinct : Distinct lineup) :
    Distinct (lineup.replace key) ↔
      ∀ a ∈ lineup.order, lineup.held a = some key → lineup.order.getLast? = some a := by
  cases isLast : lineup.order.getLast? with
  | none =>
      have empty := List.getLast?_eq_none_iff.mp isLast
      rw [Lineup.replace, isLast]
      refine iff_of_true distinct fun a member => ?_
      rw [empty] at member
      cases member
  | some i =>
      rw [replace_eq_put isLast, distinct.put_iff (List.mem_of_getLast? isLast)]
      simp only [Option.some.injEq, eq_comm]

end Replacement

end GemFi.RecencyOrders
