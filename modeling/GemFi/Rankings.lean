import Mathlib.Algebra.Order.Field.Basic
import Mathlib.Data.List.Infix
import Mathlib.Tactic.Linarith

/-!
Ranked lists. In a list that is in order, the elements with a property that passes to
whatever comes before are a prefix, and among the prefixes with the same harmonic mean of
precision and recall none loses by taking the relevant elements of a group first.
-/

namespace GemFi.Rankings

universe u v
variable {α : Type u} {order : α → α → Prop} {p : α → Bool} {items : List α}

def Upward (order : α → α → Prop) (p : α → Bool) : Prop :=
  ∀ a b, order a b → p b = true → p a = true

theorem filter_eq_takeWhile (ranked : items.Pairwise order) (upward : Upward order p) :
    items.filter p = items.takeWhile p := by
  induction items with
  | nil => rfl
  | cons a rest ih =>
      obtain ⟨before, rankedRest⟩ := List.pairwise_cons.mp ranked
      by_cases holds : p a = true
      · rw [List.filter_cons_of_pos holds, List.takeWhile_cons_of_pos holds, ih rankedRest]
      · rw [List.filter_cons_of_neg holds, List.takeWhile_cons_of_neg holds, List.filter_eq_nil_iff]
        intro b member holdsLater
        exact holds (upward a b (before b member) holdsLater)

theorem filter_front (ranked : items.Pairwise order) (upward : Upward order p) :
    items.filter p <+: items := by
  rw [filter_eq_takeWhile ranked upward]
  exact List.takeWhile_prefix p

section Scores

variable {β : Type v} [LinearOrder β] {score : α → β}

theorem filter_above_last {first rest : List α} {a : α}
    (ranked : (first ++ a :: rest).Pairwise fun x y => score y ≤ score x) :
    (first ++ a :: rest).filter (fun x => score a < score x) =
      first.filter fun x => score a < score x := by
  have behind := (List.pairwise_cons.mp (List.pairwise_append.mp ranked).2.1).1
  rw [List.filter_append, List.append_right_eq_self, List.filter_eq_nil_iff]
  intro x member above
  have higher : score a < score x := of_decide_eq_true above
  rcases List.mem_cons.mp member with rfl | later
  · exact lt_irrefl _ higher
  · exact absurd higher (not_lt.mpr (behind x later))

theorem last_le {first rest : List α} {a : α}
    (ranked : (first ++ a :: rest).Pairwise fun x y => score y ≤ score x) :
    ∀ x ∈ first ++ [a], score a ≤ score x := by
  intro x member
  rcases List.mem_append.mp member with before | last
  · exact (List.pairwise_append.mp ranked).2.2 x before a List.mem_cons_self
  · rw [List.mem_singleton.mp last]

end Scores

section Means

variable {K : Type v} [Field K] [LinearOrder K] [IsStrictOrderedRing K]

/-- Of `taken` elements with `hits` relevant ones among them, out of `relevant`: the harmonic mean
of precision and recall. -/
def harmonicMean (hits taken relevant : K) : K := 2 * hits / (relevant + taken)

theorem harmonicMean_le {hits taken relevant more others : K} (some : 0 < relevant)
    (hits_nonneg : 0 ≤ hits) (taken_nonneg : 0 ≤ taken) (bounded : hits ≤ relevant)
    (more_nonneg : 0 ≤ more) (others_nonneg : 0 ≤ others) :
    harmonicMean hits (taken + others) relevant ≤ harmonicMean (hits + more) (taken + more) relevant := by
  unfold harmonicMean
  rw [div_le_div_iff₀ (by linarith) (by linarith)]
  have gained : 0 ≤ more * (relevant + taken - hits) :=
    mul_nonneg more_nonneg (by linarith)
  have saved : 0 ≤ (hits + more) * others := mul_nonneg (by linarith) others_nonneg
  linarith

theorem harmonicMean_succ_ne {hits taken relevant hit : K} (some : 0 < relevant) (hits_nonneg : 0 ≤ hits)
    (bounded : hits ≤ taken) (one : hit = 0 ∨ hit = 1)
    (same : harmonicMean hits taken relevant = harmonicMean (hits + hit) (taken + 1) relevant) :
    hits + hit = 0 := by
  have first : relevant + taken ≠ 0 := by linarith
  have second : relevant + (taken + 1) ≠ 0 := by linarith
  unfold harmonicMean at same
  rw [div_eq_div_iff first second] at same
  rcases one with rfl | rfl <;> linarith

end Means

end GemFi.Rankings
