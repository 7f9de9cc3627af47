import Mathlib.Data.List.Basic
import Mathlib.Order.Defs.PartialOrder

/-!
Comparison functions as the C library takes them: negative, zero or positive as the
first of two elements goes before, beside or behind the second. What a sort does is
only defined for a comparison that is consistent on the elements it is given.
-/

namespace GemFi.Comparators

universe u v
variable {α : Type u} {κ : Type v}

structure Consistent (compare : α → α → Int) (elements : List α) : Prop where
  opposed : ∀ a ∈ elements, ∀ b ∈ elements, 0 < compare a b ↔ compare b a < 0
  trans : ∀ a ∈ elements, ∀ b ∈ elements, ∀ c ∈ elements,
    compare a b ≤ 0 → compare b c ≤ 0 → compare a c ≤ 0

def Descending [LE κ] (compare : α → α → Int) (key : α → κ) (elements : List α) : Prop :=
  ∀ a ∈ elements, ∀ b ∈ elements, compare a b ≤ 0 ↔ key b ≤ key a

def Sorts (sort : (α → α → Int) → List α → List α) : Prop :=
  ∀ compare elements, Consistent compare elements →
    (sort compare elements).Perm elements ∧
      (sort compare elements).Pairwise fun a b => compare a b ≤ 0

variable {compare : α → α → Int} {elements : List α} {key : α → κ}

/-- Of a comparison that follows a key in descending order, only the opposition is left to
show. -/
theorem Descending.consistent [Preorder κ] (descending : Descending compare key elements)
    (opposed : ∀ a ∈ elements, ∀ b ∈ elements, 0 < compare a b ↔ compare b a < 0) :
    Consistent compare elements where
  opposed := opposed
  trans a inA b inB c inC first second := by
    have upper := (descending a inA b inB).mp first
    have lower := (descending b inB c inC).mp second
    exact (descending a inA c inC).mpr (le_trans lower upper)

theorem Descending.sorted [Preorder κ] (descending : Descending compare key elements)
    (consistent : Consistent compare elements) {sort : (α → α → Int) → List α → List α}
    (sorts : Sorts sort) : ((sort compare elements).map key).Pairwise (· ≥ ·) := by
  obtain ⟨perm, ordered⟩ := sorts compare elements consistent
  rw [List.pairwise_map]
  apply ordered.imp_of_mem
  intro a b inA inB before
  exact (descending a (perm.mem_iff.mp inA) b (perm.mem_iff.mp inB)).mp before

end GemFi.Comparators
