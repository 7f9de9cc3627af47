import Mathlib.Data.List.AList
import Mathlib.Algebra.BigOperators.Group.List.Basic

/-!
Totals over finite maps: the sum of a weight over all bindings. Counting the
bindings with some property is the total of a weight that is one or zero. The
three ways a map changes (a new key, a replaced value, an erased key) all come
down to what `erase` takes out of the total. A sum over a list moves with the
one element that is changed.
-/

namespace GemFi.AssocTotals

universe u v w
variable {Key : Type u} {Value : Type v} {Sum : Type w}
variable [DecidableEq Key] [AddCommMonoid Sum]

def total (weight : Key → Value → Sum) (map : AList fun _ : Key => Value) : Sum :=
  (map.entries.map fun entry => weight entry.1 entry.2).sum

omit [DecidableEq Key] in
@[simp] theorem total_empty (weight : Key → Value → Sum) :
    total weight (∅ : AList fun _ : Key => Value) = 0 := rfl

theorem total_split (weight : Key → Value → Sum) (map : AList fun _ : Key => Value)
    (key : Key) (value : Value) (bound : map.lookup key = some value) :
    total weight map = weight key value + total weight (map.erase key) := by
  have present : key ∈ map.entries.keys := AList.lookup_isSome.mp (by simp [bound])
  obtain ⟨value', first, second, fresh, split, erased⟩ := List.exists_of_kerase present
  have same : value' = value := by
    have found : ⟨key, value'⟩ ∈ map.entries := by simp [split]
    have looked : map.lookup key = some value' := AList.mem_lookup_iff.mpr found
    exact Option.some.inj (looked.symm.trans bound)
  subst value'
  have erasedEntries : (map.erase key).entries = first ++ second := erased
  simp only [total, erasedEntries]
  rw [split]
  simp only [List.map_append, List.map_cons, List.sum_append, List.sum_cons]
  exact add_left_comm _ _ _

@[simp] theorem total_insert (weight : Key → Value → Sum) (map : AList fun _ : Key => Value)
    (key : Key) (value : Value) :
    total weight (map.insert key value) = weight key value + total weight (map.erase key) := by
  have inserted : (map.insert key value).entries = ⟨key, value⟩ :: (map.erase key).entries :=
    AList.entries_insert
  rw [total, inserted, List.map_cons, List.sum_cons]
  rfl

theorem erase_absent (map : AList fun _ : Key => Value) (key : Key)
    (absent : map.lookup key = none) : map.erase key = map := by
  apply AList.ext
  exact List.kerase_of_notMem_keys (AList.lookup_eq_none.mp absent)

/-- What is bound after an erasure was bound before, and is not the erased key. -/
theorem lookup_of_erase {map : AList fun _ : Key => Value} {key other : Key} {value : Value}
    (bound : (map.erase key).lookup other = some value) :
    other ≠ key ∧ map.lookup other = some value := by
  by_cases same : other = key
  · rw [same, AList.lookup_erase] at bound
    cases bound
  · rw [AList.lookup_erase_ne same] at bound
    exact ⟨same, bound⟩

theorem total_congr (weight weight' : Key → Value → Sum) (map : AList fun _ : Key => Value)
    (same : ∀ key value, map.lookup key = some value → weight key value = weight' key value) :
    total weight map = total weight' map := by
  refine congrArg List.sum (List.map_congr_left fun entry member => ?_)
  exact same entry.1 entry.2 (AList.mem_lookup_iff.mpr member)

omit [DecidableEq Key] in
theorem countP_eq_total (holds : Key → Value → Bool) (map : AList fun _ : Key => Value) :
    map.entries.countP (fun entry => holds entry.1 entry.2) =
      total (fun key value => if holds key value then 1 else 0) map := by
  unfold total
  induction map.entries with
  | nil => rfl
  | cons entry rest ih =>
      rw [List.countP_cons, List.map_cons, List.sum_cons, ih, Nat.add_comm]

theorem sum_map_modify (weight : Value → Sum) (change : Value → Value) (amount : Sum)
    (moves : ∀ value, weight (change value) = weight value + amount) (values : List Value)
    (index : Nat) (within : index < values.length) :
    ((values.modify index change).map weight).sum = (values.map weight).sum + amount := by
  induction values generalizing index with
  | nil => exact absurd within (Nat.not_lt_zero index)
  | cons value rest ih =>
      cases index with
      | zero =>
          rw [List.modify_zero_cons, List.map_cons, List.map_cons, List.sum_cons, List.sum_cons,
            moves]
          exact add_right_comm _ _ _
      | succ index =>
          rw [List.modify_succ_cons, List.map_cons, List.map_cons, List.sum_cons, List.sum_cons,
            ih index (Nat.lt_of_succ_lt_succ within), add_assoc]

end GemFi.AssocTotals
