import Mathlib.Data.List.Induction

/-!
Of the elements of a list that have a key in common, the first. The list is read from the
left, and an element is kept unless its key has been seen.
-/

namespace GemFi.FirstOfEach

universe u v
variable {α : Type u} {κ : Type v} [DecidableEq κ] {key : α → κ}

def keep (key : α → κ) (kept : List α) (a : α) : List α :=
  -- an element comes after those that are kept
  if key a ∈ kept.map key then kept else kept ++ [a]

def firsts (key : α → κ) (items : List α) : List α := items.foldl (keep key) []

theorem firsts_concat (items : List α) (a : α) :
    firsts key (items ++ [a]) = keep key (firsts key items) a := by
  rw [firsts, List.foldl_append]
  rfl

theorem mem_keys_firsts_iff (items : List α) (t : κ) :
    t ∈ (firsts key items).map key ↔ t ∈ items.map key := by
  induction items using List.reverseRecOn with
  | nil => rfl
  | append_singleton items a ih =>
      rw [firsts_concat, keep, List.map_append, List.mem_append, List.map_singleton,
        List.mem_singleton, ← ih]
      split
      next seen =>
        constructor
        · exact Or.inl
        · rintro (earlier | rfl)
          · exact earlier
          · exact seen
      next => rw [List.map_append, List.mem_append, List.map_singleton, List.mem_singleton]

theorem mem_firsts_iff (items : List α) (a : α) :
    a ∈ firsts key items ↔ items.find? (fun b => key b = key a) = some a := by
  induction items using List.reverseRecOn with
  | nil => simp [firsts]
  | append_singleton items b ih =>
      rw [firsts_concat, keep, List.find?_append]
      have seenIff : key b ∈ (firsts key items).map key ↔ key b ∈ items.map key :=
        mem_keys_firsts_iff items (key b)
      by_cases earlier : key a ∈ items.map key
      · -- the search ends before it comes to the last element
        obtain ⟨c, inItems, same⟩ := List.mem_map.mp earlier
        have found : (items.find? fun b => key b = key a).isSome := by
          rw [List.find?_isSome]
          exact ⟨c, inItems, decide_eq_true same⟩
        obtain ⟨first, isFirst⟩ := Option.isSome_iff_exists.mp found
        rw [isFirst, Option.some_or, ← isFirst, ← ih]
        split
        · rfl
        next fresh =>
          have other : a ≠ b := fun isLast => fresh (seenIff.mpr (isLast ▸ earlier))
          rw [List.mem_append, List.mem_singleton, or_iff_left other]
      · have absent : (items.find? fun b => key b = key a) = none := by
          rw [List.find?_eq_none]
          intro c inItems same
          exact earlier (List.mem_map.mpr ⟨c, inItems, of_decide_eq_true same⟩)
        have notKept : a ∉ firsts key items := by
          rw [ih, absent]
          exact Option.some_ne_none a ∘ Eq.symm
        rw [absent, Option.none_or, List.find?_singleton]
        split
        next seen =>
          have other : key b ≠ key a := fun same => earlier (same ▸ seenIff.mp seen)
          rw [if_neg (by simpa using other)]
          exact iff_of_false notKept (Option.some_ne_none a ∘ Eq.symm)
        next =>
          rw [List.mem_append, List.mem_singleton, or_iff_right notKept]
          by_cases same : key b = key a
          · rw [if_pos (by simpa using same), Option.some.injEq, eq_comm]
          · rw [if_neg (by simpa using same)]
            exact iff_of_false (fun isLast => same (congrArg key isLast).symm)
              (Option.some_ne_none a ∘ Eq.symm)

theorem key_of_find {items : List α} {a : α} {t : κ}
    (search : items.find? (fun b => key b = t) = some a) : key a = t := by
  have holds := List.find?_some search
  exact of_decide_eq_true holds

end GemFi.FirstOfEach
