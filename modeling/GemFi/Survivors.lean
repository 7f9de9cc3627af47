import Mathlib.Data.List.Induction
import Mathlib.Tactic.Common

/-!
Events that add items and events that end them. What is held after a history of events is
what some event added and no later one has ended.
-/

namespace GemFi.Survivors

universe u v
variable {Event : Type u} {ι : Type v} (adds : Event → Option ι) (ends : Event → ι → Bool)

def after (items : List ι) (event : Event) : List ι :=
  -- what is held after one more event
  (adds event).toList ++ items.filter fun item => !ends event item

def held (events : List Event) : List ι := events.foldl (after adds ends) []

variable {adds ends} {events : List Event} {event : Event} {item : ι}

@[simp] theorem held_append : held adds ends (events ++ [event]) =
    after adds ends (held adds ends events) event := by
  simp [held]

theorem mem_held_iff : item ∈ held adds ends events ↔
    ∃ before event later, events = before ++ event :: later ∧ adds event = some item ∧
      ∀ other ∈ later, ends other item = false := by
  induction events using List.reverseRecOn with
  | nil => simp [held]
  | append_singleton events last ih =>
      rw [held_append, after, List.mem_append, List.mem_filter, Option.mem_toList, ih]
      constructor
      · rintro (added | ⟨⟨before, event, later, rfl, added, survives⟩, kept⟩)
        · exact ⟨events, last, [], rfl, added, by simp⟩
        · refine ⟨before, event, later ++ [last], by simp, added, ?_⟩
          intro other member
          rcases List.mem_append.mp member with earlier | isLast
          · exact survives other earlier
          · rw [List.mem_singleton.mp isLast]
            simpa using kept
      · rintro ⟨before, event, later, split, added, survives⟩
        cases later using List.reverseRecOn with
        | nil =>
            obtain ⟨_, same⟩ := List.append_inj' split rfl
            cases same
            exact Or.inl added
        | append_singleton later other =>
            rw [← List.cons_append, ← List.append_assoc] at split
            obtain ⟨rfl, same⟩ := List.append_inj' split rfl
            cases same
            refine Or.inr ⟨⟨before, event, later, rfl, added, ?_⟩, ?_⟩
            · exact fun other member => survives other (List.mem_append_left _ member)
            · simpa using survives last (by simp)

end GemFi.Survivors
