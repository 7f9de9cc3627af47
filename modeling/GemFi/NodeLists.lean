import Mathlib.Data.List.Nodup
import Mathlib.Logic.Function.Basic
import Mathlib.Tactic.Common

/-!
Lists whose elements know where they stand. Each element has a node of its own, and each item
keeps an iterator, the node that it was given last; a node is never used twice, so an iterator
that has become stale designates nothing.
-/

namespace GemFi.NodeLists

universe u
variable {ι : Type u}

abbrev NodeList (ι : Type u) := List (Nat × ι)

def items (list : NodeList ι) : List ι := list.map Prod.snd

/-- `erase` of the node that an iterator designates, if it does. -/
def erase (list : NodeList ι) (iterator : Option Nat) : Option (NodeList ι) :=
  match iterator with
  | none => none
  | some node =>
      if node ∈ list.map Prod.fst then some (list.filter fun entry => entry.1 ≠ node) else none

def deref (list : NodeList ι) (iterator : Option Nat) : Option ι :=
  match iterator with
  | none => none
  | some node => (list.find? fun entry => entry.1 = node).map Prod.snd

structure Linked (list : NodeList ι) (iter : ι → Option Nat) (next : Nat) : Prop where
  -- each item of the list stands at its own iterator; nodes from `next` on are not used yet
  nodup : (items list).Nodup
  own : ∀ node i, (node, i) ∈ list → iter i = some node
  used : ∀ i node, iter i = some node → node < next
  apart : ∀ i j node, iter i = some node → (node, j) ∈ list → j = i

variable {list before after erased : NodeList ι} {iter iter' : ι → Option Nat} {next next' : Nat} {i j : ι}

@[simp] theorem items_nil : items ([] : NodeList ι) = [] := rfl

@[simp] theorem items_append : items (before ++ after) = items before ++ items after :=
  List.map_append

@[simp] theorem items_cons {entry : Nat × ι} : items (entry :: list) = entry.2 :: items list := rfl

@[simp] theorem items_length : (items list).length = list.length := List.length_map _

theorem mem_items_iff : i ∈ items list ↔ ∃ node, (node, i) ∈ list := by
  simp [items]

namespace Linked

theorem nil (next : Nat) : Linked ([] : NodeList ι) (fun _ => none) next where
  nodup := List.nodup_nil
  own := fun _ _ member => absurd member List.not_mem_nil
  used := fun _ _ isIter => nomatch isIter
  apart := fun _ _ _ isIter => nomatch isIter

/-- The list and the iterators of its items are all that counts. -/
theorem congr (linked : Linked list iter next) (same : ∀ i, iter' i = iter i) (later : next ≤ next') :
    Linked list iter' next' := by
  have equal : iter' = iter := funext same
  subst equal
  exact ⟨linked.nodup, linked.own,
    fun i node isIter => Nat.lt_of_lt_of_le (linked.used i node isIter) later, linked.apart⟩

/-- An item that is not in the list enters it with a fresh node. -/
theorem insert [DecidableEq ι] (linked : Linked (before ++ after) iter next)
    (absent : i ∉ items (before ++ after)) :
    Linked (before ++ (next, i) :: after) (Function.update iter i (some next)) (next + 1) := by
  have kept : ∀ node j, (node, j) ∈ before ++ after → j ≠ i :=
    fun node j member same => absent (mem_items_iff.mpr ⟨node, same ▸ member⟩)
  have entries : ∀ node j, (node, j) ∈ before ++ (next, i) :: after ↔
      (node = next ∧ j = i) ∨ (node, j) ∈ before ++ after := by
    intro node j
    simp only [List.mem_append, List.mem_cons, Prod.mk.injEq]
    exact or_left_comm
  constructor
  · have rotated : (items (before ++ (next, i) :: after)).Perm (i :: items (before ++ after)) := by
      rw [items_append, items_append, items_cons]
      exact List.perm_middle
    exact rotated.nodup_iff.mpr (List.nodup_cons.mpr ⟨absent, linked.nodup⟩)
  · intro node j member
    rcases (entries node j).mp member with ⟨rfl, rfl⟩ | old
    · exact Function.update_self _ _ _
    · rw [Function.update_of_ne (kept node j old)]
      exact linked.own node j old
  · intro j node isIter
    by_cases same : j = i
    · subst same
      rw [Function.update_self] at isIter
      cases isIter
      exact Nat.lt_succ_self _
    · rw [Function.update_of_ne same] at isIter
      exact Nat.lt_succ_of_lt (linked.used j node isIter)
  · intro j k node isIter member
    by_cases same : j = i
    · subst same
      rw [Function.update_self] at isIter
      cases isIter
      rcases (entries next k).mp member with ⟨_, isNew⟩ | old
      · exact isNew
      · exact absurd (linked.used k next (linked.own next k old)) (Nat.lt_irrefl _)
    · rw [Function.update_of_ne same] at isIter
      rcases (entries node k).mp member with ⟨rfl, _⟩ | old
      · exact absurd (linked.used j _ isIter) (Nat.lt_irrefl _)
      · exact linked.apart j k node isIter old

theorem sublist (linked : Linked list iter next) (fewer : erased.Sublist list) :
    Linked erased iter next where
  nodup := linked.nodup.sublist (fewer.map Prod.snd)
  own := fun node i member => linked.own node i (fewer.subset member)
  used := linked.used
  apart := fun i j node isIter member => linked.apart i j node isIter (fewer.subset member)

theorem fst_eq_iff (linked : Linked list iter next) {entry : Nat × ι} {node : Nat}
    (member : entry ∈ list) (isIter : iter i = some node) : entry.1 = node ↔ entry.2 = i := by
  constructor
  · rintro rfl
    exact linked.apart i entry.2 entry.1 isIter member
  · rintro rfl
    have own := linked.own entry.1 entry.2 member
    rw [isIter] at own
    exact (Option.some.inj own).symm

theorem erase_eq_some [DecidableEq ι] (linked : Linked list iter next)
    (isErased : erase list (iter i) = some erased) :
    i ∈ items list ∧ items erased = (items list).erase i ∧ erased.Sublist list := by
  unfold erase at isErased
  split at isErased
  · cases isErased
  next node isIter =>
    split at isErased
    next found =>
      cases isErased
      obtain ⟨entry, member, here⟩ := List.mem_map.mp found
      have isItem := (linked.fst_eq_iff member isIter).mp here
      have same : list.filter (fun entry => entry.1 ≠ node) =
          list.filter ((fun j => j != i) ∘ Prod.snd) := by
        apply List.filter_congr
        intro entry member
        have designates := linked.fst_eq_iff member isIter
        simp only [ne_eq, decide_not, Function.comp_apply, bne, designates, beq_eq_decide]
      refine ⟨mem_items_iff.mpr ⟨entry.1, by rw [← isItem]; exact member⟩, ?_, List.filter_sublist⟩
      rw [same, items, ← List.filter_map, linked.nodup.erase_eq_filter, items]
    · cases isErased

theorem erase_cases [DecidableEq ι] (linked : Linked list iter next) (i : ι) :
    (erase list (iter i) = none ∧ i ∉ items list) ∨
      ∃ erased, erase list (iter i) = some erased ∧ i ∈ items list ∧
        items erased = (items list).erase i ∧ erased.Sublist list := by
  cases isErased : erase list (iter i) with
  | some erased => exact Or.inr ⟨erased, rfl, linked.erase_eq_some isErased⟩
  | none =>
      refine Or.inl ⟨rfl, fun listed => ?_⟩
      obtain ⟨node, isEntry⟩ := mem_items_iff.mp listed
      have found : node ∈ list.map Prod.fst := List.mem_map.mpr ⟨(node, i), isEntry, rfl⟩
      rw [linked.own node i isEntry, erase, if_pos found] at isErased
      cases isErased

theorem deref_iter (linked : Linked list iter next) (member : i ∈ items list) :
    deref list (iter i) = some i := by
  obtain ⟨node, isEntry⟩ := mem_items_iff.mp member
  have isIter := linked.own node i isEntry
  rw [isIter, deref]
  cases found : list.find? fun entry => entry.1 = node with
  | none =>
      have missing := List.find?_eq_none.mp found (node, i) isEntry
      simp at missing
  | some entry =>
      have here : entry.1 = node := by simpa using List.find?_some found
      have isItem := (linked.fst_eq_iff (List.mem_of_find?_eq_some found) isIter).mp here
      exact congrArg some isItem

end Linked

end GemFi.NodeLists
