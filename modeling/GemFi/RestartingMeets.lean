import Mathlib.Order.BoundedOrder.Lattice
import Mathlib.Data.List.Forall2
import Mathlib.Data.List.Induction

/-!
A running meet that takes the bottom element for "nothing read yet". It agrees with
the meet of all values until the meet is bottom, and then begins again with the next
value. The values so divide into groups, each ended by the first value that brings
the meet of its group to bottom, and what is left behind the last group.
-/

namespace GemFi.RestartingMeets

variable {α : Type*} [SemilatticeInf α] [OrderBot α]

def meets : List α → α
  -- the meet of a list, where an empty list has none
  | [] => ⊥
  | first :: rest => rest.foldl (· ⊓ ·) first

omit [OrderBot α] in
theorem le_foldl_inf_iff {x first : α} {rest : List α} :
    x ≤ rest.foldl (· ⊓ ·) first ↔ x ≤ first ∧ ∀ s ∈ rest, x ≤ s := by
  induction rest generalizing first with
  | nil => simp
  | cons second rest ih =>
      rw [List.foldl_cons, ih, le_inf_iff, List.forall_mem_cons, and_assoc]

theorem le_meets_iff {x : α} {sets : List α} (some : sets ≠ []) :
    x ≤ meets sets ↔ ∀ s ∈ sets, x ≤ s := by
  cases sets with
  | nil => exact absurd rfl some
  | cons first rest => rw [meets, le_foldl_inf_iff, List.forall_mem_cons]

theorem meets_concat {sets : List α} (some : sets ≠ []) (s : α) :
    meets (sets ++ [s]) = meets sets ⊓ s := by
  cases sets with
  | nil => exact absurd rfl some
  | cons first rest => simp [meets, List.foldl_append]

theorem meets_map_meets {groups : List (List α)} (some : ∀ g ∈ groups, g ≠ []) :
    meets (groups.map meets) = meets groups.flatten := by
  by_cases none : groups = []
  · subst none
    rfl
  · have mapped : groups.map meets ≠ [] := by simpa using none
    have flat : groups.flatten ≠ [] := by
      obtain ⟨g, member⟩ := List.exists_mem_of_ne_nil groups none
      intro empty
      exact some g member (List.flatten_eq_nil_iff.mp empty g member)
    apply eq_of_forall_le_iff
    intro x
    rw [le_meets_iff mapped, le_meets_iff flat]
    constructor
    · intro below s member
      obtain ⟨g, inGroups, inGroup⟩ := List.mem_flatten.mp member
      exact (le_meets_iff (some g inGroups)).mp (below _ (List.mem_map_of_mem inGroups)) s inGroup
    · intro below m member
      obtain ⟨g, inGroups, rfl⟩ := List.mem_map.mp member
      exact (le_meets_iff (some g inGroups)).mpr fun s inGroup =>
        below s (List.mem_flatten.mpr ⟨g, inGroups, inGroup⟩)

def Open (group : List α) : Prop := group = [] ∨ meets group ≠ ⊥

structure Closes (group : List α) : Prop where
  some : group ≠ []
  bottom : meets group = ⊥
  before : Open group.dropLast

def Leaves (sets left : List α) : Prop :=
  -- behind groups that have closed, `left` is still open
  ∃ groups : List (List α), (∀ g ∈ groups, Closes g) ∧ Open left ∧ sets = groups.flatten ++ left

theorem Open.meets_eq_bot_iff {group : List α} (isOpen : Open group) :
    meets group = ⊥ ↔ group = [] := by
  constructor
  · intro bottom
    exact isOpen.resolve_right (not_not.mpr bottom)
  · rintro rfl
    rfl

theorem Open.of_concat {group : List α} {s : α} (isOpen : Open (group ++ [s])) : Open group := by
  by_cases none : group = []
  · exact .inl none
  · rcases isOpen with empty | above
    · simp at empty
    · refine .inr (fun bottom => above ?_)
      rw [meets_concat none, bottom, bot_inf_eq]

section Running

variable [DecidableEq α]

def restart (common s : α) : α := if common = ⊥ then s else common ⊓ s

def running (sets : List α) : α := sets.foldl restart ⊥

theorem running_concat (sets : List α) (s : α) : running (sets ++ [s]) = restart (running sets) s := by
  rw [running, running, List.foldl_append]
  rfl

theorem restart_meets {group : List α} (isOpen : Open group) (s : α) :
    restart (meets group) s = meets (group ++ [s]) := by
  unfold restart
  by_cases none : group = []
  · subst none
    simp [meets]
  · rw [if_neg (mt isOpen.meets_eq_bot_iff.mp none), meets_concat none]

theorem running_open (group : List α) (isOpen : Open group) : running group = meets group := by
  induction group using List.reverseRecOn with
  | nil => rfl
  | append_singleton group s ih =>
      rw [running_concat, ih isOpen.of_concat, restart_meets isOpen.of_concat]

theorem running_closes {group : List α} (closes : Closes group) : running group = ⊥ := by
  obtain ⟨before, last, rfl⟩ := (List.eq_nil_or_concat' group).resolve_left closes.some
  have isOpen : Open before := by simpa using closes.before
  rw [running_concat, running_open before isOpen, restart_meets isOpen, closes.bottom]

theorem running_of_leaves {sets left : List α} (leaves : Leaves sets left) :
    running sets = meets left := by
  obtain ⟨groups, closed, isOpen, rfl⟩ := leaves
  induction groups with
  | nil => exact running_open left isOpen
  | cons group rest ih =>
      obtain ⟨closes, others⟩ := List.forall_mem_cons.mp closed
      have spent : group.foldl restart ⊥ = ⊥ := running_closes closes
      rw [← ih others, List.flatten_cons, List.append_assoc, running, List.foldl_append, spent]
      rfl

theorem exists_leaves (sets : List α) : ∃ left, Leaves sets left := by
  induction sets using List.reverseRecOn with
  | nil => exact ⟨[], [], by simp, .inl rfl, rfl⟩
  | append_singleton sets s ih =>
      obtain ⟨left, groups, closed, isOpen, rfl⟩ := ih
      by_cases bottom : meets (left ++ [s]) = ⊥
      · refine ⟨[], groups ++ [left ++ [s]], ?_, .inl rfl, by simp⟩
        intro g member
        rcases List.mem_append.mp member with old | new
        · exact closed g old
        · rw [List.mem_singleton.mp new]
          exact ⟨by simp, bottom, by simpa using isOpen⟩
      · exact ⟨left ++ [s], groups, closed, .inr bottom, by simp⟩

theorem running_eq_bot_iff (sets : List α) : running sets = ⊥ ↔ Leaves sets [] := by
  constructor
  · intro bottom
    obtain ⟨left, leaves⟩ := exists_leaves sets
    have isOpen : Open left := leaves.choose_spec.2.1
    have none : left = [] := by
      rw [← isOpen.meets_eq_bot_iff, ← running_of_leaves leaves, bottom]
    exact none ▸ leaves
  · intro leaves
    exact running_of_leaves leaves

end Running

section Nested

variable [DecidableEq α]

def restartWith (common one : α) : α :=
  -- the same over the results of several lists, where a list without a result is passed over
  if common = ⊥ then one else if one ≠ ⊥ then common ⊓ one else common

theorem foldl_restartWith (results : List α) (common : α) :
    results.foldl restartWith common = (results.filter (· ≠ ⊥)).foldl restart common := by
  induction results generalizing common with
  | nil => rfl
  | cons one rest ih =>
      rw [List.foldl_cons, ih]
      by_cases bottom : one = ⊥
      · have same : restartWith common one = common := by
          unfold restartWith
          split
          · next none => rw [bottom, none]
          · rw [if_neg (not_not.mpr bottom)]
        rw [same, List.filter_cons_of_neg (by simpa using bottom)]
      · have same : restartWith common one = restart common one := by
          simp [restartWith, restart, bottom]
        rw [same, List.filter_cons_of_pos (by simpa using bottom), List.foldl_cons]

theorem results_of_leaves {lists lefts : List (List α)} (leaves : List.Forall₂ Leaves lists lefts) :
    (lists.map running).filter (· ≠ ⊥) = (lefts.filter (· ≠ [])).map meets := by
  induction leaves with
  | nil => rfl
  | @cons sets left lists lefts head tail ih =>
      obtain ⟨groups, closed, isOpen, split⟩ := head
      have result : running sets = meets left := running_of_leaves ⟨groups, closed, isOpen, split⟩
      by_cases none : left = []
      · have bottom := isOpen.meets_eq_bot_iff.mpr none
        simpa [result, none, meets] using ih
      · have above : meets left ≠ ⊥ := mt isOpen.meets_eq_bot_iff.mp none
        simpa [result, none, above] using ih

theorem exists_all_leaves (lists : List (List α)) : ∃ lefts, List.Forall₂ Leaves lists lefts := by
  induction lists with
  | nil => exact ⟨[], .nil⟩
  | cons sets rest ih =>
      obtain ⟨left, leaves⟩ := exists_leaves sets
      obtain ⟨lefts, others⟩ := ih
      exact ⟨left :: lefts, .cons leaves others⟩

/-- Nothing is left of the meets of what the lists have left. -/
def AllSpent (lists : List (List α)) : Prop :=
  ∃ lefts, List.Forall₂ Leaves lists lefts ∧ Leaves ((lefts.filter (· ≠ [])).map meets) []

theorem nested_eq_bot_iff (lists : List (List α)) :
    (lists.map running).foldl restartWith ⊥ = ⊥ ↔ AllSpent lists := by
  rw [foldl_restartWith]
  constructor
  · intro bottom
    obtain ⟨lefts, leaves⟩ := exists_all_leaves lists
    refine ⟨lefts, leaves, (running_eq_bot_iff _).mp ?_⟩
    rw [← results_of_leaves leaves]
    exact bottom
  · rintro ⟨lefts, leaves, spent⟩
    rw [results_of_leaves leaves]
    exact (running_eq_bot_iff _).mpr spent

theorem nested_of_ne_bot (lists : List (List α)) (above : meets lists.flatten ≠ ⊥) :
    (lists.map running).foldl restartWith ⊥ = meets lists.flatten := by
  have flat : lists.flatten ≠ [] := by
    rintro empty
    rw [empty] at above
    exact above rfl
  have keeps : List.Forall₂ Leaves lists lists := by
    rw [List.forall₂_same]
    intro sets member
    refine ⟨[], by simp, ?_, rfl⟩
    by_cases none : sets = []
    · exact .inl none
    · refine .inr (fun bottom => above (le_bot_iff.mp ?_))
      rw [← bottom, le_meets_iff none]
      intro s inSets
      exact (le_meets_iff flat).mp le_rfl s (List.mem_flatten.mpr ⟨sets, member, inSets⟩)
  have same : meets ((lists.filter (· ≠ [])).map meets) = meets lists.flatten := by
    rw [meets_map_meets (by simp), List.flatten_filter_ne_nil]
  rw [foldl_restartWith, results_of_leaves keeps]
  refine Eq.trans (running_open _ (.inr ?_)) same
  rwa [same]

/-- The nested running meet is right as long as there is a common part, or
nothing of the values is left at the end. -/
theorem nested_eq_meets_iff (lists : List (List α)) :
    (lists.map running).foldl restartWith ⊥ = meets lists.flatten ↔
      meets lists.flatten ≠ ⊥ ∨ AllSpent lists := by
  by_cases bottom : meets lists.flatten = ⊥
  · rw [bottom, nested_eq_bot_iff]
    exact (or_iff_right (not_not.mpr rfl)).symm
  · exact iff_of_true (nested_of_ne_bot lists bottom) (.inl bottom)

end Nested

end GemFi.RestartingMeets
