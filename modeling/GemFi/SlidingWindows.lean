import Mathlib.Data.List.Basic
import Mathlib.Logic.Function.Basic

/-!
A window that slides along time, kept in as many cells as it is wide: a time lives in the
cell that is its remainder. While the window moves on by one, the cell of the time that
leaves it becomes that of the time that enters. A timeline is what the window shows a part
of: everything that was written, at its absolute time.
-/

namespace GemFi.SlidingWindows

universe u
variable {α : Type u}

def cell (size : Nat) (time : Int) : Nat := (time % size).toNat

section Cells

variable {size : Nat} {time other : Int}

theorem cell_eq (positive : 0 < size) : (cell size time : Int) = time % size :=
  Int.toNat_of_nonneg (Int.emod_nonneg _ (by omega))

theorem cell_lt (time : Int) (positive : 0 < size) : cell size time < size := by
  have below := Int.emod_lt_of_pos time (Int.natCast_pos.mpr positive)
  rw [← cell_eq positive] at below
  exact_mod_cast below

theorem cell_succ (positive : 0 < size) : cell size (time + 1) = (cell size time + 1) % size := by
  have here : (cell size time : Int) = time % size := cell_eq positive
  have next : (cell size (time + 1) : Int) = (time + 1) % size := cell_eq positive
  rw [← Int.emod_add_emod, ← here] at next
  exact_mod_cast next

theorem cell_inj (positive : 0 < size) (above : time - other < size) (below : other - time < size)
    (same : cell size time = cell size other) : time = other := by
  have rest : time % size = other % size := by
    rw [← cell_eq positive, ← cell_eq positive, same]
  have divides : (size : Int) ∣ time - other :=
    Int.dvd_of_emod_eq_zero (Int.emod_eq_emod_iff_emod_sub_eq_zero.mp rest)
  have zero := Int.eq_zero_of_dvd_of_natAbs_lt_natAbs divides (by omega)
  omega

end Cells

def Shows (cells : List α) (low : Int) (contents : Int → α) : Prop :=
  -- the cells show the contents of the times from `low` on
  ∀ time, low ≤ time → time < low + cells.length →
    cells[cell cells.length time]? = some (contents time)

section Shows

variable {cells : List α} {low time : Int} {contents : Int → α}

theorem Shows.fresh (value : α) (size : Nat) (low : Int) :
    Shows (List.replicate size value) low fun _ => value := by
  intro time from_ to_
  rw [List.length_replicate] at to_ ⊢
  rw [List.getElem?_replicate, if_pos (cell_lt _ (by omega))]

theorem Shows.write (shows : Shows cells low contents) (value : α) (from_ : low ≤ time)
    (to_ : time < low + cells.length) :
    Shows (cells.set (cell cells.length time) value) low (Function.update contents time value) := by
  intro other above below
  have positive : 0 < cells.length := by omega
  rw [List.length_set] at below ⊢
  by_cases same : other = time
  · subst same
    rw [Function.update_self, List.getElem?_set_self (cell_lt _ positive)]
  · have apart : cell cells.length time ≠ cell cells.length other := fun meet =>
      same (cell_inj positive (by omega) (by omega) meet).symm
    rw [Function.update_of_ne same, List.getElem?_set_ne apart]
    exact shows other above below

theorem Shows.slide (shows : Shows cells low contents) (nonempty : 0 < cells.length) :
    Shows (cells.set (cell cells.length (low + cells.length)) (contents (low + cells.length)))
      (low + 1) contents := by
  intro time above below
  rw [List.length_set] at below ⊢
  by_cases last : time = low + cells.length
  · subst last
    rw [List.getElem?_set_self (cell_lt _ nonempty)]
  · have apart : cell cells.length (low + cells.length) ≠ cell cells.length time := fun meet =>
      last (cell_inj nonempty (by omega) (by omega) meet).symm
    rw [List.getElem?_set_ne apart]
    exact shows time (by omega) (by omega)

end Shows

inductive Operation (α : Type u) where
  | write (index : Int) (value : α)
  | advance

structure Timeline (α : Type u) where
  -- the time that is now, and what was last written for each time
  now : Int
  contents : Int → α

namespace Timeline

def start (value : α) : Timeline α := ⟨0, fun _ => value⟩

def perform (timeline : Timeline α) : Operation α → Timeline α
  | .write index value =>
      { timeline with
        contents := Function.update timeline.contents (timeline.now + index) value }
  | .advance => { timeline with now := timeline.now + 1 }

def after (value : α) (operations : List (Operation α)) : Timeline α :=
  operations.foldl perform (start value)

end Timeline

end GemFi.SlidingWindows
