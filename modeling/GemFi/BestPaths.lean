import Mathlib.Algebra.Order.Monoid.Defs
import Mathlib.Algebra.Order.Monoid.Unbundled.Basic
import Mathlib.Data.Finset.Lattice.Fold
import Mathlib.Data.Fintype.Basic

/-!
Paths of greatest weight through a layered graph, and the path of a walker who commits to
one state at each step. The weight of a path is the product of the weights of its moves.
-/

namespace GemFi.BestPaths

universe u v
variable {State : Type u} {W : Type v}

def greedy (choose : (State → W) → State) : State → List (State → State → W) → List State
  -- the path of a walker who looks at the weights of the next moves only
  | _, [] => []
  | s, step :: steps => choose (step s) :: greedy choose (choose (step s)) steps

theorem greedy_length (choose : (State → W) → State) (s : State)
    (steps : List (State → State → W)) : (greedy choose s steps).length = steps.length := by
  induction steps generalizing s with
  | nil => rfl
  | cons step steps ih => rw [greedy, List.length_cons, List.length_cons, ih]

variable [CommMonoid W]

def weight : State → List (State → State → W) → List State → W
  | s, step :: steps, t :: path => step s t * weight t steps path
  | _, _, _ => 1

variable [Fintype State] [Nonempty State] [LinearOrder W]

def ahead : List (State → State → W) → State → W
  | [], _ => 1
  | step :: steps, s =>
      Finset.univ.sup' Finset.univ_nonempty fun t => step s t * ahead steps t

def Foresees (choose : (State → W) → State) : State → List (State → State → W) → Prop
  | _, [] => True
  | s, step :: steps =>
      (∀ t, step s t * ahead steps t ≤
        step s (choose (step s)) * ahead steps (choose (step s))) ∧
        Foresees choose (choose (step s)) steps

theorem le_ahead (step : State → State → W) (steps : List (State → State → W)) (s t : State) :
    step s t * ahead steps t ≤ ahead (step :: steps) s :=
  Finset.le_sup' (fun t => step s t * ahead steps t) (Finset.mem_univ t)

theorem exists_ahead_eq (step : State → State → W) (steps : List (State → State → W)) (s : State) :
    ∃ t, ahead (step :: steps) s = step s t * ahead steps t := by
  obtain ⟨t, _, attained⟩ := Finset.exists_mem_eq_sup' Finset.univ_nonempty
    fun t => step s t * ahead steps t
  exact ⟨t, attained⟩

theorem exists_weight_eq_ahead (s : State) (steps : List (State → State → W)) :
    ∃ path : List State, path.length = steps.length ∧ weight s steps path = ahead steps s := by
  induction steps generalizing s with
  | nil => exact ⟨[], rfl, rfl⟩
  | cons step steps ih =>
      obtain ⟨t, attained⟩ := exists_ahead_eq step steps s
      obtain ⟨path, long, best⟩ := ih t
      exact ⟨t :: path, congrArg Nat.succ long, by rw [weight, best, attained]⟩

variable [IsOrderedCancelMonoid W]

theorem weight_le_ahead (s : State) (steps : List (State → State → W)) (path : List State)
    (long : path.length = steps.length) : weight s steps path ≤ ahead steps s := by
  induction steps generalizing s path with
  | nil => cases path <;> exact le_rfl
  | cons step steps ih =>
      cases path with
      | nil => exact absurd long (Nat.succ_ne_zero _).symm
      | cons t path =>
          have tail := ih t path (Nat.succ_injective long)
          exact (mul_le_mul_right tail (step s t)).trans (le_ahead step steps s t)

theorem weight_greedy_iff (choose : (State → W) → State) (s : State)
    (steps : List (State → State → W)) :
    weight s steps (greedy choose s steps) = ahead steps s ↔ Foresees choose s steps := by
  induction steps generalizing s with
  | nil => exact iff_of_true rfl trivial
  | cons step steps ih =>
      have tail := weight_le_ahead (choose (step s)) steps _
        (greedy_length choose (choose (step s)) steps)
      have here := le_ahead step steps s (choose (step s))
      rw [greedy, weight, Foresees, ← ih]
      constructor
      · intro best
        have same := le_antisymm here (best.symm.trans_le (mul_le_mul_right tail _))
        refine ⟨fun t => same ▸ le_ahead step steps s t, ?_⟩
        exact mul_left_cancel (best.trans same.symm)
      · rintro ⟨foreseen, best⟩
        obtain ⟨t, attained⟩ := exists_ahead_eq step steps s
        rw [best]
        exact le_antisymm here (attained.trans_le (foreseen t))

theorem greedy_best_iff (choose : (State → W) → State) (s : State)
    (steps : List (State → State → W)) :
    (∀ path : List State, path.length = steps.length →
      weight s steps path ≤ weight s steps (greedy choose s steps)) ↔
      Foresees choose s steps := by
  rw [← weight_greedy_iff]
  constructor
  · intro best
    obtain ⟨path, long, attained⟩ := exists_weight_eq_ahead s steps
    refine le_antisymm (weight_le_ahead s steps _ (greedy_length choose s steps)) ?_
    exact attained.symm.trans_le (best path long)
  · intro best path long
    exact (weight_le_ahead s steps path long).trans_eq best.symm

end GemFi.BestPaths
