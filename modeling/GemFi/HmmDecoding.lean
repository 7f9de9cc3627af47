import Mathlib.Algebra.Order.Field.Rat
import Mathlib.Algebra.Order.Positive.Ring
import GemFi.BestPaths

/-!
The decoding of hmmVirtLog.m, with products in the place of the sums of logarithms. At each
step the likelier state is entered in X, and the vector goes on from this state alone.
-/

namespace GemFi.HmmDecoding

open BestPaths

abbrev Likelihood := {q : ℚ // 0 < q}

/-- A column of two rows; `true` is the first row, for which X is 1. -/
abbrev Column := Bool → Likelihood

def commit (PrX : Column) : Bool := PrX true = max (PrX true) (PrX false)

/-- The loop of `hmmVirtLog` from its second round, with the rest of X and of xProb.
`transModel i` is the column of state i. -/
def hmmLoop (transModel : Bool → Column) : Column → List Column → List Bool × List Column
  | PrX, [] => ([commit PrX], [PrX])
  | PrX, sensor :: sensors =>
      let curProb := PrX (commit PrX)
      let next : Column := fun j => curProb * transModel (commit PrX) j * sensor j
      let rest := hmmLoop transModel next sensors
      (commit PrX :: rest.1, next :: rest.2)

/-- `hmmVirtLog`, for a sensor model of at least one column. -/
def hmmVirtLog (pr0 : Column) (transModel : Bool → Column) (sensor : Column)
    (sensors : List Column) : List Bool × List Column :=
  let PrX : Column := fun j => sensor j * pr0 j
  let rest := hmmLoop transModel PrX sensors
  (rest.1, PrX :: rest.2)

def jointFrom (transModel : Bool → Column) : Bool → List Column → List Bool → Likelihood
  -- the joint probability of the states behind one of them and of what is sensed there
  | i, sensor :: sensors, j :: states =>
      transModel i j * sensor j * jointFrom transModel j sensors states
  | _, _, _ => 1

def joint (pr0 : Column) (transModel : Bool → Column) (sensor : Column) (sensors : List Column) :
    List Bool → Likelihood
  | [] => 1
  | j :: states => pr0 j * sensor j * jointFrom transModel j sensors states

/-- No sequence of states of the length has a greater joint probability. -/
structure MostLikely (pr0 : Column) (transModel : Bool → Column) (sensor : Column)
    (sensors : List Column) (states : List Bool) : Prop where
  long : states.length = sensors.length + 1
  best : ∀ others : List Bool, others.length = sensors.length + 1 →
    joint pr0 transModel sensor sensors others ≤ joint pr0 transModel sensor sensors states

def moves (pr0 : Column) (transModel : Bool → Column) (sensor : Column) (sensors : List Column) :
    List (Bool → Bool → Likelihood) :=
  -- the moves of a sequence of states, from before its first one
  (fun _ j => pr0 j * sensor j) :: sensors.map fun sensor i j => transModel i j * sensor j

section Loops

variable {pr0 : Column} {transModel : Bool → Column}

theorem commit_mul (c : Likelihood) (column : Column) :
    commit (fun j => c * column j) = commit column := by
  unfold commit
  rw [decide_eq_decide, left_eq_sup, left_eq_sup]
  exact mul_le_mul_iff_left c

theorem hmmLoop_eq (PrX : Column) (sensors : List Column) :
    (hmmLoop transModel PrX sensors).1 =
      commit PrX :: greedy commit (commit PrX)
        (sensors.map fun sensor i j => transModel i j * sensor j) := by
  induction sensors generalizing PrX with
  | nil => rfl
  | cons sensor sensors ih =>
      have next : commit (fun j => PrX (commit PrX) * transModel (commit PrX) j * sensor j) =
          commit fun j => transModel (commit PrX) j * sensor j := by
        rw [← commit_mul (PrX (commit PrX)) fun j => transModel (commit PrX) j * sensor j]
        simp only [mul_assoc]
      rw [hmmLoop]
      dsimp only
      rw [ih, next, List.map_cons, greedy]

theorem hmmVirtLog_eq (sensor : Column) (sensors : List Column) :
    (hmmVirtLog pr0 transModel sensor sensors).1 =
      greedy commit true (moves pr0 transModel sensor sensors) := by
  have first : (fun j => sensor j * pr0 j) = fun j => pr0 j * sensor j :=
    funext fun j => mul_comm _ _
  rw [hmmVirtLog, hmmLoop_eq, first]
  rfl

theorem jointFrom_eq (i : Bool) (sensors : List Column) (states : List Bool) :
    jointFrom transModel i sensors states =
      weight i (sensors.map fun sensor i j => transModel i j * sensor j) states := by
  induction sensors generalizing i states with
  | nil => rfl
  | cons sensor sensors ih =>
      cases states with
      | nil => rfl
      | cons j states => rw [jointFrom, List.map_cons, weight, ih]

theorem joint_eq (sensor : Column) (sensors : List Column) (states : List Bool) :
    joint pr0 transModel sensor sensors states =
      weight true (moves pr0 transModel sensor sensors) states := by
  cases states with
  | nil => rfl
  | cons j states => rw [joint, jointFrom_eq, moves, weight]

end Loops

section Results

/-- X has the greatest joint probability if and only if at each step the state that is likelier,
given the state before, also begins a most likely rest. -/
theorem mostLikely_iff (pr0 : Column) (transModel : Bool → Column) (sensor : Column)
    (sensors : List Column) :
    MostLikely pr0 transModel sensor sensors (hmmVirtLog pr0 transModel sensor sensors).1 ↔
      Foresees commit true (moves pr0 transModel sensor sensors) := by
  have size : (moves pr0 transModel sensor sensors).length = sensors.length + 1 := by
    rw [moves, List.length_cons, List.length_map]
  rw [← greedy_best_iff, size, hmmVirtLog_eq]
  simp only [← joint_eq]
  constructor
  · exact fun likely => likely.best
  · exact fun best => ⟨(greedy_length commit true _).trans size, best⟩

def tenths (n : Nat) (some : 0 < n) : Likelihood := ⟨n / 10, div_pos (Nat.cast_pos.mpr some) (Nat.ofNat_pos)⟩

def column (first second : Nat) (some : 0 < first ∧ 0 < second) : Column
  | true => tenths first some.1
  | false => tenths second some.2

def lateBloomer : Bool → Column
  | true => column 5 5 (by decide)
  | false => column 1 9 (by decide)

/-- The decoding commits to the first state, and the sequence that stays in the second is more
likely than the one returned. -/
theorem lateBloomer_not_mostLikely :
    ¬MostLikely (column 6 4 (by decide)) lateBloomer (column 5 5 (by decide))
      [column 1 9 (by decide)]
      (hmmVirtLog (column 6 4 (by decide)) lateBloomer (column 5 5 (by decide))
        [column 1 9 (by decide)]).1 := by
  intro likely
  have better := likely.best [false, false] rfl
  exact absurd better (by decide +kernel)

end Results

end GemFi.HmmDecoding
