import GemFi.Transitions
import Mathlib.Algebra.BigOperators.Group.Finset.Piecewise
import Mathlib.Algebra.Order.BigOperators.Group.Finset
import Mathlib.Algebra.Order.Group.Multiset
import Mathlib.Data.Fintype.Basic
import Mathlib.Logic.Function.Basic

/-!
The workers of a fault injection campaign, one run.sh each, that share the
file of experiments still to be run. A worker tests outside the lock that the
file has a line left, then takes the lock, reads the last line, replaces the
file by all lines but the last, frees the lock and runs what it read. The
scratch file of the replacement lies in the directory of the worker itself.
An interleaving is the list of the workers in the order of their steps; a
worker waiting for the lock or out of its loop has no step.
-/

namespace GemFi.CampaignWorkers

open Transitions

universe u

abbrev Experiment := { text : String // text ≠ "" }

/-- The next step of a worker. From `truncate` on the shell variable `exp` is set. -/
inductive Place where
  | test
  | lock
  | read
  | truncate (exp : String)
  | release (exp : String)
  | run (exp : String)
  | finished
  deriving DecidableEq, Repr

/-- `mutex` is the presence of the lock file, `ran` what has been run and by whom. -/
structure Campaign (Worker : Type u) where
  curExp : List Experiment
  mutex : Bool
  place : Worker → Place
  ran : List (Worker × String)

/-- `exp=$(tail -n 1 $cur_exp)`: an empty file has no last line. -/
def tailLine (file : List Experiment) : String :=
  (file.getLast?.map Subtype.val).getD ""

variable {Worker : Type u} [DecidableEq Worker]

def Campaign.goto (c : Campaign Worker) (worker : Worker) (place : Place) : Campaign Worker :=
  { c with place := Function.update c.place worker place }

def step (c : Campaign Worker) (worker : Worker) : Option (Campaign Worker) :=
  match c.place worker with
  | .test =>
      -- while [ -s "$cur_exp" ]
      some (c.goto worker (if c.curExp.isEmpty then .finished else .lock))
  | .lock =>
      -- lockfile waits as long as the file exists
      if c.mutex then none else some { c.goto worker .read with mutex := true }
  | .read => some (c.goto worker (.truncate (tailLine c.curExp)))
  | .truncate exp =>
      -- head -n -1 $cur_exp > temp.txt; mv temp.txt $cur_exp
      some { c.goto worker (.release exp) with curExp := c.curExp.dropLast }
  | .release exp => some { c.goto worker (.run exp) with mutex := false }
  | .run exp => some { c.goto worker .test with ran := c.ran ++ [(worker, exp)] }
  | .finished => none

def start (lines : List Experiment) : Campaign Worker :=
  { curExp := lines, mutex := false, place := fun _ => .test, ran := [] }

def texts (file : List Experiment) : Multiset String := (file.map Subtype.val : List String)

def Place.held : Place → Multiset String
  -- what a worker has taken out of the file and not run yet
  | .release exp | .run exp => {exp}
  | _ => 0

def inHand [Fintype Worker] (c : Campaign Worker) : Multiset String :=
  ∑ worker, (c.place worker).held

def runs (c : Campaign Worker) : Multiset String := (c.ran.map Prod.snd : List String)

/-- Every line is in one place: still in the file, taken by one worker, or run
once; and nothing else has been taken or run. -/
def Shared [Fintype Worker] (lines : List Experiment) (c : Campaign Worker) : Prop :=
  texts c.curExp + inHand c + runs c = texts lines

/-- A worker that takes a line finds one in the file. -/
def TakesALine (c : Campaign Worker) (worker : Worker) : Prop :=
  ∀ exp, c.place worker = .truncate exp → c.curExp ≠ []

def Stopped (c : Campaign Worker) : Prop := ∀ worker, step c worker = none

def Place.critical : Place → Bool
  | .read | .truncate _ | .release _ => true
  | _ => false

/-- The lock is held by the worker between `lockfile` and `rm`, and what that
worker has read is the last line still. -/
structure Exclusive (c : Campaign Worker) : Prop where
  locked : ∀ worker, (c.place worker).critical = true → c.mutex = true
  single : ∀ worker other, (c.place worker).critical = true →
    (c.place other).critical = true → worker = other
  owner : c.mutex = true → ∃ worker, (c.place worker).critical = true
  lastRead : ∀ worker exp, c.place worker = .truncate exp → exp = tailLine c.curExp

variable {c next : Campaign Worker} {worker : Worker} {lines : List Experiment}

theorem place_goto (place : Place) (other : Worker) :
    (c.goto worker place).place other = if other = worker then place else c.place other := by
  simp [Campaign.goto, Function.update_apply]

/-- What one step can do. -/
theorem step_cases (stepped : step c worker = some next) :
    (c.place worker = .test ∧
      next = c.goto worker (if c.curExp.isEmpty then .finished else .lock)) ∨
    (c.place worker = .lock ∧ c.mutex = false ∧
      next = { c.goto worker .read with mutex := true }) ∨
    (c.place worker = .read ∧ next = c.goto worker (.truncate (tailLine c.curExp))) ∨
    (∃ exp, c.place worker = .truncate exp ∧
      next = { c.goto worker (.release exp) with curExp := c.curExp.dropLast }) ∨
    (∃ exp, c.place worker = .release exp ∧
      next = { c.goto worker (.run exp) with mutex := false }) ∨
    (∃ exp, c.place worker = .run exp ∧
      next = { c.goto worker .test with ran := c.ran ++ [(worker, exp)] }) := by
  unfold step at stepped
  cases here : c.place worker with
  | test => simp_all
  | lock =>
      cases free : c.mutex <;> simp_all
  | read => simp_all
  | truncate exp => simp_all
  | release exp => simp_all
  | run exp => simp_all
  | finished => simp_all

omit [DecidableEq Worker] in
theorem exclusive_start (lines : List Experiment) :
    Exclusive (start lines : Campaign Worker) where
  locked := by simp [start, Place.critical]
  single := by simp [start, Place.critical]
  owner := by simp [start]
  lastRead := by simp [start]

/-- The frame of a step that neither enters nor leaves the locked region, nor
changes the file. -/
theorem Exclusive.goto (exclusive : Exclusive c) {place : Place}
    (same : place.critical = (c.place worker).critical)
    (read : ∀ exp, place = .truncate exp → exp = tailLine c.curExp) :
    Exclusive (c.goto worker place) := by
  have critical : ∀ other, ((c.goto worker place).place other).critical =
      (c.place other).critical := by
    intro other
    rw [place_goto]
    split
    · next here => rw [here, same]
    · rfl
  constructor
  · intro other inside
    exact exclusive.locked other (critical other ▸ inside)
  · intro other third inside inside'
    exact exclusive.single other third (critical other ▸ inside) (critical third ▸ inside')
  · intro locked
    obtain ⟨other, inside⟩ := exclusive.owner locked
    exact ⟨other, by rw [critical]; exact inside⟩
  · intro other exp here
    rw [place_goto] at here
    split at here
    · exact read exp here
    · exact exclusive.lastRead other exp here

omit [DecidableEq Worker] in
/-- Nobody else is in the locked region together with `worker`. -/
theorem Exclusive.alone (exclusive : Exclusive c) (inside : (c.place worker).critical = true)
    (other : Worker) (apart : other ≠ worker) : (c.place other).critical = false := by
  by_contra both
  exact apart (exclusive.single other worker (by simpa using both) inside)

omit [DecidableEq Worker] in
/-- With the lock free nobody is in the locked region. -/
theorem Exclusive.free (exclusive : Exclusive c) (unlocked : c.mutex = false) (other : Worker) :
    (c.place other).critical = false := by
  by_contra inside
  have held := exclusive.locked other (by simpa using inside)
  simp [unlocked] at held

/-- `lockfile` lets one worker in. -/
theorem Exclusive.lock (exclusive : Exclusive c) (free : c.mutex = false) :
    Exclusive { c.goto worker .read with mutex := true } := by
  have outside := exclusive.free free
  constructor
  · intro other _
    rfl
  · intro other third inside inside'
    simp only [place_goto] at inside inside'
    split at inside
    · split at inside'
      · next first second => rw [first, second]
      · simp [outside] at inside'
    · simp [outside] at inside
  · intro _
    exact ⟨worker, by simp [place_goto, Place.critical]⟩
  · intro other exp place
    simp only [place_goto] at place
    split at place
    · cases place
    · exact exclusive.lastRead other exp place

/-- The file changes, but whoever had read its last line is gone. -/
theorem Exclusive.truncate {exp : String} (exclusive : Exclusive c)
    (here : c.place worker = .truncate exp) :
    Exclusive { c.goto worker (.release exp) with curExp := c.curExp.dropLast } := by
  have inside : (c.place worker).critical = true := by rw [here]; rfl
  have moved : Exclusive (c.goto worker (.release exp)) := by
    apply exclusive.goto
    · rw [here]
      rfl
    · intro exp place
      cases place
  refine ⟨moved.locked, moved.single, moved.owner, ?_⟩
  intro other exp place
  simp only [place_goto] at place
  split at place
  · cases place
  · next apart =>
      have outside := exclusive.alone inside other apart
      rw [place] at outside
      cases outside

/-- `rm` leaves nobody in the locked region. -/
theorem Exclusive.release {exp : String} (exclusive : Exclusive c)
    (here : c.place worker = .release exp) :
    Exclusive { c.goto worker (.run exp) with mutex := false } := by
  have inside : (c.place worker).critical = true := by rw [here]; rfl
  have outside : ∀ other, ((c.goto worker (.run exp)).place other).critical = false := by
    intro other
    rw [place_goto]
    split
    · rfl
    · next apart => exact exclusive.alone inside other apart
  constructor
  · intro other inside
    exact absurd inside (by simp [outside])
  · intro other _ inside
    exact absurd inside (by simp [outside])
  · intro locked
    cases locked
  · intro other exp place
    have critical := outside other
    rw [place] at critical
    cases critical

theorem exclusive_step (exclusive : Exclusive c) (stepped : step c worker = some next) :
    Exclusive next := by
  obtain ⟨here, rfl⟩ | ⟨_, free, rfl⟩ | ⟨here, rfl⟩ | ⟨exp, here, rfl⟩ | ⟨exp, here, rfl⟩ |
    ⟨exp, here, rfl⟩ := step_cases stepped
  · -- test
    apply exclusive.goto
    · rw [here]
      split <;> rfl
    · intro exp place
      split at place <;> cases place
  · exact exclusive.lock free
  · -- read
    apply exclusive.goto
    · rw [here]
      rfl
    · intro exp place
      exact (Place.truncate.inj place).symm
  · exact exclusive.truncate here
  · exact exclusive.release here
  · -- run
    have moved : Exclusive (c.goto worker .test) := by
      apply exclusive.goto
      · rw [here]
        rfl
      · intro exp place
        cases place
    exact ⟨moved.locked, moved.single, moved.owner, moved.lastRead⟩

section Accounts

variable [Fintype Worker]

omit [DecidableEq Worker] in
theorem shared_start (lines : List Experiment) :
    Shared lines (start lines : Campaign Worker) := by
  simp [Shared, start, inHand, Place.held, runs]

theorem sum_goto {Amount : Type*} [AddCommMonoid Amount] (amount : Place → Amount)
    (c : Campaign Worker) (worker : Worker) (place : Place) :
    ∑ other, amount ((c.goto worker place).place other) + amount (c.place worker) =
      ∑ other, amount (c.place other) + amount place := by
  have moved : ∀ other, amount ((c.goto worker place).place other) =
      Function.update (fun other => amount (c.place other)) worker (amount place) other := by
    intro other
    rw [place_goto, Function.update_apply]
    split <;> rfl
  rw [Finset.sum_congr rfl (fun other _ => moved other),
    Finset.sum_update_of_mem (Finset.mem_univ worker),
    ← Finset.sum_sdiff (Finset.subset_univ {worker}), Finset.sum_singleton]
  ac_rfl

theorem inHand_goto (c : Campaign Worker) (worker : Worker) (place : Place) :
    inHand (c.goto worker place) + (c.place worker).held = inHand c + place.held :=
  sum_goto Place.held c worker place

theorem texts_dropLast (file : List Experiment) (left : file ≠ []) :
    texts file = texts file.dropLast + {tailLine file} := by
  have split := List.dropLast_append_getLast left
  have last : tailLine file = (file.getLast left).val := by
    simp [tailLine, List.getLast?_eq_getLast_of_ne_nil left]
  rw [last]
  conv_lhs => rw [← split]
  simp only [texts, List.map_append, List.map_cons, List.map_nil]
  rfl

omit [DecidableEq Worker] [Fintype Worker] in
theorem takesALine_of_ne (other : ∀ exp, c.place worker ≠ .truncate exp) :
    TakesALine c worker := by
  intro exp here
  exact absurd here (other exp)

theorem inHand_goto_of_held_eq {place : Place} (same : place.held = (c.place worker).held) :
    inHand (c.goto worker place) = inHand c := by
  have moved := inHand_goto c worker place
  rw [same] at moved
  exact add_right_cancel moved

theorem shared_step_iff (exclusive : Exclusive c) (shared : Shared lines c)
    (stepped : step c worker = some next) : Shared lines next ↔ TakesALine c worker := by
  unfold Shared at shared ⊢
  rw [← shared]
  obtain ⟨here, rfl⟩ | ⟨here, free, rfl⟩ | ⟨here, rfl⟩ | ⟨exp, here, rfl⟩ | ⟨exp, here, rfl⟩ |
    ⟨exp, here, rfl⟩ := step_cases stepped
  · -- test
    refine iff_of_true ?_ (takesALine_of_ne (by simp [here]))
    have same : inHand (c.goto worker (if c.curExp.isEmpty then .finished else .lock)) =
        inHand c := by
      apply inHand_goto_of_held_eq
      rw [here]
      split <;> rfl
    rw [same]
    rfl
  · -- lock
    refine iff_of_true ?_ (takesALine_of_ne (by simp [here]))
    have same : inHand (c.goto worker .read) = inHand c :=
      inHand_goto_of_held_eq (by rw [here]; rfl)
    exact congrArg (texts c.curExp + · + runs c) same
  · -- read
    refine iff_of_true ?_ (takesALine_of_ne (by simp [here]))
    rw [inHand_goto_of_held_eq (by rw [here]; rfl)]
    rfl
  · -- truncate
    have moved : inHand (c.goto worker (.release exp)) = inHand c + {exp} := by
      simpa [here, Place.held] using inHand_goto c worker (.release exp)
    have read := exclusive.lastRead worker exp here
    change texts c.curExp.dropLast + inHand (c.goto worker (.release exp)) + runs c = _ ↔ _
    rw [moved]
    by_cases left : c.curExp = []
    · refine iff_of_false ?_ (fun takes => takes exp here left)
      intro same
      have sizes := congrArg Multiset.card same
      simp [left, texts] at sizes
    · refine iff_of_true ?_ (fun _ _ => left)
      rw [texts_dropLast c.curExp left, ← read]
      ac_rfl
  · -- release
    refine iff_of_true ?_ (takesALine_of_ne (by simp [here]))
    have same : inHand (c.goto worker (.run exp)) = inHand c :=
      inHand_goto_of_held_eq (by rw [here]; rfl)
    exact congrArg (texts c.curExp + · + runs c) same
  · -- run
    refine iff_of_true ?_ (takesALine_of_ne (by simp [here]))
    have moved : inHand (c.goto worker .test) + {exp} = inHand c := by
      simpa [here, Place.held] using inHand_goto c worker .test
    have more : (↑((c.ran ++ [(worker, exp)]).map Prod.snd) : Multiset String) =
        runs c + {exp} := by
      rw [List.map_append, ← Multiset.coe_add]
      rfl
    change texts c.curExp + inHand (c.goto worker .test) +
      (↑((c.ran ++ [(worker, exp)]).map Prod.snd) : Multiset String) = _
    rw [more, ← moved]
    ac_rfl

theorem shared_iff_takes (lines : List Experiment) (schedule : List Worker) :
    Always step (Shared lines) schedule (start lines) ↔
      EachStep step TakesALine schedule (start lines) :=
  always_iff_eachStep Exclusive (fun _ _ _ exclusive stepped => exclusive_step exclusive stepped)
    (fun _ _ _ exclusive shared stepped => shared_step_iff exclusive shared stepped)
    schedule (start lines) (exclusive_start lines) (shared_start lines)

end Accounts

def Drained (c : Campaign Worker) : Prop :=
  ∀ worker, c.place worker = .finished → c.curExp = []

theorem drained_step (drained : Drained c) (stepped : step c worker = some next) :
    Drained next := by
  intro other left
  obtain ⟨here, rfl⟩ | ⟨here, free, rfl⟩ | ⟨here, rfl⟩ | ⟨exp, here, rfl⟩ | ⟨exp, here, rfl⟩ |
    ⟨exp, here, rfl⟩ := step_cases stepped
  · rw [place_goto] at left
    split at left
    · split at left
      · next empty => exact List.isEmpty_iff.mp empty
      · cases left
    · exact drained other left
  all_goals
    simp only [place_goto] at left
    split at left
    · cases left
    · first
      | exact drained other left
      | simp [drained other left]

theorem finished_of_stopped (exclusive : Exclusive c) (stopped : Stopped c) (worker : Worker) :
    c.place worker = .finished := by
  have unlocked : c.mutex = false := by
    by_contra locked
    obtain ⟨owner, inside⟩ := exclusive.owner (by simpa using locked)
    have stuck := stopped owner
    unfold step at stuck
    cases here : c.place owner <;> simp_all [Place.critical]
  have stuck := stopped worker
  unfold step at stuck
  cases here : c.place worker <;> simp_all

/-- In a campaign that came to its end with a good account the runs are the
lines of the file. -/
theorem runs_of_stopped [Fintype Worker] (someone : Worker) (exclusive : Exclusive c)
    (drained : Drained c) (shared : Shared lines c) (stopped : Stopped c) :
    runs c = texts lines := by
  have finished := finished_of_stopped exclusive stopped
  have empty : c.curExp = [] := drained someone (finished someone)
  have nothing : inHand c = 0 := by
    unfold inHand
    exact Finset.sum_eq_zero (fun worker _ => by rw [finished worker]; rfl)
  simpa [Shared, empty, nothing, texts] using shared

section Length

def Place.stepsLeft (empty : Bool) : Place → Nat
  -- how many steps a worker can still make: with lines left it may pass the test once more
  | .test => if empty then 1 else 7
  | .lock => 6
  | .read => 5
  | .truncate _ => 4
  | .release _ => if empty then 3 else 9
  | .run _ => if empty then 2 else 8
  | .finished => 0

theorem stepsLeft_empty_le (empty : Bool) (place : Place) :
    place.stepsLeft true ≤ place.stepsLeft empty := by
  cases empty <;> cases place <;> simp [Place.stepsLeft]

variable [Fintype Worker]

def budget (c : Campaign Worker) : Nat :=
  6 * c.curExp.length + ∑ worker, (c.place worker).stepsLeft c.curExp.isEmpty

theorem budget_goto (worker : Worker) (place : Place) (file : next.curExp = c.curExp)
    (moved : next.place = (c.goto worker place).place)
    (fewer : place.stepsLeft c.curExp.isEmpty < (c.place worker).stepsLeft c.curExp.isEmpty) :
    budget next + 1 ≤ budget c := by
  have exchanged := sum_goto (Place.stepsLeft c.curExp.isEmpty) c worker place
  unfold budget
  rw [file, moved]
  omega

theorem budget_truncate (exp : String) (here : c.place worker = .truncate exp) :
    budget { c.goto worker (.release exp) with curExp := c.curExp.dropLast } + 1 ≤ budget c := by
  have exchanged := sum_goto (Place.stepsLeft c.curExp.dropLast.isEmpty) c worker (.release exp)
  have fewer : ∑ other, (c.place other).stepsLeft c.curExp.dropLast.isEmpty ≤
      ∑ other, (c.place other).stepsLeft c.curExp.isEmpty := by
    apply Finset.sum_le_sum
    intro other _
    cases left : c.curExp.dropLast.isEmpty with
    | true => exact stepsLeft_empty_le _ _
    | false =>
        have more : c.curExp.isEmpty = false := by
          by_contra none
          simp [List.isEmpty_iff.mp (by simpa using none)] at left
        rw [more]
  rw [here] at exchanged
  unfold budget
  change 6 * c.curExp.dropLast.length + ∑ other,
    ((c.goto worker (.release exp)).place other).stepsLeft c.curExp.dropLast.isEmpty + 1 ≤ _
  have four : (Place.truncate exp).stepsLeft c.curExp.dropLast.isEmpty = 4 := rfl
  rw [four] at exchanged
  cases none : c.curExp.isEmpty with
  | true =>
      rw [List.isEmpty_iff.mp none] at exchanged fewer ⊢
      have three : (Place.release exp).stepsLeft ([] : List Experiment).dropLast.isEmpty = 3 := rfl
      have length : ([] : List Experiment).dropLast.length = 0 := rfl
      rw [three] at exchanged
      rw [length]
      change _ ≤ 6 * 0 + ∑ other, (c.place other).stepsLeft true
      change _ ≤ ∑ other, (c.place other).stepsLeft true at fewer
      omega
  | false =>
      have shorter : c.curExp.dropLast.length + 1 = c.curExp.length := by
        have some : c.curExp ≠ [] := by simpa [List.isEmpty_iff] using none
        have positive := List.length_pos_iff.mpr some
        rw [List.length_dropLast]
        omega
      have nine : (Place.release exp).stepsLeft c.curExp.dropLast.isEmpty ≤ 9 := by
        cases c.curExp.dropLast.isEmpty <;> simp [Place.stepsLeft]
      rw [none] at fewer
      omega

theorem budget_step (stepped : step c worker = some next) : budget next + 1 ≤ budget c := by
  obtain ⟨here, rfl⟩ | ⟨here, free, rfl⟩ | ⟨here, rfl⟩ | ⟨exp, here, rfl⟩ | ⟨exp, here, rfl⟩ |
    ⟨exp, here, rfl⟩ := step_cases stepped
  · -- test
    refine budget_goto worker _ rfl rfl ?_
    rw [here]
    cases c.curExp.isEmpty <;> decide
  · -- lock
    refine budget_goto worker .read rfl rfl ?_
    rw [here]
    exact Nat.lt_succ_self 5
  · -- read
    refine budget_goto worker _ rfl rfl ?_
    rw [here]
    exact Nat.lt_succ_self 4
  · -- truncate
    exact budget_truncate exp here
  · -- release
    refine budget_goto worker (.run exp) rfl rfl ?_
    rw [here]
    cases c.curExp.isEmpty <;> simp [Place.stepsLeft]
  · -- run
    refine budget_goto worker .test rfl rfl ?_
    rw [here]
    cases c.curExp.isEmpty <;> simp [Place.stepsLeft]

theorem schedule_length_le (schedule : List Worker) (c reached : Campaign Worker)
    (ran : run step schedule c = some reached) : schedule.length + budget reached ≤ budget c := by
  induction schedule generalizing c with
  | nil =>
      cases ran
      simp
  | cons worker rest ih =>
      obtain ⟨next, stepped, ran⟩ := Option.bind_eq_some_iff.mp ran
      have one := budget_step stepped
      have later := ih next ran
      rw [List.length_cons]
      omega

omit [DecidableEq Worker] in
theorem budget_start_le (lines : List Experiment) :
    budget (start lines : Campaign Worker) ≤ 6 * lines.length + 7 * Fintype.card Worker := by
  have each : ∑ _worker : Worker, Place.test.stepsLeft lines.isEmpty ≤ ∑ _worker : Worker, 7 := by
    apply Finset.sum_le_sum
    intro worker _
    cases lines.isEmpty <;> decide
  have total : ∑ _worker : Worker, 7 = 7 * Fintype.card Worker := by
    simp [mul_comm]
  unfold budget
  simp only [start]
  omega

end Length

section Workers

def Place.taking : Place → Bool
  | .lock | .read | .truncate _ => true
  | _ => false

/-- Whoever has passed the test and taken no line yet will find one. -/
def Ready (c : Campaign Worker) : Prop :=
  ∀ worker, (c.place worker).taking = true → c.curExp ≠ []

omit [DecidableEq Worker] in
theorem Ready.takesALine (ready : Ready c) (worker : Worker) : TakesALine c worker :=
  fun _ here => ready worker (by rw [here]; rfl)

theorem Ready.goto (ready : Ready c) {place : Place} (file : next.curExp = c.curExp)
    (moved : next.place = (c.goto worker place).place)
    (taking : place.taking = true → c.curExp ≠ []) : Ready next := by
  intro other passed
  rw [moved, place_goto] at passed
  rw [file]
  split at passed
  · exact taking passed
  · exact ready other passed

def Unhurried (c : Campaign Worker) : Prop :=
  (Subsingleton Worker ∨ c.curExp = []) ∧ Ready c

theorem unhurried_step (unhurried : Unhurried c) (stepped : step c worker = some next) :
    Unhurried next := by
  obtain ⟨few, ready⟩ := unhurried
  obtain ⟨here, rfl⟩ | ⟨here, free, rfl⟩ | ⟨here, rfl⟩ | ⟨exp, here, rfl⟩ | ⟨exp, here, rfl⟩ |
    ⟨exp, here, rfl⟩ := step_cases stepped
  · -- test
    refine ⟨few, Ready.goto ready rfl rfl ?_⟩
    cases empty : c.curExp.isEmpty with
    | true => simp [Place.taking]
    | false =>
        intro _
        simpa [List.isEmpty_iff] using empty
  · -- lock
    have left := ready worker (by rw [here]; rfl)
    exact ⟨few, Ready.goto ready rfl rfl (fun _ => left)⟩
  · -- read
    have left := ready worker (by rw [here]; rfl)
    exact ⟨few, Ready.goto ready rfl rfl (fun _ => left)⟩
  · -- truncate: with a line to take there is only this one worker
    have left := ready worker (by rw [here]; rfl)
    have alone : Subsingleton Worker := few.resolve_right left
    refine ⟨.inl alone, ?_⟩
    intro other passed
    rw [Subsingleton.elim other worker] at passed
    simp [Place.taking, place_goto] at passed
  · -- release
    refine ⟨few, Ready.goto ready rfl rfl (fun taking => ?_)⟩
    cases taking
  · -- run
    refine ⟨few, Ready.goto ready rfl rfl (fun taking => ?_)⟩
    cases taking

theorem takes_of_few (lines : List Experiment) (few : Subsingleton Worker ∨ lines = [])
    (schedule : List Worker) : EachStep step TakesALine schedule (start lines) := by
  intro before worker after reached next _ ran _
  have first : Unhurried (start lines : Campaign Worker) := by
    refine ⟨few, ?_⟩
    intro worker passed
    cases passed
  have free : EachStep step (fun _ _ => True) before (start lines : Campaign Worker) :=
    fun _ _ _ _ _ _ _ _ => True.intro
  have kept : Unhurried reached :=
    run_preserves (fun _ _ _ unhurried _ stepped => unhurried_step unhurried stepped)
      before (start lines) reached first free ran
  exact kept.2.takesALine worker

theorem run_round (file : List Experiment) (line : Experiment) (c : Campaign Worker)
    (worker : Worker) (here : c.place worker = .test) (free : c.mutex = false)
    (lines : c.curExp = file ++ [line]) :
    run step (List.replicate 6 worker) c =
      some { c with curExp := file, ran := c.ran ++ [(worker, line.val)] } := by
  simp [List.replicate, run_cons, step, here, free, lines, Campaign.goto, tailLine]

theorem run_alone (lines : List Experiment) (c : Campaign Worker) (worker : Worker)
    (here : c.place worker = .test) (free : c.mutex = false) (file : c.curExp = lines) :
    ∃ reached, run step (List.replicate (6 * lines.length) worker) c = some reached ∧
      reached.curExp = [] ∧ reached.mutex = false ∧ reached.place = c.place := by
  induction lines using List.reverseRecOn generalizing c with
  | nil => exact ⟨c, rfl, file, free, rfl⟩
  | append_singleton rest line ih =>
      have round := run_round rest line c worker here free file
      obtain ⟨reached, ran, empty, unlocked, places⟩ :=
        ih { c with curExp := rest, ran := c.ran ++ [(worker, line.val)] } here free rfl
      refine ⟨reached, ?_, empty, unlocked, places⟩
      have rounds : 6 * (rest ++ [line]).length = 6 + 6 * rest.length := by
        simp
        omega
      rw [rounds, List.replicate_add, run_append, round]
      exact ran

/-- Two workers that pass the test before either takes a line: one of them can
empty the file before the other gets the lock. -/
theorem late_worker (lines : List Experiment) (left : lines ≠ []) (late quick : Worker)
    (apart : late ≠ quick) :
    ∃ before reached exp, run step before (start lines) = some reached ∧
      reached.place late = .truncate exp ∧ reached.curExp = [] := by
  have passed : run step [late] (start lines) =
      some ((start lines : Campaign Worker).goto late .lock) := by
    simp [run_cons, step, start, left]
  obtain ⟨drained, ran, empty, unlocked, places⟩ := run_alone lines
    ((start lines : Campaign Worker).goto late .lock) quick
    (by simp [place_goto, start, apart.symm]) rfl rfl
  have waiting : drained.place late = .lock := by
    rw [places]
    simp [place_goto]
  have takes : run step [late, late] drained =
      some { drained.goto late (.truncate "") with mutex := true } := by
    simp [run_cons, step, waiting, unlocked, empty, Campaign.goto, tailLine]
  refine ⟨[late] ++ (List.replicate (6 * lines.length) quick ++ [late, late]),
    { drained.goto late (.truncate "") with mutex := true }, "", ?_, ?_, empty⟩
  · rw [run_append, passed, Option.bind_some, run_append, ran, Option.bind_some]
    exact takes
  · simp [place_goto]

end Workers

structure SharesLines [Fintype Worker] (lines : List Experiment) (schedule : List Worker) :
    Prop where
  -- the campaign meets its purpose along an interleaving: at every moment each line is in one
  -- place, no empty experiment is ever run, and when no worker can go on the runs are the lines of
  -- the file
  accounted : Always step (Shared lines) schedule (start lines)
  noneEmpty : Always step (fun c => ∀ entry ∈ c.ran, entry.2 ≠ "") schedule (start lines)
  complete : ∀ reached, run step schedule (start lines) = some reached → Stopped reached →
    runs reached = texts lines

section Main

variable [Fintype Worker]

omit [DecidableEq Worker] in
theorem noneEmpty_of_shared (shared : Shared lines c) : ∀ entry ∈ c.ran, entry.2 ≠ "" := by
  intro entry member
  have counted : entry.2 ∈ texts lines := by
    rw [← shared]
    refine Multiset.mem_add.mpr (.inr ?_)
    exact List.mem_map_of_mem member
  obtain ⟨line, _, same⟩ := List.mem_map.mp (Multiset.mem_coe.mp counted)
  rw [← same]
  exact line.property

omit [Fintype Worker] in
/-- A run of any length is in a state that is locked properly and has no worker
finished too early. -/
theorem reached_support (schedule : List Worker) (reached : Campaign Worker)
    (ran : run step schedule (start lines) = some reached) :
    Exclusive reached ∧ Drained reached := by
  have free : EachStep step (fun _ _ => True) schedule (start lines : Campaign Worker) :=
    fun _ _ _ _ _ _ _ _ => True.intro
  constructor
  · exact run_preserves (fun _ _ _ exclusive _ stepped => exclusive_step exclusive stepped)
      schedule (start lines) reached (exclusive_start lines) free ran
  · refine run_preserves (fun _ _ _ drained _ stepped => drained_step drained stepped)
      schedule (start lines) reached ?_ free ran
    intro worker finished
    cases finished

theorem sharesLines_iff (lines : List Experiment) (someone : Worker) (schedule : List Worker) :
    SharesLines lines schedule ↔ EachStep step TakesALine schedule (start lines) := by
  constructor
  · intro shares
    exact (shared_iff_takes lines schedule).mp shares.accounted
  · intro takes
    have accounted := (shared_iff_takes lines schedule).mpr takes
    refine ⟨accounted, ?_, ?_⟩
    · intro before after reached split ran
      exact noneEmpty_of_shared (accounted before after reached split ran)
    · intro reached ran stopped
      obtain ⟨exclusive, drained⟩ := reached_support schedule reached ran
      have shared := accounted schedule [] reached (List.append_nil schedule).symm ran
      exact runs_of_stopped someone exclusive drained shared stopped

/-- A campaign shares its file along an interleaving exactly when each worker
that removes a line finds one; so along all of them only with one worker or no
lines. Every interleaving ends. -/
theorem campaign_shares_lines_iff (lines : List Experiment) (someone : Worker) :
    (∀ schedule : List Worker, SharesLines lines schedule ↔
      EachStep step TakesALine schedule (start lines)) ∧
    ((∀ schedule : List Worker, SharesLines lines schedule) ↔
      Subsingleton Worker ∨ lines = []) ∧
    (∀ (schedule : List Worker) (reached : Campaign Worker),
      run step schedule (start lines) = some reached →
        schedule.length ≤ 6 * lines.length + 7 * Fintype.card Worker) := by
  refine ⟨sharesLines_iff lines someone, ⟨?_, ?_⟩, ?_⟩
  · intro always
    by_contra many
    obtain ⟨more, left⟩ := not_or.mp many
    obtain ⟨late, quick, apart⟩ : ∃ late quick : Worker, late ≠ quick := by
      by_contra none
      refine more ⟨fun one other => ?_⟩
      by_contra differ
      exact none ⟨one, other, differ⟩
    obtain ⟨before, reached, exp, ran, here, empty⟩ := late_worker lines left late quick apart
    have takes := (sharesLines_iff lines someone (before ++ [late])).mp (always _)
    have stepped : step reached late =
        some { reached.goto late (.release exp) with curExp := reached.curExp.dropLast } := by
      simp [step, here]
    exact takes before late [] reached _ rfl ran stepped exp here empty
  · intro few schedule
    exact (sharesLines_iff lines someone schedule).mpr (takes_of_few lines few schedule)
  · intro schedule reached ran
    have counted := schedule_length_le schedule (start lines) reached ran
    have first : budget (start lines : Campaign Worker) ≤ _ := budget_start_le lines
    omega

end Main

def lastLine : Experiment :=
  ⟨"GeneralFetchInjectedFault Inst:5 Flip:3 all all 1", by decide⟩

/-- One line and two workers: both pass the test, one takes the line, the other
runs the empty text. -/
theorem second_worker_runs_nothing :
    ∃ reached : Campaign (Fin 2),
      run step [0, 1, 0, 0, 0, 0, 0, 1, 1, 1, 1, 1] (start [lastLine]) = some reached ∧
        reached.ran = [(0, lastLine.val), (1, "")] :=
  ⟨_, rfl, rfl⟩

end GemFi.CampaignWorkers
