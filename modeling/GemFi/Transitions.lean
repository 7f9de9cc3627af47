import Mathlib.Data.List.Basic

/-!
Finite runs of a deterministic machine whose steps may get stuck. A step
function returns `none` where the modelled program stops: a failed assertion,
a dereferenced null pointer, a loop that does not come back. Properties of a
run are stated over its prefixes, so they speak about every state the run
passes through and not only about its last one.
-/

namespace GemFi.Transitions

universe u v
variable {State : Type u} {Action : Type v}

def run (step : State → Action → Option State) : List Action → State → Option State
  | [], state => some state
  | action :: rest, state => (step state action).bind (run step rest)

/-- `property` holds in every state that a prefix of `actions` reaches. -/
def Always (step : State → Action → Option State) (property : State → Prop)
    (actions : List Action) (state : State) : Prop :=
  ∀ before after reached, actions = before ++ after →
    run step before state = some reached → property reached

/-- `condition` relates the state before each completed step to its action. -/
def EachStep (step : State → Action → Option State) (condition : State → Action → Prop)
    (actions : List Action) (state : State) : Prop :=
  ∀ before action after reached next, actions = before ++ action :: after →
    run step before state = some reached → step reached action = some next →
    condition reached action

/-- `condition` relates each state that the run reaches to the action that comes next, whether
or not the step completes. -/
def Admissible (step : State → Action → Option State) (condition : State → Action → Prop)
    (actions : List Action) (state : State) : Prop :=
  ∀ before action after reached, actions = before ++ action :: after →
    run step before state = some reached → condition reached action

variable {step : State → Action → Option State}

@[simp] theorem run_nil (state : State) : run step [] state = some state := rfl

theorem run_cons (action : Action) (rest : List Action) (state : State) :
    run step (action :: rest) state = (step state action).bind (run step rest) := rfl

theorem run_append (first second : List Action) (state : State) :
    run step (first ++ second) state = (run step first state).bind (run step second) := by
  induction first generalizing state with
  | nil => rfl
  | cons action rest ih =>
      rw [List.cons_append, run_cons, run_cons, Option.bind_assoc]
      exact congrArg _ (funext ih)

/-- What is said about every place of a list is said about the first and about the
places behind it. -/
theorem forall_split_cons {P : List Action → Action → Prop} {first : Action} {rest : List Action} :
    (∀ before action after, first :: rest = before ++ action :: after → P before action) ↔
      P [] first ∧
        ∀ before action after, rest = before ++ action :: after → P (first :: before) action := by
  constructor
  · intro all
    refine ⟨all [] first rest rfl, ?_⟩
    intro before action after split
    exact all (first :: before) action after (by rw [split]; rfl)
  · rintro ⟨here, later⟩ before action after split
    cases before with
    | nil =>
        obtain ⟨rfl, _⟩ := List.cons.inj split
        exact here
    | cons head before =>
        obtain ⟨rfl, tailSplit⟩ := List.cons.inj split
        exact later before action after tailSplit

theorem always_nil_iff (property : State → Prop) (state : State) :
    Always step property [] state ↔ property state := by
  constructor
  · intro always
    exact always [] [] state rfl rfl
  · intro holds before after reached split ran
    obtain ⟨rfl, rfl⟩ := List.append_eq_nil_iff.mp split.symm
    cases ran
    exact holds

theorem always_cons_iff (property : State → Prop) (action : Action) (rest : List Action)
    (state : State) :
    Always step property (action :: rest) state ↔
      property state ∧ ∀ next, step state action = some next → Always step property rest next := by
  constructor
  · intro always
    refine ⟨always [] _ state rfl rfl, ?_⟩
    intro next stepped before after reached split ran
    exact always (action :: before) after reached (by rw [split]; rfl)
      (by rw [run_cons, stepped]; exact ran)
  · rintro ⟨first, later⟩ before after reached split ran
    cases before with
    | nil =>
        cases ran
        exact first
    | cons head tail =>
        obtain ⟨rfl, rfl⟩ := List.cons.inj split
        obtain ⟨next, stepped, ran⟩ := Option.bind_eq_some_iff.mp ran
        exact later next stepped tail after reached rfl ran

theorem Always.onward {property : State → Prop} {action : Action} {rest : List Action}
    {state next : State} (holds : property state) (stepped : step state action = some next)
    (later : Always step property rest next) : Always step property (action :: rest) state := by
  refine (always_cons_iff property action rest state).mpr ⟨holds, ?_⟩
  intro other again
  obtain rfl := Option.some.inj (stepped.symm.trans again)
  exact later

theorem eachStep_nil (condition : State → Action → Prop) (state : State) :
    EachStep step condition [] state := by
  intro before action after reached next split
  simp at split

theorem eachStep_cons_iff (condition : State → Action → Prop) (action : Action)
    (rest : List Action) (state : State) :
    EachStep step condition (action :: rest) state ↔
      ∀ next, step state action = some next →
        condition state action ∧ EachStep step condition rest next := by
  constructor
  · intro each next stepped
    refine ⟨each [] action rest state next rfl rfl stepped, ?_⟩
    intro before other after reached last split ran moved
    exact each (action :: before) other after reached last (by rw [split]; rfl)
      (by rw [run_cons, stepped]; exact ran) moved
  · intro each before other after reached last split ran moved
    cases before with
    | nil =>
        obtain ⟨rfl, rfl⟩ := List.cons.inj split
        cases ran
        exact (each last moved).1
    | cons head tail =>
        obtain ⟨rfl, rfl⟩ := List.cons.inj split
        obtain ⟨next, stepped, ran⟩ := Option.bind_eq_some_iff.mp ran
        exact (each next stepped).2 tail other after reached last rfl ran moved

theorem EachStep.stretch {condition : State → Action → Prop} {before middle after : List Action}
    {state reached : State} (each : EachStep step condition (before ++ (middle ++ after)) state)
    (ran : run step before state = some reached) : EachStep step condition middle reached := by
  intro first action rest here next split ranFirst stepped
  apply each (before ++ first) action (rest ++ after) here next _ _ stepped
  · rw [split]
    simp
  · rw [run_append, ran]
    exact ranFirst

theorem EachStep.initial {condition : State → Action → Prop} {before after : List Action}
    {state : State} (each : EachStep step condition (before ++ after) state) :
    EachStep step condition before state := by
  have whole : EachStep step condition ([] ++ (before ++ after)) state := each
  exact whole.stretch (run_nil state)

/-- What a step that meets `condition` preserves, a run of such steps preserves. -/
theorem run_preserves {property : State → Prop} {condition : State → Action → Prop}
    (preserves : ∀ state action next, property state → condition state action →
      step state action = some next → property next)
    (actions : List Action) (state reached : State) (start : property state)
    (each : EachStep step condition actions state)
    (ran : run step actions state = some reached) : property reached := by
  induction actions generalizing state with
  | nil =>
      cases ran
      exact start
  | cons action rest ih =>
      obtain ⟨next, stepped, ran⟩ := Option.bind_eq_some_iff.mp ran
      obtain ⟨met, later⟩ := (eachStep_cons_iff condition action rest state).mp each next stepped
      exact ih next (preserves state action next start met stepped) later ran

theorem always_of_preserved {property : State → Prop} {condition : State → Action → Prop}
    (preserves : ∀ state action next, property state → condition state action →
      step state action = some next → property next)
    (actions : List Action) (state : State) (start : property state)
    (each : EachStep step condition actions state) : Always step property actions state := by
  intro before after reached split ran
  subst split
  exact run_preserves preserves before state reached start each.initial ran

/-- What holds in every state of a run holds after each of its steps. -/
theorem Always.eachStep {property : State → Prop} {actions : List Action} {state : State}
    (always : Always step property actions state) :
    EachStep step (fun reached action => ∀ next, step reached action = some next → property next)
      actions state := by
  intro before action after reached _ split ran _ next stepped
  apply always (before ++ [action]) after next
  · rw [split]
    simp
  · rw [run_append, ran, Option.bind_some, run_cons, stepped]
    rfl

theorem Admissible.eachStep {condition : State → Action → Prop} {actions : List Action}
    {state : State} (admissible : Admissible step condition actions state) :
    EachStep step condition actions state := by
  intro before action after reached next split ran _
  exact admissible before action after reached split ran

theorem Admissible.cons {condition : State → Action → Prop} {action : Action}
    {rest : List Action} {state : State}
    (admissible : Admissible step condition (action :: rest) state) :
    condition state action ∧
      ∀ next, step state action = some next → Admissible step condition rest next := by
  refine ⟨admissible [] action rest state rfl rfl, ?_⟩
  intro next stepped before other after reached split ran
  exact admissible (action :: before) other after reached (by rw [split]; rfl)
    (by rw [run_cons, stepped]; exact ran)

theorem admissible_nil (condition : State → Action → Prop) (state : State) :
    Admissible step condition [] state := by
  intro before action after reached split
  simp at split

theorem admissible_cons_iff (condition : State → Action → Prop) (action : Action)
    (rest : List Action) (state : State) :
    Admissible step condition (action :: rest) state ↔
      condition state action ∧
        ∀ next, step state action = some next → Admissible step condition rest next := by
  constructor
  · exact Admissible.cons
  · rintro ⟨first, later⟩ before other after reached split ran
    cases before with
    | nil =>
        obtain ⟨rfl, rfl⟩ := List.cons.inj split
        cases ran
        exact first
    | cons head tail =>
        obtain ⟨rfl, rfl⟩ := List.cons.inj split
        obtain ⟨next, stepped, ran⟩ := Option.bind_eq_some_iff.mp ran
        exact later next stepped tail other after reached rfl ran

theorem Admissible.onward {condition : State → Action → Prop} {action : Action}
    {rest : List Action} {state next : State} (met : condition state action)
    (stepped : step state action = some next) (later : Admissible step condition rest next) :
    Admissible step condition (action :: rest) state := by
  refine (admissible_cons_iff condition action rest state).mpr ⟨met, ?_⟩
  intro other again
  obtain rfl := Option.some.inj (stepped.symm.trans again)
  exact later

theorem Admissible.initial {condition : State → Action → Prop} {before after : List Action}
    {state : State} (admissible : Admissible step condition (before ++ after) state) :
    Admissible step condition before state := by
  intro first action rest reached split ran
  exact admissible first action (rest ++ after) reached (by rw [split]; simp) ran

theorem Admissible.later {condition : State → Action → Prop} {before after : List Action}
    {state reached : State} (admissible : Admissible step condition (before ++ after) state)
    (ran : run step before state = some reached) : Admissible step condition after reached := by
  intro first action rest here split ranFirst
  apply admissible (before ++ first) action rest here
  · rw [split, List.append_assoc]
  · rw [run_append, ran]
    exact ranFirst

def admits (step : State → Action → Option State) (condition : State → Action → Prop)
    [∀ state action, Decidable (condition state action)] : List Action → State → Bool
  | [], _ => true
  | action :: rest, state =>
      decide (condition state action) && (step state action).all (admits step condition rest)

theorem admissible_of_admits {condition : State → Action → Prop}
    [∀ state action, Decidable (condition state action)] {actions : List Action} {state : State}
    (holds : admits step condition actions state = true) : Admissible step condition actions state := by
  induction actions generalizing state with
  | nil => exact admissible_nil condition state
  | cons first rest ih =>
      rw [admits, Bool.and_eq_true, decide_eq_true_eq] at holds
      rw [admissible_cons_iff]
      refine ⟨holds.1, ?_⟩
      intro next stepped
      have later := holds.2
      rw [stepped] at later
      exact ih later

/-- Where every admissible step completes and preserves `property`, admissible runs complete. -/
theorem run_completes {property : State → Prop} {condition : State → Action → Prop}
    (succeeds : ∀ state action, property state → condition state action →
      ∃ next, step state action = some next ∧ property next)
    (actions : List Action) (state : State) (start : property state)
    (admissible : Admissible step condition actions state) :
    ∃ reached, run step actions state = some reached ∧ property reached := by
  induction actions generalizing state with
  | nil => exact ⟨state, rfl, start⟩
  | cons action rest ih =>
      obtain ⟨met, later⟩ := admissible.cons
      obtain ⟨next, stepped, holds⟩ := succeeds state action start met
      obtain ⟨reached, ran, final⟩ := ih next holds (later next stepped)
      refine ⟨reached, ?_, final⟩
      rw [run_cons, stepped]
      exact ran

/-- When `condition` says exactly which of the allowed steps keep `property`,
it says exactly which allowed runs keep it. `support` is an invariant that
every allowed step keeps. -/
theorem always_iff_eachStep_of_allowed (support : State → Prop) {property : State → Prop}
    {allowed condition : State → Action → Prop}
    (supported : ∀ state action next, support state → allowed state action →
      step state action = some next → support next)
    (exactly : ∀ state action next, support state → allowed state action → property state →
      step state action = some next → (property next ↔ condition state action))
    (actions : List Action) (state : State) (base : support state) (start : property state)
    (admissible : EachStep step allowed actions state) :
    Always step property actions state ↔ EachStep step condition actions state := by
  induction actions generalizing state with
  | nil => exact iff_of_true ((always_nil_iff property state).mpr start) (eachStep_nil _ _)
  | cons action rest ih =>
      rw [eachStep_cons_iff] at admissible
      rw [always_cons_iff, eachStep_cons_iff]
      constructor
      · rintro ⟨_, later⟩ next stepped
        -- the empty prefix of what follows is the state after this step
        have holds : property next := later next stepped [] rest next rfl rfl
        obtain ⟨met, rests⟩ := admissible next stepped
        have kept := supported state action next base met stepped
        exact ⟨(exactly state action next base met start stepped).mp holds,
          (ih next kept holds rests).mp (later next stepped)⟩
      · intro each
        refine ⟨start, ?_⟩
        intro next stepped
        obtain ⟨good, later⟩ := each next stepped
        obtain ⟨met, rests⟩ := admissible next stepped
        have holds := (exactly state action next base met start stepped).mpr good
        have kept := supported state action next base met stepped
        exact (ih next kept holds rests).mpr later

/-- The same where every step is allowed. -/
theorem always_iff_eachStep (support : State → Prop) {property : State → Prop}
    {condition : State → Action → Prop}
    (supported : ∀ state action next, support state → step state action = some next →
      support next)
    (exactly : ∀ state action next, support state → property state →
      step state action = some next → (property next ↔ condition state action))
    (actions : List Action) (state : State) (base : support state) (start : property state) :
    Always step property actions state ↔ EachStep step condition actions state := by
  apply always_iff_eachStep_of_allowed support
    (fun state action next held _ stepped => supported state action next held stepped)
    (fun state action next held _ holds stepped => exactly state action next held holds stepped)
    actions state base start
  intro before action after reached next _ _ _
  exact True.intro

/-- When `condition` says which steps from `invariant` keep it, and after any other step
`property` is lost, allowed runs keep `property` exactly by meeting the condition. -/
theorem always_iff_eachStep_of_invariant {invariant property : State → Prop}
    {allowed condition : State → Action → Prop}
    (holds : ∀ state, invariant state → property state)
    (kept : ∀ state action next, invariant state → allowed state action →
      step state action = some next → condition state action → invariant next)
    (lost : ∀ state action next, invariant state → allowed state action →
      step state action = some next → ¬ condition state action → ¬ property next)
    (actions : List Action) (state : State) (start : invariant state)
    (admissible : EachStep step allowed actions state) :
    Always step property actions state ↔ EachStep step condition actions state := by
  induction actions generalizing state with
  | nil => exact iff_of_true ((always_nil_iff property state).mpr (holds state start)) (eachStep_nil _ _)
  | cons action rest ih =>
      rw [eachStep_cons_iff] at admissible
      rw [always_cons_iff, eachStep_cons_iff]
      constructor
      · rintro ⟨_, later⟩ next stepped
        obtain ⟨met, rests⟩ := admissible next stepped
        have good : condition state action := by
          by_contra bad
          exact lost state action next start met stepped bad (later next stepped [] rest next rfl rfl)
        have here := kept state action next start met stepped good
        exact ⟨good, (ih next here rests).mp (later next stepped)⟩
      · intro each
        refine ⟨holds state start, ?_⟩
        intro next stepped
        obtain ⟨good, later⟩ := each next stepped
        obtain ⟨met, rests⟩ := admissible next stepped
        exact (ih next (kept state action next start met stepped good) rests).mpr later

/-! ### Steps that lower a measure -/

theorem run_length_le {property : State → Prop} {condition : State → Action → Prop}
    (measure : State → Nat)
    (lowers : ∀ state action next, property state → condition state action →
      step state action = some next → property next ∧ measure next < measure state)
    (actions : List Action) (state reached : State) (start : property state)
    (each : EachStep step condition actions state)
    (ran : run step actions state = some reached) :
    actions.length + measure reached ≤ measure state := by
  induction actions generalizing state with
  | nil =>
      cases ran
      exact Nat.le_of_eq (Nat.zero_add _)
  | cons action rest ih =>
      obtain ⟨next, stepped, ran⟩ := Option.bind_eq_some_iff.mp ran
      obtain ⟨met, later⟩ := (eachStep_cons_iff condition action rest state).mp each next stepped
      obtain ⟨holds, lower⟩ := lowers state action next start met stepped
      have bound := ih next holds later ran
      rw [List.length_cons]
      omega

/-- Where a state is at rest or has an allowed step that lowers `measure`, some run of allowed steps
comes to rest. -/
theorem exists_run_to_rest {property resting : State → Prop} {allowed : Action → Prop}
    (measure : State → Nat)
    (onward : ∀ state, property state → resting state ∨ ∃ action next, allowed action ∧
      step state action = some next ∧ property next ∧ measure next < measure state)
    (state : State) (start : property state) :
    ∃ actions reached, (∀ action ∈ actions, allowed action) ∧
      run step actions state = some reached ∧ property reached ∧ resting reached := by
  induction bound : measure state using Nat.strongRecOn generalizing state with
  | _ n ih =>
      obtain rests | ⟨action, next, may, stepped, holds, lower⟩ := onward state start
      · exact ⟨[], state, nofun, rfl, start, rests⟩
      · obtain ⟨actions, reached, all, ran, holds, rests⟩ := ih _ (bound ▸ lower) next holds rfl
        refine ⟨action :: actions, reached, ?_, ?_, holds, rests⟩
        · intro other mem
          obtain rfl | mem := List.mem_cons.mp mem
          · exact may
          · exact all other mem
        · rw [run_cons, stepped]
          exact ran

/-- Where a state is at rest or has a step under its condition that lowers `measure`, some such run
comes to rest, in no more steps than the measure allows. -/
theorem exists_admissible_run (property resting : State → Prop)
    (condition : State → Action → Prop) (measure : State → Nat)
    (onward : ∀ state, property state → resting state ∨ ∃ action next, condition state action ∧
      step state action = some next ∧ property next ∧ measure next < measure state)
    (state : State) (holds : property state) :
    ∃ actions reached, Admissible step condition actions state ∧
      run step actions state = some reached ∧ property reached ∧ resting reached ∧
      actions.length ≤ measure state := by
  induction bound : measure state using Nat.strongRecOn generalizing state with
  | _ n ih =>
      obtain rests | ⟨action, next, met, stepped, later, lower⟩ := onward state holds
      · exact ⟨[], state, admissible_nil condition state, rfl, holds, rests, Nat.zero_le n⟩
      · obtain ⟨actions, reached, all, ran, holds, rests, short⟩ := ih _ (bound ▸ lower) next later rfl
        refine ⟨action :: actions, reached, all.onward met stepped, ?_, holds, rests, ?_⟩
        · rw [run_cons, stepped]
          exact ran
        · rw [List.length_cons]
          omega

end GemFi.Transitions
