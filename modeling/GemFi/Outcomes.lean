import Mathlib.Init

/-!
Programs that may stop, and their total correctness: a program ends in a state with a
postcondition, or stops for a reason that is allowed. One rule for each way to put
programs together.
-/

namespace GemFi.Outcomes

/-- Why a program stops: an `assert` fails, a branch with `assert(false)` or a `panic` is reached, a
null pointer is dereferenced, an element is read where its container has none, or a loop does not
come to an end. -/
inductive Stop where
  | assertion | unreachable | panic | nullPointer | noElement | endless
  deriving DecidableEq, Repr

def assert (condition : Bool) : Except Stop Unit :=
  if condition then .ok () else .error .assertion

theorem assert_ok {condition : Bool} (holds : condition = true) : assert condition = .ok () :=
  if_pos holds

theorem assert_bind {α : Type} {condition : Bool} (holds : condition = true)
    (next : Unit → Except Stop α) : (assert condition >>= next) = next () := by
  rw [assert_ok holds]
  rfl

universe u v
variable {ε : Type u} {α β : Type v} {allowed : ε → Prop}

/-- The program returns a value of which `after` holds, or stops for a reason that
is allowed. -/
def Ends (allowed : ε → Prop) (after : α → Prop) : Except ε α → Prop
  | .ok a => after a
  | .error e => allowed e

theorem Ends.ok {after : α → Prop} {a : α} (holds : after a) : Ends allowed after (.ok a) := holds

theorem Ends.mono {after after' : α → Prop} {program : Except ε α} (ends : Ends allowed after program)
    (weaker : ∀ a, after a → after' a) : Ends allowed after' program := by
  cases program with
  | ok a => exact weaker a ends
  | error e => exact ends

theorem Ends.allow {allowed' : ε → Prop} {after : α → Prop} {program : Except ε α}
    (ends : Ends allowed after program) (more : ∀ e, allowed e → allowed' e) :
    Ends allowed' after program := by
  cases program with
  | ok a => exact ends
  | error e => exact more e ends

theorem Ends.bind {after : α → Prop} {later : β → Prop} {program : Except ε α}
    {next : α → Except ε β} (ends : Ends allowed after program)
    (continues : ∀ a, after a → Ends allowed later (next a)) :
    Ends allowed later (program >>= next) := by
  cases program with
  | ok a => exact continues a ends
  | error e => exact ends

theorem Ends.map {after : β → Prop} {f : α → β} {program : Except ε α}
    (ends : Ends allowed (fun a => after (f a)) program) : Ends allowed after (program.map f) := by
  cases program with
  | ok a => exact ends
  | error e => exact ends

theorem ends_check {stop : ε} (isAllowed : allowed stop) (condition : Bool) :
    Ends allowed (fun _ : PUnit => condition = true) (if condition then .ok ⟨⟩ else .error stop) := by
  cases condition with
  | true => rfl
  | false => exact isAllowed

/-- A program whose first part is known to return. -/
theorem bind_eq_of_ok {program : Except ε α} {next : α → Except ε β} {result : Except ε β} {a : α}
    (returned : program = .ok a) (continues : next a = result) : (program >>= next) = result := by
  rw [returned]
  exact continues

/-- What is known of a value that was returned. -/
theorem Ends.of_ok {after : α → Prop} {program : Except ε α} {a : α} (ends : Ends allowed after program)
    (returned : program = .ok a) : after a := by
  rw [returned] at ends
  exact ends

/-- A step function that forgets why the program stops. -/
theorem eq_ok_of_toOption {program : Except ε α} {a : α} (returned : program.toOption = some a) :
    program = .ok a := by
  cases program with
  | error e => cases returned
  | ok b =>
      cases returned
      rfl

/-- The loop over a list, with an invariant that may speak of what is left. -/
theorem ends_foldlM {step : β → α → Except ε β} (invariant : List α → β → Prop)
    (keeps : ∀ a rest b, invariant (a :: rest) b → Ends allowed (invariant rest) (step b a))
    (items : List α) (b : β) (start : invariant items b) :
    Ends allowed (invariant []) (items.foldlM step b) := by
  induction items generalizing b with
  | nil => exact start
  | cons a rest ih =>
      rw [List.foldlM_cons]
      exact (keeps a rest b start).bind (fun b' holds => ih b' holds)

end GemFi.Outcomes
