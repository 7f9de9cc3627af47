import Mathlib.Data.List.TakeWhile

/-!
Formatted extraction from an input stream with its two state bits, over any
alphabet and any notion of a blank. An extraction skips blanks, takes the longest
item its splitter finds and stops in front of what follows; only an item that
runs up to the end of the input sets the end bit. On a stream that is not good an
extraction fails and leaves its target alone.
-/

namespace GemFi.TokenStream

variable {α : Type}

structure InputStream (α : Type) where
  -- what is still to be read, and the state bits `eofbit` and `failbit`
  rest : List α
  eof : Bool
  fail : Bool
  deriving DecidableEq, Repr

structure Splitter (α : Type) where
  split : List α → List α × List α
  joined : ∀ input, (split input).1 ++ (split input).2 = input

def word (space : α → Bool) : Splitter α where
  split input := (input.takeWhile fun c => !space c, input.dropWhile fun c => !space c)
  joined _ := List.takeWhile_append_dropWhile

namespace InputStream

def start (text : List α) : InputStream α := ⟨text, false, false⟩

def reached (rest : List α) : InputStream α := ⟨rest, rest.isEmpty, false⟩

def good (s : InputStream α) : Bool := !s.eof && !s.fail

def sentry (space : α → Bool) (s : InputStream α) : InputStream α :=
  if s.good then
    match s.rest.dropWhile space with
    | [] => ⟨[], true, true⟩
    | c :: rest => start (c :: rest)
  else { s with fail := true }

/-- `none` when nothing was extracted. -/
def extract (space : α → Bool) (splitter : Splitter α) (s : InputStream α) :
    Option (List α) × InputStream α :=
  let ready := s.sentry space
  if ready.good then (some (splitter.split ready.rest).1, reached (splitter.split ready.rest).2)
  else (none, ready)

/-- `setstate(failbit)`, when the item is not what was asked for. -/
def failIf (failed : Bool) (s : InputStream α) : InputStream α :=
  { s with fail := s.fail || failed }

def weight (s : InputStream α) : Nat := if s.good then s.rest.length + 2 else 1

@[simp] theorem start_good (text : List α) : (start text).good = true := rfl

theorem start_cons (c : α) (text : List α) : start (c :: text) = reached (c :: text) := rfl

theorem good_cases (s : InputStream α) : s.good = false ∨ s = start s.rest := by
  rcases s with ⟨rest, eof, fail⟩
  cases eof <;> cases fail <;> simp [good, start]

@[simp] theorem weight_start (text : List α) : (start text).weight = text.length + 2 := rfl

theorem weight_bad {s : InputStream α} (bad : s.good = false) : s.weight = 1 := by
  simp [weight, bad]

theorem weight_pos (s : InputStream α) : 0 < s.weight := by
  unfold weight
  split <;> omega

theorem weight_reached_le (rest : List α) : (reached rest).weight ≤ rest.length + 2 := by
  unfold weight
  split
  · exact Nat.le_refl _
  · omega

theorem failIf_false (s : InputStream α) : s.failIf false = s := by
  simp [failIf]

theorem weight_failIf_le (failed : Bool) (s : InputStream α) :
    (s.failIf failed).weight ≤ s.weight := by
  cases failed with
  | false => rw [failIf_false]
  | true =>
      rw [weight_bad (by simp [good, failIf])]
      exact s.weight_pos

end InputStream

open InputStream

section Extraction

variable {space : α → Bool} {splitter : Splitter α} {s : InputStream α}

def Delimited (space : α → Bool) (rest : List α) : Prop := ∀ c ∈ rest.head?, space c = true

theorem extract_bad (bad : s.good = false) :
    s.extract space splitter = (none, { s with fail := true }) := by
  have failed : ({ s with fail := true } : InputStream α).good = false := by simp [good]
  simp [extract, sentry, bad, failed]

theorem extract_blank {text : List α} (blank : ∀ c ∈ text, space c = true) :
    (start text).extract space splitter = (none, ⟨[], true, true⟩) := by
  have skipped : text.dropWhile space = [] := List.dropWhile_eq_nil_iff.mpr blank
  simp [extract, sentry, start, good, skipped]

theorem extract_skipped {text rest : List α} {c : α} (skipped : text.dropWhile space = c :: rest) :
    (start text).extract space splitter =
      (some (splitter.split (c :: rest)).1, reached (splitter.split (c :: rest)).2) := by
  have ready : (start text).sentry space = start (c :: rest) := by
    rw [sentry, if_pos (start_good _)]
    simp only [start, skipped]
  simp only [extract, ready, start_good, if_true]
  rfl

/-- The step of every reader of well-formed input: blanks are skipped, and the
item in front is extracted. -/
theorem extract_item {gap item rest : List α} {c : α} {cs : List α}
    (blank : ∀ c ∈ gap, space c = true) (solid : item = c :: cs) (starts : space c = false)
    (cut : splitter.split (item ++ rest) = (item, rest)) :
    (start (gap ++ item ++ rest)).extract space splitter = (some item, reached rest) := by
  subst solid
  have skipped : (gap ++ (c :: cs) ++ rest).dropWhile space = c :: (cs ++ rest) := by
    rw [List.append_assoc, List.dropWhile_append_of_pos blank]
    simp [starts]
  rw [List.cons_append] at cut
  rw [extract_skipped skipped, cut]

theorem word_split {item rest : List α} (solid : ∀ c ∈ item, space c = false)
    (ends : Delimited space rest) : (word space).split (item ++ rest) = (item, rest) := by
  have all : ∀ c ∈ item, (!space c) = true := fun c member => by simp [solid c member]
  have stop : rest.takeWhile (fun c => !space c) = [] ∧
      rest.dropWhile (fun c => !space c) = rest := by
    cases rest with
    | nil => exact ⟨rfl, rfl⟩
    | cons c rest =>
        have blank : space c = true := ends c rfl
        simp [blank]
  simp only [word, List.takeWhile_append_of_pos all, List.dropWhile_append_of_pos all, stop,
    List.append_nil]

theorem extract_weight_le : (s.extract space splitter).2.weight ≤ s.weight := by
  rcases s.good_cases with bad | good
  · rw [extract_bad bad, weight_bad bad, weight_bad (by simp [InputStream.good])]
  · rw [good, weight_start]
    generalize s.rest = text
    cases skipped : text.dropWhile space with
    | nil =>
        rw [extract_blank (List.dropWhile_eq_nil_iff.mp skipped), weight_bad rfl]
        omega
    | cons c rest =>
        have shorter := (List.dropWhile_sublist space (l := text)).length_le
        -- what the splitter leaves is a part of what the blanks left
        have split := congrArg List.length (splitter.joined (c :: rest))
        have after := weight_reached_le (splitter.split (c :: rest)).2
        rw [skipped] at shorter
        rw [List.length_append] at split
        rw [extract_skipped skipped]
        refine after.trans ?_
        omega

theorem extract_word_weight_lt (good : s.good = true) :
    (s.extract space (word space)).2.weight < s.weight := by
  have fresh : s = start s.rest := s.good_cases.resolve_left (by simp [good])
  rw [fresh, weight_start]
  generalize s.rest = text
  cases skipped : text.dropWhile space with
  | nil =>
      rw [extract_blank (List.dropWhile_eq_nil_iff.mp skipped), weight_bad rfl]
      omega
  | cons c rest =>
      have solid : space c = false := by
        have head := List.head?_dropWhile_not space text
        simpa [skipped] using head
      have cut : ((word space).split (c :: rest)).2 = rest.dropWhile fun c => !space c := by
        simp [word, solid]
      have shorter := (List.dropWhile_sublist space (l := text)).length_le
      have tail := (List.dropWhile_sublist (fun c => !space c) (l := rest)).length_le
      have after := weight_reached_le (rest.dropWhile fun c => !space c)
      rw [skipped, List.length_cons] at shorter
      rw [extract_skipped skipped, cut]
      refine after.trans_lt ?_
      omega

end Extraction

abbrev Reader (α ε : Type) := StateT (InputStream α) (Except ε)

namespace Reader

variable {ε β γ : Type}

/-- The program adds nothing to what can be read, and halts only with an error
that is allowed. -/
structure Within (allowed : ε → Prop) (m : Reader α ε β) : Prop where
  weight_le : ∀ s b s', m s = .ok (b, s') → s'.weight ≤ s.weight
  error : ∀ s e, m s = .error e → allowed e

theorem bind_of_ok {m : Reader α ε β} {f : β → Reader α ε γ} {s s' : InputStream α} {b : β}
    (returned : m s = .ok (b, s')) : (m >>= f) s = f b s' := by
  simp only [bind, StateT.bind, Except.bind, returned]

theorem bind_of_error {m : Reader α ε β} {f : β → Reader α ε γ} {s : InputStream α} {e : ε}
    (halted : m s = .error e) : (m >>= f) s = .error e := by
  simp only [bind, StateT.bind, Except.bind, halted]

theorem bind_ok {m : Reader α ε β} {f : β → Reader α ε γ} {s s' : InputStream α} {c : γ}
    (returned : (m >>= f) s = .ok (c, s')) :
    ∃ b middle, m s = .ok (b, middle) ∧ f b middle = .ok (c, s') := by
  cases first : m s with
  | error e =>
      rw [bind_of_error first] at returned
      cases returned
  | ok result =>
      obtain ⟨b, middle⟩ := result
      rw [bind_of_ok first] at returned
      exact ⟨b, middle, rfl, returned⟩

theorem bind_error {m : Reader α ε β} {f : β → Reader α ε γ} {s : InputStream α} {e : ε}
    (halted : (m >>= f) s = .error e) :
    m s = .error e ∨ ∃ b middle, m s = .ok (b, middle) ∧ f b middle = .error e := by
  cases first : m s with
  | error e' =>
      rw [bind_of_error first] at halted
      cases halted
      exact Or.inl rfl
  | ok result =>
      obtain ⟨b, middle⟩ := result
      rw [bind_of_ok first] at halted
      exact Or.inr ⟨b, middle, rfl, halted⟩

theorem map_of_ok {m : Reader α ε β} {g : β → γ} {s s' : InputStream α} {b : β}
    (returned : m s = .ok (b, s')) : (g <$> m) s = .ok (g b, s') := by
  simp only [Functor.map, StateT.map, bind, Except.bind, returned]
  rfl

theorem map_of_error {m : Reader α ε β} {g : β → γ} {s : InputStream α} {e : ε}
    (halted : m s = .error e) : (g <$> m) s = .error e := by
  simp only [Functor.map, StateT.map, bind, Except.bind, halted]

theorem lift_of_ok {x : Except ε β} {b : β} (returned : x = .ok b) (s : InputStream α) :
    (liftM x : Reader α ε β) s = .ok (b, s) := by
  subst returned
  rfl

variable {allowed : ε → Prop}

theorem Within.pure (b : β) : Within allowed (pure b : Reader α ε β) where
  weight_le s c s' returned := by
    cases returned
    exact Nat.le_refl _
  error s e halted := by cases halted

theorem Within.bind {m : Reader α ε β} {f : β → Reader α ε γ} (first : Within allowed m)
    (second : ∀ b, Within allowed (f b)) : Within allowed (m >>= f) where
  weight_le s c s' returned := by
    obtain ⟨b, middle, one, two⟩ := bind_ok returned
    exact ((second b).weight_le middle c s' two).trans (first.weight_le s b middle one)
  error s e halted := by
    rcases bind_error halted with one | ⟨b, middle, _, two⟩
    · exact first.error s e one
    · exact (second b).error middle e two

theorem Within.map {m : Reader α ε β} {g : β → γ} (first : Within allowed m) :
    Within allowed (g <$> m) := by
  rw [map_eq_pure_bind]
  exact first.bind fun b => .pure (g b)

theorem Within.lift {x : Except ε β} (errors : ∀ e, x = .error e → allowed e) :
    Within allowed (liftM x : Reader α ε β) where
  weight_le s c s' returned := by
    cases x with
    | error e => cases returned
    | ok b =>
        cases returned
        exact Nat.le_refl _
  error s e halted := by
    cases x with
    | error e' =>
        cases halted
        exact errors e rfl
    | ok b => cases halted

end Reader

end GemFi.TokenStream
