import GemFi.EventOrder

/-!
The time of a queue in serial mode, while the handlers call it as they like. The
events in the queue are never in the past, so time does not go back, and what has
been noted of an event tells whether it waits and whether it is squashed.
-/

namespace GemFi.SimulatedTime

open BinnedStacks EventQueue EventQueue.Memory EventBins EventOrder Outcomes Transitions

section Notes

def noted : Note → EventPtr
  | .scheduled event | .descheduled event | .rescheduled event | .squashed event
  | .processed event _ | .skipped event => event

def waitsAfter (before : Bool) : Note → Bool
  -- whether the event waits after what is noted of it
  | .scheduled _ => true
  | .descheduled _ | .processed _ _ | .skipped _ => false
  | .rescheduled _ | .squashed _ => before

def markedAfter (before : Bool) : Note → Bool
  -- whether the event is squashed after what is noted of it
  | .squashed _ => true
  | .descheduled _ | .rescheduled _ | .skipped _ => false
  | .scheduled _ | .processed _ _ => before

def waits : List Note → EventPtr → Bool
  | [], _ => false
  | n :: older, event =>
      if noted n = event then waitsAfter (waits older event) n else waits older event

def marked : List Note → EventPtr → Bool
  -- the event has been squashed, and neither descheduled, rescheduled nor skipped since
  | [], _ => false
  | n :: older, event =>
      if noted n = event then markedAfter (marked older event) n else marked older event

def Fits (older : List Note) : Note → Prop
  -- what must have happened before
  | .scheduled event => waits older event = false
  | .descheduled event | .rescheduled event => waits older event = true
  | .squashed _ => True
  | .processed event _ => waits older event = true ∧ marked older event = false
  | .skipped event => waits older event = true ∧ marked older event = true

def Orderly : List Note → Prop
  -- every schedule is answered by one deschedule, one handler or one skip before the next, a
  -- handler only where the event is not squashed and a skip only where it is
  | [] => True
  | n :: older => Fits older n ∧ Orderly older

structure Booked (m : Memory) : Prop where
  alive : ∀ event, (m.flags event).scheduled = true → (m.flags event).initialized = true
  waits : ∀ event, (m.flags event).scheduled = waits m.notes event
  marked : ∀ event, (m.flags event).initialized = true → (m.flags event).squashed = marked m.notes event
  orderly : Orderly m.notes

/-- One note, with the flags of its event. -/
theorem Booked.step {m m' : Memory} {n : Note} {f : Flags} (booked : Booked m)
    (flags : m'.flags = Function.update m.flags (noted n) f) (notes : m'.notes = n :: m.notes)
    (fits : Fits m.notes n) (alive : f.scheduled = true → f.initialized = true)
    (waiting : f.scheduled = waitsAfter (SimulatedTime.waits m.notes (noted n)) n)
    (squashed : f.initialized = true →
      f.squashed = markedAfter (SimulatedTime.marked m.notes (noted n)) n) : Booked m' := by
  refine ⟨?_, ?_, ?_, ?_⟩
  · intro event
    rw [flags]
    by_cases same : event = noted n
    · subst same
      rw [Function.update_self]
      exact alive
    · rw [Function.update_of_ne same]
      exact booked.alive event
  · intro event
    rw [flags, notes]
    by_cases same : event = noted n
    · subst same
      rw [Function.update_self, SimulatedTime.waits, if_pos rfl]
      exact waiting
    · rw [Function.update_of_ne same, booked.waits event, SimulatedTime.waits, if_neg (Ne.symm same)]
  · intro event
    rw [flags, notes]
    by_cases same : event = noted n
    · subst same
      rw [Function.update_self, SimulatedTime.marked, if_pos rfl]
      exact squashed
    · rw [Function.update_of_ne same, SimulatedTime.marked, if_neg (Ne.symm same)]
      exact booked.marked event
  · rw [notes]
    exact ⟨fits, booked.orderly⟩

/-- A flag that is not kept in the notes, or all flags of an event that is deleted. -/
theorem Booked.setFlags {m : Memory} {event : EventPtr} {change : Flags → Flags} (booked : Booked m)
    (same : (change (m.flags event)).scheduled = (m.flags event).scheduled)
    (dead : (change (m.flags event)).initialized = false)
    (idle : (m.flags event).scheduled = false) : Booked (m.setFlags event change) := by
  refine ⟨?_, ?_, ?_, booked.orderly⟩
  · intro other
    by_cases here : other = event
    · simp [here, Memory.setFlags, same, idle]
    · simpa [Memory.setFlags, here] using booked.alive other
  · intro other
    by_cases here : other = event
    · simpa [here, Memory.setFlags, same] using booked.waits event
    · simpa [Memory.setFlags, here] using booked.waits other
  · intro other
    by_cases here : other = event
    · simp [here, Memory.setFlags, dead]
    · simpa [Memory.setFlags, here] using booked.marked other

end Notes

section Steps

variable {q cur : QueuePtr} {m m' m₁ : Memory} {bins bins' : List (Bin EventPtr)} {event : EventPtr}
  {fuel : Nat} {handler : List Op} {op : Op}

/-- The queue is sound, no event in it is in the past, and the notes are right. -/
structure Timely (q : QueuePtr) (m : Memory) (bins : List (Bin EventPtr)) : Prop where
  sound : Sound q m bins
  ahead : ∀ event ∈ members bins, m.curTick q ≤ m.when_ event
  booked : Booked m

theorem joined_ahead {when_ : Nat} (joined : Joined q event when_ m bins m₁)
    (ahead : ∀ event ∈ members bins, m.curTick q ≤ m.when_ event) (notPast : m.curTick q ≤ when_) :
    ∀ other ∈ members (push (key m₁) event bins), m₁.curTick q ≤ m₁.when_ other := by
  intro other member
  rw [joined.relinks.curTick, joined.relinks.when_]
  rcases List.mem_cons.mp ((push_perm event bins).mem_iff.mp member) with rfl | old
  · simpa [setWhen] using notPast
  · have differs : other ≠ event := fun same => joined.outside (same ▸ old)
    simpa [setWhen, differs] using ahead other old

theorem left_ahead (left : Left q event m bins m₁)
    (ahead : ∀ event ∈ members bins, m.curTick q ≤ m.when_ event) :
    ∀ other ∈ members (pull event bins), m₁.curTick q ≤ m₁.when_ other := by
  intro other member
  rw [members_pull] at member
  rw [left.relinks.curTick, left.relinks.when_]
  exact ahead other (List.mem_of_mem_erase member)

/-- The flags of an event that waits, or does not, in the notes. -/
theorem Booked.descheduled {f : Flags} (event : EventPtr) (booked : Booked m)
    (waiting : (m.flags event).scheduled = true)
    (flags : m'.flags = Function.update m.flags event f)
    (notes : m'.notes = .descheduled event :: m.notes)
    (cleared : f.scheduled = false) (unsquashed : f.squashed = false) : Booked m' := by
  refine booked.step (n := .descheduled event) flags notes ?_ ?_ cleared (fun _ => unsquashed)
  · exact (booked.waits event).symm.trans waiting
  · simp [cleared]

theorem Booked.scheduled {f : Flags} (event : EventPtr) (booked : Booked m)
    (idle : (m.flags event).scheduled = false)
    (alive : (m.flags event).initialized = true)
    (flags : m'.flags = Function.update m.flags event f)
    (notes : m'.notes = .scheduled event :: m.notes)
    (isNew : f = { m.flags event with scheduled := true }) : Booked m' := by
  subst isNew
  refine booked.step (n := .scheduled event) flags notes ?_ (fun _ => alive) rfl
    (fun _ => booked.marked event alive)
  exact (booked.waits event).symm.trans idle

theorem Booked.rescheduled {f : Flags} (event : EventPtr) (booked : Booked m)
    (waiting : (m.flags event).scheduled = true)
    (flags : m'.flags = Function.update m.flags event f)
    (notes : m'.notes = .rescheduled event :: m.notes)
    (isNew : f = { m.flags event with squashed := false, scheduled := true }) : Booked m' := by
  subst isNew
  have waits := (booked.waits event).symm.trans waiting
  exact booked.step (n := .rescheduled event) flags notes waits
    (fun _ => booked.alive event waiting) waits.symm (fun _ => rfl)

theorem effect_timely (timely : Timely q m bins) (effect : OpEffect q m bins op m' bins') :
    Timely q m' bins' ∧ m'.curTick = m.curTick := by
  have sound' := (effect.keeps timely.sound).1
  have booked := timely.booked
  cases effect with
  | scheduled event when_ global m₁ notPast idle alive joined =>
      have flags : m₁.flags = m.flags := joined.relinks.flags
      have notes : m₁.notes = m.notes := joined.relinks.notes
      refine ⟨⟨sound', joined_ahead joined timely.ahead notPast, ?_⟩, joined.relinks.curTick⟩
      refine booked.scheduled event idle alive ?_ ?_ rfl
      · simp [Memory.setFlags, Memory.note, flags]
      · simp [Memory.setFlags, Memory.note, notes]
  | descheduled event m₁ waiting alive kept left =>
      have ahead := left_ahead left timely.ahead
      refine ⟨⟨sound', ahead, ?_⟩, left.relinks.curTick⟩
      refine booked.descheduled (f := { m.flags event with squashed := false, scheduled := false }) event
        waiting ?_ ?_ rfl rfl
      · simp [Memory.setFlags, Memory.note, left.relinks.flags]
      · simp [Memory.setFlags, Memory.note, left.relinks.notes]
  | deleted event m₁ waiting alive auto left =>
      have ahead := left_ahead left timely.ahead
      refine ⟨⟨sound', ahead, ?_⟩, left.relinks.curTick⟩
      refine booked.descheduled (f := ⟨false, false, false, false, false, false⟩) event waiting ?_ ?_
        rfl rfl
      · simp [Memory.setFlags, Memory.note, left.relinks.flags]
      · simp [Memory.setFlags, Memory.note, left.relinks.notes]
  | rescheduled event when_ always m₁ m₂ notPast waiting alive left joined =>
      have flags : m₂.flags = m.flags := joined.relinks.flags.trans left.relinks.flags
      have notes : m₂.notes = m.notes := joined.relinks.notes.trans left.relinks.notes
      have sameTick : m₁.curTick = m.curTick := left.relinks.curTick
      refine ⟨⟨sound', joined_ahead joined (left_ahead left timely.ahead) (sameTick ▸ notPast), ?_⟩,
        joined.relinks.curTick.trans sameTick⟩
      refine booked.rescheduled event waiting ?_ ?_ rfl
      · simp [Memory.setFlags, Memory.note, flags]
      · simp [Memory.setFlags, Memory.note, notes]
  | started event when_ m₁ notPast idle alive joined =>
      have flags : m₁.flags = m.flags := joined.relinks.flags
      have notes : m₁.notes = m.notes := joined.relinks.notes
      refine ⟨⟨sound', joined_ahead joined timely.ahead notPast, ?_⟩, joined.relinks.curTick⟩
      have begun : Booked ((m₁.setFlags event fun f => { f with scheduled := true }).note
          (.scheduled event)) := by
        refine booked.scheduled event idle alive ?_ ?_ rfl
        · simp [Memory.setFlags, Memory.note, flags]
        · simp [Memory.setFlags, Memory.note, notes]
      refine begun.rescheduled event ?_ ?_ rfl rfl
      · simp [Memory.setFlags, Memory.note]
      · simp [Memory.setFlags, Memory.note]
  | squashed event =>
      refine ⟨⟨sound', timely.ahead, ?_⟩, rfl⟩
      exact booked.step (n := .squashed event) rfl rfl trivial (booked.alive event) (booked.waits event)
        (fun _ => rfl)

theorem effect_notes (effect : OpEffect q m bins op m' bins') : m.notes <:+ m'.notes := by
  cases effect with
  | scheduled event when_ global m₁ notPast idle alive joined =>
      exact ⟨[_], congrArg (List.cons _) joined.relinks.notes.symm⟩
  | descheduled event m₁ waiting alive kept left =>
      exact ⟨[_], congrArg (List.cons _) left.relinks.notes.symm⟩
  | deleted event m₁ waiting alive auto left =>
      exact ⟨[_], congrArg (List.cons _) left.relinks.notes.symm⟩
  | rescheduled event when_ always m₁ m₂ notPast waiting alive left joined =>
      exact ⟨[_], congrArg (List.cons _) (joined.relinks.notes.trans left.relinks.notes).symm⟩
  | started event when_ m₁ notPast idle alive joined =>
      exact ⟨[_, _], congrArg (fun notes => _ :: _ :: notes) joined.relinks.notes.symm⟩
  | squashed event => exact ⟨[_], rfl⟩

structure Running (q : QueuePtr) (fuel : Nat) (curTick : QueuePtr → Nat) (notes : List Note)
    (left : List Op) (s : Memory) : Prop where
  works : ∀ op ∈ left, WorksOn q op
  still : s.curTick = curTick
  since : notes <:+ s.notes
  timely : ∃ bins, Timely q s bins ∧ (members bins).length + left.length < fuel

theorem process_timely (timely : Timely q m bins) (works : ∀ op ∈ handler, WorksOn q op)
    (enough : (members bins).length + handler.length < fuel) :
    Ends Asserts (Running q fuel m.curTick m.notes []) (process fuel cur handler m) := by
  refine ends_foldlM (Running q fuel m.curTick m.notes) ?_ handler m
    ⟨works, rfl, List.suffix_refl _, bins, timely, enough⟩
  intro op left s running
  obtain ⟨bins', timely', short⟩ := running.timely
  obtain ⟨here, others⟩ := List.forall_mem_cons.mp running.works
  rw [List.length_cons] at short
  refine (perform_ends timely'.sound (by omega) here).mono ?_
  rintro s' ⟨bins'', effect⟩
  obtain ⟨timely'', sameTick⟩ := effect_timely timely' effect
  have longer := effect.length_le timely'.sound
  exact ⟨others, sameTick.trans running.still, running.since.trans (effect_notes effect), bins'',
    timely'',
    by omega⟩

theorem popped_flags (popped : Popped q m bins event m₁) :
    m₁.flags = Function.update m.flags event { m.flags event with scheduled := false } :=
  popped.left.relinks.flags

theorem popped_mem (popped : Popped q m bins event m₁) : event ∈ members bins := by
  obtain ⟨bin, rest, rfl, rfl⟩ := popped.first
  exact mem_members_of_top List.mem_cons_self

theorem skipped_timely (timely : Timely q m bins) (popped : Popped q m bins event m₁)
    (squashed : (m.flags event).squashed = true) :
    Timely q ((m₁.setFlags event fun f => { f with squashed := false }).note (.skipped event))
      (pull event bins) := by
  have booked := timely.booked
  have waiting : (m.flags event).scheduled = true :=
    (timely.sound.flagged event).mpr (popped_mem popped)
  have alive := booked.alive event waiting
  have sound₁ : Sound q (m₁.setFlags event fun f => { f with squashed := false }) (pull event bins) :=
    Sound.setFlags (popped.sound timely.sound) rfl
  have ahead := left_ahead popped.left timely.ahead
  refine ⟨sound₁.note, ahead, ?_⟩
  refine booked.step (n := .skipped event)
    (f := { m.flags event with squashed := false, scheduled := false }) ?_ ?_ ?_ (by simp) rfl
    (fun _ => rfl)
  · simp [Memory.setFlags, Memory.note, popped_flags popped, noted]
  · exact congrArg (List.cons _) popped.left.relinks.notes
  · exact ⟨(booked.waits event).symm.trans waiting, (booked.marked event alive).symm.trans squashed⟩

theorem begun_timely (timely : Timely q m bins) (popped : Popped q m bins event m₁)
    (unsquashed : (m.flags event).squashed = false) :
    Timely q (setCurTick q event m₁) (pull event bins) ∧
      (setCurTick q event m₁).curTick q = m.when_ event ∧
      (setCurTick q event m₁).notes = .processed event (m.when_ event) :: m.notes := by
  have booked := timely.booked
  have waiting : (m.flags event).scheduled = true :=
    (timely.sound.flagged event).mpr (popped_mem popped)
  have alive := booked.alive event waiting
  have sameWhen : m₁.when_ = m.when_ := popped.left.relinks.when_
  have tick : (setCurTick q event m₁).curTick q = m.when_ event := by
    simp [setCurTick, Memory.note, sameWhen]
  have notes : (setCurTick q event m₁).notes = .processed event (m.when_ event) :: m.notes := by
    have older : m₁.notes = m.notes := popped.left.relinks.notes
    simp [setCurTick, Memory.note, sameWhen, older]
  refine ⟨⟨(popped.sound timely.sound).setCurTick, ?_, ?_⟩, tick, notes⟩
  · -- no other event of the queue is earlier
    intro other member
    rw [tick]
    change m.when_ event ≤ m₁.when_ other
    rw [sameWhen]
    rw [members_pull] at member
    have differs : other ≠ event := fun same =>
      timely.sound.held.shaped.2.not_mem_erase (same ▸ member)
    have first := popped.youngest timely.sound (List.mem_of_mem_erase member) differs
    have notLater : key m event ≤ key m other := first.elim le_of_lt (fun same => same.1.le)
    rw [key, key, Prod.Lex.toLex_le_toLex] at notLater
    rcases notLater with earlier | ⟨same, _⟩
    · exact Nat.le_of_lt earlier
    · exact Nat.le_of_eq same
  · have flags := popped_flags popped
    refine booked.step (n := .processed event (m.when_ event)) flags notes ?_ (by simp) rfl
      (booked.marked event)
    exact ⟨(booked.waits event).symm.trans waiting, (booked.marked event alive).symm.trans unsquashed⟩

theorem retire_timely {result : Option EventPtr × Memory} (timely : Timely q m bins)
    (effect : RetireEffect event m result) :
    Timely q result.2 bins ∧ result.2.curTick = m.curTick ∧ result.2.notes = m.notes := by
  cases effect with
  | kept => exact ⟨timely, rfl, rfl⟩
  | deleted idle auto =>
      have sound := (RetireEffect.deleted idle auto).sound timely.sound
      have booked : Booked (m.setFlags event fun _ => ⟨false, false, false, false, false, false⟩) :=
        timely.booked.setFlags idle.symm rfl idle
      exact ⟨⟨sound.1, timely.ahead, booked⟩, rfl, rfl⟩

inductive Served (q : QueuePtr) (fuel : Nat) (cur : QueuePtr) (handler : List Op) (m : Memory)
    (event : EventPtr) (m₁ m' : Memory) : Prop where
  | skipped (squashed : (m.flags event).squashed = true) (still : m'.curTick = m.curTick)
      (notes : m'.notes = .skipped event :: m.notes)
  | ran (unsquashed : (m.flags event).squashed = false) (notBack : m.curTick q ≤ m.when_ event)
      (moved : m'.curTick q = m.when_ event)
      (inside : ∀ done left s, handler = done ++ left →
        process fuel cur done (setCurTick q event m₁) = .ok s → s.curTick q = m.when_ event)
      (notes : .processed event (m.when_ event) :: m.notes <:+ m'.notes)

theorem serviceOne_timely (timely : Timely q m bins) (works : ∀ op ∈ handler, WorksOn q op)
    (enough : (members bins).length + handler.length < fuel) :
    Ends (fun stop => stop = .assertion ∨ bins = [] ∧ stop = .nullPointer)
      (fun result => ∃ event m₁ bins', popHead q m = .ok (event, m₁) ∧ Timely q result.2 bins' ∧
        Served q fuel cur handler m event m₁ result.2) (serviceOne fuel cur q handler m) := by
  unfold serviceOne
  rcases popHead_cases timely.sound with ⟨none, empty⟩ | ⟨event, m₁, taken, popped⟩
  · rw [empty]
    exact .inr ⟨none, rfl⟩
  have squash : (m₁.flags event).squashed = (m.flags event).squashed := by
    rw [popped_flags popped, Function.update_self]
  rw [taken]
  change Ends _ _ (if (m₁.flags event).squashed = true then _ else (process fuel cur handler _ >>= _))
  cases isSquashed : (m₁.flags event).squashed with
  | true =>
      have squashed := squash.symm.trans isSquashed
      have timely₁ := skipped_timely timely popped squashed
      rw [if_pos rfl]
      refine ((retire_ends event _).allow fun _ => .inl).mono ?_
      intro result effect
      obtain ⟨timely', still, notes⟩ := retire_timely timely₁ effect
      refine ⟨event, m₁, _, rfl, timely', .skipped squashed ?_ ?_⟩
      · exact still.trans popped.left.relinks.curTick
      · exact notes.trans (congrArg (List.cons _) popped.left.relinks.notes)
  | false =>
      have unsquashed := squash.symm.trans isSquashed
      obtain ⟨begun, tick, notes⟩ := begun_timely timely popped unsquashed
      have notBack := timely.ahead event (popped_mem popped)
      have shorter : (members (pull event bins)).length + handler.length < fuel :=
        Nat.lt_of_le_of_lt (Nat.add_le_add_right (length_pull_le event bins) _) enough
      have inside : ∀ done left s, handler = done ++ left →
          process fuel cur done (setCurTick q event m₁) = .ok s → s.curTick q = m.when_ event := by
        rintro done left s rfl ended
        rw [List.length_append] at shorter
        have ends : Ends Asserts _ (process fuel cur done (setCurTick q event m₁)) :=
          process_timely begun (fun op member => works op (List.mem_append_left left member)) (by omega)
        have running := ends.of_ok ended
        rw [running.still, tick]
      rw [if_neg Bool.false_ne_true]
      refine ((process_timely begun works shorter).allow fun _ => .inl).bind ?_
      intro m₂ running
      obtain ⟨bins₂, timely₂, _⟩ := running.timely
      have served : ∀ m' : Memory, m'.curTick = m₂.curTick → m'.notes = m₂.notes →
          Served q fuel cur handler m event m₁ m' := by
        intro m' sameTick sameNotes
        refine .ran unsquashed notBack ?_ inside ?_
        · rw [sameTick, running.still, tick]
        · rw [sameNotes, ← notes]
          exact running.since
      split
      · refine ((ends_assert _).allow fun _ => .inl).bind ?_
        intro _ _
        exact ⟨event, m₁, bins₂, rfl, timely₂, served m₂ rfl rfl⟩
      · refine ((retire_ends event m₂).allow fun _ => .inl).mono ?_
        intro result effect
        obtain ⟨timely', still, same⟩ := retire_timely timely₂ effect
        exact ⟨event, m₁, bins₂, rfl, timely', served result.2 still same⟩

end Steps

section Runs

variable {q : QueuePtr} {fuel : Nat} {m m' : Memory} {bins : List (Bin EventPtr)} {action : Action}
  {actions : List Action}

theorem timely_step (timely : Timely q m bins) (acts : ActsOn q action)
    (enough : (members bins).length + additions action < fuel)
    (stepped : step fuel m action = some m') :
    m.curTick q ≤ m'.curTick q ∧ ∃ bins', Timely q m' bins' ∧
      (members bins').length ≤ (members bins).length + additions action := by
  cases action with
  | call cur op =>
      have returned : perform fuel cur m op = .ok m' := eq_ok_of_toOption stepped
      have ends : Ends Asserts _ (perform fuel cur m op) :=
        perform_ends timely.sound (by simp only [additions] at enough; omega) acts
      obtain ⟨bins', effect⟩ := ends.of_ok returned
      obtain ⟨timely', still⟩ := effect_timely timely effect
      exact ⟨Nat.le_of_eq (congrFun still q).symm, bins', timely', effect.length_le timely.sound⟩
  | serviceOne cur other handler =>
      obtain ⟨bins'', sound, longer⟩ := sound_step timely.sound acts enough stepped
      obtain ⟨rfl, works⟩ := acts
      obtain ⟨result, serviced, rfl⟩ := serviceOne_of_step stepped
      obtain ⟨event, m₁, bins', _, timely', served⟩ :=
        (serviceOne_timely timely works enough).of_ok serviced
      -- both bins hold exactly the scheduled events
      have ahead : ∀ event ∈ members bins'', result.2.curTick other ≤ result.2.when_ event := by
        intro event member
        exact timely'.ahead event
          ((timely'.sound.flagged event).mp ((sound.flagged event).mpr member))
      refine ⟨?_, bins'', ⟨sound, ahead, timely'.booked⟩, longer⟩
      cases served with
      | skipped squashed still notes => exact Nat.le_of_eq (congrFun still other).symm
      | ran unsquashed notBack moved inside notes =>
          rw [moved]
          exact notBack
  | setParallelMode mode => exact acts.elim

theorem timely_run (timely : Timely q m bins) (acts : ∀ action ∈ actions, ActsOn q action)
    (enough : (members bins).length + totalAdditions actions < fuel)
    (ran : run (step fuel) actions m = some m') :
    m.curTick q ≤ m'.curTick q ∧ ∃ bins', Timely q m' bins' ∧
      (members bins').length ≤ (members bins).length + totalAdditions actions := by
  induction actions generalizing m bins with
  | nil =>
      cases ran
      exact ⟨Nat.le_refl _, bins, timely, Nat.le_refl _⟩
  | cons action rest ih =>
      obtain ⟨next, stepped, ran⟩ := Option.bind_eq_some_iff.mp ran
      obtain ⟨here, others⟩ := List.forall_mem_cons.mp acts
      rw [totalAdditions] at enough ⊢
      obtain ⟨goesOn, bins', timely', longer⟩ := timely_step timely here (by omega) stepped
      obtain ⟨later, bins'', timely'', longer'⟩ := ih timely' others (by omega) ran
      exact ⟨goesOn.trans later, bins'', timely'', by omega⟩

theorem timely_middle {before after : List Action} {mid : Memory} (timely : Timely q m bins)
    (acts : ∀ action ∈ before ++ after, ActsOn q action)
    (enough : (members bins).length + totalAdditions (before ++ after) < fuel)
    (ran : run (step fuel) before m = some mid) :
    ∃ bins', Timely q mid bins' ∧ (members bins').length + totalAdditions after < fuel := by
  rw [totalAdditions_append] at enough
  obtain ⟨_, bins', timely', longer⟩ := timely_run timely
    (fun action member => acts action (List.mem_append_left after member)) (by omega) ran
  exact ⟨bins', timely', by omega⟩

/-- Time in serial mode is monotone, and every schedule is answered once. -/
theorem simulated_time (q : QueuePtr) (fuel : Nat) (start reached : Memory) (actions : List Action)
    (empty : start.lists.head q = none)
    (idle : ∀ event, (start.flags event).scheduled = false ∧ (start.flags event).squashed = false)
    (unread : start.followed = []) (blank : start.notes = []) (serial : start.inParallelMode = false)
    (acts : ∀ action ∈ actions, ActsOn q action) (enough : totalAdditions actions < fuel)
    (ran : run (step fuel) actions start = some reached) :
    Orderly reached.notes ∧
    (∀ event, (reached.flags event).scheduled = waits reached.notes event) ∧
    (reached.lists.head q = none → ∀ event, waits reached.notes event = false) ∧
    (∀ before after mid, actions = before ++ after → run (step fuel) before start = some mid →
      mid.curTick q ≤ reached.curTick q) ∧
    (∀ before cur handler after mid next, actions = before ++ .serviceOne cur q handler :: after →
      run (step fuel) before start = some mid →
      step fuel mid (.serviceOne cur q handler) = some next →
      ∃ event m₁, popHead q mid = .ok (event, m₁) ∧ Served q fuel cur handler mid event m₁ next) := by
  have timely : Timely q start [] := by
    refine ⟨sound_start empty (fun event => (idle event).1) unread serial, by simp, ?_⟩
    refine ⟨?_, ?_, ?_, ?_⟩ <;> simp [blank, idle, waits, marked, Orderly]
  have enough : (members ([] : List (Bin EventPtr))).length + totalAdditions actions < fuel := by
    simpa using enough
  obtain ⟨_, bins, timely', _⟩ := timely_run timely acts enough ran
  refine ⟨timely'.booked.orderly, timely'.booked.waits, ?_, ?_, ?_⟩
  · intro drained event
    rw [← timely'.booked.waits event, ← Bool.not_eq_true, timely'.sound.flagged event]
    cases bins with
    | nil => exact List.not_mem_nil
    | cons bin rest =>
        have head : reached.lists.head q = some bin.1 := timely'.sound.held.shaped.1.1
        simp [head] at drained
  · rintro before after mid rfl ranBefore
    obtain ⟨bins', midTimely, room⟩ := timely_middle timely acts enough ranBefore
    rw [run_append, ranBefore] at ran
    exact (timely_run midTimely (fun action member => acts action (List.mem_append_right before member))
      room ran).1
  · rintro before cur handler after mid next rfl ranBefore stepped
    obtain ⟨bins', midTimely, room⟩ := timely_middle timely acts enough ranBefore
    rw [totalAdditions, additions] at room
    obtain ⟨_, works⟩ := acts (.serviceOne cur q handler)
      (List.mem_append_right before List.mem_cons_self)
    obtain ⟨result, serviced, rfl⟩ := serviceOne_of_step stepped
    obtain ⟨event, m₁, _, taken, _, served⟩ :=
      (serviceOne_timely midTimely works (by omega)).of_ok serviced
    exact ⟨event, m₁, taken, served⟩

def squashingActions : List Action :=
  -- a handler that schedules its own event again and squashes the one behind it, which is then
  -- skipped
  [.call 0 (.schedule 0 1 5 false), .call 0 (.schedule 0 2 9 false),
    .serviceOne 0 0 [.schedule 0 1 7 false, .squash 2], .serviceOne 0 0 [], .serviceOne 0 0 []]

theorem squashing_run_is_timely :
    ∃ reached, run (step 9) squashingActions constructed = some reached ∧ reached.curTick 0 = 7 ∧
      Orderly reached.notes ∧ ∀ event, waits reached.notes event = false := by
  obtain ⟨reached, ran⟩ : ∃ reached, run (step 9) squashingActions constructed = some reached :=
    ⟨_, rfl⟩
  have orderly := simulated_time 0 9 constructed reached squashingActions rfl (fun _ => ⟨rfl, rfl⟩)
    rfl rfl rfl (by simp [squashingActions, ActsOn, WorksOn]) (by decide) ran
  have last : reached.curTick 0 = 7 ∧ reached.lists.head 0 = none := by
    cases ran
    exact ⟨rfl, rfl⟩
  exact ⟨reached, ran, last.1, orderly.1, orderly.2.2.1 last.2⟩

end Runs

end GemFi.SimulatedTime
