import GemFi.EventBins
import GemFi.Outcomes
import GemFi.Transitions

/-!
The event queue in serial mode. Whatever is called, its pointers represent the scheduled
events, as bins that increase in time and priority and are stacks inside, and it
behaves as an agenda: a list in the order of the keys in which a new entry goes
before the older ones of its key.
-/

namespace GemFi.EventOrder

open BinnedStacks EventQueue EventQueue.Memory EventBins Outcomes Transitions

section Agendas

abbrev Entry := (Nat ×ₗ Int) × EventPtr

def arrange (entry : Entry) (agenda : List Entry) : List Entry :=
  -- a new entry, before the first that is not less
  agenda.orderedInsert (fun first second => first.1 ≤ second.1) entry

def cancel (event : EventPtr) (agenda : List Entry) : List Entry :=
  agenda.filter fun entry => entry.2 ≠ event

def agendaOp (priority : EventPtr → Int) (agenda : List Entry) : Op → List Entry
  | .schedule _ event when_ _ => arrange (toLex (when_, priority event), event) agenda
  | .deschedule _ event => cancel event agenda
  | .reschedule _ event when_ _ =>
      arrange (toLex (when_, priority event), event) (cancel event agenda)
  | .squash _ | .handleAsyncInsertions _ => agenda

def agendaOf (m : Memory) (bins : List (Bin EventPtr)) : List Entry :=
  (members bins).map fun event => (key m event, event)

theorem orderedInsert_map (m : Memory) (event : EventPtr) (events : List EventPtr) :
    (events.orderedInsert (fun first second => key m first ≤ key m second) event).map
        (fun event => (key m event, event)) =
      arrange (key m event, event) (events.map fun event => (key m event, event)) := by
  unfold arrange
  induction events with
  | nil => rfl
  | cons first rest ih =>
      simp only [List.orderedInsert, List.map_cons]
      split
      · rfl
      · rw [List.map_cons, ih]

theorem agendaOf_push {m : Memory} {bins : List (Bin EventPtr)} (ordered : Ordered (key m) bins)
    (event : EventPtr) :
    agendaOf m (push (key m) event bins) = arrange (key m event, event) (agendaOf m bins) := by
  rw [agendaOf, members_push ordered, orderedInsert_map, agendaOf]

theorem agendaOf_pull {m : Memory} {bins : List (Bin EventPtr)} (unique : (members bins).Nodup)
    (event : EventPtr) : agendaOf m (pull event bins) = cancel event (agendaOf m bins) := by
  rw [agendaOf, members_pull, unique.erase_eq_filter, cancel, agendaOf, List.filter_map]
  congr 1
  apply List.filter_congr
  intro other _
  by_cases same : other = event <;> simp [same]

theorem cancel_agendaOf {m : Memory} {bins : List (Bin EventPtr)} {event : EventPtr}
    (outside : event ∉ members bins) : cancel event (agendaOf m bins) = agendaOf m bins := by
  apply List.filter_eq_self.mpr
  intro entry member
  obtain ⟨other, inBins, rfl⟩ := List.mem_map.mp member
  have differs : other ≠ event := fun same => outside (same ▸ inBins)
  simpa using differs

theorem agendaOf_congr {m m' : Memory} {bins : List (Bin EventPtr)}
    (same : ∀ event ∈ members bins, key m' event = key m event) :
    agendaOf m' bins = agendaOf m bins := by
  unfold agendaOf
  apply List.map_congr_left
  intro event member
  rw [same event member]

end Agendas

/-- The queue in serial mode, with exactly the scheduled events in its bins. -/
structure Sound (q : QueuePtr) (m : Memory) (bins : List (Bin EventPtr)) : Prop where
  held : Held m q bins
  flagged : ∀ event, (m.flags event).scheduled = true ↔ event ∈ members bins
  tops : ∀ f ∈ m.followed, AtTop f
  serial : m.inParallelMode = false

def WorksOn (q : QueuePtr) : Op → Prop
  | .schedule other _ _ _ | .deschedule other _ | .reschedule other _ _ _ => other = q
  | .squash _ => True
  | .handleAsyncInsertions _ => False

section Effects

structure Joined (q : QueuePtr) (event : EventPtr) (when_ : Nat) (m : Memory)
    (bins : List (Bin EventPtr)) (m' : Memory) : Prop where
  outside : event ∉ members bins
  ordered : Ordered (key m') bins
  held : Held m' q (push (key m') event bins)
  relinks : Relinks (setWhen event when_ q m) m' q (event :: members bins)

structure Left (q : QueuePtr) (event : EventPtr) (m : Memory) (bins : List (Bin EventPtr))
    (m' : Memory) : Prop where
  held : Held m' q (pull event bins)
  relinks : Relinks m m' q (members bins)

inductive OpEffect (q : QueuePtr) (m : Memory) (bins : List (Bin EventPtr)) :
    Op → Memory → List (Bin EventPtr) → Prop where
  -- what a call that returns has done, in serial mode
  | scheduled (event : EventPtr) (when_ : Nat) (global : Bool) (m₁ : Memory)
      (notPast : m.curTick q ≤ when_) (idle : (m.flags event).scheduled = false)
      (alive : (m.flags event).initialized = true) (joined : Joined q event when_ m bins m₁) :
      OpEffect q m bins (.schedule q event when_ global)
        ((m₁.setFlags event fun f => { f with scheduled := true }).note (.scheduled event))
        (push (key m₁) event bins)
  | descheduled (event : EventPtr) (m₁ : Memory) (waiting : (m.flags event).scheduled = true)
      (alive : (m.flags event).initialized = true)
      (kept : (m.flags event).autoDelete = false) (left : Left q event m bins m₁) :
      OpEffect q m bins (.deschedule q event)
        ((m₁.setFlags event fun f => { f with squashed := false, scheduled := false }).note
          (.descheduled event)) (pull event bins)
  | deleted (event : EventPtr) (m₁ : Memory) (waiting : (m.flags event).scheduled = true)
      (alive : (m.flags event).initialized = true)
      (auto : (m.flags event).autoDelete = true) (left : Left q event m bins m₁) :
      OpEffect q m bins (.deschedule q event)
        (((m₁.setFlags event fun f => { f with squashed := false, scheduled := false }).note
          (.descheduled event)).setFlags event fun _ => ⟨false, false, false, false, false, false⟩)
        (pull event bins)
  | rescheduled (event : EventPtr) (when_ : Nat) (always : Bool) (m₁ m₂ : Memory)
      (notPast : m.curTick q ≤ when_) (waiting : (m.flags event).scheduled = true)
      (alive : (m.flags event).initialized = true) (left : Left q event m bins m₁)
      (joined : Joined q event when_ m₁ (pull event bins) m₂) :
      OpEffect q m bins (.reschedule q event when_ always)
        ((m₂.setFlags event fun f => { f with squashed := false, scheduled := true }).note
          (.rescheduled event)) (push (key m₂) event (pull event bins))
  | started (event : EventPtr) (when_ : Nat) (m₁ : Memory)
      (notPast : m.curTick q ≤ when_) (idle : (m.flags event).scheduled = false)
      (alive : (m.flags event).initialized = true) (joined : Joined q event when_ m bins m₁) :
      OpEffect q m bins (.reschedule q event when_ true)
        (((m₁.setFlags event fun f => { f with squashed := false, scheduled := true }).note
          (.scheduled event)).note (.rescheduled event)) (push (key m₁) event bins)
  | squashed (event : EventPtr) : OpEffect q m bins (.squash event) (squash event m) bins

variable {q cur : QueuePtr} {m m' : Memory} {bins bins' : List (Bin EventPtr)} {event : EventPtr}
  {fuel when_ : Nat} {op : Op}

abbrev Asserts (stop : Stop) : Prop := stop = .assertion

theorem ends_assert (condition : Bool) :
    Ends Asserts (fun _ => condition = true) (assert condition) :=
  ends_check (show Asserts .assertion from rfl) condition

theorem joined_insert (held : Held m q bins) (outside : event ∉ members bins)
    (enough : bins.length < fuel) (when_ : Nat) :
    ∃ m', EventQueue.insert fuel q event (setWhen event when_ q m) = .ok m' ∧
      Joined q event when_ m bins m' := by
  have owned : (setWhen event when_ q m).queue event = some q := Function.update_self _ _ _
  obtain ⟨m', inserted, held', relinks⟩ :=
    insert_spec (held.setWhen outside) outside owned enough
  have sameKey : key m' = key (setWhen event when_ q m) := by
    funext other
    rw [key, key, relinks.when_, relinks.priority]
  exact ⟨m', inserted, outside, sameKey ▸ (held.setWhen outside).ordered, sameKey ▸ held', relinks⟩

theorem left_remove (sound : Sound q m bins) (waiting : (m.flags event).scheduled = true)
    (enough : (members bins).length < fuel) :
    ∃ m', remove fuel q event m = .ok m' ∧ Left q event m bins m' := by
  obtain ⟨m', removed, held, relinks⟩ :=
    remove_spec sound.held ((sound.flagged event).mp waiting) enough
  exact ⟨m', removed, held, relinks⟩

theorem schedule_ends (sound : Sound q m bins) (enough : (members bins).length < fuel)
    (global : Bool) :
    Ends Asserts (fun m' => ∃ bins', OpEffect q m bins (.schedule q event when_ global) m' bins')
      (schedule fuel cur q event when_ global m) := by
  unfold schedule
  refine (ends_assert _).bind (fun _ notPast => (ends_assert _).bind (fun _ idle =>
    (ends_assert _).bind (fun _ alive => ?_)))
  have outside : event ∉ members bins := by
    rw [← sound.flagged event]
    simpa using idle
  obtain ⟨m₁, inserted, joined⟩ := joined_insert sound.held outside
    (Nat.lt_of_le_of_lt (length_le_members bins) enough) when_
  have serial : (setWhen event when_ q m).inParallelMode = false := sound.serial
  simp only [serial, Bool.false_and, Bool.false_eq_true, if_false, inserted]
  exact ⟨_, .scheduled event when_ global m₁ (by simpa using notPast) (by simpa using idle)
    alive joined⟩

theorem deschedule_ends (sound : Sound q m bins) (enough : (members bins).length < fuel) :
    Ends Asserts (fun m' => ∃ bins', OpEffect q m bins (.deschedule q event) m' bins')
      (deschedule fuel cur q event m) := by
  unfold deschedule
  refine (ends_assert _).bind (fun _ waiting => (ends_assert _).bind (fun _ alive =>
    (ends_assert _).bind (fun _ _ => ?_)))
  obtain ⟨m₁, removed, left⟩ := left_remove sound waiting enough
  rw [removed]
  have after : ((m₁.setFlags event fun f => { f with squashed := false, scheduled := false }).note
      (.descheduled event)).flags event =
        { m.flags event with squashed := false, scheduled := false } := by
    simp [Memory.setFlags, Memory.note, left.relinks.flags]
  change Ends Asserts _ (if (((m₁.setFlags event fun f => _).note _).flags event).autoDelete = true
    then delete event _ else .ok _)
  unfold delete
  rw [after]
  cases auto : (m.flags event).autoDelete with
  | true => exact ⟨_, .deleted event m₁ waiting alive auto left⟩
  | false => exact ⟨_, .descheduled event m₁ waiting alive auto left⟩

theorem reschedule_ends (sound : Sound q m bins) (enough : (members bins).length < fuel)
    (always : Bool) :
    Ends Asserts (fun m' => ∃ bins', OpEffect q m bins (.reschedule q event when_ always) m' bins')
      (reschedule fuel cur q event when_ always m) := by
  unfold reschedule
  refine (ends_assert _).bind (fun _ notPast => (ends_assert _).bind (fun _ admitted =>
    (ends_assert _).bind (fun _ alive => (ends_assert _).bind (fun _ _ => ?_))))
  cases waiting : (m.flags event).scheduled with
  | true =>
      obtain ⟨m₁, removed, left⟩ := left_remove sound waiting enough
      have outside : event ∉ members (pull event bins) := by
        rw [members_pull]
        exact sound.held.shaped.2.not_mem_erase
      have shorter : (pull event bins).length < fuel := by
        have tops := length_le_members (pull event bins)
        have erased := length_pull_le event bins
        omega
      obtain ⟨m₂, inserted, joined⟩ := joined_insert left.held outside shorter when_
      simp only [if_true, removed]
      change Ends Asserts _ (EventQueue.insert fuel q event (setWhen event when_ q m₁) >>= _)
      rw [inserted]
      exact ⟨_, .rescheduled event when_ always m₁ m₂ (by simpa using notPast)
        waiting alive left joined⟩
  | false =>
      have outside : event ∉ members bins := by
        rw [← sound.flagged event, waiting]
        exact Bool.false_ne_true
      obtain ⟨m₁, inserted, joined⟩ := joined_insert sound.held outside
        (Nat.lt_of_le_of_lt (length_le_members bins) enough) when_
      have isAlways : always = true := by simpa [waiting] using admitted
      subst isAlways
      change Ends Asserts _ (EventQueue.insert fuel q event (setWhen event when_ q m) >>= _)
      rw [inserted]
      exact ⟨_, .started event when_ m₁ (by simpa using notPast) waiting alive joined⟩

/-- A call fails an assertion or does what it is for: it never looks for an event in vain, and
its loops come back. -/
theorem perform_ends (sound : Sound q m bins) (enough : (members bins).length < fuel)
    (works : WorksOn q op) :
    Ends Asserts (fun m' => ∃ bins', OpEffect q m bins op m' bins') (perform fuel cur m op) := by
  cases op with
  | schedule other event when_ global =>
      cases works
      exact schedule_ends sound enough global
  | deschedule other event =>
      cases works
      exact deschedule_ends sound enough
  | reschedule other event when_ always =>
      cases works
      exact reschedule_ends sound enough always
  | squash event => exact Ends.ok ⟨bins, .squashed event⟩
  | handleAsyncInsertions other => exact works.elim

theorem Joined.key_eq {m₁ : Memory} (joined : Joined q event when_ m bins m₁) :
    key m₁ event = toLex (when_, m.priority event) := by
  rw [key, joined.relinks.when_, joined.relinks.priority]
  simp [setWhen]

theorem Joined.key_other {m₁ : Memory} (joined : Joined q event when_ m bins m₁) {other : EventPtr}
    (differs : other ≠ event) : key m₁ other = key m other := by
  rw [key, key, joined.relinks.when_, joined.relinks.priority]
  simp [setWhen, differs]

theorem Joined.agenda {m₁ : Memory} (joined : Joined q event when_ m bins m₁) :
    agendaOf m₁ (push (key m₁) event bins) =
      arrange (toLex (when_, m.priority event), event) (agendaOf m bins) := by
  rw [agendaOf_push joined.ordered, joined.key_eq]
  congr 1
  apply agendaOf_congr
  intro other member
  exact joined.key_other fun same => joined.outside (same ▸ member)

/-- The queue with the new event, once its flag is set. -/
theorem Joined.sound {m₁ : Memory} {change : Flags → Flags} {n : Note}
    (joined : Joined q event when_ m bins m₁) (tops : ∀ f ∈ m.followed, AtTop f)
    (serial : m.inParallelMode = false)
    (flagged : ∀ other, other ≠ event → ((m.flags other).scheduled = true ↔ other ∈ members bins))
    (sets : ∀ f, (change f).scheduled = true) :
    Sound q ((m₁.setFlags event change).note n) (push (key m₁) event bins) := by
  refine ⟨joined.held.congr rfl (Nat.le_refl _) (fun _ _ => ⟨rfl, rfl, rfl, rfl, rfl⟩), ?_, ?_,
    joined.relinks.inParallelMode.trans serial⟩
  · intro other
    rw [(push_perm event bins).mem_iff, List.mem_cons]
    by_cases same : other = event
    · simp [same, Memory.setFlags, Memory.note, sets]
    · have unchanged : m₁.flags = m.flags := joined.relinks.flags
      simp [same, Memory.setFlags, Memory.note, unchanged, flagged other same]
  · intro f member
    exact (joined.relinks.followed f member).elim (tops f) id

theorem Left.flagged {m₁ : Memory} (sound : Sound q m bins) (left : Left q event m bins m₁)
    {other : EventPtr} (differs : other ≠ event) :
    (m₁.flags other).scheduled = true ↔ other ∈ members (pull event bins) := by
  rw [left.relinks.flags, sound.flagged other, members_pull,
    List.mem_erase_of_ne differs]

theorem Left.tops {m₁ : Memory} (sound : Sound q m bins) (left : Left q event m bins m₁) :
    ∀ f ∈ m₁.followed, AtTop f := by
  intro f member
  exact (left.relinks.followed f member).elim (sound.tops f) id

theorem Left.agenda {m₁ : Memory} (sound : Sound q m bins) (left : Left q event m bins m₁) :
    agendaOf m₁ (pull event bins) = cancel event (agendaOf m bins) := by
  rw [← agendaOf_pull sound.held.shaped.2]
  apply agendaOf_congr
  intro other _
  rw [key, key, left.relinks.when_, left.relinks.priority]

/-- The queue without the event, once its flag is cleared. -/
theorem Left.sound {m₁ : Memory} {change : Flags → Flags} (sound : Sound q m bins)
    (left : Left q event m bins m₁) (clears : ∀ f, (change f).scheduled = false) :
    Sound q (m₁.setFlags event change) (pull event bins) := by
  have tops := left.tops sound
  refine ⟨left.held.congr rfl (Nat.le_refl _) (fun _ _ => ⟨rfl, rfl, rfl, rfl, rfl⟩), ?_, tops,
    left.relinks.inParallelMode.trans sound.serial⟩
  intro other
  by_cases same : other = event
  · have gone : event ∉ members (pull event bins) := by
      rw [members_pull]
      exact sound.held.shaped.2.not_mem_erase
    simp [same, Memory.setFlags, clears, gone]
  · simp only [Memory.setFlags, Function.update_of_ne same]
    exact left.flagged sound same

theorem Sound.note {n : Note} (sound : Sound q m bins) : Sound q (m.note n) bins :=
  ⟨sound.held.congr rfl (Nat.le_refl _) (fun _ _ => ⟨rfl, rfl, rfl, rfl, rfl⟩),
    sound.flagged, sound.tops,
    sound.serial⟩

theorem Sound.setFlags {change : Flags → Flags} (sound : Sound q m bins)
    (keeps : (change (m.flags event)).scheduled = (m.flags event).scheduled) :
    Sound q (m.setFlags event change) bins := by
  refine ⟨sound.held.congr rfl (Nat.le_refl _) (fun _ _ => ⟨rfl, rfl, rfl, rfl, rfl⟩), ?_, sound.tops,
    sound.serial⟩
  intro other
  rw [← sound.flagged other]
  by_cases same : other = event
  · simp [same, Memory.setFlags, keeps]
  · simp [Memory.setFlags, same]

/-- A call keeps the queue sound and does to the agenda what it is for. -/
theorem OpEffect.keeps (sound : Sound q m bins) (effect : OpEffect q m bins op m' bins') :
    Sound q m' bins' ∧ agendaOf m' bins' = agendaOp m.priority (agendaOf m bins) op ∧
      m'.priority = m.priority := by
  cases effect with
  | scheduled event when_ global m₁ notPast idle alive joined =>
      exact ⟨joined.sound sound.tops sound.serial (fun other _ => sound.flagged other) (fun _ => rfl),
        joined.agenda, joined.relinks.priority⟩
  | descheduled event m₁ waiting alive kept left =>
      have agenda := left.agenda sound
      exact ⟨(left.sound sound fun _ => rfl).note, agenda, left.relinks.priority⟩
  | deleted event m₁ waiting alive auto left =>
      have agenda := left.agenda sound
      refine ⟨Sound.setFlags (left.sound sound fun _ => rfl).note ?_, agenda, left.relinks.priority⟩
      simp [Memory.setFlags, Memory.note]
  | rescheduled event when_ always m₁ m₂ notPast waiting alive left joined =>
      refine ⟨joined.sound (left.tops sound) (left.relinks.inParallelMode.trans sound.serial)
        (fun other differs => left.flagged sound differs) (fun _ => rfl), ?_,
        joined.relinks.priority.trans left.relinks.priority⟩
      change agendaOf m₂ _ = _
      rw [joined.agenda, left.agenda sound, left.relinks.priority]
      rfl
  | started event when_ m₁ notPast idle alive joined =>
      refine ⟨(joined.sound sound.tops sound.serial (fun other _ => sound.flagged other)
        (fun _ => rfl)).note, ?_, joined.relinks.priority⟩
      change agendaOf m₁ _ = _
      rw [joined.agenda, agendaOp, cancel_agendaOf joined.outside]
  | squashed event => exact ⟨(Sound.setFlags sound rfl).note, rfl, rfl⟩

end Effects

section Services

variable {q cur : QueuePtr} {m m' m₁ : Memory} {bins bins' : List (Bin EventPtr)} {event : EventPtr}
  {fuel : Nat} {handler : List Op}

theorem length_agendaOf (m : Memory) (bins : List (Bin EventPtr)) :
    (agendaOf m bins).length = (members bins).length := List.length_map _

theorem length_agendaOp_le (priority : EventPtr → Int) (agenda : List Entry) (op : Op) :
    (agendaOp priority agenda op).length ≤ agenda.length + 1 := by
  cases op with
  | schedule _ _ _ _ => simp [agendaOp, arrange, List.orderedInsert_length]
  | deschedule _ _ =>
      exact Nat.le_succ_of_le (List.length_filter_le _ _)
  | reschedule _ _ _ _ =>
      rw [agendaOp, arrange, List.orderedInsert_length]
      exact Nat.succ_le_succ (List.length_filter_le _ _)
  | squash _ => exact Nat.le_succ _
  | handleAsyncInsertions _ => exact Nat.le_succ _

theorem OpEffect.length_le {op : Op} (sound : Sound q m bins) (effect : OpEffect q m bins op m' bins') :
    (members bins').length ≤ (members bins).length + 1 := by
  rw [← length_agendaOf m' bins', (effect.keeps sound).2.1, ← length_agendaOf m bins]
  exact length_agendaOp_le _ _ _

structure Handling (q : QueuePtr) (fuel : Nat) (priority : EventPtr → Int) (agenda : List Entry)
    (left : List Op) (s : Memory) : Prop where
  works : ∀ op ∈ left, WorksOn q op
  same : s.priority = priority
  sound : ∃ bins, Sound q s bins ∧ (members bins).length + left.length < fuel ∧
    left.foldl (agendaOp priority) (agendaOf s bins) = agenda

theorem process_ends (sound : Sound q m bins) (works : ∀ op ∈ handler, WorksOn q op)
    (enough : (members bins).length + handler.length < fuel) :
    Ends Asserts (fun m' => ∃ bins', Sound q m' bins' ∧
        agendaOf m' bins' = handler.foldl (agendaOp m.priority) (agendaOf m bins))
      (process fuel cur handler m) := by
  have loop : Ends Asserts (Handling q fuel m.priority
      (handler.foldl (agendaOp m.priority) (agendaOf m bins)) []) (process fuel cur handler m) := by
    refine ends_foldlM (Handling q fuel m.priority
      (handler.foldl (agendaOp m.priority) (agendaOf m bins))) ?_ handler m
      ⟨works, rfl, bins, sound, enough, rfl⟩
    intro op left s handling
    obtain ⟨bins', sound', short, agenda⟩ := handling.sound
    obtain ⟨here, others⟩ := List.forall_mem_cons.mp handling.works
    rw [List.length_cons] at short
    refine (perform_ends sound' (by omega) here).mono ?_
    rintro s' ⟨bins'', effect⟩
    obtain ⟨sound'', agenda', priority'⟩ := effect.keeps sound'
    have longer := effect.length_le sound'
    refine ⟨others, priority'.trans handling.same, bins'', sound'', by omega, ?_⟩
    rw [agenda', handling.same, ← agenda]
    rfl
  refine loop.mono ?_
  intro m' handling
  obtain ⟨bins', sound', _, agenda⟩ := handling.sound
  exact ⟨bins', sound', agenda⟩

structure Popped (q : QueuePtr) (m : Memory) (bins : List (Bin EventPtr)) (event : EventPtr)
    (m₁ : Memory) : Prop where
  first : ∃ bin rest, bins = bin :: rest ∧ bin.1 = event
  left : Left q event (m.setFlags event fun f => { f with scheduled := false }) bins m₁

theorem popHead_cases (sound : Sound q m bins) :
    (bins = [] ∧ popHead q m = .error .nullPointer) ∨
      ∃ event m₁, popHead q m = .ok (event, m₁) ∧ Popped q m bins event m₁ := by
  cases bins with
  | nil =>
      refine .inl ⟨rfl, ?_⟩
      rw [popHead, show m.lists.head q = none from sound.held.shaped.1]
  | cons bin rest =>
      obtain ⟨m₁, popped, held, relinks⟩ := popHead_spec sound.held
      exact .inr ⟨bin.1, m₁, popped, ⟨bin, rest, rfl, rfl⟩, held, relinks⟩

theorem Popped.sound (sound : Sound q m bins) (popped : Popped q m bins event m₁) :
    Sound q m₁ (pull event bins) := by
  have relinks := popped.left.relinks
  refine ⟨popped.left.held, ?_, ?_, relinks.inParallelMode.trans sound.serial⟩
  · intro other
    rw [relinks.flags, members_pull]
    by_cases same : other = event
    · have gone := sound.held.shaped.2.not_mem_erase (a := event)
      simp [same, Memory.setFlags, gone]
    · rw [List.mem_erase_of_ne same, ← sound.flagged other]
      simp [Memory.setFlags, same]
  · intro f member
    exact (relinks.followed f member).elim (sound.tops f) id

theorem Popped.agenda (popped : Popped q m bins event m₁) :
    agendaOf m₁ (pull event bins) = (agendaOf m bins).tail := by
  obtain ⟨bin, rest, rfl, isTop⟩ := popped.first
  have relinks := popped.left.relinks
  have same : ∀ other, key m₁ other = key m other := by
    intro other
    rw [key, key, relinks.when_, relinks.priority]
    rfl
  rw [agendaOf_congr (fun other _ => same other), agendaOf, members_pull, ← isTop, members_cons,
    List.erase_cons_head, agendaOf, members_cons, List.map_cons, List.tail_cons]

/-- It is the first in the order of time and priority and, among those of its key,
the one that was inserted last. -/
theorem Popped.youngest (sound : Sound q m bins) (popped : Popped q m bins event m₁)
    {other : EventPtr} (member : other ∈ members bins) (differs : other ≠ event) :
    key m event < key m other ∨ key m event = key m other ∧ m.stamp other < m.stamp event := by
  obtain ⟨bin, rest, rfl, rfl⟩ := popped.first
  rcases List.mem_append.mp (show other ∈ bin.nodes ++ members rest from member) with inside | behind
  · refine .inr ⟨(sound.held.ordered.key_eq List.mem_cons_self inside).symm, ?_⟩
    have under := (List.mem_cons.mp inside).resolve_left differs
    exact (List.pairwise_cons.mp (sound.held.latest bin List.mem_cons_self)).1 other under
  · exact .inl (sound.held.ordered.first_lt behind)

theorem Sound.setCurTick (sound : Sound q m bins) : Sound q (setCurTick q event m) bins :=
  ⟨sound.held.congr rfl (Nat.le_refl _) (fun _ _ => ⟨rfl, rfl, rfl, rfl, rfl⟩),
    sound.flagged, sound.tops,
    sound.serial⟩

inductive RetireEffect (event : EventPtr) (m : Memory) : Option EventPtr × Memory → Prop where
  | kept : RetireEffect event m (none, m)
  | deleted (idle : (m.flags event).scheduled = false) (auto : (m.flags event).autoDelete = true) :
      RetireEffect event m
        (none, m.setFlags event fun _ => ⟨false, false, false, false, false, false⟩)

theorem retire_ends (event : EventPtr) (m : Memory) :
    Ends Asserts (RetireEffect event m) (retire event m) := by
  unfold retire
  cases auto : (m.flags event).autoDelete with
  | false => exact RetireEffect.kept
  | true =>
      cases idle : (m.flags event).scheduled with
      | true => exact RetireEffect.kept
      | false =>
          unfold delete
          simp only [idle]
          exact RetireEffect.deleted idle auto

theorem RetireEffect.sound {result : Option EventPtr × Memory} (sound : Sound q m bins)
    (effect : RetireEffect event m result) :
    Sound q result.2 bins ∧ agendaOf result.2 bins = agendaOf m bins := by
  cases effect with
  | kept => exact ⟨sound, rfl⟩
  | deleted idle auto =>
      have kept : Sound q (m.setFlags event fun _ => ⟨false, false, false, false, false, false⟩) bins :=
        Sound.setFlags sound idle.symm
      exact ⟨kept, rfl⟩

def serviced (m : Memory) (event : EventPtr) (handler : List Op) (agenda : List Entry) : List Entry :=
  if (m.flags event).squashed then agenda else handler.foldl (agendaOp m.priority) agenda

theorem serviceOne_ends (sound : Sound q m bins) (works : ∀ op ∈ handler, WorksOn q op)
    (enough : (members bins).length + handler.length < fuel) :
    Ends (fun stop => stop = .assertion ∨ bins = [] ∧ stop = .nullPointer)
      (fun result => ∃ event m₁ bins', popHead q m = .ok (event, m₁) ∧ Sound q result.2 bins' ∧
        agendaOf result.2 bins' = serviced m event handler (agendaOf m bins).tail)
      (serviceOne fuel cur q handler m) := by
  unfold serviceOne
  rcases popHead_cases sound with ⟨none, empty⟩ | ⟨event, m₁, taken, popped⟩
  · rw [empty]
    exact .inr ⟨none, rfl⟩
  · have sound₁ := popped.sound sound
    have squash : (m₁.flags event).squashed = (m.flags event).squashed := by
      rw [popped.left.relinks.flags]
      simp [Memory.setFlags]
    cases isSquashed : (m₁.flags event).squashed with
    | true =>
        have skipped : Sound q ((m₁.setFlags event fun f => { f with squashed := false }).note
            (.skipped event)) (pull event bins) := (Sound.setFlags sound₁ rfl).note
        rw [taken]
        change Ends _ _ (if (m₁.flags event).squashed = true then _ else _)
        rw [if_pos isSquashed]
        refine ((retire_ends event _).allow fun _ => .inl).mono ?_
        intro result effect
        obtain ⟨sound', agenda'⟩ := effect.sound skipped
        refine ⟨event, m₁, _, rfl, sound', ?_⟩
        rw [serviced, if_pos (squash ▸ isSquashed)]
        exact agenda'.trans popped.agenda
    | false =>
        have begun : Sound q (setCurTick q event m₁) (pull event bins) := sound₁.setCurTick
        have shorter : (members (pull event bins)).length + handler.length < fuel :=
          Nat.lt_of_le_of_lt (Nat.add_le_add_right (length_pull_le event bins) _) enough
        rw [taken]
        change Ends _ _ (if (m₁.flags event).squashed = true then _
          else (process fuel cur handler _ >>= _))
        rw [if_neg (by simp [isSquashed])]
        refine ((process_ends begun works shorter).allow fun _ => .inl).bind ?_
        rintro m₂ ⟨bins₂, sound₂, agenda₂⟩
        have agenda : agendaOf m₂ bins₂ = serviced m event handler (agendaOf m bins).tail := by
          rw [serviced, if_neg (by simp [← squash, isSquashed]), agenda₂, ← popped.agenda]
          exact congrArg (fun p => handler.foldl (agendaOp p) _) popped.left.relinks.priority
        split
        · refine ((ends_assert _).allow fun _ => .inl).bind ?_
          intro _ _
          exact ⟨event, m₁, bins₂, rfl, sound₂, agenda⟩
        · refine ((retire_ends event m₂).allow fun _ => .inl).mono ?_
          intro result effect
          obtain ⟨sound', agenda'⟩ := effect.sound sound₂
          exact ⟨event, m₁, bins₂, rfl, sound', agenda'.trans agenda⟩

end Services

section Runs

def ActsOn (q : QueuePtr) : Action → Prop
  | .call _ op => WorksOn q op
  | .serviceOne _ other handler => other = q ∧ ∀ op ∈ handler, WorksOn q op
  | .setParallelMode _ => False

def additions : Action → Nat
  | .call _ _ => 1
  | .serviceOne _ _ handler => handler.length
  | .setParallelMode _ => 0

def totalAdditions : List Action → Nat
  | [] => 0
  | action :: rest => additions action + totalAdditions rest

theorem totalAdditions_append (before after : List Action) :
    totalAdditions (before ++ after) = totalAdditions before + totalAdditions after := by
  induction before with
  | nil => exact (Nat.zero_add _).symm
  | cons action rest ih => rw [List.cons_append, totalAdditions, totalAdditions, ih, Nat.add_assoc]

def step (fuel : Nat) (m : Memory) (action : Action) : Option Memory := (act fuel m action).toOption

/-- The queue is what it stands for, and every call on it does what it is for or
fails an assertion. No call looks in vain for an event, and its loops come back. -/
structure Refines (q : QueuePtr) (m : Memory) (bins : List (Bin EventPtr)) : Prop where
  sound : Sound q m bins
  calls : ∀ fuel cur op, WorksOn q op → (members bins).length < fuel →
    Ends Asserts (fun m' => ∃ bins', Sound q m' bins' ∧
      agendaOf m' bins' = agendaOp m.priority (agendaOf m bins) op) (perform fuel cur m op)
  pops : ∀ event m₁, popHead q m = .ok (event, m₁) → Sound q m₁ (pull event bins) ∧
    agendaOf m₁ (pull event bins) = (agendaOf m bins).tail ∧ ∀ other ∈ members bins, other ≠ event →
      key m event < key m other ∨ key m event = key m other ∧ m.stamp other < m.stamp event
  services : ∀ fuel cur handler, (∀ op ∈ handler, WorksOn q op) →
    (members bins).length + handler.length < fuel →
    Ends (fun stop => stop = .assertion ∨ bins = [] ∧ stop = .nullPointer)
      (fun result => ∃ event m₁ bins', popHead q m = .ok (event, m₁) ∧ Sound q result.2 bins' ∧
        agendaOf result.2 bins' = serviced m event handler (agendaOf m bins).tail)
      (serviceOne fuel cur q handler m)

variable {q : QueuePtr} {m m' : Memory} {bins : List (Bin EventPtr)} {fuel : Nat} {action : Action}

theorem length_foldl_agendaOp_le (priority : EventPtr → Int) (ops : List Op) (agenda : List Entry) :
    (ops.foldl (agendaOp priority) agenda).length ≤ agenda.length + ops.length := by
  induction ops generalizing agenda with
  | nil => exact Nat.le_refl _
  | cons op rest ih =>
      have here := length_agendaOp_le priority agenda op
      have later := ih (agendaOp priority agenda op)
      rw [List.foldl_cons, List.length_cons]
      omega

theorem serviceOne_of_step {cur other : QueuePtr} {handler : List Op}
    (stepped : step fuel m (.serviceOne cur other handler) = some m') :
    ∃ result, serviceOne fuel cur other handler m = .ok result ∧ result.2 = m' := by
  have returned : act fuel m (.serviceOne cur other handler) = .ok m' := eq_ok_of_toOption stepped
  cases serviced : serviceOne fuel cur other handler m with
  | error e => simp [act, serviced, Except.map] at returned
  | ok result => exact ⟨result, rfl, by simpa [act, serviced, Except.map] using returned⟩

theorem sound_step (sound : Sound q m bins) (acts : ActsOn q action)
    (enough : (members bins).length + additions action < fuel)
    (stepped : step fuel m action = some m') :
    ∃ bins', Sound q m' bins' ∧ (members bins').length ≤ (members bins).length + additions action := by
  cases action with
  | call cur op =>
      have returned : perform fuel cur m op = .ok m' := eq_ok_of_toOption stepped
      obtain ⟨bins', effect⟩ :=
        (perform_ends sound (by simp only [additions] at enough; omega) acts).of_ok
        returned
      exact ⟨bins', (effect.keeps sound).1, effect.length_le sound⟩
  | serviceOne cur other handler =>
      obtain ⟨rfl, works⟩ := acts
      obtain ⟨result, returned, rfl⟩ := serviceOne_of_step stepped
      obtain ⟨event, m₁, bins', _, sound', agenda⟩ :=
        (serviceOne_ends sound works enough).of_ok returned
      refine ⟨bins', sound', ?_⟩
      rw [← length_agendaOf result.2 bins', agenda, ← length_agendaOf m bins, additions]
      have shorter : (agendaOf m bins).tail.length ≤ (agendaOf m bins).length := by simp
      unfold serviced
      split
      · omega
      · have longer := length_foldl_agendaOp_le m.priority handler (agendaOf m bins).tail
        omega
  | setParallelMode mode => exact acts.elim

theorem sound_run {actions : List Action} {start reached : Memory} (sound : Sound q start bins)
    (acts : ∀ action ∈ actions, ActsOn q action)
    (enough : (members bins).length + totalAdditions actions < fuel)
    (ran : run (step fuel) actions start = some reached) : ∃ bins', Sound q reached bins' := by
  induction actions generalizing start bins with
  | nil =>
      cases ran
      exact ⟨bins, sound⟩
  | cons action rest ih =>
      obtain ⟨next, stepped, ran⟩ := Option.bind_eq_some_iff.mp ran
      obtain ⟨here, others⟩ := List.forall_mem_cons.mp acts
      rw [totalAdditions] at enough
      obtain ⟨bins', sound', longer⟩ := sound_step sound here (by omega) stepped
      exact ih sound' others (by omega) ran

theorem sound_start (empty : m.lists.head q = none)
    (idle : ∀ event, (m.flags event).scheduled = false) (unread : m.followed = [])
    (serial : m.inParallelMode = false) : Sound q m [] := by
  refine ⟨⟨⟨empty, List.nodup_nil⟩, Ordered.nil, by simp, by simp, by simp⟩, ?_, by simp [unread],
    serial⟩
  intro event
  simp [idle event]

theorem Sound.refines (sound : Sound q m bins) : Refines q m bins where
  sound := sound
  calls fuel cur op works enough := by
    refine (perform_ends sound enough works).mono ?_
    rintro m' ⟨bins', effect⟩
    obtain ⟨sound', agenda, _⟩ := effect.keeps sound
    exact ⟨bins', sound', agenda⟩
  pops event m₁ taken := by
    rcases popHead_cases sound with ⟨_, empty⟩ | ⟨event', m₁', taken', popped⟩
    · rw [empty] at taken
      cases taken
    · rw [taken'] at taken
      cases taken
      exact ⟨popped.sound sound, popped.agenda, fun other => popped.youngest sound⟩
  services fuel cur handler works enough := serviceOne_ends sound works enough

/-- The event queue in serial mode is an agenda. -/
theorem event_queue_refines (q : QueuePtr) (fuel : Nat) (start reached : Memory)
    (actions : List Action) (empty : start.lists.head q = none)
    (idle : ∀ event, (start.flags event).scheduled = false) (unread : start.followed = [])
    (serial : start.inParallelMode = false) (acts : ∀ action ∈ actions, ActsOn q action)
    (enough : totalAdditions actions < fuel)
    (ran : run (step fuel) actions start = some reached) : ∃ bins, Refines q reached bins := by
  have sound := sound_start empty idle unread serial
  obtain ⟨bins, sound'⟩ := sound_run sound acts (by simpa using enough) ran
  exact ⟨bins, sound'.refines⟩

def constructed : Memory where
  lists := ⟨fun _ => none, fun _ => none, fun _ => none⟩
  when_ _ := 0
  priority _ := 0
  flags _ := ⟨false, false, false, false, false, true⟩
  queue _ := none
  curTick _ := 0
  asyncQueue _ := []
  inParallelMode := false
  followed := []
  clock := 0
  stamp _ := 0
  notes := []

def busyActions : List Action :=
  -- two events in one bin and one behind it; the handler of the younger one schedules again and
  -- takes back the older one
  [.call 0 (.schedule 0 1 5 false), .call 0 (.schedule 0 2 5 false), .call 0 (.schedule 0 3 9 false),
    .serviceOne 0 0 [.schedule 0 2 5 false, .deschedule 0 1, .reschedule 0 3 7 false]]

theorem busy_queue_refines :
    ∃ reached bins, run (step 9) busyActions constructed = some reached ∧ Refines 0 reached bins := by
  obtain ⟨reached, ran⟩ : ∃ reached, run (step 9) busyActions constructed = some reached := ⟨_, rfl⟩
  obtain ⟨bins, refines⟩ := event_queue_refines 0 9 constructed reached busyActions rfl (fun _ => rfl)
    rfl rfl (by simp [busyActions, ActsOn, WorksOn]) (by decide) ran
  exact ⟨reached, bins, ran, refines⟩

end Runs

end GemFi.EventOrder
