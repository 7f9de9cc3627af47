import GemFi.EventOrder

/-!
Several queues, with the events that other threads and global events put in their async
lists until handleAsyncInsertions merges them. A scheduled event is in exactly one
list; the owner of a queue finds it exactly when that is not the async list.
-/

namespace GemFi.AsyncQueues

open BinnedStacks EventQueue EventQueue.Memory EventBins EventOrder Outcomes Transitions

abbrev Bins := QueuePtr → List (Bin EventPtr)

def waiting (m : Memory) (bins : Bins) (q : QueuePtr) : List EventPtr :=
  members (bins q) ++ m.asyncQueue q

structure Loose (event : EventPtr) (m : Memory) (bins : Bins) : Prop where
  held : ∀ q, Held m q (bins q)
  once : ∀ q, (waiting m bins q).Nodup
  owned : ∀ q, ∀ other ∈ waiting m bins q, m.queue other = some q
  outside : ∀ q, event ∉ waiting m bins q
  flagged : ∀ other, other ≠ event →
    ((m.flags other).scheduled = true ↔ ∃ q, other ∈ waiting m bins q)
  alive : ∀ other, other ≠ event → (m.flags other).scheduled = true →
    (m.flags other).initialized = true

structure Shared (m : Memory) (bins : Bins) : Prop where
  held : ∀ q, Held m q (bins q)
  once : ∀ q, (waiting m bins q).Nodup
  owned : ∀ q, ∀ event ∈ waiting m bins q, m.queue event = some q
  flagged : ∀ event, (m.flags event).scheduled = true ↔ ∃ q, event ∈ waiting m bins q
  alive : ∀ event, (m.flags event).scheduled = true → (m.flags event).initialized = true

section Lists

variable {m m' : Memory} {bins : Bins} {q cur : QueuePtr} {event : EventPtr} {fuel : Nat}

theorem Shared.loose (shared : Shared m bins) (idle : (m.flags event).scheduled = false) :
    Loose event m bins where
  held := shared.held
  once := shared.once
  owned := shared.owned
  outside q member := by
    have scheduled := (shared.flagged event).mpr ⟨q, member⟩
    simp [idle] at scheduled
  flagged other _ := shared.flagged other
  alive other _ := shared.alive other

theorem Loose.settle (loose : Loose event m bins) (idle : (m.flags event).scheduled = false) :
    Shared m bins where
  held := loose.held
  once := loose.once
  owned := loose.owned
  flagged other := by
    by_cases same : other = event
    · subst same
      simp [idle, loose.outside]
    · exact loose.flagged other same
  alive other scheduled := by
    by_cases same : other = event
    · subst same
      simp [idle] at scheduled
    · exact loose.alive other same scheduled

/-- What is not a link, a time or a list does not matter, but for the flags of other events. -/
theorem Loose.reflag (loose : Loose event m bins) (flags : EventPtr → Flags) (notes : List Note)
    (same : ∀ other, other ≠ event → flags other = m.flags other) :
    Loose event { m with flags := flags, notes := notes } bins where
  held q := (loose.held q).congr rfl (Nat.le_refl _) (fun _ _ => ⟨rfl, rfl, rfl, rfl, rfl⟩)
  once := loose.once
  owned := loose.owned
  outside := loose.outside
  flagged other differs := by
    change (flags other).scheduled = true ↔ _
    rw [same other differs]
    exact loose.flagged other differs
  alive other differs := by
    change (flags other).scheduled = true → (flags other).initialized = true
    rw [same other differs]
    exact loose.alive other differs

theorem Shared.reflag (shared : Shared m bins) (flags : EventPtr → Flags)
    (curTick : QueuePtr → Nat) (mode : Bool) (notes : List Note)
    (same : ∀ event, (flags event).scheduled = (m.flags event).scheduled)
    (alive : ∀ event, (flags event).scheduled = true → (flags event).initialized = true) :
    Shared { m with flags := flags, curTick := curTick, inParallelMode := mode, notes := notes } bins where
  held q := (shared.held q).congr rfl (Nat.le_refl _) (fun _ _ => ⟨rfl, rfl, rfl, rfl, rfl⟩)
  once := shared.once
  owned := shared.owned
  flagged event := by
    change (flags event).scheduled = true ↔ _
    rw [same event]
    exact shared.flagged event
  alive := alive

theorem Shared.setFlags (shared : Shared m bins) (event : EventPtr) (change : Flags → Flags)
    (same : (change (m.flags event)).scheduled = (m.flags event).scheduled)
    (alive : (m.flags event).scheduled = true → (change (m.flags event)).initialized = true) :
    Shared (m.setFlags event change) bins := by
  refine shared.reflag _ m.curTick m.inParallelMode m.notes ?_ ?_
  · intro other
    by_cases here : other = event
    · rw [here, Function.update_self, same]
    · rw [Function.update_of_ne here]
  · intro other
    by_cases here : other = event
    · rw [here, Function.update_self, same]
      exact alive
    · rw [Function.update_of_ne here]
      exact shared.alive other

theorem Shared.note (shared : Shared m bins) (n : Note) : Shared (m.note n) bins :=
  shared.reflag m.flags m.curTick m.inParallelMode _ (fun _ => rfl) shared.alive

/-- Work on the links of one queue leaves the other queues alone. -/
theorem held_update {new : List (Bin EventPtr)} {touched : List EventPtr}
    (held : ∀ p, Held m p (bins p)) (relinks : Relinks m m' q touched) (here : Held m' q new)
    (apart : ∀ p, p ≠ q → ∀ other ∈ members (bins p), other ∉ touched) (p : QueuePtr) :
    Held m' p (Function.update bins q new p) := by
  by_cases same : p = q
  · subst same
    rwa [Function.update_self]
  · rw [Function.update_of_ne same]
    exact (held p).relinks relinks same (apart p same)

theorem members_apart (held : ∀ p, Held m p (bins p)) {p : QueuePtr} (differs : p ≠ q)
    {other : EventPtr} (member : other ∈ members (bins p)) : other ∉ members (bins q) := by
  intro here
  have owner := ((held p).owned other member).symm.trans ((held q).owned other here)
  exact differs (Option.some.inj owner)

theorem insert_held (held : ∀ p, Held m p (bins p)) (outside : ∀ p, event ∉ members (bins p))
    (owned : m.queue event = some q) (enough : (members (bins q)).length < fuel) :
    ∃ m', EventQueue.insert fuel q event m = .ok m' ∧
      (∀ p, Held m' p (Function.update bins q (push (key m) event (bins q)) p)) ∧
      Relinks m m' q (event :: members (bins q)) := by
  obtain ⟨m', inserted, here, relinks⟩ := insert_spec (held q) (outside q) owned
    (Nat.lt_of_le_of_lt (length_le_members (bins q)) enough)
  refine ⟨m', inserted, held_update held relinks here ?_, relinks⟩
  intro p differs other member
  refine List.not_mem_cons_of_ne_of_not_mem ?_ (members_apart held differs member)
  exact fun same => outside p (same ▸ member)

structure Linked (event : EventPtr) (q : QueuePtr) (m : Memory) (bins : Bins) (m' : Memory)
    (bins' : Bins) : Prop where
  -- the event has been put in one list of queue `q`
  held : ∀ p, Held m' p (bins' p)
  here : (waiting m' bins' q).Perm (event :: waiting m bins q)
  others : ∀ p, p ≠ q → waiting m' bins' p = waiting m bins p
  queue : m'.queue = Function.update m.queue event (some q)
  flags : m'.flags = m.flags

theorem Loose.inserted (loose : Loose event m bins) (enough : (waiting m bins q).length < fuel)
    (when_ : Nat) :
    ∃ m' bins', EventQueue.insert fuel q event (setWhen event when_ q m) = .ok m' ∧
      Linked event q m bins m' bins' := by
  have outside : ∀ p, event ∉ members (bins p) := fun p member =>
    loose.outside p (List.mem_append_left _ member)
  have short : (members (bins q)).length < fuel := by
    rw [waiting, List.length_append] at enough
    omega
  obtain ⟨m', inserted, held, relinks⟩ := insert_held (m := setWhen event when_ q m)
    (fun p => (loose.held p).setWhen (outside p)) outside (Function.update_self _ _ _) short
  refine ⟨m', _, inserted, held, ?_, ?_, relinks.queue, relinks.flags⟩
  · rw [waiting, Function.update_self, relinks.asyncQueue]
    exact (push_perm event (bins q)).append_right _
  · intro p differs
    rw [waiting, Function.update_of_ne differs, relinks.asyncQueue]
    rfl

theorem Loose.asyncInserted (loose : Loose event m bins) (when_ : Nat) :
    Linked event q m bins (asyncInsert q event (setWhen event when_ q m)) bins where
  held p := by
    have outside : event ∉ members (bins p) := fun member =>
      loose.outside p (List.mem_append_left _ member)
    exact ((loose.held p).setWhen outside).congr rfl (Nat.le_refl _)
      (fun _ _ => ⟨rfl, rfl, rfl, rfl, rfl⟩)
  here := by
    simp only [waiting, asyncInsert, setWhen, Function.update_self, ← List.append_assoc]
    exact List.perm_append_singleton event _
  others p differs := by
    simp only [waiting, asyncInsert, setWhen, Function.update_of_ne differs]
  queue := rfl
  flags := rfl

theorem Linked.shared {bins' : Bins} (linked : Linked event q m bins m' bins')
    (loose : Loose event m bins) (f : Flags) (notes : List Note) (scheduled : f.scheduled = true)
    (alive : f.initialized = true) :
    Shared { m' with flags := Function.update m'.flags event f, notes := notes } bins' where
  held p := (linked.held p).congr rfl (Nat.le_refl _) (fun _ _ => ⟨rfl, rfl, rfl, rfl, rfl⟩)
  once p := by
    by_cases same : p = q
    · subst same
      exact linked.here.nodup_iff.mpr (List.nodup_cons.mpr ⟨loose.outside p, loose.once p⟩)
    · change (waiting m' bins' p).Nodup
      rw [linked.others p same]
      exact loose.once p
  owned p other member := by
    change other ∈ waiting m' bins' p at member
    change m'.queue other = some p
    rw [linked.queue]
    by_cases here : p = q
    · subst here
      rcases List.mem_cons.mp (linked.here.mem_iff.mp member) with rfl | old
      · exact Function.update_self _ _ _
      · have differs : other ≠ event := fun same => loose.outside p (same ▸ old)
        rw [Function.update_of_ne differs]
        exact loose.owned p other old
    · rw [linked.others p here] at member
      have differs : other ≠ event := fun same => loose.outside p (same ▸ member)
      rw [Function.update_of_ne differs]
      exact loose.owned p other member
  flagged other := by
    change (Function.update m'.flags event f other).scheduled = true ↔ ∃ p, other ∈ waiting m' bins' p
    by_cases same : other = event
    · subst same
      rw [Function.update_self]
      exact iff_of_true scheduled ⟨q, linked.here.mem_iff.mpr List.mem_cons_self⟩
    · rw [Function.update_of_ne same, linked.flags, loose.flagged other same]
      refine exists_congr fun p => ?_
      by_cases here : p = q
      · subst here
        rw [linked.here.mem_iff, List.mem_cons, or_iff_right same]
      · rw [linked.others p here]
  alive other := by
    change (Function.update m'.flags event f other).scheduled = true →
      (Function.update m'.flags event f other).initialized = true
    by_cases same : other = event
    · subst same
      rw [Function.update_self]
      exact fun _ => alive
    · rw [Function.update_of_ne same, linked.flags]
      exact loose.alive other same

theorem Linked.length_le {bins' : Bins} (linked : Linked event q m bins m' bins') (p : QueuePtr) :
    (waiting m' bins' p).length ≤ (waiting m bins p).length + 1 := by
  by_cases here : p = q
  · subst here
    rw [linked.here.length_eq, List.length_cons]
  · rw [linked.others p here]
    exact Nat.le_succ _

/-- The event has been taken out of the main list of queue `q`. -/
theorem Shared.unlinked {bins : Bins} (shared : Shared m bins) (member : event ∈ members (bins q))
    (held : ∀ p, Held m' p (Function.update bins q (pull event (bins q)) p))
    (queue : m'.queue = m.queue) (async : m'.asyncQueue = m.asyncQueue)
    (flags : ∀ other, other ≠ event → m'.flags other = m.flags other) :
    Loose event m' (Function.update bins q (pull event (bins q))) := by
  have here : waiting m' (Function.update bins q (pull event (bins q))) q =
      (waiting m bins q).erase event := by
    rw [waiting, Function.update_self, members_pull, async, waiting, List.erase_append_left _ member]
  have others : ∀ p, p ≠ q →
      waiting m' (Function.update bins q (pull event (bins q))) p = waiting m bins p := by
    intro p differs
    rw [waiting, Function.update_of_ne differs, async, waiting]
  have mine : m.queue event = some q := (shared.held q).owned event member
  refine ⟨held, ?_, ?_, ?_, ?_, ?_⟩
  · intro p
    by_cases same : p = q
    · subst same
      rw [here]
      exact (shared.once p).erase event
    · rw [others p same]
      exact shared.once p
  · intro p other inside
    rw [queue]
    by_cases same : p = q
    · subst same
      rw [here] at inside
      exact shared.owned p other (List.mem_of_mem_erase inside)
    · rw [others p same] at inside
      exact shared.owned p other inside
  · intro p inside
    by_cases same : p = q
    · subst same
      rw [here] at inside
      exact (shared.once p).not_mem_erase inside
    · rw [others p same] at inside
      exact same (Option.some.inj ((shared.owned p event inside).symm.trans mine))
  · intro other differs
    rw [flags other differs, shared.flagged other]
    refine exists_congr fun p => ?_
    by_cases same : p = q
    · subst same
      rw [here, List.mem_erase_of_ne differs]
    · rw [others p same]
  · intro other differs
    rw [flags other differs]
    exact shared.alive other

theorem waiting_pull_le (async : m'.asyncQueue = m.asyncQueue) (p : QueuePtr) :
    (waiting m' (Function.update bins q (pull event (bins q))) p).length ≤
      (waiting m bins p).length := by
  rw [waiting, waiting, List.length_append, List.length_append, async]
  by_cases same : p = q
  · subst same
    rw [Function.update_self]
    exact Nat.add_le_add_right (length_pull_le event (bins p)) _
  · rw [Function.update_of_ne same]

theorem remove_held (shared : Shared m bins) (member : event ∈ members (bins q))
    (enough : (waiting m bins q).length < fuel) :
    ∃ m', remove fuel q event m = .ok m' ∧ Relinks m m' q (members (bins q)) ∧
      Loose event m' (Function.update bins q (pull event (bins q))) := by
  have short : (members (bins q)).length < fuel := by
    rw [waiting, List.length_append] at enough
    omega
  obtain ⟨m', removed, here, relinks⟩ := remove_spec (shared.held q) member short
  have held := held_update shared.held relinks here
    (fun p differs other => members_apart shared.held differs)
  exact ⟨m', removed, relinks, shared.unlinked member held relinks.queue relinks.asyncQueue
    (fun other _ => congrFun relinks.flags other)⟩

end Lists

section Calls

variable {m m' : Memory} {bins : Bins} {q cur : QueuePtr} {event : EventPtr} {fuel when_ : Nat}
  {op : Op} {handler : List Op}

abbrev Refused (stop : Stop) : Prop := stop = .assertion ∨ stop = .panic

def Grown (m : Memory) (bins : Bins) (m' : Memory) : Prop :=
  ∃ bins', Shared m' bins' ∧ ∀ p, (waiting m' bins' p).length ≤ (waiting m bins p).length + 1

theorem ends_assertion (condition : Bool) :
    Ends Refused (fun _ => condition = true) (assert condition) :=
  (ends_assert condition).allow fun _ => .inl

theorem remove_foreign (foreign : m.queue event ≠ some q) :
    Ends Refused (fun _ => False) (remove fuel q event m) := by
  unfold remove
  cases m.lists.head q with
  | none => exact .inr rfl
  | some top =>
      refine (ends_assertion _).bind (fun _ passes => ?_)
      simp [foreign] at passes

theorem remove_ends (shared : Shared m bins) (enough : (waiting m bins q).length < fuel) :
    Ends Refused (fun m' => Relinks m m' q (members (bins q)) ∧
      Loose event m' (Function.update bins q (pull event (bins q)))) (remove fuel q event m) := by
  by_cases member : event ∈ members (bins q)
  · obtain ⟨m', removed, result⟩ := remove_held shared member enough
    rw [removed]
    exact result
  · by_cases mine : m.queue event = some q
    · have short : (members (bins q)).length < fuel := by
        rw [waiting, List.length_append] at enough
        omega
      rw [remove_absent (shared.held q) member mine short]
      exact .inr rfl
    · exact (remove_foreign mine).mono fun _ => False.elim

theorem schedule_shared (shared : Shared m bins) (enough : ∀ p, (waiting m bins p).length < fuel)
    (global : Bool) :
    Ends Refused (Grown m bins) (schedule fuel cur q event when_ global m) := by
  unfold schedule
  refine (ends_assertion _).bind (fun _ _ => (ends_assertion _).bind (fun _ idle =>
    (ends_assertion _).bind (fun _ alive => ?_)))
  have loose : Loose event m bins := shared.loose (by simpa using idle)
  have finish : ∀ m' bins', Linked event q m bins m' bins' → Grown m bins
      ((m'.setFlags event fun f => { f with scheduled := true }).note (.scheduled event)) := by
    intro m' bins' linked
    have alive' : (m'.flags event).initialized = true := by rw [linked.flags, alive]
    exact ⟨bins', linked.shared loose _ _ rfl alive', linked.length_le⟩
  dsimp only
  split
  · exact finish _ bins (loose.asyncInserted when_)
  · obtain ⟨m', bins', inserted, linked⟩ := loose.inserted (enough q) when_
    rw [inserted]
    exact finish m' bins' linked

theorem deschedule_shared (shared : Shared m bins) (enough : ∀ p, (waiting m bins p).length < fuel) :
    Ends Refused (Grown m bins) (deschedule fuel cur q event m) := by
  unfold deschedule
  refine (ends_assertion _).bind (fun _ _ => (ends_assertion _).bind (fun _ _ =>
    (ends_assertion _).bind (fun _ _ => (remove_ends shared (enough q)).bind ?_)))
  rintro m₁ ⟨relinks, loose⟩
  have shorter : ∀ p, (waiting m₁ (Function.update bins q (pull event (bins q))) p).length ≤
      (waiting m bins p).length + 1 := fun p =>
    Nat.le_succ_of_le (waiting_pull_le relinks.asyncQueue p)
  have settled : ∀ f : Flags, f.scheduled = false → Shared { m₁ with
      flags := Function.update m₁.flags event f, notes := .descheduled event :: m₁.notes }
      (Function.update bins q (pull event (bins q))) := by
    intro f idle
    refine (loose.reflag _ _ (fun other differs => Function.update_of_ne differs _ _)).settle ?_
    change (Function.update m₁.flags event f event).scheduled = false
    rw [Function.update_self, idle]
  have cleared := settled { m₁.flags event with squashed := false, scheduled := false } rfl
  have dead := settled ⟨false, false, false, false, false, false⟩ rfl
  change Ends _ _ (if (((m₁.setFlags event fun f => { f with squashed := false, scheduled := false }).note
    (.descheduled event)).flags event).autoDelete = true then delete event _ else _)
  split
  · have idle : (((m₁.setFlags event fun f => { f with squashed := false, scheduled := false }).note
        (.descheduled event)).flags event).scheduled = false := by
      simp [Memory.setFlags, Memory.note]
    unfold delete
    simp only [idle]
    refine ⟨_, ?_, shorter⟩
    simpa [Memory.setFlags, Memory.note] using dead
  · exact ⟨_, cleared, shorter⟩

theorem reschedule_shared (shared : Shared m bins) (enough : ∀ p, (waiting m bins p).length < fuel)
    (always : Bool) :
    Ends Refused (Grown m bins) (reschedule fuel cur q event when_ always m) := by
  unfold reschedule
  refine (ends_assertion _).bind (fun _ _ => (ends_assertion _).bind (fun _ _ =>
    (ends_assertion _).bind (fun _ alive => (ends_assertion _).bind (fun _ _ => ?_))))
  have finish : ∀ m₁ bins₁, m₁.flags = m.flags → Loose event m₁ bins₁ →
      (∀ p, (waiting m₁ bins₁ p).length ≤ (waiting m bins p).length) → ∀ notes : List Note → List Note,
      Ends Refused (Grown m bins) (EventQueue.insert fuel q event (setWhen event when_ q m₁) >>=
        fun m₂ => .ok { m₂ with
          flags := Function.update m₂.flags event
            { m₂.flags event with squashed := false, scheduled := true }
          notes := notes m₂.notes }) := by
    intro m₁ bins₁ flags loose shorter notes
    obtain ⟨m₂, bins₂, inserted, linked⟩ :=
      loose.inserted (Nat.lt_of_le_of_lt (shorter q) (enough q)) when_
    rw [inserted]
    have alive' : (m₂.flags event).initialized = true := by rw [linked.flags, flags, alive]
    exact ⟨bins₂, linked.shared loose _ _ rfl alive', fun p =>
      (linked.length_le p).trans (Nat.succ_le_succ (shorter p))⟩
  dsimp only
  cases scheduled : (m.flags event).scheduled with
  | true =>
      refine (remove_ends shared (enough q)).bind ?_
      rintro m₁ ⟨relinks, loose⟩
      exact finish m₁ _ relinks.flags loose (waiting_pull_le relinks.asyncQueue)
        (fun notes => .rescheduled event :: notes)
  | false =>
      exact finish m bins rfl (shared.loose scheduled) (fun _ => Nat.le_refl _)
        (fun notes => .rescheduled event :: .scheduled event :: notes)

structure Merging (q : QueuePtr) (m : Memory) (bins : Bins) (left : List EventPtr) (s : Memory)
    (bins' : Bins) : Prop where
  held : ∀ p, Held s p (bins' p)
  here : (members (bins' q) ++ left).Perm (waiting m bins q)
  others : ∀ p, p ≠ q → bins' p = bins p
  flags : s.flags = m.flags
  queue : s.queue = m.queue
  async : s.asyncQueue = m.asyncQueue

theorem merging_step {left : List EventPtr} {s : Memory} {bins' : Bins} (shared : Shared m bins)
    (enough : (waiting m bins q).length < fuel) (merging : Merging q m bins (event :: left) s bins') :
    ∃ s' bins'', EventQueue.insert fuel q event s = .ok s' ∧ Merging q m bins left s' bins'' := by
  have listed : event ∈ waiting m bins q := merging.here.mem_iff.mp (by simp)
  have owned : s.queue event = some q := by
    rw [merging.queue]
    exact shared.owned q event listed
  have outside : ∀ p, event ∉ members (bins' p) := by
    intro p member
    by_cases same : p = q
    · subst same
      have once := merging.here.nodup_iff.mpr (shared.once p)
      exact (List.nodup_append.mp once).2.2 event member event List.mem_cons_self rfl
    · have owner := ((merging.held p).owned event member).symm.trans owned
      exact same (Option.some.inj owner)
  have short : (members (bins' q)).length < fuel := by
    have total := merging.here.length_eq
    rw [List.length_append] at total
    omega
  obtain ⟨s', inserted, held, relinks⟩ := insert_held merging.held outside owned short
  refine ⟨s', _, inserted, held, ?_, ?_, relinks.flags.trans merging.flags,
    relinks.queue.trans merging.queue, relinks.asyncQueue.trans merging.async⟩
  · rw [Function.update_self]
    refine List.Perm.trans ?_ merging.here
    exact ((push_perm event (bins' q)).append_right left).trans List.perm_middle.symm
  · intro p differs
    rw [Function.update_of_ne differs, merging.others p differs]

theorem handleAsyncInsertions_shared (shared : Shared m bins)
    (enough : ∀ p, (waiting m bins p).length < fuel) :
    Ends Refused (Grown m bins) (handleAsyncInsertions fuel cur q m) := by
  unfold handleAsyncInsertions
  refine (ends_assertion _).bind (fun _ _ => ?_)
  have loop : Ends Refused (fun s => ∃ bins', Merging q m bins [] s bins')
      ((m.asyncQueue q).foldlM (fun m event => EventQueue.insert fuel q event m) m) := by
    refine ends_foldlM (fun left s => ∃ bins', Merging q m bins left s bins') ?_ _ m
      ⟨bins, shared.held, List.Perm.refl _, fun _ _ => rfl, rfl, rfl, rfl⟩
    rintro event left s ⟨bins', merging⟩
    obtain ⟨s', bins'', inserted, merging'⟩ := merging_step shared (enough q) merging
    rw [inserted]
    exact ⟨bins'', merging'⟩
  refine loop.bind ?_
  rintro s ⟨bins', merging⟩
  have here : (waiting { s with asyncQueue := Function.update s.asyncQueue q [] } bins' q).Perm
      (waiting m bins q) := by
    simpa [waiting] using merging.here
  have others : ∀ p, p ≠ q →
      waiting { s with asyncQueue := Function.update s.asyncQueue q [] } bins' p =
        waiting m bins p := by
    intro p differs
    simp [waiting, differs, merging.others p differs, merging.async]
  have each : ∀ p, (waiting { s with asyncQueue := Function.update s.asyncQueue q [] } bins' p).Perm
      (waiting m bins p) := by
    intro p
    by_cases same : p = q
    · exact same ▸ here
    · rw [others p same]
  refine ⟨bins', ⟨?_, ?_, ?_, ?_, ?_⟩, fun p => Nat.le_succ_of_le (Nat.le_of_eq (each p).length_eq)⟩
  · exact fun p => (merging.held p).congr rfl (Nat.le_refl _) (fun _ _ => ⟨rfl, rfl, rfl, rfl, rfl⟩)
  · exact fun p => (each p).nodup_iff.mpr (shared.once p)
  · intro p event member
    change s.queue event = some p
    rw [merging.queue]
    exact shared.owned p event ((each p).mem_iff.mp member)
  · intro event
    change (s.flags event).scheduled = true ↔ _
    rw [merging.flags, shared.flagged event]
    exact exists_congr fun p => (each p).mem_iff.symm
  · intro event
    change (s.flags event).scheduled = true → (s.flags event).initialized = true
    rw [merging.flags]
    exact shared.alive event

theorem perform_shared (shared : Shared m bins) (enough : ∀ p, (waiting m bins p).length < fuel) :
    Ends Refused (Grown m bins) (perform fuel cur m op) := by
  cases op with
  | schedule q event when_ global => exact schedule_shared shared enough global
  | deschedule q event => exact deschedule_shared shared enough
  | reschedule q event when_ always => exact reschedule_shared shared enough always
  | squash event =>
      have marked := shared.setFlags event (fun f => { f with squashed := true }) rfl
        (shared.alive event)
      exact ⟨bins, marked.note _, fun _ => Nat.le_succ _⟩
  | handleAsyncInsertions q => exact handleAsyncInsertions_shared shared enough

def Roomy (fuel more : Nat) (m : Memory) : Prop :=
  -- the queues hold the scheduled events, with room for `more`
  ∃ bins, Shared m bins ∧ ∀ p, (waiting m bins p).length + more < fuel

theorem perform_roomy {more : Nat} (roomy : Roomy fuel (more + 1) m) :
    Ends Refused (Roomy fuel more) (perform fuel cur m op) := by
  obtain ⟨bins, shared, room⟩ := roomy
  refine (perform_shared shared (fun p => by have := room p; omega)).mono ?_
  rintro m' ⟨bins', shared', longer⟩
  refine ⟨bins', shared', fun p => ?_⟩
  have before := room p
  have after := longer p
  omega

theorem process_roomy {more : Nat} (roomy : Roomy fuel (handler.length + more) m) :
    Ends Refused (Roomy fuel more) (process fuel cur handler m) := by
  rw [← Nat.zero_add more]
  refine ends_foldlM (fun left => Roomy fuel (left.length + more)) ?_ handler m roomy
  intro op left s roomy
  rw [List.length_cons, Nat.add_right_comm] at roomy
  exact perform_roomy roomy

end Calls

section Services

variable {m m' m₁ : Memory} {bins : Bins} {q cur : QueuePtr} {event : EventPtr} {fuel more : Nat}
  {handler : List Op}

theorem popHead_roomy (roomy : Roomy fuel more m) :
    Ends (fun stop => stop = .nullPointer) (fun taken => Roomy fuel more taken.2) (popHead q m) := by
  obtain ⟨bins, shared, room⟩ := roomy
  cases isBins : bins q with
  | nil =>
      have head : m.lists.head q = none := by
        have shaped := (shared.held q).shaped.1
        rw [isBins] at shaped
        exact shaped
      rw [popHead, head]
      rfl
  | cons bin behind =>
      obtain ⟨m₁, popped, here, relinks⟩ := popHead_spec (isBins ▸ shared.held q)
      rw [popped]
      rw [← isBins] at here relinks
      have cleared : ∀ p, Held (m.setFlags bin.1 fun f => { f with scheduled := false }) p (bins p) :=
        fun p => (shared.held p).congr rfl (Nat.le_refl _) (fun _ _ => ⟨rfl, rfl, rfl, rfl, rfl⟩)
      have member : bin.1 ∈ members (bins q) := by
        rw [isBins]
        exact mem_members_of_top List.mem_cons_self
      have held := held_update cleared relinks here
        (fun p differs other => members_apart shared.held differs)
      have idle : (m₁.flags bin.1).scheduled = false := by
        rw [relinks.flags]
        simp [Memory.setFlags]
      have loose : Loose bin.1 m₁ (Function.update bins q (pull bin.1 (bins q))) := by
        refine shared.unlinked member held relinks.queue relinks.asyncQueue (fun other differs => ?_)
        rw [relinks.flags]
        simp [Memory.setFlags, differs]
      refine ⟨_, loose.settle idle, fun p => ?_⟩
      have shorter : (waiting m₁ (Function.update bins q (pull bin.1 (bins q))) p).length ≤
          (waiting m bins p).length := waiting_pull_le relinks.asyncQueue p
      have before := room p
      exact Nat.lt_of_le_of_lt (Nat.add_le_add_right shorter more) before

theorem retire_roomy (roomy : Roomy fuel more m) :
    Ends Refused (fun result => Roomy fuel more result.2) (retire event m) := by
  refine ((retire_ends event m).allow fun _ => .inl).mono ?_
  intro result effect
  obtain ⟨bins, shared, room⟩ := roomy
  cases effect with
  | kept => exact ⟨bins, shared, room⟩
  | deleted idle auto =>
      have dead := shared.setFlags event (fun _ => ⟨false, false, false, false, false, false⟩) idle.symm
        (by simp [idle])
      exact ⟨bins, dead, room⟩

theorem begun_roomy (roomy : Roomy fuel more m) : Roomy fuel more (setCurTick q event m) := by
  obtain ⟨bins, shared, room⟩ := roomy
  exact ⟨bins, shared.reflag m.flags _ m.inParallelMode _ (fun _ => rfl) shared.alive, room⟩

theorem serviceOne_roomy (roomy : Roomy fuel (handler.length + more) m) :
    Ends (fun stop => Refused stop ∨ stop = .nullPointer) (fun result => Roomy fuel more result.2)
      (serviceOne fuel cur q handler m) := by
  unfold serviceOne
  refine ((popHead_roomy roomy).allow fun _ => .inr).bind ?_
  rintro ⟨event, m₁⟩ roomy₁
  change Ends _ _ (if (m₁.flags event).squashed = true then _ else (process fuel cur handler _ >>= _))
  split
  · obtain ⟨bins, shared, room⟩ := roomy₁
    have cleared := shared.setFlags event (fun f => { f with squashed := false }) rfl
      (shared.alive event)
    refine (retire_roomy ⟨bins, cleared.note _, fun p => ?_⟩).allow fun _ => .inl
    have before : (waiting m₁ bins p).length + (handler.length + more) < fuel := room p
    change (waiting m₁ bins p).length + more < fuel
    omega
  · refine ((process_roomy (begun_roomy roomy₁)).allow fun _ => .inl).bind ?_
    intro m₂ roomy₂
    split
    · exact ((ends_assertion _).allow fun _ => .inl).bind fun _ _ => roomy₂
    · exact (retire_roomy roomy₂).allow fun _ => .inl

theorem step_roomy {action : Action} (roomy : Roomy fuel (additions action + more) m)
    (stepped : step fuel m action = some m') : Roomy fuel more m' := by
  cases action with
  | call cur op =>
      rw [additions, Nat.add_comm] at roomy
      exact (perform_roomy roomy).of_ok (eq_ok_of_toOption stepped)
  | serviceOne cur q handler =>
      obtain ⟨result, serviced, rfl⟩ := serviceOne_of_step stepped
      exact (serviceOne_roomy roomy).of_ok serviced
  | setParallelMode mode =>
      cases stepped
      obtain ⟨bins, shared, room⟩ := roomy
      rw [additions, Nat.zero_add] at room
      exact ⟨bins, shared.reflag m.flags m.curTick mode m.notes (fun _ => rfl) shared.alive, room⟩

theorem run_roomy {actions : List Action} (roomy : Roomy fuel (totalAdditions actions + more) m)
    (ran : run (step fuel) actions m = some m') : Roomy fuel more m' := by
  induction actions generalizing m with
  | nil =>
      cases ran
      rwa [totalAdditions, Nat.zero_add] at roomy
  | cons action rest ih =>
      obtain ⟨next, stepped, ran⟩ := Option.bind_eq_some_iff.mp ran
      rw [totalAdditions, Nat.add_assoc] at roomy
      exact ih (step_roomy roomy stepped) ran

end Services

section Owners

/-- The owner can call deschedule and reschedule for the event. -/
structure Found (fuel : Nat) (q : QueuePtr) (event : EventPtr) (m : Memory) : Prop where
  deschedules : ∃ m', deschedule fuel q q event m = .ok m'
  reschedules : ∀ when_ always, m.curTick q ≤ when_ →
    ∃ m', reschedule fuel q q event when_ always m = .ok m'

/-- Both calls of the owner end in panic("event not found!"). -/
structure Panics (fuel : Nat) (q : QueuePtr) (event : EventPtr) (m : Memory) : Prop where
  deschedules : deschedule fuel q q event m = .error .panic
  reschedules : ∀ when_ always, m.curTick q ≤ when_ →
    reschedule fuel q q event when_ always m = .error .panic

variable {m : Memory} {bins : Bins} {q : QueuePtr} {event : EventPtr} {fuel : Nat}

theorem found_of_mem (shared : Shared m bins) (enough : ∀ p, (waiting m bins p).length < fuel)
    (scheduled : (m.flags event).scheduled = true) (member : event ∈ members (bins q)) :
    Found fuel q event m := by
  have alive := shared.alive event scheduled
  obtain ⟨m₁, removed, relinks, loose⟩ := remove_held shared member (enough q)
  constructor
  · unfold deschedule
    simp only [scheduled, alive, removed, assert, beq_self_eq_true, Bool.or_true, if_true]
    change ∃ m', (if (((m₁.setFlags event fun f => { f with squashed := false, scheduled := false }).note
      (.descheduled event)).flags event).autoDelete = true then delete event _ else _) = _
    split
    · have idle : (((m₁.setFlags event fun f => { f with squashed := false, scheduled := false }).note
          (.descheduled event)).flags event).scheduled = false := by
        simp [Memory.setFlags, Memory.note]
      unfold delete
      simp only [idle]
      exact ⟨_, rfl⟩
    · exact ⟨_, rfl⟩
  · intro when_ always notPast
    have shorter : (waiting m₁ (Function.update bins q (pull event (bins q))) q).length < fuel :=
      Nat.lt_of_le_of_lt (waiting_pull_le relinks.asyncQueue q) (enough q)
    obtain ⟨m₂, bins₂, inserted, _⟩ := loose.inserted shorter when_
    unfold reschedule
    simp only [scheduled, alive, removed, assert, notPast, decide_true, beq_self_eq_true,
      Bool.or_true, if_true]
    change ∃ m', (EventQueue.insert fuel q event (setWhen event when_ q m₁) >>= _) = _
    rw [inserted]
    exact ⟨_, rfl⟩

theorem panics_of_async (shared : Shared m bins) (enough : ∀ p, (waiting m bins p).length < fuel)
    (scheduled : (m.flags event).scheduled = true) (listed : event ∈ m.asyncQueue q) :
    Panics fuel q event m := by
  have alive := shared.alive event scheduled
  have owned := shared.owned q event (List.mem_append_right _ listed)
  have outside : event ∉ members (bins q) := fun member =>
    (List.nodup_append.mp (shared.once q)).2.2 event member event listed rfl
  have short : (members (bins q)).length < fuel := by
    have total := enough q
    rw [waiting, List.length_append] at total
    omega
  have missed := remove_absent (shared.held q) outside owned short
  constructor
  · unfold deschedule
    simp only [scheduled, alive, missed, assert, beq_self_eq_true, Bool.or_true, if_true]
    rfl
  · intro when_ always notPast
    unfold reschedule
    simp only [scheduled, alive, missed, assert, notPast, decide_true, beq_self_eq_true,
      Bool.or_true, if_true]
    rfl

theorem not_found_and_panics (found : Found fuel q event m) (panics : Panics fuel q event m) :
    False := by
  obtain ⟨m', returned⟩ := found.deschedules
  rw [panics.deschedules] at returned
  cases returned

end Owners

section Runs

def Visits (fuel : Nat) (start : Memory) (actions : List Action) (handler : List Op) (s : Memory) :
    Prop :=
  -- after `actions`, or then inside a service, after the calls `handler` of it
  ∃ reached, run (step fuel) actions start = some reached ∧
    (s = reached ∨ ∃ cur q event m₁, popHead q reached = .ok (event, m₁) ∧
      (m₁.flags event).squashed = false ∧
      process fuel cur handler (setCurTick q event m₁) = .ok s)

/-- A scheduled event is in one list, and the calls of the owner find it exactly when that is
not the async list. -/
theorem owner_finds_iff (fuel : Nat) (start s : Memory) (actions : List Action) (handler : List Op)
    (empty : ∀ q, start.lists.head q = none) (merged : ∀ q, start.asyncQueue q = [])
    (idle : ∀ event, (start.flags event).scheduled = false)
    (enough : totalAdditions actions + handler.length < fuel)
    (visits : Visits fuel start actions handler s) :
    (∃ bins : Bins, (∀ q, Held s q (bins q)) ∧ ∀ event, (s.flags event).scheduled = true →
      ∃ q, s.queue event = some q ∧ ∀ p,
        (members (bins p)).count event + (s.asyncQueue p).count event = if p = q then 1 else 0) ∧
    ∀ q event, (s.flags event).scheduled = true → s.queue event = some q →
      (Found fuel q event s ↔ event ∉ s.asyncQueue q) ∧
      (Panics fuel q event s ↔ event ∈ s.asyncQueue q) := by
  have roomy : Roomy fuel (totalAdditions actions + (handler.length + 0)) start := by
    refine ⟨fun _ => [], ⟨fun q => ?_, ?_, ?_, ?_, ?_⟩, ?_⟩
    · exact ⟨⟨empty q, List.nodup_nil⟩, Ordered.nil, by simp, by simp, by simp⟩
    · simp [waiting, merged]
    · simp [waiting, merged]
    · simp [waiting, merged, idle]
    · simp [idle]
    · simpa [waiting, merged] using enough
  obtain ⟨bins, shared, room⟩ : Roomy fuel 0 s := by
    obtain ⟨reached, ran, rfl | ⟨cur, q, event, m₁, taken, _, processed⟩⟩ := visits
    · obtain ⟨bins, shared, room⟩ := run_roomy roomy ran
      exact ⟨bins, shared, fun p => by have := room p; omega⟩
    · have popped : Roomy fuel (handler.length + 0) m₁ :=
        (popHead_roomy (run_roomy roomy ran)).of_ok taken
      exact (process_roomy (begun_roomy popped)).of_ok processed
  refine ⟨⟨bins, shared.held, ?_⟩, ?_⟩
  · intro event scheduled
    obtain ⟨q, member⟩ := (shared.flagged event).mp scheduled
    refine ⟨q, shared.owned q event member, fun p => ?_⟩
    rw [← List.count_append]
    change (waiting s bins p).count event = _
    split
    · rename_i same
      subst same
      exact List.count_eq_one_of_mem (shared.once p) member
    · rename_i differs
      refine List.count_eq_zero_of_not_mem fun other => differs ?_
      exact Option.some.inj ((shared.owned p event other).symm.trans (shared.owned q event member))
  · intro q event scheduled owned
    have inQueue : event ∈ waiting s bins q := by
      obtain ⟨p, member⟩ := (shared.flagged event).mp scheduled
      have same := Option.some.inj ((shared.owned p event member).symm.trans owned)
      exact same ▸ member
    rcases List.mem_append.mp inQueue with inMain | inAsync
    · have notAsync : event ∉ s.asyncQueue q := fun listed =>
        (List.nodup_append.mp (shared.once q)).2.2 event inMain event listed rfl
      have found := found_of_mem shared room scheduled inMain
      exact ⟨iff_of_true found notAsync,
        iff_of_false (fun panics => not_found_and_panics found panics) notAsync⟩
    · have panics := panics_of_async shared room scheduled inAsync
      exact ⟨iff_of_false (fun found => not_found_and_panics found panics) (fun out => out inAsync),
        iff_of_true panics inAsync⟩

def crossActions : List Action :=
  -- in parallel mode, queue 1 schedules an event on queue 0 and queue 0 merges it; then a global
  -- event is scheduled
  [.setParallelMode true, .call 1 (.schedule 0 1 5 false), .call 0 (.handleAsyncInsertions 0),
    .call 0 (.schedule 0 2 7 true)]

theorem cross_queue_owner_finds :
    ∃ reached, run (step 9) crossActions constructed = some reached ∧ reached.inParallelMode = true ∧
      Found 9 0 1 reached ∧ Panics 9 0 2 reached := by
  obtain ⟨reached, ran⟩ : ∃ reached, run (step 9) crossActions constructed = some reached := ⟨_, rfl⟩
  have finds := (owner_finds_iff 9 constructed reached crossActions [] (fun _ => rfl) (fun _ => rfl)
    (fun _ => rfl) (by decide) ⟨reached, ran, .inl rfl⟩).2
  have flags : reached.inParallelMode = true ∧ (reached.flags 1).scheduled = true ∧
      (reached.flags 2).scheduled = true := by
    cases ran
    exact ⟨rfl, rfl, rfl⟩
  have owners : reached.queue 1 = some 0 ∧ reached.queue 2 = some 0 ∧ reached.asyncQueue 0 = [2] := by
    cases ran
    exact ⟨rfl, rfl, rfl⟩
  exact ⟨reached, ran, flags.1, (finds 0 1 flags.2.1 owners.1).1.mpr (by simp [owners.2.2]),
    (finds 0 2 flags.2.2 owners.2.1).2.mpr (by simp [owners.2.2])⟩

/-- A global event that its owner takes back before it is merged. -/
theorem async_event_is_not_found :
    ¬ ∀ (actions : List Action) (reached : Memory) (q : QueuePtr) (event : EventPtr),
      run (step 9) actions constructed = some reached → reached.inParallelMode = true →
      (reached.flags event).scheduled = true → reached.queue event = some q →
      deschedule 9 q q event reached ≠ .error .panic := by
  intro always
  exact always [.setParallelMode true, .call 0 (.schedule 0 1 5 true)] _ 0 1 rfl rfl rfl rfl rfl

end Runs

end GemFi.AsyncQueues
