import GemFi.EventQueue
import GemFi.Outcomes

/-!
The pointers of an event queue represent a list of bins, and insert and remove are
push and pull on them. Every read of a `nextBin` pointer is at the top of a bin of
the queue as it is at that moment.
-/

namespace GemFi.EventBins

open LinkedLists BinnedStacks EventQueue EventQueue.Memory Outcomes

def key (m : Memory) (event : EventPtr) : Nat ×ₗ Int := toLex (m.when_ event, m.priority event)

theorem lt_iff (m : Memory) (l r : EventPtr) : m.lt l r = true ↔ key m l < key m r := by
  rw [key, key, Prod.Lex.toLex_lt_toLex]
  simp [Memory.lt]

theorem le_iff (m : Memory) (l r : EventPtr) : m.le l r = true ↔ key m l ≤ key m r := by
  rw [key, key, Prod.Lex.toLex_le_toLex]
  simp [Memory.le]

theorem eq_iff (m : Memory) (l r : EventPtr) : m.eq l r = true ↔ key m l = key m r := by
  rw [key, key, toLex_inj, Prod.mk.injEq]
  simp [Memory.eq]

def Shaped (lists : Lists) (q : QueuePtr) (bins : List (Bin EventPtr)) : Prop :=
  -- the pointers of queue `q` are those of `bins`
  Stacked lists.nextBin lists.nextInBin (lists.head q) bins none ∧ (members bins).Nodup

/-- The event whose `nextBin` was read was then on top of a bin. -/
def AtTop (f : Follow) : Prop :=
  ∃ bins, Shaped f.lists f.queue bins ∧ ∃ bin ∈ bins, bin.1 = f.event

structure Held (m : Memory) (q : QueuePtr) (bins : List (Bin EventPtr)) : Prop where
  -- the queue holds `bins`
  shaped : Shaped m.lists q bins
  ordered : Ordered (key m) bins
  latest : ∀ bin ∈ bins, bin.nodes.Pairwise fun upper lower => m.stamp lower < m.stamp upper
  older : ∀ event ∈ members bins, m.stamp event < m.clock
  owned : ∀ event ∈ members bins, m.queue event = some q

structure Relinks (m m' : Memory) (q : QueuePtr) (touched : List EventPtr) : Prop where
  when_ : m'.when_ = m.when_
  priority : m'.priority = m.priority
  flags : m'.flags = m.flags
  queue : m'.queue = m.queue
  curTick : m'.curTick = m.curTick
  asyncQueue : m'.asyncQueue = m.asyncQueue
  inParallelMode : m'.inParallelMode = m.inParallelMode
  notes : m'.notes = m.notes
  head : ∀ other, other ≠ q → m'.lists.head other = m.lists.head other
  nextBin : ∀ event, event ∉ touched → m'.lists.nextBin event = m.lists.nextBin event
  nextInBin : ∀ event, event ∉ touched → m'.lists.nextInBin event = m.lists.nextInBin event
  stamp : ∀ event, event ∉ touched → m'.stamp event = m.stamp event
  clock : m.clock ≤ m'.clock
  followed : ∀ f ∈ m'.followed, f ∈ m.followed ∨ AtTop f

section Reads

variable {m : Memory} {q : QueuePtr} {bins wider : List (Bin EventPtr)} {followed followed' : List Follow}

def ReadsTops (m : Memory) (q : QueuePtr) (bins : List (Bin EventPtr)) (followed : List Follow) : Prop :=
  ∀ f ∈ followed, f ∈ m.followed ∨
    f.queue = q ∧ f.lists = m.lists ∧ ∃ other ∈ bins, other.1 = f.event

theorem ReadsTops.refl : ReadsTops m q bins m.followed := fun _ member => .inl member

theorem ReadsTops.mono (reads : ReadsTops m q bins followed) (inside : bins ⊆ wider) :
    ReadsTops m q wider followed := by
  intro f member
  refine (reads f member).imp_right ?_
  rintro ⟨inQueue, same, other, isBin, isEvent⟩
  exact ⟨inQueue, same, other, inside isBin, isEvent⟩

theorem ReadsTops.trans (reads : ReadsTops m q bins followed)
    (later : ReadsTops { m with followed := followed } q bins followed') :
    ReadsTops m q bins followed' := by
  intro f member
  rcases later f member with old | new
  · exact reads f old
  · exact .inr new

/-- One more read. -/
theorem readsTops_follow {bin : Bin EventPtr} (isBin : bin ∈ bins) :
    ReadsTops m q bins (⟨q, bin.1, m.lists⟩ :: m.followed) := by
  intro f member
  rcases List.mem_cons.mp member with rfl | old
  · exact .inr ⟨rfl, rfl, bin, isBin, rfl⟩
  · exact .inl old

theorem ReadsTops.atTop (reads : ReadsTops m q bins followed) (shaped : Shaped m.lists q bins) :
    ∀ f ∈ followed, f ∈ m.followed ∨ AtTop f := by
  intro f member
  refine (reads f member).imp_right ?_
  rintro ⟨inQueue, same, here⟩
  exact ⟨bins, by rw [same, inQueue]; exact shaped, here⟩

end Reads

section Seeking

variable {m : Memory} {q : QueuePtr} {event : EventPtr} {fuel : Nat}

theorem seekBin_spec {first : Bin EventPtr} {rest : List (Bin EventPtr)}
    (stacked : Stacked m.lists.nextBin m.lists.nextInBin (m.lists.nextBin first.1) rest none)
    (less : key m first.1 < key m event) (enough : rest.length < fuel) :
    ∃ front bin behind followed, first :: rest = front ++ bin :: behind ∧
      (∀ other ∈ front ++ [bin], key m other.1 < key m event) ∧
      (∀ other ∈ behind.head?, ¬ key m other.1 < key m event) ∧
      seekBin q event fuel first.1 (m.lists.nextBin first.1) m =
        .ok (bin.1, behind.head?.map Prod.fst, { m with followed := followed }) ∧
      ReadsTops m q rest followed := by
  induction rest generalizing m first fuel with
  | nil =>
      obtain ⟨fuel, rfl⟩ := Nat.exists_eq_add_of_lt enough
      refine ⟨[], first, [], m.followed, rfl, by simpa using less, by simp, ?_, .refl⟩
      rw [show m.lists.nextBin first.1 = none from stacked]
      rfl
  | cons second rest ih =>
      obtain ⟨fuel, rfl⟩ := Nat.exists_eq_succ_of_ne_zero (Nat.ne_of_gt (Nat.zero_lt_of_lt enough))
      obtain ⟨link, stack, others⟩ := stacked
      rw [link]
      unfold seekBin
      by_cases before : key m second.1 < key m event
      · rw [if_pos ((lt_iff m _ _).mpr before)]
        have shorter : rest.length < fuel := by simpa using enough
        obtain ⟨front, bin, behind, followed, split, ahead, notLess, found, reads⟩ :=
          ih (m := { m with followed := ⟨q, second.1, m.lists⟩ :: m.followed }) others before shorter
        refine ⟨first :: front, bin, behind, followed, by rw [split]; rfl,
          List.forall_mem_cons.mpr ⟨less, ahead⟩, notLess, found, ?_⟩
        exact (readsTops_follow List.mem_cons_self).trans (reads.mono (List.subset_cons_self second rest))
      · rw [if_neg (mt (lt_iff m _ _).mp before)]
        refine ⟨[], first, second :: rest, m.followed, rfl, by simpa using less, by simpa using before,
          rfl, .refl⟩

theorem seek_behind {first : Bin EventPtr} {rest : List (Bin EventPtr)} (held : Held m q (first :: rest))
    (less : key m first.1 < key m event) (enough : rest.length < fuel) :
    ∃ front bin behind followed, first :: rest = front ++ bin :: behind ∧
      (∀ other ∈ front ++ [bin], key m other.1 < key m event) ∧
      (∀ other ∈ behind.head?, ¬ key m other.1 < key m event) ∧
      seekBin q event fuel first.1 (m.lists.nextBin first.1) (m.follow q first.1).2 =
        .ok (bin.1, behind.head?.map Prod.fst, { m with followed := followed }) ∧
      ReadsTops m q (first :: rest) followed := by
  obtain ⟨front, bin, behind, followed, split, ahead, notLess, found, reads⟩ :=
    seekBin_spec (q := q) (m := (m.follow q first.1).2) held.shaped.1.2.2 less enough
  refine ⟨front, bin, behind, followed, split, ahead, notLess, found, ?_⟩
  exact (readsTops_follow List.mem_cons_self).trans (reads.mono (List.subset_cons_self first rest))

end Seeking

section Inserting

variable {m m' : Memory} {q : QueuePtr} {event : EventPtr} {fuel : Nat}
  {bins behind : List (Bin EventPtr)}

theorem insertBefore_spec (notLess : ∀ bin ∈ behind.head?, ¬ key m bin.1 < key m event) :
    ∃ bin item followed, insertBefore q event (behind.head?.map Prod.fst) m =
        { m with
          lists := { m.lists with
            nextBin := Function.update m.lists.nextBin event bin
            nextInBin := Function.update m.lists.nextInBin event item }
          followed := followed } ∧
      Placed (key m) m.lists.nextBin (Function.update m.lists.nextBin event bin)
        (Function.update m.lists.nextInBin event item) event behind ∧
      ReadsTops m q behind followed := by
  cases behind with
  | nil =>
      refine ⟨none, none, m.followed, rfl, ⟨by simp, by simp, by simp⟩, .refl⟩
  | cons first rest =>
      have here : ¬ key m first.1 < key m event := notLess first rfl
      simp only [List.head?_cons, Option.map_some, insertBefore]
      by_cases less : key m event < key m first.1
      · rw [if_pos ((lt_iff m _ _).mpr less)]
        refine ⟨some first.1, none, m.followed, rfl, ⟨?_, ?_, by simp⟩, .refl⟩
        · rintro bin others ⟨⟩ _
          exact ⟨Function.update_self _ _ _, Function.update_self _ _ _⟩
        · rintro bin others ⟨⟩ same
          exact absurd less (same ▸ lt_irrefl _)
      · have same : key m first.1 = key m event := le_antisymm (not_lt.mp less) (not_lt.mp here)
        rw [if_neg (mt (lt_iff m _ _).mp less)]
        refine ⟨m.lists.nextBin first.1, some first.1, ⟨q, first.1, m.lists⟩ :: m.followed, rfl,
          ⟨?_, ?_, by simp⟩, readsTops_follow List.mem_cons_self⟩
        · rintro bin others ⟨⟩ differs
          exact absurd same differs
        · rintro bin others ⟨⟩ _
          exact ⟨Function.update_self _ _ _, Function.update_self _ _ _⟩

theorem push_latest (held : Held m q bins) (outside : event ∉ members bins) {stamp : EventPtr → Nat}
    (new : stamp event = m.clock) (old : ∀ other, other ≠ event → stamp other = m.stamp other) :
    ∀ bin ∈ push (key m) event bins,
      bin.nodes.Pairwise fun upper lower => stamp lower < stamp upper := by
  have kept : ∀ bin ∈ bins, bin.nodes.Pairwise fun upper lower => stamp lower < stamp upper := by
    intro bin member
    apply (held.latest bin member).imp_of_mem
    intro upper lower inUpper inLower less
    have differs : ∀ other ∈ bin.nodes, other ≠ event := by
      rintro other inside rfl
      exact outside (List.mem_flatMap.mpr ⟨bin, member, inside⟩)
    rw [old lower (differs lower inLower), old upper (differs upper inUpper)]
    exact less
  intro bin member
  rcases mem_push member with isOld | rfl | ⟨bin, isOld, rfl⟩
  · exact kept bin isOld
  · simp [Bin.nodes]
  · refine List.pairwise_cons.mpr ⟨?_, kept bin isOld⟩
    intro lower inside
    have inMembers : lower ∈ members bins := List.mem_flatMap.mpr ⟨bin, isOld, inside⟩
    have differs : lower ≠ event := fun same => outside (same ▸ inMembers)
    rw [new, old lower differs]
    exact held.older lower inMembers

theorem held_push {lists : Lists} {followed : List Follow} (held : Held m q bins)
    (outside : event ∉ members bins) (owned : m.queue event = some q)
    (stacked : Stacked lists.nextBin lists.nextInBin (lists.head q) (push (key m) event bins) none) :
    Held (stamped event { m with lists := lists, followed := followed }) q
      (push (key m) event bins) := by
  have inserted : (members (push (key m) event bins)).Perm (event :: members bins) :=
    push_perm event bins
  refine ⟨⟨stacked, ?_⟩, push_ordered held.ordered event,
    push_latest held outside (Function.update_self _ _ _)
      (fun other differs => Function.update_of_ne differs _ _),
    ?_, ?_⟩
  · exact inserted.nodup_iff.mpr (List.nodup_cons.mpr ⟨outside, held.shaped.2⟩)
  · intro other member
    by_cases same : other = event
    · simp [stamped, same]
    · have isOld := (List.mem_cons.mp (inserted.mem_iff.mp member)).resolve_left same
      have older := held.older other isOld
      simp only [stamped, Function.update_of_ne same]
      exact Nat.lt_succ_of_lt older
  · intro other member
    rcases List.mem_cons.mp (inserted.mem_iff.mp member) with rfl | isOld
    · exact owned
    · exact held.owned other isOld

theorem insert_head (held : Held m q bins) (outside : event ∉ members bins)
    (owned : m.queue event = some q) (notLess : ∀ bin ∈ bins.head?, ¬ key m bin.1 < key m event) :
    Held (stamped event ((insertBefore q event (bins.head?.map Prod.fst) m).setHead q (some event))) q
        (push (key m) event bins) ∧
      Relinks m (stamped event ((insertBefore q event (bins.head?.map Prod.fst) m).setHead q
        (some event))) q (event :: members bins) := by
  obtain ⟨bin, item, followed, written, placed, reads⟩ := insertBefore_spec (q := q) notLess
  rw [written]
  have differs : ∀ other ∈ members bins, other ≠ event := fun other member same =>
    outside (same ▸ member)
  constructor
  · apply held_push held outside owned
    simp only [Function.update_self]
    apply push_stacked held.shaped.1 notLess placed
    · intro other member
      exact Function.update_of_ne (differs other.1 (mem_members_of_top member)) _ _
    · intro other member
      exact Function.update_of_ne (differs other member) _ _
  · constructor <;> try rfl
    · intro other elsewhere
      exact Function.update_of_ne elsewhere _ _
    · intro other untouched
      exact Function.update_of_ne (List.ne_of_not_mem_cons untouched) _ _
    · intro other untouched
      exact Function.update_of_ne (List.ne_of_not_mem_cons untouched) _ _
    · intro other untouched
      exact Function.update_of_ne (List.ne_of_not_mem_cons untouched) _ _
    · exact Nat.le_succ _
    · exact reads.atTop held.shaped

theorem insert_behind {front : List (Bin EventPtr)} {bin : Bin EventPtr} {followed : List Follow}
    (held : Held m q (front ++ bin :: behind)) (outside : event ∉ members (front ++ bin :: behind))
    (owned : m.queue event = some q) (ahead : ∀ other ∈ front ++ [bin], key m other.1 < key m event)
    (notLess : ∀ other ∈ behind.head?, ¬ key m other.1 < key m event)
    (reads : ReadsTops m q (front ++ bin :: behind) followed) :
    Held (stamped event ((insertBefore q event (behind.head?.map Prod.fst)
        { m with followed := followed }).setNextBin bin.1 (some event))) q
        (push (key m) event (front ++ bin :: behind)) ∧
      Relinks m (stamped event ((insertBefore q event (behind.head?.map Prod.fst)
        { m with followed := followed }).setNextBin bin.1 (some event))) q
        (event :: members (front ++ bin :: behind)) := by
  obtain ⟨nextBin, item, followed', written, placed, reads'⟩ :=
    insertBefore_spec (q := q) (m := { m with followed := followed }) notLess
  rw [written]
  have differs : ∀ other ∈ members (front ++ bin :: behind), other ≠ event :=
    fun other member same => outside (same ▸ member)
  have isTop : bin.1 ∈ members (front ++ bin :: behind) := mem_members_of_top (by simp)
  constructor
  · apply held_push held outside owned
    obtain ⟨apartFront, apartBehind⟩ := nodup_tops_apart held.shaped.2
    apply push_behind held.shaped.1 ahead notLess (placed.congr _) (Function.update_self _ _ _)
    · intro other member
      have notBin : other.1 ≠ bin.1 := fun same => apartFront other member (by simp [same])
      have notEvent := differs other.1 (mem_members_of_top (List.mem_append_left _ member))
      exact (Function.update_of_ne notBin _ _).trans (Function.update_of_ne notEvent _ _)
    · intro other member
      have notBin : other.1 ≠ bin.1 := fun same =>
        apartBehind other member (same ▸ List.mem_cons_self)
      have notEvent := differs other.1
        (mem_members_of_top (List.mem_append_right _ (List.mem_cons_of_mem bin member)))
      exact (Function.update_of_ne notBin _ _).trans (Function.update_of_ne notEvent _ _)
    · intro other member
      exact Function.update_of_ne (differs other member) _ _
    · exact Function.update_of_ne (differs bin.1 isTop).symm _ _
  · constructor <;> try rfl
    · intro other _
      rfl
    · intro other untouched
      rw [List.mem_cons, not_or] at untouched
      have notBin : other ≠ bin.1 := fun same => untouched.2 (same ▸ isTop)
      exact (Function.update_of_ne notBin _ _).trans (Function.update_of_ne untouched.1 _ _)
    · intro other untouched
      exact Function.update_of_ne (List.ne_of_not_mem_cons untouched) _ _
    · intro other untouched
      exact Function.update_of_ne (List.ne_of_not_mem_cons untouched) _ _
    · exact Nat.le_succ _
    · have inside : behind ⊆ front ++ bin :: behind :=
        fun other member => List.mem_append_right front (List.mem_cons_of_mem bin member)
      exact (reads.trans (reads'.mono inside)).atTop held.shaped

theorem insert_spec (held : Held m q bins) (outside : event ∉ members bins)
    (owned : m.queue event = some q) (enough : bins.length < fuel) :
    ∃ m', EventQueue.insert fuel q event m = .ok m' ∧ Held m' q (push (key m) event bins) ∧
      Relinks m m' q (event :: members bins) := by
  unfold EventQueue.insert
  rw [held.shaped.1.start_eq]
  cases bins with
  | nil => exact ⟨_, rfl, insert_head held outside owned (by simp)⟩
  | cons first rest =>
      simp only [List.head?_cons, Option.map_some]
      by_cases atHead : key m event ≤ key m first.1
      · rw [if_pos ((le_iff m _ _).mpr atHead)]
        exact ⟨_, rfl, insert_head held outside owned (by simpa using atHead)⟩
      · rw [if_neg (mt (le_iff m _ _).mp atHead)]
        have shorter : rest.length < fuel := by simp at enough; omega
        obtain ⟨front, bin, behind, followed, split, ahead, notLess, found, reads⟩ :=
          seek_behind held (not_le.mp atHead) shorter
        refine ⟨_, bind_eq_of_ok found rfl, ?_⟩
        rw [split] at held outside reads ⊢
        exact insert_behind held outside owned ahead notLess reads

end Inserting

section Removing

variable {m m' : Memory} {q : QueuePtr} {event : EventPtr} {fuel : Nat}
  {bins behind : List (Bin EventPtr)} {bin : Bin EventPtr}

theorem seekItem_spec {nextInBin : EventPtr → Option EventPtr} (curr : EventPtr)
    {start : Option EventPtr} {under : List EventPtr} (chain : Chain nextInBin start under none)
    (member : event ∈ under) (enough : under.length < fuel) :
    ∃ before above after, curr :: under = before ++ above :: event :: after ∧
      seekItem event nextInBin fuel curr start = .ok above := by
  induction under generalizing curr start fuel with
  | nil => cases member
  | cons next rest ih =>
      obtain ⟨fuel, rfl⟩ := Nat.exists_eq_succ_of_ne_zero (Nat.ne_of_gt (Nat.zero_lt_of_lt enough))
      obtain ⟨first, others⟩ := chain
      rw [first, seekItem]
      by_cases here : event = next
      · subst here
        exact ⟨[], curr, rest, rfl, if_pos rfl⟩
      · rw [if_neg here]
        obtain ⟨before, above, after, split, found⟩ :=
          ih next others ((List.mem_cons.mp member).resolve_left here) (by simpa using enough)
        exact ⟨curr :: before, above, after, by rw [split]; rfl, found⟩

theorem removeItem_spec {start : Option EventPtr}
    (stacked : Stacked m.lists.nextBin m.lists.nextInBin start (bin :: behind) none)
    (inside : event ∈ bin.nodes) (enough : bin.2.length < fuel) :
    ∃ top nextBin nextInBin followed, removeItem fuel q event bin.1 m = .ok (top,
        { m with
          lists := { m.lists with nextBin := nextBin, nextInBin := nextInBin }
          followed := followed }) ∧
      Unlinked m.lists.nextBin m.lists.nextInBin event bin nextBin nextInBin top ∧
      ReadsTops m q [bin] followed := by
  obtain ⟨_, stack, _⟩ := stacked
  unfold removeItem
  by_cases isTop : event = bin.1
  · rw [if_pos isTop]
    cases more : bin.2 with
    | nil =>
        rw [more] at stack
        rw [show m.lists.nextInBin bin.1 = none from stack]
        exact ⟨_, _, _, _, rfl, .alone isTop more, readsTops_follow List.mem_cons_self⟩
    | cons under rest =>
        rw [more] at stack
        rw [show m.lists.nextInBin bin.1 = some under from stack.1]
        exact ⟨_, _, _, _, rfl, .top isTop under rest more, readsTops_follow List.mem_cons_self⟩
  · rw [if_neg isTop]
    obtain ⟨before, above, after, split, found⟩ := seekItem_spec bin.1 stack
      ((List.mem_cons.mp inside).resolve_left isTop) enough
    rw [found]
    exact ⟨_, _, _, _, rfl, .inner before after above split, .refl⟩

theorem held_pull {lists : Lists} {followed : List Follow} (held : Held m q bins)
    (stacked : Stacked lists.nextBin lists.nextInBin (lists.head q) (pull event bins) none) :
    Held { m with lists := lists, followed := followed } q (pull event bins) := by
  have old : ∀ other ∈ members (pull event bins), other ∈ members bins := by
    intro other member
    rw [members_pull] at member
    exact List.mem_of_mem_erase member
  refine ⟨⟨stacked, ?_⟩, pull_ordered held.ordered event, ?_,
    fun other member => held.older other (old other member),
    fun other member => held.owned other (old other member)⟩
  · rw [members_pull]
    exact held.shaped.2.erase event
  · intro bin member
    obtain ⟨bin', inBins, smaller⟩ := mem_pull member
    exact (held.latest bin' inBins).sublist smaller

theorem length_under_le {bins : List (Bin EventPtr)} {bin : Bin EventPtr} (member : bin ∈ bins) :
    bin.2.length < (members bins).length := by
  obtain ⟨front, behind, rfl⟩ := List.append_of_mem member
  rw [members_append]
  simp
  omega

theorem remove_first (held : Held m q (bin :: behind)) (inside : event ∈ bin.nodes)
    (enough : bin.2.length < fuel) :
    ∃ top m', removeItem fuel q event bin.1 m = .ok (top, m') ∧
      Held (m'.setHead q top) q (pull event (bin :: behind)) ∧
      Relinks m (m'.setHead q top) q (members (bin :: behind)) := by
  obtain ⟨top, nextBin, nextInBin, followed, removed, unlinked, reads⟩ :=
    removeItem_spec (q := q) held.shaped.1 inside enough
  refine ⟨top, _, removed, ?_, ?_⟩
  · apply held_pull held
    simp only [Function.update_self]
    exact unlinked_stacked held.shaped.1 held.shaped.2 unlinked
  · have frame : ∀ other, other ∉ members (bin :: behind) →
        nextBin other = m.lists.nextBin other ∧ nextInBin other = m.lists.nextInBin other :=
      fun other untouched => unlinked.frame fun here => untouched (List.mem_append_left _ here)
    constructor <;> try rfl
    · intro other elsewhere
      exact Function.update_of_ne elsewhere _ _
    · exact fun other untouched => (frame other untouched).1
    · exact fun other untouched => (frame other untouched).2
    · exact fun other untouched => rfl
    · exact (reads.mono (by simp)).atTop held.shaped

theorem remove_behind {front : List (Bin EventPtr)} {last : Bin EventPtr} {followed : List Follow}
    (held : Held m q (front ++ last :: bin :: behind)) (inside : event ∈ bin.nodes)
    (enough : bin.2.length < fuel) (reads : ReadsTops m q (front ++ last :: bin :: behind) followed) :
    ∃ top m', removeItem fuel q event bin.1 { m with followed := followed } = .ok (top, m') ∧
      Held (m'.setNextBin last.1 top) q (pull event (front ++ last :: bin :: behind)) ∧
      Relinks m (m'.setNextBin last.1 top) q (members (front ++ last :: bin :: behind)) := by
  obtain ⟨middle, _, stackedBin⟩ : ∃ middle, _ ∧ Stacked m.lists.nextBin m.lists.nextInBin middle
      (bin :: behind) none := by
    have grouped : front ++ last :: bin :: behind = (front ++ [last]) ++ bin :: behind := by simp
    exact stacked_append_iff.mp (grouped ▸ held.shaped.1)
  obtain ⟨top, nextBin, nextInBin, followed', removed, unlinked, reads'⟩ :=
    removeItem_spec (q := q) (m := { m with followed := followed }) stackedBin inside enough
  refine ⟨top, _, removed, ?_, ?_⟩
  · apply held_pull held
    exact pull_behind held.shaped.1 held.shaped.2 inside unlinked (Function.update_self _ _ _)
      (fun other differs => Function.update_of_ne differs _ _)
  · have frame : ∀ other, other ∉ members (front ++ last :: bin :: behind) →
        other ∉ bin.nodes ∧ other ≠ last.1 := by
      intro other untouched
      constructor
      · intro here
        exact untouched (List.mem_flatMap.mpr ⟨bin, by simp, here⟩)
      · rintro rfl
        exact untouched (mem_members_of_top (by simp))
    constructor <;> try rfl
    · exact fun other elsewhere => rfl
    · intro other untouched
      obtain ⟨outside, notLast⟩ := frame other untouched
      exact (Function.update_of_ne notLast _ _).trans (unlinked.frame outside).1
    · intro other untouched
      exact (unlinked.frame (frame other untouched).1).2
    · exact fun other untouched => rfl
    · exact (reads.trans (reads'.mono (by simp))).atTop held.shaped

theorem remove_spec (held : Held m q bins) (member : event ∈ members bins)
    (enough : (members bins).length < fuel) :
    ∃ m', remove fuel q event m = .ok m' ∧ Held m' q (pull event bins) ∧
      Relinks m m' q (members bins) := by
  have owned : assert (m.queue event = some q) = .ok () := by
    simp [assert, held.owned event member]
  have start := held.shaped.1.start_eq
  unfold remove
  cases bins with
  | nil => cases member
  | cons first rest =>
      rw [start]
      simp only [List.head?_cons, Option.map_some]
      rw [owned]
      by_cases atHead : key m first.1 = key m event
      · have inside : event ∈ first.nodes := by
          refine (List.mem_append.mp member).resolve_right (fun later => ?_)
          exact absurd (held.ordered.first_lt later) (atHead ▸ lt_irrefl _)
        have short := length_under_le (List.mem_cons_self (a := first) (l := rest))
        obtain ⟨top, m', removed, held', relinks⟩ :=
          remove_first held inside (Nat.lt_trans short enough)
        refine ⟨_, ?_, held', relinks⟩
        change (if m.eq first.1 event = true then _ else _) = _
        rw [if_pos ((eq_iff m _ _).mpr atHead), removed]
        rfl
      · have later : event ∈ members rest := by
          refine (List.mem_append.mp member).resolve_left (fun inside => atHead ?_)
          exact (held.ordered.key_eq List.mem_cons_self inside).symm
        have shorter : rest.length < fuel := by
          have tops := length_le_members (first :: rest)
          rw [List.length_cons] at tops
          omega
        obtain ⟨front, last, behind, followed, split, ahead, notLess, found, reads⟩ :=
          seek_behind held (held.ordered.first_lt later) shorter
        rw [split] at held member enough reads ⊢
        have grouped : front ++ last :: behind = (front ++ [last]) ++ behind := by simp
        obtain ⟨bin, more, rfl, inside⟩ :=
          Ordered.mem_first (grouped ▸ held.ordered) (grouped ▸ member) ahead notLess
        have isBin : key m bin.1 = key m event := (held.ordered.key_eq (by simp) inside).symm
        have short : bin.2.length < fuel := Nat.lt_trans (length_under_le (by simp)) enough
        obtain ⟨top, m', removed, held', relinks⟩ := remove_behind held inside short reads
        refine ⟨_, ?_, held', relinks⟩
        change (if m.eq first.1 event = true then _
          else (seekBin q event fuel first.1 _ (m.follow q first.1).2 >>= _)) = _
        rw [if_neg (mt (eq_iff m _ _).mp atHead)]
        refine bind_eq_of_ok found ?_
        change (if m.eq bin.1 event = true then (removeItem fuel q event bin.1 _ >>= _) else _) = _
        rw [if_pos ((eq_iff m _ _).mpr isBin)]
        exact bind_eq_of_ok removed rfl

theorem seekBin_stops (prev : EventPtr) {start : Option EventPtr} {rest : List (Bin EventPtr)}
    (stacked : Stacked m.lists.nextBin m.lists.nextInBin start rest none)
    (enough : rest.length < fuel) :
    ∃ last front behind followed, rest = front ++ behind ∧ seekBin q event fuel prev start m =
      .ok (last, behind.head?.map Prod.fst, { m with followed := followed }) := by
  induction rest generalizing m prev start fuel with
  | nil =>
      obtain ⟨fuel, rfl⟩ := Nat.exists_eq_add_of_lt enough
      rw [show start = none from stacked]
      exact ⟨prev, [], [], m.followed, rfl, rfl⟩
  | cons bin rest ih =>
      obtain ⟨fuel, rfl⟩ := Nat.exists_eq_succ_of_ne_zero (Nat.ne_of_gt (Nat.zero_lt_of_lt enough))
      obtain ⟨link, stack, others⟩ := stacked
      rw [link]
      unfold seekBin
      split
      · obtain ⟨last, front, behind, followed, split, found⟩ :=
          ih (m := (m.follow q bin.1).2) bin.1 others (by simpa using enough)
        exact ⟨last, bin :: front, behind, followed, congrArg (List.cons bin) split, found⟩
      · exact ⟨prev, [], bin :: rest, m.followed, rfl, rfl⟩

theorem seekItem_absent {nextInBin : EventPtr → Option EventPtr} {curr : EventPtr}
    {start : Option EventPtr} {under : List EventPtr} (chain : Chain nextInBin start under none)
    (outside : event ∉ under) (enough : under.length < fuel) :
    seekItem event nextInBin fuel curr start = .error .panic := by
  induction under generalizing curr start fuel with
  | nil =>
      obtain ⟨fuel, rfl⟩ := Nat.exists_eq_add_of_lt enough
      rw [show start = none from chain]
      rfl
  | cons next rest ih =>
      obtain ⟨fuel, rfl⟩ := Nat.exists_eq_succ_of_ne_zero (Nat.ne_of_gt (Nat.zero_lt_of_lt enough))
      obtain ⟨first, others⟩ := chain
      rw [first, seekItem, if_neg (List.ne_of_not_mem_cons outside)]
      exact ih others (List.not_mem_of_not_mem_cons outside) (by simpa using enough)

theorem removeItem_absent {start : Option EventPtr}
    (stacked : Stacked m.lists.nextBin m.lists.nextInBin start (bin :: behind) none)
    (outside : event ∉ bin.nodes) (enough : bin.2.length < fuel) :
    removeItem fuel q event bin.1 m = .error .panic := by
  obtain ⟨_, stack, _⟩ := stacked
  rw [removeItem, if_neg (List.ne_of_not_mem_cons outside),
    seekItem_absent stack (List.not_mem_of_not_mem_cons outside) enough]
  rfl

theorem remove_absent (held : Held m q bins) (outside : event ∉ members bins)
    (owned : m.queue event = some q) (enough : (members bins).length < fuel) :
    remove fuel q event m = .error .panic := by
  have passes : assert (m.queue event = some q) = .ok () := by simp [assert, owned]
  have missing : ∀ bin ∈ bins, event ∉ bin.nodes ∧ bin.2.length < fuel := fun bin member =>
    ⟨fun inside => outside (List.mem_flatMap.mpr ⟨bin, member, inside⟩),
      Nat.lt_trans (length_under_le member) enough⟩
  unfold remove
  rw [held.shaped.1.start_eq]
  cases bins with
  | nil => rfl
  | cons first rest =>
      simp only [List.head?_cons, Option.map_some]
      rw [passes]
      change (if m.eq first.1 event = true then _
        else (seekBin q event fuel first.1 _ (m.follow q first.1).2 >>= _)) = _
      split
      · obtain ⟨notInside, short⟩ := missing first List.mem_cons_self
        rw [removeItem_absent held.shaped.1 notInside short]
        rfl
      · have shorter : rest.length < fuel := by
          have tops := length_le_members (first :: rest)
          rw [List.length_cons] at tops
          omega
        obtain ⟨last, front, behind, followed, split, found⟩ := seekBin_stops (q := q)
          (m := (m.follow q first.1).2) first.1 held.shaped.1.2.2 shorter
        refine bind_eq_of_ok found ?_
        cases behind with
        | nil => rfl
        | cons bin more =>
            obtain ⟨notInside, short⟩ := missing bin (by simp [split])
            obtain ⟨middle, _, stackedBin⟩ := stacked_append_iff.mp (split ▸ held.shaped.1.2.2)
            change (if m.eq bin.1 event = true then (removeItem fuel q event bin.1
              { (m.follow q first.1).2 with followed := followed } >>= _) else _) = _
            split
            · rw [removeItem_absent (by exact stackedBin) notInside short]
              rfl
            · rfl

end Removing

section Frames

variable {m m' : Memory} {q : QueuePtr} {event : EventPtr} {bins : List (Bin EventPtr)}

theorem Shaped.congr {lists lists' : Lists} (shaped : Shaped lists q bins)
    (head : lists'.head q = lists.head q)
    (links : ∀ event ∈ members bins, lists'.nextBin event = lists.nextBin event ∧
      lists'.nextInBin event = lists.nextInBin event) : Shaped lists' q bins := by
  refine ⟨?_, shaped.2⟩
  rw [head]
  exact stacked_congr (fun bin member => (links bin.1 (mem_members_of_top member)).1)
    (fun event member => (links event member).2) shaped.1

/-- What a queue holds depends on its own events only. -/
theorem Held.congr (held : Held m q bins) (head : m'.lists.head q = m.lists.head q)
    (clock : m.clock ≤ m'.clock)
    (same : ∀ event ∈ members bins, m'.lists.nextBin event = m.lists.nextBin event ∧
      m'.lists.nextInBin event = m.lists.nextInBin event ∧ key m' event = key m event ∧
      m'.stamp event = m.stamp event ∧ m'.queue event = m.queue event) : Held m' q bins := by
  refine ⟨held.shaped.congr head (fun event member => ⟨(same event member).1, (same event member).2.1⟩),
    held.ordered.congr (fun event member => (same event member).2.2.1), ?_, ?_, ?_⟩
  · intro bin inBins
    apply (held.latest bin inBins).imp_of_mem
    intro upper lower inUpper inLower less
    have inside : ∀ event ∈ bin.nodes, m'.stamp event = m.stamp event := fun event here =>
      (same event (List.mem_flatMap.mpr ⟨bin, inBins, here⟩)).2.2.2.1
    rw [inside lower inLower, inside upper inUpper]
    exact less
  · intro event member
    rw [(same event member).2.2.2.1]
    exact Nat.lt_of_lt_of_le (held.older event member) clock
  · intro event member
    rw [(same event member).2.2.2.2]
    exact held.owned event member

/-- Work on the links of another queue. -/
theorem Held.relinks {other : QueuePtr} {touched : List EventPtr} (held : Held m q bins)
    (relinks : Relinks m m' other touched) (differs : q ≠ other)
    (apart : ∀ event ∈ members bins, event ∉ touched) : Held m' q bins := by
  refine held.congr (relinks.head q differs) relinks.clock (fun event member => ?_)
  have untouched := apart event member
  exact ⟨relinks.nextBin event untouched, relinks.nextInBin event untouched,
    by rw [key, key, relinks.when_, relinks.priority], relinks.stamp event untouched,
    by rw [relinks.queue]⟩

/-- The time of an event that is not in the queue. -/
theorem Held.setWhen {other : QueuePtr} {when_ : Nat} (held : Held m q bins)
    (outside : event ∉ members bins) : Held (setWhen event when_ other m) q bins := by
  refine held.congr rfl (Nat.le_refl _) (fun inside member => ?_)
  have differs : inside ≠ event := fun same => outside (same ▸ member)
  refine ⟨rfl, rfl, ?_, rfl, ?_⟩
  · simp [key, EventQueue.setWhen, differs]
  · simp [EventQueue.setWhen, differs]

theorem popHead_spec {bin : Bin EventPtr} {behind : List (Bin EventPtr)}
    (held : Held m q (bin :: behind)) :
    ∃ m', popHead q m = .ok (bin.1, m') ∧ Held m' q (pull bin.1 (bin :: behind)) ∧
      Relinks (m.setFlags bin.1 fun f => { f with scheduled := false }) m' q
        (members (bin :: behind)) := by
  have cleared : Held (m.setFlags bin.1 fun f => { f with scheduled := false }) q (bin :: behind) :=
    held.congr rfl (Nat.le_refl _) (fun _ _ => ⟨rfl, rfl, rfl, rfl, rfl⟩)
  obtain ⟨top, m', removed, held', relinks⟩ :=
    remove_first cleared List.mem_cons_self (Nat.lt_succ_self bin.2.length)
  refine ⟨m'.setHead q top, ?_, held', relinks⟩
  unfold removeItem at removed
  rw [if_pos rfl] at removed
  unfold popHead
  rw [show m.lists.head q = some bin.1 from held.shaped.1.1]
  cases next : m.lists.nextInBin bin.1 with
  | none =>
      rw [show (m.setFlags bin.1 fun f => { f with scheduled := false }).lists.nextInBin bin.1 = none
        from next] at removed
      cases removed
      simp only [next]
      rfl
  | some under =>
      rw [show (m.setFlags bin.1 fun f => { f with scheduled := false }).lists.nextInBin bin.1 =
        some under from next] at removed
      cases removed
      simp only [next]
      rfl

end Frames

end GemFi.EventBins
