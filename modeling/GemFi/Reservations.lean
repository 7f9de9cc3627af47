import GemFi.ByteRanges
import GemFi.LoadLocks
import GemFi.Survivors
import GemFi.Transitions

/-!
What the load locks of a block promise. A context holds a reservation from its load-locked until
an invalidation, or a write that is performed in the range. A store-conditional that fails clears
locks all the same, so the promise is kept exactly as long as none fails in a range that is held.
-/

namespace GemFi.Reservations

open ByteRanges Survivors Transitions LoadLocks

def Formed (req : Request) : Prop := 0 < req.size ∧ Fits req.paddr req.size

instance (req : Request) : Decidable (Formed req) := inferInstanceAs (Decidable (_ ∧ _))

def Contains (ll req : Request) : Prop :=
  ∀ a, Within req.paddr req.size a → Within ll.paddr ll.size a

def Breaks (ll : Request) : Event → Prop
  | .performed req => Overlap req.paddr req.size ll.paddr ll.size
  | .invalidated => True
  | _ => False

def Reserved (events : List Event) (req : Request) : Prop :=
  ∃ before ll later, events = before ++ .loadLocked ll :: later ∧
    ll.contextId = req.contextId ∧ Contains ll req ∧ ∀ event ∈ later, ¬ Breaks ll event

/-- A store-conditional would succeed exactly where the history has reserved its range. -/
def KeepsPromise (m : Machine) : Prop :=
  ∀ req, Formed req → ((m.blk.checkWrite ⟨true, req⟩).1 = true ↔ Reserved m.events req)

def FormedAction : Action → Prop
  | .loadLocked pkt => pkt.isLLSC = true ∧ Formed pkt.req
  | .write pkt => Formed pkt.req
  | .invalidate => True

def FailsApart (m : Machine) : Action → Prop
  -- a store-conditional without a lock of its own stays clear of all locks
  | .write pkt => pkt.isLLSC = true →
      (∀ lock ∈ m.blk.lockList, lock.matchesContext pkt.req = false) →
      ∀ lock ∈ m.blk.lockList, lock.overlapping pkt.req = false
  | _ => True

/-! The locks that a history leaves. -/

def adds : Event → Option Lock
  | .loadLocked req => some (Lock.ofRequest req)
  | _ => none

def ends : Event → Lock → Bool
  | .performed req, lock => lock.overlapping req
  | .invalidated, _ => true
  | _, _ => false

def FormedEvent : Event → Prop
  | .loadLocked req => Formed req
  | .performed req => Formed req
  | _ => True

section History

variable {events : List Event} {event : Event} {req ll : Request}

theorem matchesContext_iff (formed : Formed ll) (formed' : Formed req) :
    (Lock.ofRequest ll).matchesContext req = true ↔
      ll.contextId = req.contextId ∧ Contains ll req := by
  rw [Lock.matchesContext, decide_eq_true_eq, Contains,
    within_subset_iff formed'.2 formed.2 formed'.1 formed.1]
  rfl

theorem ends_iff (formed : Formed ll) (formed' : FormedEvent event) :
    ends event (Lock.ofRequest ll) = true ↔ Breaks ll event := by
  cases event with
  | performed req =>
      rw [ends, Lock.overlapping, decide_eq_true_eq, Breaks,
        overlap_iff_last formed'.2 formed.2 formed'.1 formed.1]
      rfl
  | loadLocked req => simp [ends, Breaks]
  | failed req => simp [ends, Breaks]
  | invalidated => simp [ends, Breaks]

theorem reserved_iff_held (formedEvents : ∀ event ∈ events, FormedEvent event) (formed : Formed req) :
    Reserved events req ↔ ∃ lock ∈ held adds ends events, lock.matchesContext req = true := by
  constructor
  · rintro ⟨before, ll, later, rfl, same, contains, unbroken⟩
    have formedLl : Formed ll := formedEvents (.loadLocked ll) (by simp)
    refine ⟨Lock.ofRequest ll, mem_held_iff.mpr ⟨before, .loadLocked ll, later, rfl, rfl, ?_⟩, ?_⟩
    · intro event member
      have formedEvent := formedEvents event (by simp [member])
      exact Bool.eq_false_iff.mpr ((ends_iff formedLl formedEvent).not.mpr (unbroken event member))
    · exact (matchesContext_iff formedLl formed).mpr ⟨same, contains⟩
  · rintro ⟨lock, isHeld, hit⟩
    obtain ⟨before, event, later, rfl, added, survives⟩ := mem_held_iff.mp isHeld
    cases event with
    | loadLocked ll =>
        cases added
        have formedLl : Formed ll := formedEvents (.loadLocked ll) (by simp)
        obtain ⟨same, contains⟩ := (matchesContext_iff formedLl formed).mp hit
        refine ⟨before, ll, later, rfl, same, contains, ?_⟩
        intro event member
        have formedEvent := formedEvents event (by simp [member])
        exact (ends_iff formedLl formedEvent).not.mp (Bool.eq_false_iff.mp (survives event member))
    | performed req => cases added
    | failed req => cases added
    | invalidated => cases added

end History

def FormedHistory (m : Machine) : Prop := ∀ event ∈ m.events, FormedEvent event

def HoldsLocks (m : Machine) : Prop := m.blk.lockList = held adds ends m.events

section Steps

variable {m next : Machine} {action : Action}

theorem step_formed (m : Machine) (action : Action) (next : Machine) (history : FormedHistory m)
    (formed : FormedAction action) (stepped : step m action = some next) : FormedHistory next := by
  have appended : ∃ event, next.events = m.events ++ [event] ∧ FormedEvent event := by
    cases action with
    | loadLocked pkt =>
        rw [step, CacheBlk.trackLoadLocked, if_pos formed.1] at stepped
        cases stepped
        exact ⟨_, rfl, formed.2⟩
    | write pkt =>
        cases stepped
        refine ⟨_, rfl, ?_⟩
        split
        · exact formed
        · exact True.intro
    | invalidate =>
        cases stepped
        exact ⟨_, rfl, True.intro⟩
  obtain ⟨event, isNext, formedEvent⟩ := appended
  intro other member
  rw [isNext] at member
  rcases List.mem_append.mp member with earlier | isLast
  · exact history other earlier
  · rw [List.mem_singleton.mp isLast]
    exact formedEvent

/-- A step keeps the block and its history together, unless a store-conditional fails in a range
that is locked. -/
theorem holdsLocks_iff (holds : HoldsLocks m) (formed : FormedAction action)
    (stepped : step m action = some next) : HoldsLocks next ↔ FailsApart m action := by
  unfold HoldsLocks at holds
  cases action with
  | loadLocked pkt =>
      rw [step, CacheBlk.trackLoadLocked, if_pos formed.1] at stepped
      cases stepped
      refine iff_of_true ?_ True.intro
      rw [HoldsLocks, held_append, ← holds]
      simp [after, adds, ends]
  | write pkt =>
      rw [step, CacheBlk.checkWrite_eq] at stepped
      cases stepped
      rw [HoldsLocks, held_append, ← holds, FailsApart]
      cases success : !pkt.isLLSC || m.blk.lockList.any fun lock => lock.matchesContext pkt.req with
      | true =>
          refine iff_of_true rfl ?_
          intro isLLSC none'
          rw [isLLSC, Bool.not_true, Bool.false_or, List.any_eq_true] at success
          obtain ⟨lock, member, hit⟩ := success
          rw [none' lock member] at hit
          cases hit
      | false =>
          rw [Bool.or_eq_false_iff, Bool.not_eq_false', List.any_eq_false] at success
          have none' : ∀ lock ∈ m.blk.lockList, lock.matchesContext pkt.req = false :=
            fun lock member => Bool.eq_false_iff.mpr (success.2 lock member)
          have same : after adds ends m.blk.lockList (.failed pkt.req) = m.blk.lockList := by
            simp [after, adds, ends]
          have unchanged_iff : (m.blk.clearLoadLocks (some pkt.req)).lockList = m.blk.lockList ↔
              ∀ lock ∈ m.blk.lockList, lock.overlapping pkt.req = false := by
            simp [CacheBlk.clearLoadLocks]
          rw [if_neg Bool.false_ne_true, same, unchanged_iff]
          exact ⟨fun apart _ _ => apart, fun apart => apart success.1 none'⟩
  | invalidate =>
      cases stepped
      refine iff_of_true ?_ True.intro
      rw [HoldsLocks, held_append, after]
      simp [adds, ends, CacheBlk.invalidate, CacheBlk.clearLoadLocks]

theorem keepsPromise_of_holdsLocks (history : FormedHistory m) (holds : HoldsLocks m) :
    KeepsPromise m := by
  intro req formed
  rw [reserved_iff_held history formed, ← holds, CacheBlk.checkWrite_eq]
  simp

/-- Where a store-conditional fails in a range that is locked, the promise is broken for the
range of that lock. -/
theorem failsApart_of_keepsPromise (history : FormedHistory m) (holds : HoldsLocks m)
    (formed : FormedAction action) (stepped : step m action = some next)
    (kept : KeepsPromise next) : FailsApart m action := by
  have history' := step_formed m action next history formed stepped
  cases action with
  | loadLocked pkt => exact True.intro
  | invalidate => exact True.intro
  | write pkt =>
      intro isLLSC none' lock member
      by_contra overlaps
      rw [Bool.not_eq_false] at overlaps
      have fails : (!pkt.isLLSC || m.blk.lockList.any fun lock => lock.matchesContext pkt.req) = false := by
        rw [isLLSC, Bool.not_true, Bool.false_or, List.any_eq_false]
        exact fun lock member => Bool.eq_false_iff.mp (none' lock member)
      rw [step, CacheBlk.checkWrite_eq, fails] at stepped
      cases stepped
      -- the lock is of a load-locked, which the failure does not end
      have locked : lock ∈ held adds ends m.events := holds ▸ member
      obtain ⟨before, event, later, split, added, survives⟩ := mem_held_iff.mp locked
      cases event with
      | performed req => cases added
      | failed req => cases added
      | invalidated => cases added
      | loadLocked ll =>
          cases added
          have formedLl : Formed ll := history (.loadLocked ll) (by rw [split]; simp)
          have reserved := (reserved_iff_held history' formedLl).mpr
            ⟨Lock.ofRequest ll, by simpa [after, adds, ends] using locked,
              (matchesContext_iff formedLl formedLl).mpr ⟨rfl, fun _ within => within⟩⟩
          have succeeds := (kept ll formedLl).mpr reserved
          rw [CacheBlk.checkWrite_eq] at succeeds
          simp only [Bool.not_true, Bool.false_or, List.any_eq_true] at succeeds
          obtain ⟨other, stays, hit⟩ := succeeds
          -- a lock on all of that range overlaps the failed request as well
          have apart := (List.mem_filter.mp stays).2
          rw [Lock.overlapping, decide_eq_true_eq] at overlaps
          rw [Lock.matchesContext, decide_eq_true_eq] at hit
          rw [Lock.overlapping, Bool.not_eq_true', decide_eq_false_iff_not] at apart
          exact apart ⟨BitVec.le_trans overlaps.1 hit.2.2, BitVec.le_trans hit.2.1 overlaps.2⟩

end Steps

theorem step_of_apart (m : Machine) (action : Action) (next : Machine)
    (sound : FormedHistory m ∧ HoldsLocks m) (allowed : FormedAction action ∧ FailsApart m action)
    (stepped : step m action = some next) : FormedHistory next ∧ HoldsLocks next :=
  ⟨step_formed m action next sound.1 allowed.1 stepped,
    (holdsLocks_iff sound.2 allowed.1 stepped).mpr allowed.2⟩

theorem step_of_kept (m : Machine) (action : Action) (next : Machine)
    (sound : FormedHistory m ∧ HoldsLocks m)
    (allowed : FormedAction action ∧ ∀ next, step m action = some next → KeepsPromise next)
    (stepped : step m action = some next) : FormedHistory next ∧ HoldsLocks next :=
  step_of_apart m action next sound ⟨allowed.1,
    failsApart_of_keepsPromise sound.1 sound.2 allowed.1 stepped (allowed.2 next stepped)⟩ stepped

theorem start_holds : FormedHistory Machine.start ∧ HoldsLocks Machine.start :=
  ⟨fun _ member => absurd member List.not_mem_nil, rfl⟩

/-- Over every run the promise is kept in each state if and only if no store-conditional fails in
a range that is locked. -/
theorem reservations_kept_iff (actions : List Action)
    (formed : ∀ action ∈ actions, FormedAction action) :
    Always step KeepsPromise actions Machine.start ↔ EachStep step FailsApart actions Machine.start := by
  obtain ⟨history, holds⟩ := start_holds
  have formedAt : ∀ before action after, actions = before ++ action :: after → FormedAction action := by
    intro before action after split
    exact formed action (by rw [split]; simp)
  constructor
  · intro kept
    have each : EachStep step (fun m action => FormedAction action ∧
        ∀ next, step m action = some next → KeepsPromise next) actions Machine.start :=
      fun before action after reached next split ran stepped =>
        ⟨formedAt before action after split, kept.eachStep before action after reached next split ran stepped⟩
    have always := always_of_preserved step_of_kept actions _ ⟨history, holds⟩ each
    intro before action after reached next split ran stepped
    obtain ⟨history, holds⟩ := always before (action :: after) reached split ran
    obtain ⟨formed, kept⟩ := each before action after reached next split ran stepped
    exact failsApart_of_keepsPromise history holds formed stepped (kept next stepped)
  · intro apart
    have each : EachStep step (fun m action => FormedAction action ∧ FailsApart m action) actions
        Machine.start := fun before action after reached next split ran stepped =>
      ⟨formedAt before action after split, apart before action after reached next split ran stepped⟩
    have always := always_of_preserved step_of_apart actions _ ⟨history, holds⟩ each
    intro before after reached split ran
    obtain ⟨history, holds⟩ := always before after reached split ran
    exact keepsPromise_of_holdsLocks history holds

def failure (paddr : Addr) : List Action :=
  [.loadLocked ⟨true, ⟨1, 64, 8⟩⟩, .write ⟨true, ⟨2, paddr, 8⟩⟩]

theorem reservations_kept_iff_elsewhere :
    Always step KeepsPromise (failure 72) Machine.start ↔
      EachStep step FailsApart (failure 72) Machine.start :=
  reservations_kept_iff (failure 72) (by simp [failure, FormedAction, Formed]; decide)

/-- The failure clears the lock, so the store-conditional of context 1 would fail as well. -/
theorem failure_clears_lock :
    (∀ action ∈ failure 64, FormedAction action) ∧ ¬ Always step KeepsPromise (failure 64) Machine.start := by
  refine ⟨by simp [failure, FormedAction, Formed]; decide, ?_⟩
  intro kept
  have promise := kept (failure 64) [] _ (List.append_nil _).symm rfl ⟨1, 64, 8⟩ (by decide)
  have reserved := promise.mpr ⟨[], ⟨1, 64, 8⟩, [.failed ⟨2, 64, 8⟩], rfl, rfl, fun _ within => within,
    by simp [Breaks]⟩
  revert reserved
  decide

end GemFi.Reservations
