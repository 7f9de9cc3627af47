import GemFi.FaultSpecs
import GemFi.Hooks
import GemFi.Rescheduling

/-!
One round of the loop of a hook: the scan finds the first fault of the list that it does not
pass, and firing this fault leaves all others as they were. The fault itself is gone, or due
later, or due again at once.
-/

namespace GemFi.FiringRounds

open LinkedLists ThreadInfo FaultQueue QueueRepresentation QueueHistory Corruption
open FaultScan FaultRuns FaultSpecs Rescheduling

/-- A fault that keeps its trigger when it is rescheduled: addresses never move, and a time does
not if the next clock edge is at zero. -/
def Repeats (clockEdge : Word) (p : InjectedFault) : Prop :=
  p.occurrence ≠ 1 ∧ (p.timingType = .virtualAddr ∨ p.timingType = .tick ∧ clockEdge = 0)

section Verdicts

variable {q : StageQueue} {c : ScanContext} {p : InjectedFault} {clockEdge : Word}

theorem verdict_data (q : StageQueue) (c : ScanContext) (s : FaultStore) (f : FaultPtr) :
    verdict q c (s.data f) = verdict q c (s.mem f) := by
  cases q <;> rfl

theorem verdict_congr {s s' : FaultStore} {f : FaultPtr} (same : s'.data f = s.data f) :
    verdict q c (s'.mem f) = verdict q c (s.mem f) := by
  rw [← verdict_data, same, verdict_data]

theorem verdict_eq_of_trigger {p' : InjectedFault} (manifested : p'.manifested = p.manifested)
    (where_ : p'.where_ = p.where_) (thread : p'.thread = p.thread)
    (faultType : p'.faultType = p.faultType) (timingType : p'.timingType = p.timingType)
    (timing : p'.timing = p.timing) : verdict q c p' = verdict q c p := by
  have sameCounters : countersFor q c p' = countersFor q c p := by
    have common : ∀ calculate known, getFiCounters calculate known c p' =
        getFiCounters calculate known c p := by
      intro calculate known
      unfold getFiCounters scopeCounters
      rw [where_, thread, faultType]
    have fetch : getFiFetchCounters c p' = getFiFetchCounters c p := common _ _
    have exec : getFiExecCounters c p' = getFiExecCounters c p := common _ _
    have loadStore : getFiLoadstoreCounters c p' = getFiLoadstoreCounters c p := common _ _
    cases q with
    | iewStage => exact exec
    | loadStore => exact loadStore
    | main | fetchStage | decodeStage => exact fetch
  unfold verdict
  rw [sameCounters, manifested, timingType, timing]

theorem countersFor_rescheduled :
    countersFor q c (rescheduled clockEdge p) = countersFor q c p := by
  cases q <;> rfl

theorem nextCount_ne (t : Word) : ((t + 1).setWidth 32).signExtend 64 ≠ t := by
  intro same
  have value := toNat_nextCount t
  have small := t.isLt
  have one : (1 : Word).toNat = 1 := rfl
  rw [same, BitVec.toNat_add, one] at value
  split at value
  · omega
  · omega

theorem nextTiming_eq_iff :
    nextTiming clockEdge p = p.timing ↔
      p.timingType = .virtualAddr ∨ p.timingType = .tick ∧ clockEdge = 0 := by
  unfold nextTiming
  cases timing : p.timingType with
  | tick => simp
  | instruction => exact iff_of_false (nextCount_ne p.timing) (by simp)
  | virtualAddr => simp

theorem verdict_rescheduled_due_iff {servicedAt : Word} (due : verdict q c p = .due servicedAt) :
    (∃ again, verdict q c (rescheduled clockEdge p) = .due again) ↔
      nextTiming clockEdge p = p.timing := by
  cases manifested : p.manifested with
  | true => simp [verdict, manifested] at due
  | false =>
      cases counted : countersFor q c p with
      | none => simp [verdict, manifested, counted] at due
      | some counters =>
          obtain ⟨instr, time⟩ := counters
          have fresh : (rescheduled clockEdge p).manifested = false := rfl
          have sameType : (rescheduled clockEdge p).timingType = p.timingType := rfl
          have moved : (rescheduled clockEdge p).timing = nextTiming clockEdge p := rfl
          unfold verdict at due ⊢
          rw [countersFor_rescheduled, counted, fresh, sameType, moved]
          simp only [manifested, counted, Bool.false_eq_true, if_false] at due ⊢
          cases timing : p.timingType with
          | tick =>
              rw [timing] at due
              have reached := (compareCounter_due_iff time p.timing).mp ⟨_, due⟩
              rw [← reached]
              exact (compareCounter_due_iff _ _).trans eq_comm
          | instruction =>
              rw [timing] at due
              have reached := (compareCounter_due_iff instr p.timing).mp ⟨_, due⟩
              rw [← reached]
              exact (compareCounter_due_iff _ _).trans eq_comm
          | virtualAddr =>
              rw [timing] at due
              have stays : nextTiming clockEdge p = p.timing := by
                rw [nextTiming, timing]
              rw [stays]
              exact iff_of_true ⟨_, due⟩ rfl

end Verdicts

section Round

variable {fuel : Nat} {q : StageQueue} {c : ScanContext} {clockEdge : Word} {s s' : FaultStore}
  {f x : FaultPtr} {value value' : StageValue q}

theorem fire_data_elsewhere (other : x ≠ f)
    (fired : fire fuel q clockEdge f value s = some (s', value')) : s'.data x = s.data x := by
  obtain ⟨⟨p, _⟩, _, rest⟩ := Option.bind_eq_some_iff.mp fired
  obtain ⟨store, checked, result⟩ := Option.bind_eq_some_iff.mp rest
  cases result
  have written : (s.write f fun _ => p).data x = s.data x := by
    simp [FaultStore.data, FaultStore.write, other]
  unfold check4reschedule at checked
  split at checked
  · obtain ⟨owner, _, removed⟩ := Option.bind_eq_some_iff.mp checked
    rw [(FaultStore.remove_frame removed).1]
    exact written
  · cases checked
    rw [← written]
    simp [FaultStore.data, FaultStore.write, other]

theorem fire_verdict (again : (s.mem f).occurrence ≠ 1)
    (fired : fire fuel q clockEdge f value s = some (s', value')) :
    verdict q c (s'.mem f) = verdict q c (rescheduled clockEdge (s.mem f)) := by
  obtain ⟨⟨p, _⟩, processed, rest⟩ := Option.bind_eq_some_iff.mp fired
  obtain ⟨store, checked, result⟩ := Option.bind_eq_some_iff.mp rest
  cases result
  have kept := process_schedule processed
  have written : (s.write f fun _ => p).mem f = p := by simp [FaultStore.write]
  unfold check4reschedule at checked
  rw [written, kept.occurrence, if_neg again] at checked
  cases checked
  have left : ((s.write f fun _ => p).write f (rescheduled clockEdge)).mem f = rescheduled clockEdge p := by
    simp [FaultStore.write]
  have sameTiming : nextTiming clockEdge p = nextTiming clockEdge (s.mem f) := by
    unfold nextTiming
    rw [kept.timing, kept.timingType]
  rw [left]
  exact verdict_eq_of_trigger rfl kept.where_ kept.thread kept.faultType kept.timingType sameTiming

theorem fire_returns {inside lists : StageQueue → List FaultPtr} {p : InjectedFault}
    (clockEdge : Word) (holds : Holds ⟨s, inside⟩ lists) (member : f ∈ lists q)
    (enough : (lists q).length < fuel) (processed : process q (s.mem f) value = some (p, value')) :
    ∃ s', fire fuel q clockEdge f value s = some (s', value') := by
  have kept := process_schedule processed
  have held : Holds ⟨s.write f fun _ => p, inside⟩ lists :=
    holds.write kept.nxt kept.prv kept.queue kept.faultType
  have checked : ∃ s', check4reschedule fuel clockEdge f (s.write f fun _ => p) = some s' := by
    unfold check4reschedule
    split
    · rw [held.held.owned q f member]
      exact remove_returns (held.held.linked q) member enough
    · exact ⟨_, rfl⟩
  obtain ⟨s', checked⟩ := checked
  refine ⟨s', ?_⟩
  unfold fire
  rw [processed]
  simp [checked]

theorem process_value_congr {p p' : InjectedFault} (same : SameSpec p p') (value : StageValue q) :
    (process q p' value).map Prod.snd = (process q p value).map Prod.snd := by
  cases q with
  | main => rfl
  | fetchStage => exact corrupt_congr (q := .fetchStage) same value
  | decodeStage => exact corrupt_congr (q := .decodeStage) same value
  | iewStage => exact corrupt_congr (q := .iewStage) same value
  | loadStore => exact corrupt_congr (q := .loadStore) same value

end Round

/-- The loop has come to a fault, or between two: it passes those that are done, and those that
are left are as they were in the memory `s₀` when the event began. -/
structure Standing (fuel : Nat) (q : StageQueue) (c : ScanContext) (s₀ s : FaultStore)
    (done here rest : List FaultPtr) : Prop where
  wellFormed : ∃ inside lists, Holds ⟨s, inside⟩ lists ∧ lists q = done ++ (here ++ rest)
  passed : ∀ x ∈ done, verdict q c (s.mem x) = .pass
  same : ∀ x ∈ rest, s.data x = s₀.data x
  enough : (done ++ (here ++ rest)).length < fuel

namespace Standing

variable {fuel : Nat} {q : StageQueue} {c : ScanContext} {clockEdge : Word} {s₀ s : FaultStore}
  {x : FaultPtr} {done rest : List FaultPtr} {value : StageValue q}

theorem next (standing : Standing fuel q c s₀ s done [] (x :: rest)) :
    Standing fuel q c s₀ s done [x] rest where
  wellFormed := standing.wellFormed
  passed := standing.passed
  same := fun y member => standing.same y (List.mem_cons_of_mem x member)
  enough := standing.enough

theorem pass (standing : Standing fuel q c s₀ s done [x] rest)
    (isPassed : verdict q c (s.mem x) = .pass) : Standing fuel q c s₀ s (done ++ [x]) [] rest where
  wellFormed := by
    rw [List.nil_append, List.append_assoc]
    exact standing.wellFormed
  passed := fun y member => by
    rcases List.mem_append.mp member with earlier | isHere
    · exact standing.passed y earlier
    · rw [List.mem_singleton.mp isHere]
      exact isPassed
  same := standing.same
  enough := by
    rw [List.nil_append, List.append_assoc]
    exact standing.enough

theorem scan_end (standing : Standing fuel q c s₀ s done [] []) : scan fuel q c s = some (s, none) := by
  obtain ⟨_, lists, holds, isList⟩ := standing.wellFormed
  have chain := (holds.held.linked q).forward
  rw [isList, List.nil_append, List.append_nil] at chain
  have enough := standing.enough
  rw [List.nil_append, List.append_nil] at enough
  have allPassed : firstNotPassed q c s done = none := by
    apply List.find?_eq_none.mpr
    intro y member
    simp [standing.passed y member]
  rw [scan_eq chain enough, allPassed]

theorem scan_here (standing : Standing fuel q c s₀ s done [x] rest)
    (notPassed : verdict q c (s.mem x) ≠ .pass) :
    scan fuel q c s =
      match verdict q c (s.mem x) with
      | .due servicedAt => some (serviced s x servicedAt, some x)
      | _ => some (s, none) := by
  obtain ⟨_, lists, holds, isList⟩ := standing.wellFormed
  have chain := (holds.held.linked q).forward
  rw [isList] at chain
  have first : firstNotPassed q c s (done ++ ([x] ++ rest)) = some x := by
    apply List.find?_eq_some_iff_append.mpr
    refine ⟨by simpa using notPassed, done, rest, rfl, fun y member => ?_⟩
    simp [standing.passed y member]
  have decided := scan_eq (c := c) chain standing.enough
  rw [first] at decided
  exact decided

theorem apart (standing : Standing fuel q c s₀ s done [] (x :: rest)) : x ∉ done ∧ x ∉ rest := by
  obtain ⟨_, lists, holds, isList⟩ := standing.wellFormed
  have distinct := (holds.held.linked q).nodup
  rw [isList, List.nil_append, List.nodup_middle, List.nodup_cons, List.mem_append, not_or] at distinct
  exact distinct.1

theorem spec (standing : Standing fuel q c s₀ s done [] (x :: rest)) (servicedAt : Word) :
    SameSpec (s₀.mem x) ((serviced s x servicedAt).mem x) := by
  have noted : SameSpec (s.mem x) ((serviced s x servicedAt).mem x) := by
    constructor <;> simp [serviced, FaultStore.write]
  exact (sameSpec_of_data (standing.same x List.mem_cons_self)).trans noted

theorem trigger (standing : Standing fuel q c s₀ s done [] (x :: rest)) (servicedAt clockEdge : Word) :
    ((serviced s x servicedAt).mem x).occurrence = (s₀.mem x).occurrence ∧
      verdict q c (rescheduled clockEdge ((serviced s x servicedAt).mem x)) =
        verdict q c (rescheduled clockEdge (s₀.mem x)) := by
  have noted : (serviced s x servicedAt).mem x = { s.mem x with servicedAt := servicedAt } := by
    simp [serviced, FaultStore.write]
  have field : ∀ {α : Type} (g : InjectedFault → α), g (s.data x) = g (s₀.data x) :=
    fun g => congrArg g (standing.same x List.mem_cons_self)
  rw [noted]
  refine ⟨field InjectedFault.occurrence, ?_⟩
  exact verdict_eq_of_trigger rfl (field InjectedFault.where_) (field InjectedFault.thread)
    (field InjectedFault.faultType) (field InjectedFault.timingType) (field (nextTiming clockEdge))

theorem fire_none (standing : Standing fuel q c s₀ s done [] (x :: rest)) (servicedAt : Word)
    (clockEdge : Word) (stops : (process q (s₀.mem x) value).map Prod.snd = none) :
    fire fuel q clockEdge x value (serviced s x servicedAt) = none := by
  rw [← process_value_congr (standing.spec servicedAt), Option.map_eq_none_iff] at stops
  unfold fire
  rw [stops]
  rfl

theorem fire_some (standing : Standing fuel q c s₀ s done [] (x :: rest)) (servicedAt : Word)
    (clockEdge : Word) {value' : StageValue q}
    (gives : (process q (s₀.mem x) value).map Prod.snd = some value') :
    ∃ s', fire fuel q clockEdge x value (serviced s x servicedAt) = some (s', value') ∧
      ((s₀.mem x).occurrence = 1 → Standing fuel q c s₀ s' done [] rest) ∧
      ((s₀.mem x).occurrence ≠ 1 → Standing fuel q c s₀ s' done [x] rest ∧
        verdict q c (s'.mem x) = verdict q c (rescheduled clockEdge (s₀.mem x))) := by
  obtain ⟨notDone, notLeft⟩ := standing.apart
  obtain ⟨inside, lists, holds, isList⟩ := standing.wellFormed
  have noted : Holds ⟨serviced s x servicedAt, inside⟩ lists := holds.write rfl rfl rfl rfl
  have member : x ∈ lists q := by simp [isList]
  have enough : (lists q).length < fuel := isList ▸ standing.enough
  rw [← process_value_congr (standing.spec servicedAt)] at gives
  obtain ⟨⟨p, _⟩, processed, rfl⟩ := Option.map_eq_some_iff.mp gives
  obtain ⟨s', fired⟩ := fire_returns clockEdge noted member enough processed
  have elsewhere : ∀ y, y ≠ x → s'.data y = s.data y := by
    intro y other
    rw [fire_data_elsewhere other fired]
    simp [FaultStore.data, serviced, FaultStore.write, other]
  have passed : ∀ y ∈ done, verdict q c (s'.mem y) = .pass := by
    intro y isDone
    have other : y ≠ x := fun same => notDone (same ▸ isDone)
    rw [verdict_congr (elsewhere y other)]
    exact standing.passed y isDone
  have same : ∀ y ∈ rest, s'.data y = s₀.data y := by
    intro y isLeft
    have other : y ≠ x := fun same => notLeft (same ▸ isLeft)
    rw [elsewhere y other]
    exact standing.same y (List.mem_cons_of_mem x isLeft)
  obtain ⟨sameCount, sameNext⟩ := standing.trigger servicedAt clockEdge
  refine ⟨s', fired, ?_⟩
  rcases fire_holds noted member fired with ⟨last, kept, _⟩ | ⟨again, kept, _⟩
  · refine ⟨fun _ => ⟨⟨_, _, kept, ?_⟩, passed, same, ?_⟩, fun isNot => absurd (sameCount ▸ last) isNot⟩
    · rw [Function.update_self, isList, List.nil_append, List.nil_append,
        List.erase_append_right _ notDone, List.erase_cons_head]
    · have shorter := standing.enough
      simp only [List.nil_append, List.length_append, List.length_cons] at shorter ⊢
      omega
  · refine ⟨fun isLast => absurd (sameCount.trans isLast) again, fun _ => ⟨⟨?_, passed, same, ?_⟩, ?_⟩⟩
    · exact ⟨_, lists, kept, isList⟩
    · exact standing.enough
    · rw [fire_verdict again fired, sameNext]

end Standing

end GemFi.FiringRounds
