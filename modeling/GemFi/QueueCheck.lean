import GemFi.EventOrder

/-!
`EventQueue::debugVerify` of sim/eventq.cc: the self-check that walks a queue bin by bin
and compares each event with the one before it. Before the first event it compares with
tick 0 and priority 0.
-/

namespace GemFi.QueueCheck

open LinkedLists BinnedStacks EventQueue EventQueue.Memory EventBins EventOrder Transitions Outcomes

inductive Complaint where
  -- what debugVerify complains of, with the event it dumps, or a loop that has not come back
  | timeGoesBackwards (event : EventPtr)
  | priorityInverted (event : EventPtr)
  | nodeAlreadySeen (event : EventPtr)
  | endless
  deriving DecidableEq, Repr

structure Verifier where
  map : EventPtr → Bool
  time : Nat
  priority : Int

section Verifying

variable (m : Memory)

/-- `map[nextInBin] = true`, and the time and priority that the next event has to reach. -/
def Verifier.passed (v : Verifier) (event : EventPtr) : Verifier :=
  ⟨Function.update v.map event true, m.when_ event, m.priority event⟩

def checkEvent (v : Verifier) (event : EventPtr) : Except Complaint Verifier :=
  if m.when_ event < v.time then .error (.timeGoesBackwards event)
  else if m.when_ event = v.time ∧ m.priority event < v.priority then
    .error (.priorityInverted event)
  else if v.map event then .error (.nodeAlreadySeen event)
  else .ok (v.passed m event)

/-- The inner loop, over `nextInBin`. -/
def checkInBin : Nat → Option EventPtr → Verifier → Except Complaint Verifier
  | 0, _, _ => .error .endless
  | _ + 1, none, v => .ok v
  | fuel + 1, some nextInBin, v => do
      let v ← checkEvent m v nextInBin
      checkInBin fuel (m.lists.nextInBin nextInBin) v

/-- The outer loop, over `nextBin`. -/
def checkBins (fuel : Nat) : Nat → Option EventPtr → Verifier → Except Complaint Verifier
  | 0, _, _ => .error .endless
  | _ + 1, none, v => .ok v
  | rounds + 1, some nextBin, v => do
      let v ← checkInBin m fuel (some nextBin) v
      checkBins fuel rounds (m.lists.nextBin nextBin) v

def debugVerify (fuel : Nat) (q : QueuePtr) (m : Memory) : Except Stop Bool :=
  match checkBins m fuel fuel (m.lists.head q) ⟨fun _ => false, 0, 0⟩ with
  | .ok _ => .ok true
  | .error .endless => .error .endless
  | .error _ => .ok false

end Verifying

section Walking

variable {m : Memory} {fuel rounds : Nat} {start : Option EventPtr} {v : Verifier}

theorem checkInBin_chain (nodes : List EventPtr) (chain : Chain m.lists.nextInBin start nodes none)
    (enough : nodes.length < fuel) : checkInBin m fuel start v = nodes.foldlM (checkEvent m) v := by
  induction nodes generalizing start v fuel with
  | nil =>
      obtain ⟨fuel, rfl⟩ := Nat.exists_eq_succ_of_ne_zero (Nat.ne_of_gt enough)
      obtain rfl : start = none := chain
      rfl
  | cons event rest ih =>
      obtain ⟨fuel, rfl⟩ := Nat.exists_eq_succ_of_ne_zero (Nat.ne_of_gt (Nat.zero_lt_of_lt enough))
      obtain ⟨rfl, others⟩ := chain
      rw [checkInBin, List.foldlM_cons]
      exact bind_congr fun v => ih others (Nat.lt_of_succ_lt_succ enough)

theorem checkBins_stacked (bins : List (Bin EventPtr))
    (stacked : Stacked m.lists.nextBin m.lists.nextInBin start bins none)
    (short : ∀ bin ∈ bins, bin.nodes.length < fuel) (enough : bins.length < rounds) :
    checkBins m fuel rounds start v = (members bins).foldlM (checkEvent m) v := by
  induction bins generalizing start v rounds with
  | nil =>
      obtain ⟨rounds, rfl⟩ := Nat.exists_eq_succ_of_ne_zero (Nat.ne_of_gt enough)
      obtain rfl : start = none := stacked
      rfl
  | cons bin bins ih =>
      obtain ⟨rounds, rfl⟩ := Nat.exists_eq_succ_of_ne_zero (Nat.ne_of_gt (Nat.zero_lt_of_lt enough))
      obtain ⟨rfl, stack, others⟩ := stacked
      obtain ⟨room, rooms⟩ := List.forall_mem_cons.mp short
      show _ = (bin.nodes ++ members bins).foldlM (checkEvent m) v
      rw [checkBins, List.foldlM_append, checkInBin_chain bin.nodes ⟨rfl, stack⟩ room]
      exact bind_congr fun v => ih others rooms (Nat.lt_of_succ_lt_succ enough)

end Walking

section Accepting

variable {m : Memory} {v v' : Verifier}

def Verifier.last (v : Verifier) : Nat ×ₗ Int := toLex (v.time, v.priority)

theorem passed_map {event other : EventPtr} :
    (v.passed m event).map other = false ↔ other ≠ event ∧ v.map other = false := by
  by_cases same : other = event
  · simp [Verifier.passed, same]
  · simp [Verifier.passed, same]

theorem checkEvent_ok_iff (event : EventPtr) :
    checkEvent m v event = .ok v' ↔
      v.last ≤ key m event ∧ v.map event = false ∧ v' = v.passed m event := by
  have order : v.last ≤ key m event ↔ ¬ m.when_ event < v.time ∧
      ¬ (m.when_ event = v.time ∧ m.priority event < v.priority) := by
    rw [Verifier.last, key, Prod.Lex.toLex_le_toLex]
    dsimp only
    omega
  rw [order, checkEvent]
  by_cases backwards : m.when_ event < v.time
  · simp [backwards]
  · by_cases inverted : m.when_ event = v.time ∧ m.priority event < v.priority
    · rw [if_neg backwards, if_pos inverted]
      simp [inverted]
    · rw [if_neg backwards, if_neg inverted]
      cases seen : v.map event with
      | true => simp
      | false =>
          constructor
          · intro passed
            exact ⟨⟨backwards, inverted⟩, rfl, (Except.ok.inj passed).symm⟩
          · rintro ⟨_, _, rfl⟩
            rfl

/-- A walk is accepted when keys never decrease from the pair it starts with and no event
comes twice. -/
theorem foldlM_checkEvent_iff (events : List EventPtr) (v : Verifier) :
    (∃ v', events.foldlM (checkEvent m) v = .ok v') ↔
      List.IsChain (· ≤ ·) (v.last :: events.map (key m)) ∧ events.Nodup ∧
        ∀ event ∈ events, v.map event = false := by
  induction events generalizing v with
  | nil => exact iff_of_true ⟨v, rfl⟩ ⟨List.IsChain.singleton _, List.nodup_nil, by simp⟩
  | cons event rest ih =>
      have step : (∃ v', (event :: rest).foldlM (checkEvent m) v = .ok v') ↔
          ∃ next, checkEvent m v event = .ok next ∧ ∃ v', rest.foldlM (checkEvent m) next = .ok v' := by
        rw [List.foldlM_cons]
        constructor
        · rintro ⟨v', returned⟩
          cases here : checkEvent m v event with
          | error complaint =>
              rw [here] at returned
              cases returned
          | ok next =>
              rw [here] at returned
              exact ⟨next, rfl, v', returned⟩
        · rintro ⟨next, here, v', returned⟩
          refine ⟨v', ?_⟩
          rw [here]
          exact returned
      rw [step, List.map_cons, List.isChain_cons_cons, List.nodup_cons, List.forall_mem_cons]
      constructor
      · rintro ⟨next, here, later⟩
        obtain ⟨order, unseen, rfl⟩ := (checkEvent_ok_iff event).mp here
        obtain ⟨chain, unique, others⟩ := (ih _).mp later
        refine ⟨⟨order, chain⟩, ⟨fun member => (passed_map.mp (others event member)).1 rfl, unique⟩,
          unseen, fun other member => (passed_map.mp (others other member)).2⟩
      · rintro ⟨⟨order, chain⟩, ⟨new, unique⟩, unseen, others⟩
        refine ⟨_, (checkEvent_ok_iff event).mpr ⟨order, unseen, rfl⟩, (ih _).mpr ⟨chain, unique, ?_⟩⟩
        intro other member
        exact passed_map.mpr ⟨fun same => new (same ▸ member), others other member⟩

theorem foldlM_checkEvent_ends (events : List EventPtr) (v : Verifier) :
    events.foldlM (checkEvent m) v ≠ .error .endless := by
  induction events generalizing v with
  | nil => simp [pure, Except.pure]
  | cons event rest ih =>
      rw [List.foldlM_cons]
      cases here : checkEvent m v event with
      | error complaint =>
          rintro ⟨⟩
          unfold checkEvent at here
          split_ifs at here <;> cases here
      | ok next => exact ih next

variable {q : QueuePtr} {bins : List (Bin EventPtr)} {fuel : Nat}

/-- On a queue that is well formed the check ends, and accepts it exactly when the first
event is not before tick 0 and priority 0. -/
theorem debugVerify_held (held : Held m q bins) (enough : (members bins).length < fuel) :
    ∃ answer, debugVerify fuel q m = .ok answer ∧
      (answer = true ↔ ∀ event ∈ members bins, toLex (0, 0) ≤ key m event) := by
  have walked : checkBins m fuel fuel (m.lists.head q) ⟨fun _ => false, 0, 0⟩ =
      (members bins).foldlM (checkEvent m) ⟨fun _ => false, 0, 0⟩ := by
    apply checkBins_stacked bins held.shaped.1
    · intro bin member
      have part : bin.nodes.Sublist (members bins) :=
        List.sublist_flatten_of_mem (List.mem_map_of_mem member)
      exact Nat.lt_of_le_of_lt part.length_le enough
    · exact Nat.lt_of_le_of_lt (length_le_members bins) enough
  have sorted : ((members bins).map (key m)).Pairwise (· ≤ ·) :=
    List.pairwise_map.mpr held.ordered.members_sorted
  have accepts := foldlM_checkEvent_iff (m := m) (members bins) ⟨fun _ => false, 0, 0⟩
  have first : List.IsChain (· ≤ ·) (toLex ((0 : Nat), (0 : Int)) :: (members bins).map (key m)) ↔
      ∀ event ∈ members bins, toLex (0, 0) ≤ key m event := by
    rw [List.isChain_iff_pairwise, List.pairwise_cons, List.forall_mem_map]
    exact and_iff_left sorted
  have accepted : (∃ v', (members bins).foldlM (checkEvent m) ⟨fun _ => false, 0, 0⟩ = .ok v') ↔
      ∀ event ∈ members bins, toLex (0, 0) ≤ key m event := by
    rw [accepts, ← first]
    exact and_iff_left ⟨held.shaped.2, fun _ _ => rfl⟩
  have ends := foldlM_checkEvent_ends (m := m) (members bins) ⟨fun _ => false, 0, 0⟩
  rw [← accepted, debugVerify, walked]
  cases outcome : (members bins).foldlM (checkEvent m) ⟨fun _ => false, 0, 0⟩ with
  | ok v' => exact ⟨true, rfl, by simp⟩
  | error complaint =>
      cases complaint with
      | endless => exact absurd outcome ends
      | _ => exact ⟨false, rfl, by simp⟩

end Accepting

section Runs

/-- An event that the check takes for one out of order when it comes first. -/
def BeforeStart (m : Memory) (event : EventPtr) : Prop := m.when_ event = 0 ∧ m.priority event < 0

theorem beforeStart_iff (m : Memory) (event : EventPtr) :
    BeforeStart m event ↔ ¬ toLex (0, 0) ≤ key m event := by
  rw [BeforeStart, key, Prod.Lex.toLex_le_toLex]
  dsimp only
  omega

/-- In every state of a run the check accepts the queue exactly when no event that is
waiting has a negative priority at tick 0. -/
theorem debugVerify_iff (q : QueuePtr) (fuel : Nat) (start reached : Memory)
    (actions : List Action) (empty : start.lists.head q = none)
    (idle : ∀ event, (start.flags event).scheduled = false) (unread : start.followed = [])
    (serial : start.inParallelMode = false) (acts : ∀ action ∈ actions, ActsOn q action)
    (enough : totalAdditions actions < fuel)
    (ran : run (step fuel) actions start = some reached) :
    ∃ least, ∀ rounds, least < rounds → ∃ answer, debugVerify rounds q reached = .ok answer ∧
      (answer = true ↔
        ∀ event, (reached.flags event).scheduled = true → ¬ BeforeStart reached event) := by
  have sound : Sound q start [] := sound_start empty idle unread serial
  obtain ⟨bins, sound'⟩ := sound_run sound acts (by simpa using enough) ran
  refine ⟨(members bins).length, fun rounds more => ?_⟩
  obtain ⟨answer, returned, accepts⟩ := debugVerify_held sound'.held more
  refine ⟨answer, returned, accepts.trans ?_⟩
  apply forall_congr'
  intro event
  rw [sound'.flagged event, beforeStart_iff, not_not]

theorem busy_queue_verifies :
    ∃ reached least, run (step 9) busyActions constructed = some reached ∧
      ∀ rounds, least < rounds → debugVerify rounds 0 reached = .ok true := by
  obtain ⟨reached, ran⟩ : ∃ reached, run (step 9) busyActions constructed = some reached := ⟨_, rfl⟩
  obtain ⟨least, verifies⟩ := debugVerify_iff 0 9 constructed reached busyActions rfl (fun _ => rfl)
    rfl rfl (by simp [busyActions, ActsOn, WorksOn]) (by decide) ran
  refine ⟨reached, least, ran, fun rounds more => ?_⟩
  obtain ⟨answer, returned, accepts⟩ := verifies rounds more
  have accepted : answer = true := by
    rw [accepts]
    cases ran
    exact fun event _ early => Int.lt_irrefl 0 early.2
  rw [returned, accepted]

def breakpoint : Memory := { constructed with priority := Function.update constructed.priority 1 (-100) }

theorem breakpoint_at_start_rejected :
    ∃ reached, run (step 9) [.call 0 (.schedule 0 1 0 false)] breakpoint = some reached ∧
      ∀ rounds, 2 ≤ rounds → debugVerify rounds 0 reached = .ok false := by
  refine ⟨_, rfl, fun rounds more => ?_⟩
  obtain ⟨rounds, rfl⟩ := Nat.exists_eq_add_of_le' more
  rfl

end Runs

end GemFi.QueueCheck
