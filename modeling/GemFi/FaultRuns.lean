import GemFi.FaultScan
import GemFi.QueueHistory

/-!
Runs that read faults from a file, scan the queues and process the faults
found. Each step keeps the queues well formed, with every fault in the queue of
its type, and says what became of the lists and the timings; whether a scan can
miss a due fault follows for every state such a run reaches.
-/

namespace GemFi.FaultRuns

open LinkedLists ThreadInfo Transitions FaultQueue QueueRepresentation QueueHistory Corruption
open FaultScan

inductive FaultAction where
  -- a line of the fault file is read, a queue is scanned, or the fault that a scan returned is
  -- processed
  | load (record : FaultRecord)
  | scan (q : StageQueue) (c : ScanContext)
  | process (q : StageQueue) (c : ScanContext) (f : FaultPtr) (clockEdge : Word)
      (value : StageValue q)

def faultStep (fuel : Nat) (t : Tracked) : FaultAction → Option Tracked
  | .load record => do
      let store ← load fuel record t.store
      let q := stageOf record.faultType
      some ⟨store, Function.update t.inside q (t.store.fresh :: t.inside q)⟩
  | .scan q c => do
      let (store, _) ← scan fuel q c t.store
      some { t with store := store }
  | .process q c f clockEdge value => do
      let (store, found) ← scan fuel q c t.store
      if found = some f then
        let (store, _) ← fire fuel q clockEdge f value store
        let inside := if (t.store.mem f).occurrence = 1 then
            Function.update t.inside q ((t.inside q).erase f)
          else t.inside
        some ⟨store, inside⟩
      else none

/-- The constructor found clear the link that `insert` leaves unwritten. -/
def LoadsCleared (t : Tracked) : FaultAction → Prop
  | .load record =>
      let q := stageOf record.faultType
      LinksCleared (allocate record t.store) q (t.inside q) t.store.fresh
  | _ => True

/-- The queues hold `lists`, which are the faults inside, each in the queue of
its type. -/
structure Holds (t : Tracked) (lists : StageQueue → List FaultPtr) : Prop where
  held : Represents t.store lists
  same : ∀ q, (lists q).Perm (t.inside q)
  older : ∀ q, ∀ p ∈ lists q, p < t.store.fresh
  typed : ∀ q, ∀ p ∈ lists q, stageOf (t.store.mem p).faultType = q

variable {fuel : Nat} {t next : Tracked} {lists : StageQueue → List FaultPtr}

theorem Holds.write {f : FaultPtr} {change : InjectedFault → InjectedFault}
    (holds : Holds t lists) (nxt : (change (t.store.mem f)).nxt = (t.store.mem f).nxt)
    (prv : (change (t.store.mem f)).prv = (t.store.mem f).prv)
    (queue : (change (t.store.mem f)).queue = (t.store.mem f).queue)
    (faultType : (change (t.store.mem f)).faultType = (t.store.mem f).faultType) :
    Holds ⟨t.store.write f change, t.inside⟩ lists := by
  refine ⟨holds.held.write nxt prv queue, holds.same, holds.older, ?_⟩
  · intro q p member
    by_cases same : p = f
    · subst p
      simpa [FaultStore.write, faultType] using holds.typed q f member
    · simpa [FaultStore.write, same] using holds.typed q p member

theorem allocate_represents (record : FaultRecord) (holds : Holds t lists) :
    Represents (allocate record t.store) lists := by
  refine holds.held.congr rfl (fun q p member => ?_)
  have other : p ≠ t.store.fresh := Nat.ne_of_lt (holds.older q p member)
  simp [allocate, FaultStore.nxt, FaultStore.prv, FaultStore.owner, FaultStore.write, other]

theorem load_holds {record : FaultRecord} (holds : Holds t lists)
    (cleared : LoadsCleared t (.load record))
    (stepped : faultStep fuel t (.load record) = some next) :
    Holds next (Function.update lists (stageOf record.faultType)
        (ahead (allocate record t.store) t.store.fresh (lists (stageOf record.faultType)) ++
          t.store.fresh ::
            behind (allocate record t.store) t.store.fresh (lists (stageOf record.faultType)))) ∧
      next.store.timing = (allocate record t.store).timing := by
  obtain ⟨store, loaded, result⟩ := Option.bind_eq_some_iff.mp stepped
  cases result
  obtain ⟨data, fresh, _⟩ := FaultStore.insert_frame loaded
  have newest : ∀ q, t.store.fresh ∉ lists q := fun q member =>
    Nat.lt_irrefl _ (holds.older q _ member)
  have represented := insert_represents (allocate_represents record holds) newest
    ((linksCleared_perm (holds.same _)).mpr cleared) loaded
  have sameType : ∀ p, (store.mem p).faultType = ((allocate record t.store).mem p).faultType := by
    intro p
    have same := congrArg InjectedFault.faultType (congrFun data p)
    exact same
  have atNew : ((allocate record t.store).mem t.store.fresh).faultType = record.faultType := by
    simp [allocate, FaultStore.write, FaultRecord.construct]
  have elsewhere : ∀ p, p ≠ t.store.fresh →
      ((allocate record t.store).mem p).faultType = (t.store.mem p).faultType := by
    intro p other
    simp [allocate, FaultStore.write, other]
  -- The new fault is the only one added, and only to its own queue.
  have mem_cases := mem_update_added (inserted_perm (allocate record t.store) t.store.fresh
    (lists (stageOf record.faultType))) newest
  refine ⟨⟨represented, ?_, ?_, ?_⟩, ?_⟩
  · exact perm_update holds.same ((inserted_perm _ _ _).trans ((holds.same _).cons _))
  · intro q p member
    have grown : store.fresh = t.store.fresh + 1 := fresh
    dsimp only
    rw [grown]
    rcases mem_cases q p member with ⟨isNew, _⟩ | ⟨_, old⟩
    · rw [isNew]
      exact Nat.lt_succ_self _
    · exact Nat.lt_succ_of_lt (holds.older q p old)
  · intro q p member
    show stageOf (store.mem p).faultType = q
    rw [sameType p]
    rcases mem_cases q p member with ⟨isNew, inQ⟩ | ⟨notNew, old⟩
    · rw [isNew, atNew, inQ]
    · rw [elsewhere p notNew]
      exact holds.typed q p old
  · funext p
    have same := congrArg InjectedFault.timing (congrFun data p)
    exact same

theorem scan_holds {q : StageQueue} {c : ScanContext} {store : FaultStore}
    {found : Option FaultPtr} (holds : Holds t lists)
    (returned : scan fuel q c t.store = some (store, found)) :
    Holds ⟨store, t.inside⟩ lists ∧ store.timing = t.store.timing ∧
      ∀ f, found = some f → f ∈ lists q ∧ SameSchedule (t.store.mem f) (store.mem f) := by
  rcases scan_cases (holds.held.linked q).forward returned with
    ⟨rfl, rfl, _⟩ | ⟨p, servicedAt, first, _, rfl, rfl⟩
  · exact ⟨holds, rfl, fun f none' => nomatch none'⟩
  · refine ⟨holds.write rfl rfl rfl rfl, ?_, ?_⟩
    · funext x
      by_cases same : x = p <;> simp [FaultStore.timing, serviced, FaultStore.write, same]
    · rintro f ⟨⟩
      refine ⟨List.mem_of_find?_eq_some first, ?_⟩
      simp only [serviced, FaultStore.write, if_true]
      constructor <;> rfl

theorem fire_holds {q : StageQueue} {f : FaultPtr} {clockEdge : Word} {value value' : StageValue q}
    {store : FaultStore} (holds : Holds t lists) (member : f ∈ lists q)
    (returned : fire fuel q clockEdge f value t.store = some (store, value')) :
    ((t.store.mem f).occurrence = 1 ∧
        Holds ⟨store, Function.update t.inside q ((t.inside q).erase f)⟩
          (Function.update lists q ((lists q).erase f)) ∧
        store.timing = t.store.timing) ∨
      ((t.store.mem f).occurrence ≠ 1 ∧ Holds ⟨store, t.inside⟩ lists ∧
        ∀ p, store.timing p =
          if p = f then nextTiming clockEdge (t.store.mem f) else t.store.timing p) := by
  obtain ⟨⟨p', v'⟩, processed, returned⟩ := Option.bind_eq_some_iff.mp returned
  obtain ⟨store', checked, result⟩ := Option.bind_eq_some_iff.mp returned
  cases result
  have kept := process_schedule processed
  have holds' : Holds ⟨t.store.write f fun _ => p', t.inside⟩ lists :=
    holds.write kept.nxt kept.prv kept.queue kept.faultType
  have sameTiming : (t.store.write f fun _ => p').timing = t.store.timing := by
    funext x
    by_cases same : x = f <;> simp [FaultStore.timing, FaultStore.write, same, kept.timing]
  have written : (t.store.write f fun _ => p').mem f = p' := by simp [FaultStore.write]
  unfold check4reschedule at checked
  rw [written, kept.occurrence] at checked
  split at checked
  · rename_i last
    left
    rw [holds'.held.owned q f member] at checked
    have removed : (t.store.write f fun _ => p').remove fuel q f = some store := checked
    obtain ⟨data, fresh, _⟩ := FaultStore.remove_frame removed
    refine ⟨last, ⟨remove_represents holds'.held member removed, ?_, ?_, ?_⟩, ?_⟩
    · exact perm_update holds.same ((holds.same q).erase f)
    · intro r p inR
      have below := holds.older r p (mem_update_erase r p inR)
      dsimp only
      rw [fresh]
      exact below
    · intro r p inR
      have same := congrArg InjectedFault.faultType (congrFun data p)
      exact (congrArg stageOf same).trans (holds'.typed r p (mem_update_erase r p inR))
    · rw [← sameTiming]
      funext p
      have same := congrArg InjectedFault.timing (congrFun data p)
      exact same
  · rename_i again
    right
    cases checked
    have next : nextTiming clockEdge p' = nextTiming clockEdge (t.store.mem f) := by
      unfold nextTiming
      rw [kept.timing, kept.timingType]
    refine ⟨again, holds'.write rfl rfl rfl rfl, ?_⟩
    intro p
    by_cases same : p = f
    · rw [if_pos same, same, ← next]
      simp [FaultStore.timing, FaultStore.write, rescheduled]
    · rw [if_neg same]
      simp [FaultStore.timing, FaultStore.write, same]

theorem faultStep_cases {action : FaultAction} (holds : Holds t lists)
    (cleared : LoadsCleared t action) (stepped : faultStep fuel t action = some next) :
    (∃ record, action = .load record ∧
      Holds next (Function.update lists (stageOf record.faultType)
        (ahead (allocate record t.store) t.store.fresh (lists (stageOf record.faultType)) ++
          t.store.fresh ::
            behind (allocate record t.store) t.store.fresh (lists (stageOf record.faultType)))) ∧
      next.store.timing = (allocate record t.store).timing) ∨
    (∃ q c, action = .scan q c ∧ Holds next lists ∧ next.store.timing = t.store.timing) ∨
    (∃ q c f clockEdge value, action = .process q c f clockEdge value ∧ f ∈ lists q ∧
      (((t.store.mem f).occurrence = 1 ∧
          Holds next (Function.update lists q ((lists q).erase f)) ∧
          next.store.timing = t.store.timing) ∨
        ((t.store.mem f).occurrence ≠ 1 ∧ Holds next lists ∧
          ∀ p, next.store.timing p =
            if p = f then nextTiming clockEdge (t.store.mem f) else t.store.timing p))) := by
  cases action with
  | load record => exact Or.inl ⟨record, rfl, load_holds holds cleared stepped⟩
  | scan q c =>
      obtain ⟨⟨store, found⟩, scanned, result⟩ := Option.bind_eq_some_iff.mp stepped
      cases result
      obtain ⟨kept, timing, _⟩ := scan_holds holds scanned
      exact Or.inr (Or.inl ⟨q, c, rfl, kept, timing⟩)
  | process q c f clockEdge value =>
      obtain ⟨⟨store, found⟩, scanned, rest⟩ := Option.bind_eq_some_iff.mp stepped
      obtain ⟨kept, timing, member⟩ := scan_holds holds scanned
      dsimp only at rest
      by_cases isFound : found = some f
      · rw [if_pos isFound] at rest
        obtain ⟨⟨store', value'⟩, fired, result⟩ := Option.bind_eq_some_iff.mp rest
        obtain ⟨inQ, schedule⟩ := member f isFound
        have sameNext : nextTiming clockEdge (store.mem f) =
            nextTiming clockEdge (t.store.mem f) := by
          unfold nextTiming
          rw [schedule.timing, schedule.timingType]
        refine Or.inr (Or.inr ⟨q, c, f, clockEdge, value, rfl, inQ, ?_⟩)
        cases result
        rcases fire_holds kept inQ fired with ⟨last, holds', timing'⟩ | ⟨again, holds', timing'⟩
        · rw [schedule.occurrence] at last
          rw [if_pos last]
          exact Or.inl ⟨last, holds', timing'.trans timing⟩
        · rw [schedule.occurrence] at again
          rw [if_neg again]
          refine Or.inr ⟨again, holds', ?_⟩
          intro p
          rw [timing' p, sameNext]
          dsimp only
          rw [timing]
      · rw [if_neg isFound] at rest
        cases rest

theorem faultStep_holds {action : FaultAction} (holds : ∃ lists, Holds t lists)
    (cleared : LoadsCleared t action) (stepped : faultStep fuel t action = some next) :
    ∃ lists, Holds next lists := by
  obtain ⟨lists, holds⟩ := holds
  rcases faultStep_cases holds cleared stepped with
    ⟨_, _, kept, _⟩ | ⟨_, _, _, kept, _⟩ |
    ⟨_, _, _, _, _, _, _, ⟨_, kept, _⟩ | ⟨_, kept, _⟩⟩ <;>
  exact ⟨_, kept⟩

theorem vacant_holds (s : FaultStore) (vacant : Vacant s) :
    Holds ⟨s, fun _ => []⟩ (fun _ => []) := by
  refine ⟨⟨?_, ?_, ?_⟩, fun _ => List.Perm.refl [], ?_, ?_⟩
  · intro q
    dsimp only
    rw [(vacant q).1, (vacant q).2]
    exact Linked.nil
  all_goals
    intros
    contradiction

theorem faultStep_inside_length {action : FaultAction}
    (stepped : faultStep fuel t action = some next) (q : StageQueue) :
    (next.inside q).length ≤ (t.inside q).length + 1 := by
  cases action with
  | load record =>
      obtain ⟨store, _, result⟩ := Option.bind_eq_some_iff.mp stepped
      cases result
      by_cases same : q = stageOf record.faultType <;> simp [Function.update, same]
  | scan r c =>
      obtain ⟨⟨store, found⟩, _, result⟩ := Option.bind_eq_some_iff.mp stepped
      cases result
      exact Nat.le_succ _
  | process r c f clockEdge value =>
      obtain ⟨⟨store, found⟩, _, rest⟩ := Option.bind_eq_some_iff.mp stepped
      dsimp only at rest
      split at rest
      · obtain ⟨⟨store', value'⟩, _, result⟩ := Option.bind_eq_some_iff.mp rest
        cases result
        dsimp only
        split
        · by_cases same : q = r
          · subst q
            rw [Function.update_self]
            exact Nat.le_succ_of_le List.length_erase_le
          · rw [Function.update_of_ne same]
            exact Nat.le_succ _
        · exact Nat.le_succ _
      · cases rest

theorem run_inside_length (actions : List FaultAction) (t reached : Tracked)
    (ran : run (faultStep fuel) actions t = some reached) (q : StageQueue) :
    (reached.inside q).length ≤ (t.inside q).length + actions.length := by
  induction actions generalizing t with
  | nil =>
      cases ran
      exact Nat.le_refl _
  | cons action rest ih =>
      obtain ⟨next, stepped, ran⟩ := Option.bind_eq_some_iff.mp ran
      have one := faultStep_inside_length stepped q
      have more := ih next ran
      rw [List.length_cons]
      omega

/-- The faults that `scan` meets before a due one let it through, and the due
one itself is not taken for a fault out of scope. -/
def NothingHidden (q : StageQueue) (c : ScanContext) (s : FaultStore) (nodes : List FaultPtr) :
    Prop :=
  (∃ p ∈ nodes, Due q c (s.mem p)) →
    ∃ before p after, nodes = before ++ p :: after ∧ Due q c (s.mem p) ∧
      Counting q c (s.mem p) ∧ ∀ x ∈ before, ¬ Expired q c (s.mem x)

theorem found_iff_nothingHidden {q : StageQueue} {c : ScanContext} {s s' : FaultStore}
    {nodes : List FaultPtr} {found : Option FaultPtr}
    (chain : Chain s.nxt (s.head q) nodes none)
    (typed : ∀ p ∈ nodes, stageOf (s.mem p).faultType = q)
    (returned : scan fuel q c s = some (s', found)) :
    (found = none → ∀ p ∈ nodes, ¬ Due q c (s.mem p)) ↔ NothingHidden q c s nodes := by
  have foundIff : found ≠ none ↔ ∃ before p after, nodes = before ++ p :: after ∧
      Due q c (s.mem p) ∧ Counting q c (s.mem p) ∧ ∀ x ∈ before, ¬ Expired q c (s.mem x) := by
    rw [scan_found_iff chain returned]
    refine exists_congr fun before => exists_congr fun p => exists_congr fun after => ?_
    refine and_congr_right fun split => ?_
    have typedP : stageOf (s.mem p).faultType = q := typed p (by simp [split])
    rw [verdict_due_iff typedP, and_assoc]
    refine and_congr_right fun _ => and_congr_right fun _ => ?_
    refine forall_congr' fun x => forall_congr' fun member => not_congr ?_
    exact verdict_stop_iff (typed x (by simp [split, member]))
  unfold NothingHidden
  rw [← foundIff]
  constructor
  · rintro complete ⟨p, member, due⟩ isNone
    exact complete isNone p member due
  · intro reachable isNone p member due
    exact reachable ⟨p, member, due⟩ isNone

/-- In every state that loading and processing faults can reach, a scan comes
back, and it answers NULL truly exactly when nothing due is hidden from it. -/
theorem scan_complete_iff_nothing_hidden (fuel : Nat) (s : FaultStore)
    (actions : List FaultAction) (reached : Tracked) (q : StageQueue) (c : ScanContext)
    (vacant : Vacant s)
    (cleared : EachStep (faultStep fuel) LoadsCleared actions ⟨s, fun _ => []⟩)
    (ran : run (faultStep fuel) actions ⟨s, fun _ => []⟩ = some reached)
    (enough : actions.length < fuel) :
    ∃ nodes s' found, Chain reached.store.nxt (reached.store.head q) nodes none ∧
      nodes.Perm (reached.inside q) ∧ scan fuel q c reached.store = some (s', found) ∧
      ((found = none → ∀ p ∈ reached.inside q, ¬ Due q c (reached.store.mem p)) ↔
        NothingHidden q c reached.store nodes) := by
  obtain ⟨lists, holds⟩ := run_preserves
    (fun state action next kept met stepped => faultStep_holds kept met stepped)
    actions _ reached ⟨_, vacant_holds s vacant⟩ cleared ran
  have chain := (holds.held.linked q).forward
  have short : (lists q).length < fuel := by
    have bound := run_inside_length actions _ reached ran q
    rw [List.length_nil, Nat.zero_add] at bound
    rw [(holds.same q).length_eq]
    omega
  obtain ⟨s', found, returned⟩ := scan_returns (c := c) chain short
  refine ⟨lists q, s', found, chain, holds.same q, returned, ?_⟩
  rw [← found_iff_nothingHidden chain (holds.typed q) returned]
  refine imp_congr_right fun _ => forall_congr' fun p => ?_
  rw [(holds.same q).mem_iff]

def singleFault (record : FaultRecord) : FaultStore :=
  -- clear memory after one line of the fault file
  (load 2 record clearMemory).getD clearMemory

theorem singleFault_holds (record : FaultRecord) :
    Holds ⟨singleFault record, Function.update (fun _ => []) (stageOf record.faultType) [0]⟩
      (Function.update (fun _ => []) (stageOf record.faultType) [0]) := by
  have cleared : LoadsCleared ⟨clearMemory, fun _ => []⟩ (.load record) :=
    ⟨fun occupied => absurd rfl occupied, fun p atHead => nomatch atHead⟩
  have empty := vacant_holds clearMemory fun _ => ⟨rfl, rfl⟩
  have stepped : faultStep 2 ⟨clearMemory, fun _ => []⟩ (.load record) =
      some ⟨singleFault record, Function.update (fun _ => []) (stageOf record.faultType) [0]⟩ := rfl
  exact (load_holds empty cleared stepped).1

def fetchRecord (timingType : TimingType) (timing : Word) (occurrence : Int) : FaultRecord :=
  ⟨.generalFetch, timingType, .flipBit, timing, 1, "all", "all", occurrence, .src, 0, 0⟩

def fiveFetched : ScanContext where
  allthreads := { ThreadEnabledFault.new (-1) "system.cpu" with all := ⟨5, 0, 0, 1000⟩ }
  thread := { ThreadEnabledFault.new 0 "system.cpu" with all := ⟨5, 0, 0, 1000⟩ }
  curCpu := "system.cpu"
  vaddr := 0

def passedAndDue : List FaultAction :=
  -- a fault that is passed and one behind it
  [.load (fetchRecord .instruction 3 1), .load (fetchRecord .instruction 5 1)]

theorem scan_passes_to_due :
    ∃ reached nodes s' found,
      run (faultStep 3) passedAndDue ⟨clearMemory, fun _ => []⟩ = some reached ∧
      Chain reached.store.nxt (reached.store.head .fetchStage) nodes none ∧
      nodes.Perm (reached.inside .fetchStage) ∧
      scan 3 .fetchStage fiveFetched reached.store = some (s', found) ∧
      ((found = none →
          ∀ p ∈ reached.inside .fetchStage, ¬ Due .fetchStage fiveFetched (reached.store.mem p)) ↔
        NothingHidden .fetchStage fiveFetched reached.store nodes) := by
  have cleared : EachStep (faultStep 3) LoadsCleared passedAndDue ⟨clearMemory, fun _ => []⟩ := by
    rw [passedAndDue, eachStep_cons_iff]
    intro next loaded
    cases loaded
    refine ⟨⟨fun occupied => absurd rfl occupied, fun p atHead => nomatch atHead⟩, ?_⟩
    rw [eachStep_cons_iff]
    intro last _
    exact ⟨⟨fun _ _ => rfl, fun _ _ _ => rfl⟩, eachStep_nil _ _⟩
  obtain ⟨nodes, s', found, complete⟩ := scan_complete_iff_nothing_hidden 3 clearMemory _ _
    .fetchStage fiveFetched (fun _ => ⟨rfl, rfl⟩) cleared rfl (by decide)
  exact ⟨_, nodes, s', found, rfl, complete⟩

/-- A tick fault whose time has passed hides the instruction fault behind it. -/
theorem expired_fault_hides_due_one :
    ∃ reached s',
      run (faultStep 9)
          [.load (fetchRecord .tick 3 1), .load (fetchRecord .instruction 5 1)]
          ⟨clearMemory, fun _ => []⟩ = some reached ∧
        scan 9 .fetchStage fiveFetched reached.store = some (s', none) ∧
        1 ∈ reached.inside .fetchStage ∧
        Due .fetchStage fiveFetched (reached.store.mem 1) :=
  ⟨_, _, rfl, rfl, List.mem_cons_self, rfl, ⟨Or.inr rfl, Or.inl rfl⟩, rfl⟩

end GemFi.FaultRuns
