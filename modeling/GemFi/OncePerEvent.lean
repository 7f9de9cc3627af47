import GemFi.FiringRounds

/-!
How often one event, a call of a hook, processes a fault. The loop of the hook scans the queue
from its head after each fault that it processed, so a fault that stays due is processed again.
-/

namespace GemFi.OncePerEvent

open LinkedLists ThreadInfo FaultQueue QueueRepresentation QueueHistory Corruption
open FaultScan FaultRuns FaultSpecs Activation Hooks FiringRounds Transitions

def Processes (fuel : Nat) (q : StageQueue) (c : ScanContext) (clockEdge : Word) :
    List FaultPtr → StageValue q → FaultStore → Prop
  -- the loop of a hook begins to process these faults, one in each round; only the processing of
  -- the last may stop the program
  | [], _, _ => True
  | f :: later, value, s =>
      ∃ store, scan fuel q c s = some (store, some f) ∧
        (later = [] ∨ ∃ s' value', fire fuel q clockEdge f value store = some (s', value') ∧
          Processes fuel q c clockEdge later value' s')

/-- No scan of the event gets behind this fault: its time has passed, or has passed once the
fault is processed and moved to its next trigger. -/
def Halts (q : StageQueue) (c : ScanContext) (clockEdge : Word) (p : InjectedFault) : Prop :=
  verdict q c p = .stop ∨
    (∃ servicedAt, verdict q c p = .due servicedAt) ∧ p.occurrence ≠ 1 ∧
      verdict q c (rescheduled clockEdge p) = .stop

def processed (q : StageQueue) (c : ScanContext) (s : FaultStore) :
    List FaultPtr → StageValue q → Option (StageValue q)
  -- the value after those faults of a list that are due have been processed; none if one of them
  -- stops the program
  | [], value => some value
  | f :: rest, value =>
      match verdict q c (s.mem f) with
      | .due _ => ((process q (s.mem f) value).map Prod.snd).bind (processed q c s rest)
      | _ => processed q c s rest value

/-- No fault is due, keeps its trigger and is come to, unless the program stops before it is done
with that fault. -/
def NoneRepeats (q : StageQueue) (c : ScanContext) (clockEdge : Word) (s : FaultStore)
    (value : StageValue q) (nodes : List FaultPtr) : Prop :=
  ∀ before f after, nodes = before ++ f :: after →
    (∃ servicedAt, verdict q c (s.mem f) = .due servicedAt) →
    (∀ x ∈ before, ¬ Halts q c clockEdge (s.mem x)) → Repeats clockEdge (s.mem f) →
    processed q c s (before ++ [f]) value = none

section Lists

variable {q : StageQueue} {c : ScanContext} {clockEdge : Word} {s : FaultStore}
  {value value' : StageValue q} {x : FaultPtr} {rest : List FaultPtr}

theorem not_halts_of_pass (isPassed : verdict q c (s.mem x) = .pass) :
    ¬ Halts q c clockEdge (s.mem x) := by
  unfold Halts
  simp [isPassed]

theorem noneRepeats_pass (isPassed : verdict q c (s.mem x) = .pass) :
    NoneRepeats q c clockEdge s value (x :: rest) ↔ NoneRepeats q c clockEdge s value rest := by
  have skips : ∀ later : List FaultPtr, processed q c s (x :: later) value =
      processed q c s later value := by
    intro later
    rw [processed, isPassed]
  unfold NoneRepeats
  rw [forall_split_cons]
  constructor
  · rintro ⟨_, later⟩ before f after split due clear repeats
    rw [← skips]
    exact later before f after split due
      (List.forall_mem_cons.mpr ⟨not_halts_of_pass isPassed, clear⟩) repeats
  · intro all
    constructor
    · rintro ⟨servicedAt, due⟩
      rw [isPassed] at due
      cases due
    · intro before f after split due clear repeats
      rw [List.cons_append, skips]
      exact all before f after split due (List.forall_mem_cons.mp clear).2 repeats

theorem noneRepeats_stop (stops : verdict q c (s.mem x) = .stop) :
    NoneRepeats q c clockEdge s value (x :: rest) := by
  unfold NoneRepeats
  rw [forall_split_cons]
  constructor
  · rintro ⟨servicedAt, due⟩
    rw [stops] at due
    cases due
  · intro before f after _ _ clear
    exact absurd (Or.inl stops) (List.forall_mem_cons.mp clear).1

theorem noneRepeats_due {servicedAt : Word} (due : verdict q c (s.mem x) = .due servicedAt) :
    NoneRepeats q c clockEdge s value (x :: rest) ↔
      ∀ value', (process q (s.mem x) value).map Prod.snd = some value' →
        ¬ Repeats clockEdge (s.mem x) ∧
          (¬ Halts q c clockEdge (s.mem x) → NoneRepeats q c clockEdge s value' rest) := by
  have goes : ∀ later : List FaultPtr, processed q c s (x :: later) value =
      ((process q (s.mem x) value).map Prod.snd).bind (processed q c s later) := by
    intro later
    rw [processed, due]
  unfold NoneRepeats
  rw [forall_split_cons]
  constructor
  · rintro ⟨first, later⟩ value' gives
    constructor
    · intro repeats
      have stopped := first ⟨servicedAt, due⟩ (fun y member => nomatch member) repeats
      rw [List.nil_append, goes, gives] at stopped
      cases stopped
    · intro open_ before f after split dueLater clear repeats
      have stopped := later before f after split dueLater
        (List.forall_mem_cons.mpr ⟨open_, clear⟩) repeats
      rw [List.cons_append, goes, gives] at stopped
      exact stopped
  · intro all
    constructor
    · intro _ _ repeats
      rw [List.nil_append, goes]
      cases gives : (process q (s.mem x) value).map Prod.snd with
      | none => rfl
      | some value' => exact absurd repeats (all value' gives).1
    · intro before f after split dueLater clear repeats
      rw [List.cons_append, goes]
      cases gives : (process q (s.mem x) value).map Prod.snd with
      | none => rfl
      | some value' =>
          obtain ⟨here, clearLater⟩ := List.forall_mem_cons.mp clear
          exact (all value' gives).2 here before f after split dueLater clearLater repeats

end Lists

section Loop

variable {fuel : Nat} {q : StageQueue} {c : ScanContext} {clockEdge : Word} {s₀ s : FaultStore}
  {done rest fired : List FaultPtr} {value : StageValue q}

theorem processes_of_scan_none (ends : scan fuel q c s = some (s, none))
    (begun : Processes fuel q c clockEdge fired value s) : fired = [] := by
  cases fired with
  | nil => rfl
  | cons f later =>
      obtain ⟨store, scanned, _⟩ := begun
      rw [ends] at scanned
      cases scanned

theorem rescheduled_cases {p : InjectedFault} {servicedAt : Word}
    (due : verdict q c p = .due servicedAt) (again : p.occurrence ≠ 1)
    (moves : ¬ Repeats clockEdge p) :
    verdict q c (rescheduled clockEdge p) = .pass ∨ verdict q c (rescheduled clockEdge p) = .stop := by
  have notDue : ¬ ∃ later, verdict q c (rescheduled clockEdge p) = .due later := by
    rw [verdict_rescheduled_due_iff due, nextTiming_eq_iff]
    exact fun stays => moves ⟨again, stays⟩
  cases decided : verdict q c (rescheduled clockEdge p) with
  | due later => exact absurd ⟨later, decided⟩ notDue
  | stop => exact Or.inr rfl
  | pass => exact Or.inl rfl

/-- A fault that is due is found by the scan. -/
theorem scan_due {x : FaultPtr} {servicedAt : Word} (standing : Standing fuel q c s₀ s done [x] rest)
    (due : verdict q c (s.mem x) = .due servicedAt) :
    scan fuel q c s = some (serviced s x servicedAt, some x) := by
  rw [standing.scan_here (by rw [due]; simp), due]

theorem scan_stop {x : FaultPtr} (standing : Standing fuel q c s₀ s done [x] rest)
    (stops : verdict q c (s.mem x) = .stop) : scan fuel q c s = some (s, none) := by
  rw [standing.scan_here (by rw [stops]; simp), stops]

theorem not_halts_of_last {p : InjectedFault} {servicedAt : Word}
    (due : verdict q c p = .due servicedAt) (last : p.occurrence = 1) :
    ¬ Halts q c clockEdge p := by
  rintro (stops | ⟨_, again, _⟩)
  · rw [due] at stops
    cases stops
  · exact again last

theorem not_halts_of_passed {p : InjectedFault} {servicedAt : Word}
    (due : verdict q c p = .due servicedAt)
    (passes : verdict q c (rescheduled clockEdge p) = .pass) : ¬ Halts q c clockEdge p := by
  rintro (stops | ⟨_, _, stops⟩)
  · rw [due] at stops
    cases stops
  · rw [passes] at stops
    cases stops

theorem processes_sublist (standing : Standing fuel q c s₀ s done [] rest)
    (none' : NoneRepeats q c clockEdge s₀ value rest)
    (begun : Processes fuel q c clockEdge fired value s) : fired.Sublist rest := by
  induction rest generalizing done s value fired with
  | nil =>
      rw [processes_of_scan_none standing.scan_end begun]
  | cons x rest ih =>
      have sameVerdict : verdict q c (s.mem x) = verdict q c (s₀.mem x) :=
        verdict_congr (standing.same x List.mem_cons_self)
      cases decided : verdict q c (s₀.mem x) with
      | pass =>
          have further := ih (standing.next.pass (sameVerdict.trans decided))
            ((noneRepeats_pass decided).mp none') begun
          exact further.cons x
      | stop =>
          have ends := scan_stop standing.next (sameVerdict.trans decided)
          rw [processes_of_scan_none ends begun]
          exact List.nil_sublist _
      | due servicedAt =>
          have found := scan_due standing.next (sameVerdict.trans decided)
          cases fired with
          | nil => exact List.nil_sublist _
          | cons f later =>
              obtain ⟨store, scanned, further⟩ := begun
              rw [found] at scanned
              cases scanned
              apply List.Sublist.cons_cons
              rcases further with rfl | ⟨s', value', fires, begun⟩
              · exact List.nil_sublist _
              · cases gives : (process q (s₀.mem x) value).map Prod.snd with
                | none =>
                    rw [standing.fire_none servicedAt clockEdge gives] at fires
                    cases fires
                | some value'' =>
                    obtain ⟨s'', fires', leaves, stays⟩ := standing.fire_some servicedAt clockEdge gives
                    rw [fires'] at fires
                    cases fires
                    obtain ⟨moves, open'⟩ := (noneRepeats_due decided).mp none' _ gives
                    by_cases last : (s₀.mem x).occurrence = 1
                    · exact ih (leaves last) (open' (not_halts_of_last decided last)) begun
                    · obtain ⟨stays, moved⟩ := stays last
                      rcases rescheduled_cases decided last moves with passes | stops
                      · exact ih (stays.pass (moved.trans passes))
                          (open' (not_halts_of_passed decided passes)) begun
                      · rw [processes_of_scan_none (scan_stop stays (moved.trans stops)) begun]
                        exact List.nil_sublist _

theorem exists_processed_twice (standing : Standing fuel q c s₀ s done [] rest)
    (repeats : ¬ NoneRepeats q c clockEdge s₀ value rest) :
    ∃ fired, Processes fuel q c clockEdge fired value s ∧ ¬ fired.Nodup := by
  induction rest generalizing done s value with
  | nil =>
      exfalso
      apply repeats
      intro before f after split
      simp at split
  | cons x rest ih =>
      have sameVerdict : verdict q c (s.mem x) = verdict q c (s₀.mem x) :=
        verdict_congr (standing.same x List.mem_cons_self)
      cases decided : verdict q c (s₀.mem x) with
      | pass =>
          rw [noneRepeats_pass decided] at repeats
          exact ih (standing.next.pass (sameVerdict.trans decided)) repeats
      | stop => exact absurd (noneRepeats_stop decided) repeats
      | due servicedAt =>
          have found := scan_due standing.next (sameVerdict.trans decided)
          rw [noneRepeats_due decided] at repeats
          push Not at repeats
          obtain ⟨value', gives, some'⟩ := repeats
          obtain ⟨s', fires, leaves, stays⟩ := standing.fire_some servicedAt clockEdge gives
          have continues : ∀ later, Processes fuel q c clockEdge later value' s' → ¬ later.Nodup →
              ∃ fired, Processes fuel q c clockEdge fired value s ∧ ¬ fired.Nodup := by
            intro later begun twice
            refine ⟨x :: later, ⟨_, found, Or.inr ⟨s', value', fires, begun⟩⟩, ?_⟩
            exact fun distinct => twice (List.nodup_cons.mp distinct).2
          by_cases again : Repeats clockEdge (s₀.mem x)
          · obtain ⟨stays, moved⟩ := stays again.1
            obtain ⟨later, dueAgain⟩ := (verdict_rescheduled_due_iff decided).mpr
              (nextTiming_eq_iff.mpr again.2)
            have foundAgain := scan_due stays (moved.trans dueAgain)
            refine ⟨[x, x], ⟨_, found, Or.inr ⟨s', value', fires, ?_⟩⟩, by simp⟩
            exact ⟨_, foundAgain, Or.inl rfl⟩
          · obtain ⟨isOpen, further⟩ := some' again
            by_cases last : (s₀.mem x).occurrence = 1
            · obtain ⟨later, begun, twice⟩ := ih (leaves last) further
              exact continues later begun twice
            · obtain ⟨stays, moved⟩ := stays last
              rcases rescheduled_cases decided last again with passes | stops
              · obtain ⟨later, begun, twice⟩ := ih (stays.pass (moved.trans passes)) further
                exact continues later begun twice
              · exact absurd (Or.inr ⟨⟨servicedAt, decided⟩, last, stops⟩) isOpen

/-- The loop of a hook ends where nothing repeats, in a round for each fault and a last one,
unless a fault stops the program. -/
theorem fireLoop_returns {call : HookCall} {fi : FiSystem} (rounds : Nat)
    (standing : Standing fuel q c s₀ fi.store done [] rest)
    (none' : NoneRepeats q c call.clockEdge s₀ value rest)
    (completes : ∀ x ∈ rest, ∀ value, process q (s₀.mem x) value ≠ none)
    (enough : rest.length < rounds) :
    ∃ result, fireLoop fuel q c call rounds value fi = some result := by
  induction rest generalizing done fi value rounds with
  | nil =>
      obtain ⟨rounds, rfl⟩ := Nat.exists_eq_succ_of_ne_zero (Nat.ne_of_gt enough)
      exact ⟨_, fireLoop_idle standing.scan_end⟩
  | cons x rest ih =>
      have sameVerdict : verdict q c (fi.store.mem x) = verdict q c (s₀.mem x) :=
        verdict_congr (standing.same x List.mem_cons_self)
      have laterComplete : ∀ y ∈ rest, ∀ value, process q (s₀.mem y) value ≠ none :=
        fun y member => completes y (List.mem_cons_of_mem x member)
      obtain ⟨rounds, rfl⟩ := Nat.exists_eq_succ_of_ne_zero (Nat.ne_zero_of_lt enough)
      have fewer : rest.length < rounds := Nat.lt_of_succ_lt_succ enough
      cases decided : verdict q c (s₀.mem x) with
      | pass =>
          exact ih (rounds + 1) (standing.next.pass (sameVerdict.trans decided))
            ((noneRepeats_pass decided).mp none') laterComplete (Nat.lt_succ_of_lt fewer)
      | stop => exact ⟨_, fireLoop_idle (scan_stop standing.next (sameVerdict.trans decided))⟩
      | due servicedAt =>
          have found := scan_due standing.next (sameVerdict.trans decided)
          obtain ⟨value', gives⟩ := Option.ne_none_iff_exists'.mp fun isNone =>
            completes x List.mem_cons_self value (Option.map_eq_none_iff.mp isNone)
          obtain ⟨s', fires, leaves, stays⟩ := standing.fire_some servicedAt call.clockEdge gives
          obtain ⟨moves, open'⟩ := (noneRepeats_due decided).mp none' _ gives
          have continues : (∃ result, fireLoop fuel q c call rounds value' (firedOne fi q call x s') =
              some result) → ∃ result, fireLoop fuel q c call (rounds + 1) value fi = some result := by
            rintro ⟨result, looped⟩
            rw [fireLoop_found found, fires, Option.bind_some, looped]
            exact ⟨_, rfl⟩
          apply continues
          by_cases last : (s₀.mem x).occurrence = 1
          · have stands := leaves last
            rw [← firedOne_store fi q call x s'] at stands
            exact ih rounds stands (open' (not_halts_of_last decided last)) laterComplete fewer
          · obtain ⟨stays, moved⟩ := stays last
            rcases rescheduled_cases decided last moves with passes | stops
            · have stands := stays.pass (moved.trans passes)
              rw [← firedOne_store fi q call x s'] at stands
              exact ih rounds stands (open' (not_halts_of_passed decided passes)) laterComplete fewer
            · obtain ⟨rounds, rfl⟩ := Nat.exists_eq_succ_of_ne_zero (Nat.ne_zero_of_lt fewer)
              have idle : scan fuel q c (firedOne fi q call x s').store =
                  some ((firedOne fi q call x s').store, none) := by
                rw [firedOne_store]
                exact scan_stop stays (moved.trans stops)
              exact ⟨_, fireLoop_idle idle⟩

theorem processes_of_fireLoop {call : HookCall} {fi fi' : FiSystem} {value' : StageValue q}
    (rounds : Nat) (returned : fireLoop fuel q c call rounds value fi = some (fi', value', fired)) :
    Processes fuel q c call.clockEdge fired value fi.store := by
  induction rounds generalizing value fi fired with
  | zero => cases returned
  | succ rounds ih =>
      obtain ⟨⟨store, found⟩, scanned, rest⟩ := Option.bind_eq_some_iff.mp returned
      cases found with
      | none =>
          cases rest
          exact True.intro
      | some f =>
          rw [fireLoop_found scanned] at returned
          obtain ⟨⟨s', value''⟩, fires, rest⟩ := Option.bind_eq_some_iff.mp returned
          obtain ⟨⟨_, _, later⟩, looped, result⟩ := Option.bind_eq_some_iff.mp rest
          cases result
          have further := ih looped
          rw [firedOne_store] at further
          exact ⟨store, scanned, Or.inr ⟨s', value'', fires, further⟩⟩

end Loop

/-- An event processes each fault of a well-formed queue at most once, and so no more faults than
the queue has, exactly when it comes to no fault that keeps its trigger. -/
theorem processed_once_iff {fuel : Nat} {q : StageQueue} {c : ScanContext} {clockEdge : Word}
    {s : FaultStore} {inside lists : StageQueue → List FaultPtr} {value : StageValue q}
    (holds : Holds ⟨s, inside⟩ lists) (enough : (lists q).length < fuel) :
    (∀ fired, Processes fuel q c clockEdge fired value s →
      fired.Nodup ∧ fired.length ≤ (lists q).length) ↔
      NoneRepeats q c clockEdge s value (lists q) := by
  have standing : Standing fuel q c s s [] [] (lists q) := by
    refine ⟨⟨inside, lists, holds, rfl⟩, ?_, fun _ _ => rfl, enough⟩
    intro y member
    cases member
  constructor
  · intro once
    by_contra repeats
    obtain ⟨fired, begun, twice⟩ := exists_processed_twice standing repeats
    exact twice (once fired begun).1
  · intro none' fired begun
    have inOrder := processes_sublist standing none' begun
    exact ⟨(holds.held.linked q).nodup.sublist inOrder, inOrder.length_le⟩

def addressFault (occurrence : Int) : FaultRecord := fetchRecord .virtualAddr 4 occurrence

def addressMemory (occurrence : Int) : FaultStore :=
  -- the memory after one such line of the fault file
  (load 2 (addressFault occurrence) clearMemory).getD clearMemory

def atAddress : ScanContext where
  allthreads := { ThreadEnabledFault.new (-1) "system.cpu" with all := ⟨1, 0, 0, 500⟩ }
  thread := { ThreadEnabledFault.new 0 "system.cpu" with
    all := ⟨1, 0, 0, 500⟩
    magicInstVirtualAddr := 0x1000 }
  curCpu := "system.cpu"
  vaddr := 0x1004

theorem addressMemory_holds (occurrence : Int) :
    Holds ⟨addressMemory occurrence, Function.update (fun _ => []) .fetchStage [0]⟩
      (Function.update (fun _ => []) .fetchStage [0]) :=
  singleFault_holds (addressFault occurrence)

theorem processed_once_at_address :
    (∀ fired, Processes 2 .fetchStage atAddress 500 fired 0 (addressMemory 1) →
      fired.Nodup ∧ fired.length ≤ 1) ↔
      NoneRepeats .fetchStage atAddress 500 (addressMemory 1) 0 [0] :=
  processed_once_iff (addressMemory_holds 1) (by decide)

/-- A fault with two occurrences is processed twice by one fetch. -/
theorem address_fault_fires_twice :
    (∃ inside lists, Holds ⟨addressMemory 2, inside⟩ lists) ∧
      ∃ fired, Processes 2 .fetchStage atAddress 500 fired 0 (addressMemory 2) ∧ ¬ fired.Nodup := by
  refine ⟨⟨_, _, addressMemory_holds 2⟩, [0, 0], ?_, by decide⟩
  exact ⟨_, rfl, Or.inr ⟨_, _, rfl, _, rfl, Or.inl rfl⟩⟩

end GemFi.OncePerEvent
