import GemFi.LsqExecution
import GemFi.LsqMarks
import GemFi.LsqWriteBack
import GemFi.Transitions

/-!
Orderly runs of the load and store queues: no operation stops, and the queues stay well formed. A
squash spares the marked stores; they are those that are committed, and the store conditionals that
have executed.
-/

namespace GemFi.LsqRuns

open Rings Outcomes Transitions LsqUnit LsqUnit.LSQUnit LsqInvariant LsqMarks LsqWriteBack
  LsqExecution

variable {u : LSQUnit} {doneSeqNum : InstSeqNum} {loads : List InstSeqNum} {stores : List SQEntry}
  {sent : Nat} {m : Machine}

theorem loadSlots_eq (inv : Consistent u doneSeqNum loads stores sent) :
    u.loadSlots = loads.map some := by
  rw [loadSlots, inv.loadRing.toNat_eq]
  exact inv.loadRing.held

theorem storeSlots_eq (inv : Consistent u doneSeqNum loads stores sent) :
    u.storeSlots = stores := by
  rw [storeSlots, inv.storeRing.toNat_eq]
  exact inv.storeRing.held

theorem sentCount_eq (inv : Consistent u doneSeqNum loads stores sent) : u.sentCount = sent := by
  have room := inv.storeRing.room
  have sent_le := inv.sent_le
  rw [sentCount, inv.storeWBIdx, slot_sub (by omega), Int.toNat_natCast]

/-- The machine is in a state that the invariant describes. -/
def Sound (m : Machine) : Prop :=
  ∃ loads stores sent, Consistent m.lsq m.doneSeqNum loads stores sent

theorem youngest_iff (inv : Consistent u doneSeqNum loads stores sent) (inst : InstSeqNum) :
    Youngest u inst ↔ (∀ other ∈ loads, other < inst) ∧ ∀ entry ∈ stores, entry.seqNum < inst := by
  rw [Youngest, loadSlots_eq inv, storeSlots_eq inv]
  simp

theorem executes_of_orderly (inv : Consistent m.lsq m.doneSeqNum loads stores sent) {inst : InstSeqNum}
    {access : StoreAccess} (orderly : Orderly m (.executeStore inst access)) :
    ∃ offset entry, Executes m.lsq m.doneSeqNum loads stores offset entry inst access := by
  obtain ⟨⟨entry, member, named, fresh, unmarked⟩, open', isStore, live, writes, _⟩ := orderly
  rw [storeSlots_eq inv] at member
  obtain ⟨offset, within, is⟩ := List.getElem_of_mem member
  have read : stores[offset]? = some entry := List.getElem?_eq_some_iff.mpr ⟨within, is⟩
  have name : entry.seqNum = inst := by rw [SQEntry.seqNum, named]; rfl
  refine ⟨offset, entry, read, name, fresh, unmarked, open', isStore, live, ?_, ?_⟩
  · rintro req data rfl
    exact writes.1
  · rintro req data rfl conditional
    obtain ⟨notIpr, lastLoad, lastStore⟩ := writes.2 conditional
    rw [loadSlots_eq inv] at lastLoad
    rw [storeSlots_eq inv] at lastStore
    refine ⟨notIpr, ?_, ?_⟩
    · intro first older before found
      apply lastStore older (List.mem_of_getElem? found)
      have sorted := List.pairwise_iff_getElem.mp inv.storesSorted first offset
      obtain ⟨inside, isOlder⟩ := List.getElem?_eq_some_iff.mp found
      have less := sorted (by simpa using inside) (by simpa using within) before
      simpa [isOlder, is, name] using less
    · intro load loaded notDone
      by_contra notBefore
      have reached := lastLoad (some load) (by simpa using loaded) load rfl (Nat.not_lt.mp notBefore)
      exact absurd notDone (Nat.not_lt.mpr reached)

theorem step_of_perform {action : Action} {u' : LSQUnit} (performed : perform m.lsq action = .ok u') :
    step m action = some ⟨u', doneAfter m.doneSeqNum action⟩ := by
  rw [step, performed]
  rfl

/-- Every orderly action completes and keeps the invariant. -/
theorem step_sound (m : Machine) (action : Action) (sound : Sound m) (orderly : Orderly m action) :
    ∃ next, step m action = some next ∧ Sound next := by
  obtain ⟨loads, stores, sent, inv⟩ := sound
  cases action with
  | insertLoad inst =>
      obtain ⟨room, youngest⟩ := orderly
      obtain ⟨afterLoads, afterStores⟩ := (youngest_iff inv inst).mp youngest
      have counted := inv.loadRing.counted
      rw [List.length_map] at counted
      obtain ⟨u', inserted, kept⟩ := insertLoad_keeps inv (by omega) afterLoads afterStores
      exact ⟨_, step_of_perform inserted, _, _, _, kept⟩
  | insertStore inst =>
      obtain ⟨room, youngest, noPrefetch⟩ := orderly
      obtain ⟨afterLoads, afterStores⟩ := (youngest_iff inv inst).mp youngest
      have counted := inv.storeRing.counted
      obtain ⟨u', inserted, kept⟩ := insertStore_keeps inv (by omega) afterLoads afterStores noPrefetch
      exact ⟨_, step_of_perform inserted, _, _, _, kept⟩
  | executeLoad inst access =>
      obtain ⟨member, open', live, _⟩ := orderly
      rw [loadSlots_eq inv] at member
      obtain ⟨offset, within, is⟩ := List.getElem_of_mem (by simpa using member : inst ∈ loads)
      obtain ⟨result, executed, kept⟩ := executeLoad_keeps inv
        (List.getElem?_eq_some_iff.mpr ⟨within, is⟩) open' live access
      refine ⟨⟨result.2, m.doneSeqNum⟩, step_of_perform ?_, _, _, _, kept⟩
      rw [perform, executed]
      rfl
  | executeStore inst access =>
      obtain ⟨offset, entry, executes⟩ := executes_of_orderly inv orderly
      obtain ⟨result, stores', executed, kept⟩ := executeStore_keeps inv executes
      refine ⟨⟨result.2, m.doneSeqNum⟩, step_of_perform ?_, _, _, _, kept⟩
      rw [perform, executed]
      rfl
  | commitLoads youngest_inst =>
      obtain ⟨u', rest, committed, kept⟩ := commitLoads_keeps inv orderly
      exact ⟨_, step_of_perform committed, _, _, _, kept⟩
  | commitStores youngest_inst =>
      obtain ⟨u', stores', committed, kept⟩ := commitStores_keeps inv orderly
      exact ⟨_, step_of_perform committed, _, _, _, kept⟩
  | writebackStore attempt =>
      obtain ⟨u', stores', sent', wrote, kept⟩ := writebackStore_keeps inv attempt
      exact ⟨_, step_of_perform wrote, _, _, _, kept⟩
  | recvRetry isSent =>
      obtain ⟨u', sent', retried, kept⟩ := recvRetry_keeps inv isSent
      exact ⟨_, step_of_perform retried, _, _, _, kept⟩
  | completeStore store_idx =>
      obtain ⟨⟨offset, before, rfl⟩, unanswered⟩ := orderly
      rw [sentCount_eq inv] at before
      have inside : offset < stores.length := Nat.lt_of_lt_of_le before inv.sent_le
      have found : stores[offset]? = some stores[offset] := List.getElem?_eq_getElem inside
      rw [inv.storeRing.getElem? found] at unanswered
      obtain ⟨u', stores', sent', completed, kept⟩ := completeStore_keeps inv found before unanswered
      exact ⟨_, step_of_perform completed, _, _, _, kept⟩
  | squash squashed_num =>
      obtain ⟨u', squashed, kept⟩ := squash_keeps inv orderly
      exact ⟨_, step_of_perform squashed, _, _, _, kept⟩
  | getMemDepViolator => exact ⟨_, rfl, _, _, _, setViolator_keeps inv none⟩
  | clearLoadBlocked =>
      exact ⟨_, rfl, _, _, _, inv.frame (.beside fun inst => sameInst_refl _) inv.waiting⟩
  | setLoadBlockedHandled =>
      exact ⟨_, rfl, _, _, _, inv.frame (.beside fun inst => sameInst_refl _) inv.waiting⟩
  | snoopHit inst => exact ⟨_, rfl, _, _, _, setInst_keeps inv ⟨rfl, rfl, rfl, rfl, id⟩⟩

def start (maxLQEntries maxSQEntries depCheckShift : Nat) (checkLoads needsTSO : Bool)
    (insts : InstSeqNum → DynInst) : Machine :=
  -- the unit before anything is dispatched
  ⟨init maxLQEntries maxSQEntries depCheckShift checkLoads needsTSO insts, 0⟩

theorem start_sound (maxLQEntries maxSQEntries depCheckShift : Nat) (checkLoads needsTSO : Bool)
    (insts : InstSeqNum → DynInst) :
    Sound (start maxLQEntries maxSQEntries depCheckShift checkLoads needsTSO insts) :=
  ⟨[], [], 0, init_consistent maxLQEntries maxSQEntries depCheckShift checkLoads needsTSO insts 0⟩

theorem reached_sound {actions : List Action} {reached : Machine} (sound : Sound m)
    (orderly : Admissible step Orderly actions m) (ran : run step actions m = some reached) :
    Sound reached := by
  obtain ⟨final, completed, holds⟩ := run_completes step_sound actions m sound orderly
  rw [ran] at completed
  cases completed
  exact holds

/-- The occupied slots are those from the head to the tail; they hold instructions, the oldest
first; `storeWBIdx` stands among them, and the counters agree with them. -/
structure WellFormed (u : LSQUnit) : Prop where
  loads : u.loads = ((u.loadTail : Int) - u.loadHead) % u.LQEntries
  stores : u.stores = ((u.storeTail : Int) - u.storeHead) % u.SQEntries
  loadsOrdered : ∃ seqNums : List InstSeqNum,
    u.loadSlots = seqNums.map some ∧ seqNums.Pairwise (· < ·)
  storesOrdered : ∃ seqNums : List InstSeqNum,
    u.storeSlots.map SQEntry.inst = seqNums.map some ∧ seqNums.Pairwise (· < ·)
  storeWBIdx : ∃ sent : Nat, sent ≤ u.stores ∧ u.storeWBIdx = slot u.SQEntries u.storeHead sent
  storesToWB : u.storesToWB = u.storeSlots.countP SQEntry.pending

theorem Sound.wellFormed (sound : Sound m) : WellFormed m.lsq := by
  obtain ⟨loads, stores, sent, inv⟩ := sound
  constructor
  · exact inv.loadRing.count_eq
  · exact inv.storeRing.count_eq
  · exact ⟨loads, loadSlots_eq inv, inv.loadsSorted⟩
  · refine ⟨stores.map SQEntry.seqNum, ?_, inv.storesSorted⟩
    rw [storeSlots_eq inv, List.map_map]
    apply List.map_congr_left
    intro entry member
    obtain ⟨offset, within, is⟩ := List.getElem_of_mem member
    exact (inv.entries offset entry (List.getElem?_eq_some_iff.mpr ⟨within, is⟩)).named
  · refine ⟨sent, ?_, inv.storeWBIdx⟩
    rw [inv.storeRing.counted]
    exact_mod_cast inv.sent_le
  · rw [storeSlots_eq inv]
    exact inv.counted

theorem squash_spares {squashed_num : InstSeqNum} {next : Machine} (sound : Sound m)
    (notBelow : m.doneSeqNum ≤ squashed_num) (stepped : step m (.squash squashed_num) = some next) :
    next.lsq.loadSlots =
        m.lsq.loadSlots.filter (fun slot => slot.all fun load => decide (load ≤ squashed_num)) ∧
      next.lsq.storeSlots =
        m.lsq.storeSlots.filter fun entry => entry.canWB || decide (entry.seqNum ≤ squashed_num) := by
  obtain ⟨loads, stores, sent, inv⟩ := sound
  obtain ⟨u', squashed, kept⟩ := squash_keeps inv notBelow
  have performed : perform m.lsq (.squash squashed_num) = .ok u' := squashed
  rw [step_of_perform performed] at stepped
  cases stepped
  refine ⟨?_, ?_⟩
  · rw [loadSlots_eq kept, loadSlots_eq inv, List.filter_map]
    rfl
  · rw [storeSlots_eq kept, storeSlots_eq inv]

section Marks

variable {early : InstSeqNum → Prop}

theorem perform_tidy {action : Action} (sound : Sound m) (tidy : Tidy early m.doneSeqNum m.lsq)
    (orderly : Orderly m action) :
    EndsTidy early (doneAfter m.doneSeqNum action) (perform m.lsq action) := by
  cases action with
  | insertLoad inst => exact tidy.insertLoad inst
  | insertStore inst => exact tidy.insertStore inst
  | executeLoad inst access => exact (tidy.executeLoad inst orderly.2.2.2).map
  | executeStore inst access =>
      refine (tidy.executeStore inst ?_ orderly.2.2.2.2.2).map
      obtain ⟨loads, stores, sent, inv⟩ := sound
      obtain ⟨offset, entry, executes⟩ := executes_of_orderly inv orderly
      have ok := inv.entries offset entry executes.read
      have own := ok.own
      intro store_idx isOwn
      rw [executes.named, Option.mem_def.mp isOwn] at own
      rw [Option.some.inj own, inv.storeRing.getElem? executes.read, ok.named, executes.named]
  | commitLoads youngest_inst =>
      exact (ends_anyhow _).bind fun _ _ =>
        commitLoadsLoop_tidy _ _ _ (tidy.later (le_max_left _ _))
  | commitStores youngest_inst =>
      exact (ends_anyhow _).bind fun _ _ =>
        commitStoresLoop_tidy (le_max_right _ _) _ _ _ (tidy.later (le_max_left _ _))
  | writebackStore attempt => exact writebackStore_tidy tidy attempt
  | recvRetry sent => exact recvRetry_tidy tidy sent
  | completeStore store_idx => exact completeStore_tidy tidy store_idx
  | squash squashed_num => exact squash_tidy tidy squashed_num
  | getMemDepViolator => exact ⟨tidy.addressed, tidy.marked⟩
  | clearLoadBlocked => exact ⟨tidy.addressed, tidy.marked⟩
  | setLoadBlockedHandled => exact ⟨tidy.addressed, tidy.marked⟩
  | snoopHit inst => exact tidy.setInst inst _ (tidy.addressed inst) rfl

theorem reached_tidy {actions : List Action} {reached : Machine} (sound : Sound m)
    (tidy : Tidy early m.doneSeqNum m.lsq) (orderly : Admissible step Orderly actions m)
    (ran : run step actions m = some reached) :
    Sound reached ∧ Tidy early reached.doneSeqNum reached.lsq := by
  have step_keeps (m : Machine) (action : Action)
      (both : Sound m ∧ Tidy early m.doneSeqNum m.lsq) (orderly : Orderly m action) :
      ∃ next, step m action = some next ∧ Sound next ∧ Tidy early next.doneSeqNum next.lsq := by
    obtain ⟨next, stepped, soundNext⟩ := step_sound m action both.1 orderly
    obtain ⟨lsq, performed, rfl⟩ := Option.map_eq_some_iff.mp stepped
    exact ⟨_, stepped, soundNext,
      (perform_tidy both.1 both.2 orderly).of_ok (eq_ok_of_toOption performed)⟩
  obtain ⟨final, completed, holds⟩ := run_completes step_keeps actions m ⟨sound, tidy⟩ orderly
  rw [ran] at completed
  cases completed
  exact holds

end Marks

section Squash

/-- The loads and the uncommitted stores that are younger are gone, and nothing else is. -/
def SquashedExactly (m next : Machine) (squashed_num : InstSeqNum) : Prop :=
  next.lsq.loadSlots =
      m.lsq.loadSlots.filter (fun slot => slot.all fun load => decide (load ≤ squashed_num)) ∧
    next.lsq.storeSlots = m.lsq.storeSlots.filter fun entry =>
      decide (entry.seqNum ≤ m.doneSeqNum) || decide (entry.seqNum ≤ squashed_num)

def SquashExact (m : Machine) : Action → Prop
  | .squash squashed_num => ∀ next, step m (.squash squashed_num) = some next →
      SquashedExactly m next squashed_num
  | _ => True

def ConditionalsOlder (m : Machine) : Action → Prop
  | .squash squashed_num => ∀ entry ∈ m.lsq.storeSlots, entry.canWB = true →
      (m.lsq.insts entry.seqNum).isStoreConditional = true → entry.seqNum ≤ squashed_num
  | _ => True

theorem squashExact_iff {early : InstSeqNum → Prop} {action : Action} (sound : Sound m)
    (tidy : Tidy early m.doneSeqNum m.lsq) (orderly : Orderly m action) :
    SquashExact m action ↔ ConditionalsOlder m action := by
  cases action with
  | squash squashed_num =>
      have notBelow : m.doneSeqNum ≤ squashed_num := orderly
      obtain ⟨next, stepped, _⟩ := step_sound m _ sound orderly
      obtain ⟨loadsLeft, storesLeft⟩ := squash_spares sound notBelow stepped
      constructor
      · intro exact' entry member isMarked _
        have spared : entry ∈ next.lsq.storeSlots := by
          rw [storesLeft]
          exact List.mem_filter.mpr ⟨member, by rw [isMarked, Bool.true_or]⟩
        rw [(exact' next stepped).2] at spared
        have old := (List.mem_filter.mp spared).2
        simp only [Bool.or_eq_true, decide_eq_true_eq] at old
        exact old.elim notBelow.trans' id
      · intro older other again
        cases stepped.symm.trans again
        refine ⟨loadsLeft, storesLeft.trans (List.filter_congr fun entry member => ?_)⟩
        -- a marked store that is no store conditional is committed
        have marked_le (isMarked : entry.canWB = true) : entry.seqNum ≤ squashed_num := by
          obtain ⟨loads, stores, sent, inv⟩ := sound
          have held := storeSlots_eq inv ▸ member
          obtain ⟨offset, within, is⟩ := List.getElem_of_mem held
          have found : stores[offset]? = some entry := List.getElem?_eq_some_iff.mpr ⟨within, is⟩
          have atSlot := inv.storeRing.getElem? found
          obtain conditional | done := tidy.marked _ entry.seqNum
            (by rw [atSlot]; exact (inv.entries offset entry found).named) (by rw [atSlot]; exact isMarked)
          · exact older entry member isMarked conditional
          · exact done.trans notBelow
        rw [Bool.eq_iff_iff, Bool.or_eq_true, Bool.or_eq_true, decide_eq_true_eq, decide_eq_true_eq]
        exact ⟨fun either => .inr (either.elim marked_le id),
          fun either => .inr (either.elim notBelow.trans' id)⟩
  | _ => exact Iff.rfl

/-- Over every orderly run no operation stops and the queues are well formed in each state; each
squash removes exactly the younger loads and the younger uncommitted stores if and only if none
comes over a younger store conditional that has executed. -/
theorem queues_stay_well_formed (maxLQEntries maxSQEntries depCheckShift : Nat)
    (checkLoads needsTSO : Bool) (insts : InstSeqNum → DynInst) (actions : List Action)
    (orderly : Admissible step Orderly actions
      (start maxLQEntries maxSQEntries depCheckShift checkLoads needsTSO insts)) :
    (∃ reached, run step actions
      (start maxLQEntries maxSQEntries depCheckShift checkLoads needsTSO insts) = some reached) ∧
    Always step (fun m => WellFormed m.lsq) actions
      (start maxLQEntries maxSQEntries depCheckShift checkLoads needsTSO insts) ∧
    (Admissible step SquashExact actions
        (start maxLQEntries maxSQEntries depCheckShift checkLoads needsTSO insts) ↔
      Admissible step ConditionalsOlder actions
        (start maxLQEntries maxSQEntries depCheckShift checkLoads needsTSO insts)) := by
  have sound := start_sound maxLQEntries maxSQEntries depCheckShift checkLoads needsTSO insts
  have tidy := init_tidy 0 maxLQEntries maxSQEntries depCheckShift checkLoads
    needsTSO insts
  have each (before : List Action) (action : Action) (after : List Action) (reached : Machine)
      (split : actions = before ++ action :: after)
      (ran : run step before
        (start maxLQEntries maxSQEntries depCheckShift checkLoads needsTSO insts) = some reached) :
      SquashExact reached action ↔ ConditionalsOlder reached action := by
    have orderlyBefore : Admissible step Orderly before
        (start maxLQEntries maxSQEntries depCheckShift checkLoads needsTSO insts) := by
      subst split
      exact orderly.initial
    obtain ⟨soundReached, tidyReached⟩ := reached_tidy sound tidy orderlyBefore ran
    exact squashExact_iff soundReached tidyReached (orderly before action after reached split ran)
  refine ⟨?_, ?_, ?_, ?_⟩
  · obtain ⟨reached, ran, _⟩ := run_completes step_sound actions _ sound orderly
    exact ⟨reached, ran⟩
  · intro before after reached split ran
    subst split
    exact (reached_sound sound orderly.initial ran).wellFormed
  · intro exact' before action after reached split ran
    exact (each before action after reached split ran).mp (exact' before action after reached split ran)
  · intro older before action after reached split ran
    exact (each before action after reached split ran).mpr (older before action after reached split ran)

def dispatched : DynInst where
  isLoad := false
  isStoreConditional := false
  isDataPrefetch := false
  squashed := false
  lqIdx := 0
  sqIdx := none
  effAddr := 0
  effSize := 0
  effAddrValid := false
  uncacheable := false
  possibleLoadViolation := false
  hitExternalSnoop := false

def conditionalFirst (inst : InstSeqNum) : DynInst :=
  { dispatched with isStoreConditional := decide (inst = 1) }

def squashedBehindStore : List Action :=
  -- the store conditional is written back and answered around a squash of what came after it
  [.insertStore 1, .insertLoad 2, .insertStore 3,
    .executeStore 1 (.written ⟨64, 8, false, false, false⟩ fun _ => 7),
    .commitStores 1, .writebackStore ⟨false, true, true⟩, .squash 1, .completeStore 0]

theorem queues_stay_well_formed_around_squash :
    (∃ reached, run step squashedBehindStore (start 2 2 4 true false conditionalFirst) =
      some reached) ∧
    Always step (fun m => WellFormed m.lsq) squashedBehindStore
      (start 2 2 4 true false conditionalFirst) ∧
    (Admissible step SquashExact squashedBehindStore (start 2 2 4 true false conditionalFirst) ↔
      Admissible step ConditionalsOlder squashedBehindStore
        (start 2 2 4 true false conditionalFirst)) :=
  queues_stay_well_formed 2 2 4 true false conditionalFirst squashedBehindStore
    (admissible_of_admits (by decide))

def squashedConditional : List Action :=
  -- a store conditional has executed, and is squashed before it commits
  [.insertStore 1, .executeStore 1 (.written ⟨64, 8, false, false, false⟩ fun _ => 7), .squash 0]

theorem executed_conditional_stays :
    Admissible step Orderly squashedConditional
      (start 2 2 4 true false conditionalFirst) ∧
    ¬ Admissible step SquashExact squashedConditional
      (start 2 2 4 true false conditionalFirst) := by
  refine ⟨admissible_of_admits (by decide), fun exact' => ?_⟩
  have squashed := (exact' (squashedConditional.take 2) (.squash 0) [] _ rfl rfl _ rfl).2
  have left := congrArg (List.map SQEntry.inst) squashed
  exact absurd left (by decide)

end Squash

end GemFi.LsqRuns
