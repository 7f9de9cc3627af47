import GemFi.BranchPredictor
import Mathlib.Data.List.TakeWhile

/-!
Squashes of the branch predictor over whole runs (cpu/pred/bpred_unit_impl.hh): a squash brings the
global history and the top of the return address stack back to where they were, whatever younger
branches were predicted, squashed or committed in between, and a misprediction leaves the history that
the branch would have made with its right direction.
-/

namespace GemFi.BranchRollback

open Transitions BranchPredictor BPredUnit

/-! ## One squash -/

section Squash

variable {params : TournamentParams} {unit after start : BPredUnit} {bp bp' : TournamentBP}
  {ras ras' : ReturnAddrStack} {records older : List PredictorHistory} {record : PredictorHistory}
  {squashed seqNum done : ℕ}

structure SameSpeculation (bp bp' : TournamentBP) (ras ras' : ReturnAddrStack) : Prop where
  globalHistory : bp.globalHistory = bp'.globalHistory
  numEntries : ras.numEntries = ras'.numEntries
  tos : ras.tos = ras'.tos

theorem SameSpeculation.trans {bp'' : TournamentBP} {ras'' : ReturnAddrStack}
    (first : SameSpeculation bp bp' ras ras') (second : SameSpeculation bp' bp'' ras' ras'') :
    SameSpeculation bp bp'' ras ras'' :=
  ⟨first.globalHistory.trans second.globalHistory, first.numEntries.trans second.numEntries,
    first.tos.trans second.tos⟩

theorem SameSpeculation.rewind (same : SameSpeculation bp bp' ras ras') (record : PredictorHistory) :
    SameSpeculation (bp.squash record.bpHistory) (bp'.squash record.bpHistory) (rewindRAS ras record)
      (rewindRAS ras' record) := by
  obtain ⟨_, numEntries, tos⟩ := same
  unfold rewindRAS
  split
  · exact ⟨rfl, numEntries, rfl⟩
  · split
    · refine ⟨rfl, numEntries, ?_⟩
      simp only [ReturnAddrStack.pop, ReturnAddrStack.decrTos, numEntries, tos]
    · exact ⟨rfl, numEntries, tos⟩

theorem squashFrom_young (rest : List PredictorHistory) (young : record.seqNum > squashed) :
    squashFrom squashed (record :: rest) bp ras =
      squashFrom squashed rest (bp.squash record.bpHistory) (rewindRAS ras record) := if_pos young

theorem squashFrom_stop (rest : List PredictorHistory) (stays : ¬record.seqNum > squashed) :
    squashFrom squashed (record :: rest) bp ras = (record :: rest, bp, ras) := if_neg stays

theorem squashFrom_same (squashed : ℕ) (records : List PredictorHistory)
    (same : SameSpeculation bp bp' ras ras') :
    (squashFrom squashed records bp ras).1 = (squashFrom squashed records bp' ras').1 ∧
    SameSpeculation (squashFrom squashed records bp ras).2.1 (squashFrom squashed records bp' ras').2.1
      (squashFrom squashed records bp ras).2.2 (squashFrom squashed records bp' ras').2.2 := by
  induction records generalizing bp bp' ras ras' with
  | nil => exact ⟨rfl, same⟩
  | cons record rest ih =>
      by_cases young : record.seqNum > squashed
      · rw [squashFrom_young rest young, squashFrom_young rest young]
        exact ih (same.rewind record)
      · rw [squashFrom_stop rest young, squashFrom_stop rest young]
        exact ⟨rfl, same⟩

theorem squashFrom_twice {bound : ℕ} (within : squashed ≤ bound) (records : List PredictorHistory)
    (bp : TournamentBP) (ras : ReturnAddrStack) :
    squashFrom squashed (squashFrom bound records bp ras).1 (squashFrom bound records bp ras).2.1
      (squashFrom bound records bp ras).2.2 = squashFrom squashed records bp ras := by
  induction records generalizing bp ras with
  | nil => rfl
  | cons record rest ih =>
      by_cases young : record.seqNum > bound
      · rw [squashFrom_young rest young, squashFrom_young rest (Nat.lt_of_le_of_lt within young)]
        exact ih _ _
      · rw [squashFrom_stop rest young]

theorem squashFrom_append (records : List PredictorHistory) (stay : ∀ record ∈ older, record.seqNum ≤ squashed)
    (bp : TournamentBP) (ras : ReturnAddrStack) :
    squashFrom squashed (records ++ older) bp ras =
      ((squashFrom squashed records bp ras).1 ++ older, (squashFrom squashed records bp ras).2) := by
  induction records generalizing bp ras with
  | nil =>
      cases older with
      | nil => rfl
      | cons record rest => exact squashFrom_stop rest (Nat.not_lt_of_le (stay record List.mem_cons_self))
  | cons record rest ih =>
      rw [List.cons_append]
      by_cases young : record.seqNum > squashed
      · rw [squashFrom_young _ young, squashFrom_young _ young]
        exact ih _ _
      · rw [squashFrom_stop _ young, squashFrom_stop _ young, List.cons_append]

/-- Some new end of the history is squashed, all of it younger; what comes behind it is not. -/
theorem squashFrom_suffix (squashed : ℕ) (records : List PredictorHistory) (bp : TournamentBP)
    (ras : ReturnAddrStack) :
    ∃ dropped, records = dropped ++ (squashFrom squashed records bp ras).1 ∧
      (∀ record ∈ dropped, squashed < record.seqNum) ∧
      ∀ record ∈ (squashFrom squashed records bp ras).1.head?, record.seqNum ≤ squashed := by
  induction records generalizing bp ras with
  | nil =>
      refine ⟨[], rfl, fun other member => absurd member List.not_mem_nil, fun other isHead => ?_⟩
      cases isHead
  | cons record rest ih =>
      by_cases young : record.seqNum > squashed
      · rw [squashFrom_young rest young]
        obtain ⟨dropped, split, all, stops⟩ := ih (bp.squash record.bpHistory) (rewindRAS ras record)
        refine ⟨record :: dropped, ?_, List.forall_mem_cons.mpr ⟨young, all⟩, stops⟩
        rw [List.cons_append, ← split]
      · rw [squashFrom_stop rest young]
        refine ⟨[], rfl, fun other member => absurd member List.not_mem_nil, fun other isHead => ?_⟩
        rw [← Option.some.inj isHead]
        exact Nat.le_of_not_lt young

end Squash

/-! ## One prediction -/

section Predict

variable {params : TournamentParams} {unit after : BPredUnit} {ras : ReturnAddrStack} {inst : StaticInst}
  {pc : PCState} {seqNum squashed done : ℕ}

/-- The indices of the stack that are in use lie within it. -/
structure Bounded (unit : BPredUnit) : Prop where
  tos : unit.ras.tos < unit.ras.numEntries
  records : ∀ record ∈ unit.predHist, record.usedRAS = true → record.rasIndex < unit.ras.numEntries

theorem push_pop_tos (ras : ReturnAddrStack) (returnAddr : PCState) :
    (ras.push returnAddr).pop.tos = ras.tos := by
  rw [ReturnAddrStack.tos_pop, ReturnAddrStack.tos_push, ReturnAddrStack.numEntries_push]
  by_cases last : ras.tos + 1 = ras.numEntries
  · rw [if_pos last, if_pos rfl]
    omega
  · rw [if_neg last, if_neg (Nat.succ_ne_zero ras.tos), Nat.add_sub_cancel]

theorem push_tos_lt (below : ras.tos < ras.numEntries) (returnAddr : PCState) :
    (ras.push returnAddr).tos < ras.numEntries := by
  rw [ReturnAddrStack.tos_push]
  split <;> omega

theorem pop_tos_lt (below : ras.tos < ras.numEntries) : ras.pop.tos < ras.numEntries := by
  rw [ReturnAddrStack.tos_pop]
  split <;> omega

theorem numEntries_rewind (ras : ReturnAddrStack) (record : PredictorHistory) :
    (rewindRAS ras record).numEntries = ras.numEntries := by
  unfold rewindRAS
  split
  · rfl
  · split <;> rfl

theorem rewind_tos_lt (below : ras.tos < ras.numEntries) {record : PredictorHistory}
    (index : record.usedRAS = true → record.rasIndex < ras.numEntries) :
    (rewindRAS ras record).tos < ras.numEntries := by
  unfold rewindRAS
  split
  · next used => exact index used
  · split
    · exact pop_tos_lt below
    · exact below

structure Predicted (params : TournamentParams) (unit : BPredUnit) (inst : StaticInst) (seqNum : ℕ) (pc : PCState)
    (record : PredictorHistory) (after : BPredUnit) : Prop where
  predHist : after.predHist = record :: unit.predHist
  seqNum : record.seqNum = seqNum
  instAddr : record.pc = pc.pc
  globalHistory : record.bpHistory.globalHistory = unit.bp.globalHistory
  localHistory : inst.isUncondCtrl = false → record.bpHistory.localHistory =
    unit.bp.localHistoryTable (TournamentBP.calcLocHistIdx params pc.pc) &&& params.localPredictorMask
  numEntries : after.ras.numEntries = unit.ras.numEntries
  bounded : after.ras.tos < unit.ras.numEntries
  index : record.usedRAS = true → record.rasIndex < unit.ras.numEntries
  rewinds : (rewindRAS after.ras record).tos = unit.ras.tos

/-- A branch is recorded with the history and the top of the stack that it found. -/
theorem predict_spec (params : TournamentParams) (bounded : unit.ras.tos < unit.ras.numEntries) (inst : StaticInst)
    (seqNum : ℕ) (pc : PCState) :
    ∃ record, Predicted params unit inst seqNum pc record (unit.predict params inst seqNum pc).2.2 := by
  unfold BPredUnit.predict
  obtain ⟨⟨taken, history, bp⟩, first⟩ : ∃ first,
      (if inst.isUncondCtrl then (true, unit.bp.uncondBranch params) else unit.bp.lookup params pc.pc) = first :=
    ⟨_, rfl⟩
  have globalHistory : history.globalHistory = unit.bp.globalHistory := by
    split at first <;> cases first <;> rfl
  have localHistory (conditional : inst.isUncondCtrl = false) : history.localHistory =
      unit.bp.localHistoryTable (TournamentBP.calcLocHistIdx params pc.pc) &&& params.localPredictorMask := by
    rw [conditional] at first
    cases first
    rfl
  have pushed := push_pop_tos unit.ras pc
  have unused :
      false = true → 0 < unit.ras.numEntries := fun wrong => absurd wrong Bool.false_ne_true
  simp only [first]
  by_cases isTaken : taken = true
  · simp only [if_pos isTaken]
    by_cases isReturn : inst.isReturn = true
    · simp only [if_pos isReturn]
      exact ⟨_, rfl, rfl, rfl, globalHistory, localHistory, rfl, pop_tos_lt bounded, fun _ => bounded, rfl⟩
    · simp only [if_neg isReturn]
      cases isCall : inst.isCall with
      | false =>
          simp only [Bool.false_eq_true, if_false, if_true]
          split
          all_goals exact ⟨_, rfl, rfl, rfl, globalHistory, localHistory, rfl, bounded, unused, rfl⟩
      | true =>
          -- a call that has no target comes off the stack again, unless it is unconditional
          simp only [if_true, Bool.true_eq_false, if_false]
          split
          · exact ⟨_, rfl, rfl, rfl, globalHistory, localHistory, rfl, push_tos_lt bounded pc, unused, pushed⟩
          · split
            · exact ⟨_, rfl, rfl, rfl, globalHistory, localHistory, rfl, pushed ▸ bounded, unused, pushed⟩
            · exact ⟨_, rfl, rfl, rfl, globalHistory, localHistory, rfl, push_tos_lt bounded pc, unused, pushed⟩
  · simp only [if_neg isTaken]
    exact ⟨_, rfl, rfl, rfl, globalHistory, localHistory, rfl, bounded, unused, rfl⟩

theorem Predicted.rewound {record : PredictorHistory} (predicted : Predicted params unit inst seqNum pc record after) :
    SameSpeculation (after.bp.squash record.bpHistory) unit.bp (rewindRAS after.ras record) unit.ras := by
  refine ⟨predicted.globalHistory, ?_, predicted.rewinds⟩
  exact (numEntries_rewind after.ras record).trans predicted.numEntries

end Predict

/-! ## Runs -/

section Runs

variable {params : TournamentParams} {start unit after : BPredUnit} {squashed seqNum done : ℕ}
  {btb : DefaultBTB} {rasSize : ℕ} {earlier later : List Action}

theorem squash_eq (unit : BPredUnit) (squashed : ℕ) :
    unit.squash squashed = { unit with
      predHist := (squashFrom squashed unit.predHist unit.bp unit.ras).1
      bp := (squashFrom squashed unit.predHist unit.bp unit.ras).2.1
      ras := (squashFrom squashed unit.predHist unit.bp unit.ras).2.2 } := rfl

theorem squashFrom_bounded (squashed : ℕ) (records : List PredictorHistory) {ras : ReturnAddrStack}
    (bp : TournamentBP) (tos : ras.tos < ras.numEntries)
    (indices : ∀ record ∈ records, record.usedRAS = true → record.rasIndex < ras.numEntries) :
    (squashFrom squashed records bp ras).2.2.numEntries = ras.numEntries ∧
    (squashFrom squashed records bp ras).2.2.tos < ras.numEntries := by
  induction records generalizing bp ras with
  | nil => exact ⟨rfl, tos⟩
  | cons record rest ih =>
      by_cases young : record.seqNum > squashed
      · rw [squashFrom_young rest young]
        have same := numEntries_rewind ras record
        have below := rewind_tos_lt tos (indices record List.mem_cons_self)
        have kept := ih (bp.squash record.bpHistory) (same.symm ▸ below) fun other member =>
          same.symm ▸ indices other (List.mem_cons_of_mem record member)
        rwa [same] at kept
      · rw [squashFrom_stop rest young]
        exact ⟨rfl, tos⟩

theorem update_committed (bp : TournamentBP) (branchAddr : Addr) (taken : Bool) (history : BPHistory) :
    bp.update params branchAddr taken history false = bp.train params taken history := by
  simp only [TournamentBP.update, or_true, if_true, Bool.false_eq_true, if_false]

theorem update_spec (params : TournamentParams) (unit : BPredUnit) (done : ℕ) :
    (unit.update params done).bp.globalHistory = unit.bp.globalHistory ∧
    ∃ committed, unit.predHist = (unit.update params done).predHist ++ committed ∧
      ∀ record ∈ committed, record.seqNum ≤ done := by
  have trained (records : List PredictorHistory) (bp : TournamentBP) :
      (records.foldl (fun bp record => bp.update params record.pc record.predTaken record.bpHistory false)
        bp).globalHistory = bp.globalHistory := by
    induction records generalizing bp with
    | nil => rfl
    | cons record rest ih =>
        rw [List.foldl_cons, ih]
        rw [update_committed]
        rfl
  refine ⟨trained _ _,
    (unit.predHist.reverse.takeWhile fun record => decide (record.seqNum ≤ done)).reverse, ?_, ?_⟩
  · change unit.predHist = (unit.predHist.reverse.dropWhile _).reverse ++ _
    rw [← List.reverse_append, List.takeWhile_append_dropWhile, List.reverse_reverse]
  · intro record member
    have within := List.mem_takeWhile_imp (List.mem_reverse.mp member)
    exact of_decide_eq_true within

structure RollsBack (squashed : ℕ) (start unit : BPredUnit) : Prop where
  speculation : SameSpeculation (unit.squash squashed).bp start.bp (unit.squash squashed).ras start.ras
  predHist : ∃ committed, start.predHist = (unit.squash squashed).predHist ++ committed

def Younger (squashed : ℕ) : Action → Prop
  -- predictions of younger branches, squashes of them and commits of older ones. A branch that was
  -- mispredicted leaves its direction in the global history without a record, so that only an older
  -- branch takes it back.
  | .predict _ seqNum _ => squashed < seqNum
  | .update done => done ≤ squashed
  | .squash bound => squashed ≤ bound
  | .squashMispredicted _ _ _ => False

theorem RollsBack.refl (newest : ∀ record ∈ start.predHist, record.seqNum ≤ squashed) :
    RollsBack squashed start start := by
  have still : squashFrom squashed start.predHist start.bp start.ras = (start.predHist, start.bp, start.ras) :=
    squashFrom_append [] newest start.bp start.ras
  refine ⟨?_, [], ?_⟩
  · rw [squash_eq, still]
    exact ⟨rfl, rfl, rfl⟩
  · rw [squash_eq, still, List.append_nil]

theorem RollsBack.predict (rolls : RollsBack squashed start unit) (bounded : Bounded unit) (inst : StaticInst)
    (pc : PCState) (young : squashed < seqNum) :
    RollsBack squashed start (unit.predict params inst seqNum pc).2.2 := by
  obtain ⟨record, predicted⟩ := predict_spec params bounded.tos inst seqNum pc
  have isYoung : record.seqNum > squashed := predicted.seqNum ▸ young
  obtain ⟨sameHist, same⟩ := squashFrom_same squashed unit.predHist predicted.rewound
  obtain ⟨speculation, committed, older⟩ := rolls
  refine ⟨?_, committed, ?_⟩
  · rw [squash_eq, predicted.predHist, squashFrom_young _ isYoung]
    exact same.trans speculation
  · rw [squash_eq, predicted.predHist, squashFrom_young _ isYoung]
    exact older.trans (congrArg (· ++ committed) sameHist.symm)

theorem RollsBack.update (rolls : RollsBack squashed start unit) (older : done ≤ squashed) :
    RollsBack squashed start (unit.update params done) := by
  obtain ⟨globalHistory, done_records, split, stay⟩ := update_spec params unit done
  have stay : ∀ record ∈ done_records, record.seqNum ≤ squashed := fun record member =>
    Nat.le_trans (stay record member) older
  have same : SameSpeculation (unit.update params done).bp unit.bp unit.ras unit.ras := ⟨globalHistory, rfl, rfl⟩
  obtain ⟨sameHist, same⟩ := squashFrom_same squashed (unit.update params done).predHist same
  -- a squash does not come to the committed branches, at the old end
  have whole := squashFrom_append (unit.update params done).predHist stay unit.bp unit.ras
  rw [← split] at whole
  obtain ⟨speculation, committed, isOlder⟩ := rolls
  rw [squash_eq, whole] at speculation isOlder
  refine ⟨same.trans speculation, done_records ++ committed, ?_⟩
  rw [isOlder, List.append_assoc]
  exact congrArg (· ++ (done_records ++ committed)) sameHist.symm

theorem RollsBack.squash (rolls : RollsBack squashed start unit) {bound : ℕ} (within : squashed ≤ bound) :
    RollsBack squashed start (unit.squash bound) := by
  have twice : (unit.squash bound).squash squashed = unit.squash squashed := by
    have same := squashFrom_twice within unit.predHist unit.bp unit.ras
    rw [squash_eq, squash_eq, squash_eq, same]
  obtain ⟨speculation, older⟩ := rolls
  exact ⟨twice ▸ speculation, twice ▸ older⟩

theorem RollsBack.step (rolls : RollsBack squashed start unit) (bounded : Bounded unit) {action : Action}
    (young : Younger squashed action) (stepped : step params unit action = some after) :
    RollsBack squashed start after := by
  cases action with
  | predict inst seqNum pc =>
      cases stepped
      exact rolls.predict bounded inst pc young
  | update done =>
      cases stepped
      exact rolls.update young
  | squash bound =>
      cases stepped
      exact rolls.squash young
  | squashMispredicted bound corrTarget actuallyTaken => exact young.elim

/-! ### The bounds of the stack -/

theorem Bounded.predict (bounded : Bounded unit) (inst : StaticInst) (seqNum : ℕ) (pc : PCState) :
    Bounded (unit.predict params inst seqNum pc).2.2 := by
  obtain ⟨record, predicted⟩ := predict_spec params bounded.tos inst seqNum pc
  refine ⟨predicted.numEntries ▸ predicted.bounded, ?_⟩
  rw [predicted.predHist, predicted.numEntries]
  exact List.forall_mem_cons.mpr ⟨predicted.index, bounded.records⟩

theorem Bounded.update (bounded : Bounded unit) (done : ℕ) : Bounded (unit.update params done) := by
  obtain ⟨_, committed, split, _⟩ := update_spec params unit done
  refine ⟨bounded.tos, fun record member => ?_⟩
  exact bounded.records record (split ▸ List.mem_append_left committed member)

theorem Bounded.squash (bounded : Bounded unit) (squashed : ℕ) :
    Bounded (unit.squash squashed) := by
  obtain ⟨numEntries, tos⟩ := squashFrom_bounded squashed unit.predHist unit.bp bounded.tos bounded.records
  obtain ⟨dropped, split, _⟩ := squashFrom_suffix squashed unit.predHist unit.bp unit.ras
  refine ⟨numEntries.symm ▸ tos, fun record member used => ?_⟩
  have index := bounded.records record (split ▸ List.mem_append_right dropped member) used
  exact numEntries.symm ▸ index

theorem squashMispredicted_spec {corrTarget : PCState} {actuallyTaken : Bool}
    (ran : unit.squashMispredicted params squashed corrTarget actuallyTaken = some after) :
    after = unit.squash squashed ∧ after.predHist = [] ∨
    ∃ record, (unit.squash squashed).predHist = record :: after.predHist ∧ record.seqNum = squashed ∧
      after.bp = (unit.squash squashed).bp.update params record.pc actuallyTaken record.bpHistory true ∧
      (after.ras = (unit.squash squashed).ras ∨ after.ras = (unit.squash squashed).ras.pop ∨
        after.ras = rewindRAS (unit.squash squashed).ras record) := by
  unfold BPredUnit.squashMispredicted at ran
  cases left : (unit.squash squashed).predHist with
  | nil =>
      simp only [left] at ran
      cases ran
      exact .inl ⟨rfl, left⟩
  | cons record rest =>
      simp only [left] at ran
      split at ran
      · next isBranch =>
          split at ran
          · cases ran
            refine .inr ⟨record, rfl, isBranch, rfl, ?_⟩
            change (if _ then _ else _) = _ ∨ _
            split
            · exact .inr (.inl rfl)
            · exact .inl rfl
          · cases ran
            exact .inr ⟨record, rfl, isBranch, rfl, .inr (.inr rfl)⟩
      · cases ran

theorem Bounded.squashMispredicted (bounded : Bounded unit) {corrTarget : PCState} {actuallyTaken : Bool}
    (ran : unit.squashMispredicted params squashed corrTarget actuallyTaken = some after) :
    Bounded after := by
  have squashedUnit := bounded.squash squashed
  obtain ⟨rfl, _⟩ | ⟨record, split, _, _, ras⟩ := squashMispredicted_spec ran
  · exact squashedUnit
  · obtain ⟨tos, records⟩ := squashedUnit
    rw [split] at records
    obtain ⟨index, records⟩ := List.forall_mem_cons.mp records
    obtain same | same | same := ras
    · exact ⟨same ▸ tos, same ▸ records⟩
    · exact ⟨same ▸ pop_tos_lt tos, same ▸ records⟩
    · have numEntries := numEntries_rewind (unit.squash squashed).ras record
      rw [← numEntries] at records
      exact ⟨same ▸ numEntries ▸ rewind_tos_lt tos index, same ▸ records⟩

theorem Bounded.step (bounded : Bounded unit) {action : Action} (stepped : step params unit action = some after) :
    Bounded after := by
  cases action with
  | predict inst seqNum pc =>
      cases stepped
      exact bounded.predict inst seqNum pc
  | update done =>
      cases stepped
      exact bounded.update done
  | squash squashed =>
      cases stepped
      exact bounded.squash squashed
  | squashMispredicted squashed corrTarget actuallyTaken => exact bounded.squashMispredicted stepped

theorem run_bounded (entries : 0 < rasSize) (ran : run (step params) earlier (init btb rasSize) = some start) :
    Bounded start := by
  have each : EachStep (step params) (fun _ _ => True) earlier (init btb rasSize) :=
    fun _ _ _ _ _ _ _ _ => trivial
  have initial :
      Bounded (init btb rasSize) := ⟨entries, fun record member => absurd member List.not_mem_nil⟩
  exact run_preserves (fun _ _ _ bounded _ stepped => Bounded.step bounded stepped) earlier _ start initial each ran

/-! ## Main results -/

/-- A squash takes the global history, the top of the return address stack and the branches in flight
back to where they were, whatever was done for younger branches since, short of finding one mispredicted. -/
theorem squash_restores_speculation (entries : 0 < rasSize)
    (ran : run (step params) earlier (init btb rasSize) = some start)
    (newest : ∀ record ∈ start.predHist, record.seqNum ≤ squashed)
    (younger : ∀ action ∈ later, Younger squashed action)
    (ranLater : run (step params) later start = some unit) :
    (unit.squash squashed).bp.globalHistory = start.bp.globalHistory ∧
    (unit.squash squashed).ras.tos = start.ras.tos ∧
    ∃ committed, start.predHist = (unit.squash squashed).predHist ++ committed := by
  have each : EachStep (step params) (fun _ action => Younger squashed action) later start :=
    fun before action after _ _ split _ _ =>
      younger action (split ▸ List.mem_append_right before List.mem_cons_self)
  have initial :
      Bounded start ∧ RollsBack squashed start start := ⟨run_bounded entries ran, .refl newest⟩
  obtain ⟨_, rolls⟩ := run_preserves (fun _ _ _ holds young stepped =>
    And.intro (holds.1.step stepped) (holds.2.step holds.1 young stepped)) later start unit initial each ranLater
  exact ⟨rolls.speculation.globalHistory, rolls.speculation.tos, rolls.predHist⟩

def smallParams : TournamentParams := ⟨2, 2, 3, 2, 2, 2, 2, 2⟩

def small : BPredUnit := init (.construct 3 8 2) 2

def smallEarlier : List Action :=
  [.predict ⟨true, false, true⟩ 1 (.set 64), .predict ⟨false, false, false⟩ 2 (.set 128)]

def smallLater : List Action :=
  [.predict ⟨true, true, false⟩ 3 (.set 132), .predict ⟨true, false, true⟩ 4 (.set 68), .update 1, .squash 3,
    .predict ⟨true, false, true⟩ 5 (.set 136)]

theorem small_squash_restores :
    ∃ start unit, run (step smallParams) smallEarlier small = some start ∧
    run (step smallParams) smallLater start = some unit ∧ start.bp.globalHistory = 2 ∧
    unit.bp.globalHistory = 3 ∧ (unit.squash 2).bp.globalHistory = 2 ∧
    (unit.squash 2).ras.tos = start.ras.tos := by
  have shown : ((run (step smallParams) smallEarlier small).bind fun start =>
      (run (step smallParams) smallLater start).map fun unit =>
        (start.predHist.map (·.seqNum), start.bp.globalHistory, unit.bp.globalHistory)) =
          some ([2, 1], 2, 3) := by decide +kernel
  obtain ⟨start, ran, shown⟩ := Option.bind_eq_some_iff.mp shown
  obtain ⟨unit, ranLater, facts⟩ := Option.map_eq_some_iff.mp shown
  simp only [Prod.mk.injEq] at facts
  obtain ⟨records, history, later⟩ := facts
  have newest : ∀ seqNum ∈ start.predHist.map (·.seqNum), seqNum ≤ 2 := by
    rw [records]
    decide
  obtain ⟨restored, tos, _⟩ := squash_restores_speculation (by decide) ran
    (fun record member => newest _ (List.mem_map_of_mem member)) (by simp [smallLater, Younger]) ranLater
  exact ⟨start, unit, ran, ranLater, history, later, restored.trans history, tos⟩

end Runs

/-! ## Mispredicted branches -/

section Mispredicted

variable {params : TournamentParams} {start unit after : BPredUnit} {seqNum done : ℕ} {record : PredictorHistory}
  {btb : DefaultBTB} {rasSize : ℕ} {earlier later : List Action} {inst : StaticInst} {pc : PCState}

def Behind (seqNum : ℕ) : Action → Prop
  | .predict _ younger _ => seqNum < younger
  | .update done => done < seqNum
  | .squash bound => seqNum ≤ bound
  | .squashMispredicted younger _ _ => seqNum < younger

def InFlight (record : PredictorHistory) (start unit : BPredUnit) : Prop :=
  ∃ young old, unit.predHist = young ++ record :: old ∧ (∀ other ∈ young, record.seqNum < other.seqNum) ∧
    ∃ committed, start.predHist = old ++ committed

theorem InFlight.predict (inFlight : InFlight record start unit) (bounded : Bounded unit) (inst : StaticInst)
    (pc : PCState) (younger : record.seqNum < seqNum) :
    InFlight record start (unit.predict params inst seqNum pc).2.2 := by
  obtain ⟨new, predicted⟩ := predict_spec params bounded.tos inst seqNum pc
  obtain ⟨young, old, split, all, older⟩ := inFlight
  refine ⟨new :: young, old, ?_, List.forall_mem_cons.mpr ⟨predicted.seqNum ▸ younger, all⟩, older⟩
  rw [predicted.predHist, split, List.cons_append]

theorem InFlight.update (inFlight : InFlight record start unit) (older : done < record.seqNum) :
    InFlight record start (unit.update params done) := by
  obtain ⟨_, gone, split, isGone⟩ := update_spec params unit done
  obtain ⟨young, old, placed, all, committed, isOlder⟩ := inFlight
  have front (other : PredictorHistory) (member : other ∈ young ++ [record]) :
      record.seqNum ≤ other.seqNum := by
    obtain isYoung | isRecord := List.mem_append.mp member
    · exact Nat.le_of_lt (all other isYoung)
    · exact List.mem_singleton.mp isRecord ▸ Nat.le_refl _
  have whole : (young ++ [record]) ++ old = (unit.update params done).predHist ++ gone := by
    rw [← split, placed, List.append_assoc, List.singleton_append]
  obtain ⟨left, isLeft, rfl⟩ | ⟨both, isFront, isBoth⟩ := List.append_eq_append_iff.mp whole
  · refine ⟨young, left, ?_, all, gone ++ committed, by rw [isOlder, List.append_assoc]⟩
    rw [isLeft, List.append_assoc, List.singleton_append]
  · -- nothing of the branch or before it is as old as what is committed
    have none_both : both = [] := List.eq_nil_iff_forall_not_mem.mpr fun other member => by
      have fromFront := front other (isFront ▸ List.mem_append_right _ member)
      have fromGone := isGone other (isBoth ▸ List.mem_append_left _ member)
      omega
    rw [none_both, List.append_nil] at isFront
    refine ⟨young, [], ?_, all, old ++ committed, by rw [isOlder, List.nil_append]⟩
    rw [← isFront]

theorem InFlight.squash (inFlight : InFlight record start unit) {bound : ℕ} (within : record.seqNum ≤ bound) :
    InFlight record start (unit.squash bound) := by
  obtain ⟨dropped, split, isDropped, _⟩ := squashFrom_suffix bound unit.predHist unit.bp unit.ras
  obtain ⟨young, old, placed, all, older⟩ := inFlight
  -- the squash stops at the branch or before it
  obtain ⟨both, isDrop, isLeft⟩ | ⟨left, isYoung, isLeft⟩ :=
    List.append_eq_append_iff.mp (placed.symm.trans split)
  · cases both with
    | nil => exact ⟨[], old, isLeft.symm, fun other member => absurd member List.not_mem_nil, older⟩
    | cons first rest =>
        obtain ⟨rfl, _⟩ := List.cons.inj isLeft
        have isYounger := isDropped record (isDrop ▸ List.mem_append_right _ List.mem_cons_self)
        omega
  · exact ⟨left, old, isLeft, fun other member => all other (isYoung ▸ List.mem_append_right _ member), older⟩

theorem InFlight.squash_self (inFlight : InFlight record start unit) :
    ∃ old, (unit.squash record.seqNum).predHist = record :: old ∧
      ∃ committed, start.predHist = old ++ committed := by
  obtain ⟨young, old, placed, all, older⟩ := inFlight.squash (Nat.le_refl record.seqNum)
  obtain ⟨_, _, _, stops⟩ := squashFrom_suffix record.seqNum unit.predHist unit.bp unit.ras
  cases young with
  | nil => exact ⟨old, placed, older⟩
  | cons first rest =>
      have isYoung := all first List.mem_cons_self
      have isHead : (unit.squash record.seqNum).predHist.head? = some first := by
        rw [placed]
        rfl
      exact absurd isYoung (Nat.not_lt_of_le (stops first isHead))

theorem InFlight.squashMispredicted (inFlight : InFlight record start unit) {younger : ℕ} {corrTarget : PCState}
    {actuallyTaken : Bool} (behind : record.seqNum < younger)
    (ran : unit.squashMispredicted params younger corrTarget actuallyTaken = some after) :
    InFlight record start after := by
  obtain ⟨young, old, placed, all, older⟩ := inFlight.squash (Nat.le_of_lt behind)
  obtain ⟨rfl, none_left⟩ | ⟨branch, split, isBranch, _⟩ := squashMispredicted_spec ran
  · rw [none_left] at placed
    exact absurd placed.symm (List.append_ne_nil_of_right_ne_nil young (List.cons_ne_nil record old))
  · rw [split] at placed
    cases young with
    | nil =>
        obtain ⟨rfl, _⟩ := List.cons.inj placed
        omega
    | cons first rest =>
        obtain ⟨rfl, isLeft⟩ := List.cons.inj placed
        exact ⟨rest, old, isLeft, fun other member => all other (List.mem_cons_of_mem branch member), older⟩

theorem InFlight.step (inFlight : InFlight record start unit) (bounded : Bounded unit) {action : Action}
    (behind : Behind record.seqNum action) (stepped : step params unit action = some after) :
    InFlight record start after := by
  cases action with
  | predict inst seqNum pc =>
      cases stepped
      exact inFlight.predict bounded inst pc behind
  | update done =>
      cases stepped
      exact inFlight.update behind
  | squash bound =>
      cases stepped
      exact inFlight.squash behind
  | squashMispredicted younger corrTarget actuallyTaken => exact inFlight.squashMispredicted behind stepped

theorem masked_ne_invalid (index : BitVec 32) (nbits : Fin 32) :
    index &&& mask nbits ≠ invalidPredictorIndex := by
  intro equal
  have value := congrArg BitVec.toNat equal
  have power : 2 ^ nbits.val ≤ 2 ^ 31 := Nat.pow_le_pow_right (by omega) (by omega)
  have size : (mask nbits).toNat = 2 ^ nbits.val - 1 := by
    rw [mask, BitVec.toNat_ofNat]
    exact Nat.mod_eq_of_lt (by omega)
  have below : (index &&& mask nbits).toNat ≤ (mask nbits).toNat := by
    rw [BitVec.toNat_and]
    exact Nat.and_le_right
  have full : invalidPredictorIndex.toNat = 2 ^ 32 - 1 := rfl
  omega

theorem squashMispredicted_newest (params : TournamentParams) {rest : List PredictorHistory}
    (newest : (unit.squash record.seqNum).predHist = record :: rest) (corrTarget : PCState) (actuallyTaken : Bool) :
    ∃ after, unit.squashMispredicted params record.seqNum corrTarget actuallyTaken = some after ∧
      after.bp = (unit.squash record.seqNum).bp.update params record.pc actuallyTaken record.bpHistory true ∧
      (actuallyTaken = true → after.btb = unit.btb.update record.pc corrTarget) ∧ after.predHist = rest := by
  unfold BPredUnit.squashMispredicted
  simp only [newest, if_true]
  cases actuallyTaken with
  | false => exact ⟨_, rfl, rfl, fun wrong => absurd wrong Bool.false_ne_true, rfl⟩
  | true => exact ⟨_, rfl, rfl, fun _ => rfl, rfl⟩

theorem update_mispredicted (params : TournamentParams) (bp : TournamentBP) (branchAddr : Addr) (taken : Bool)
    (history : BPHistory) :
    (bp.update params branchAddr taken history true).globalHistory =
      shifted history.globalHistory taken &&& params.historyRegisterMask ∧
    (history.localHistory ≠ invalidPredictorIndex →
      (bp.update params branchAddr taken history true).localHistoryTable
        (TournamentBP.calcLocHistIdx params branchAddr) = shifted history.localHistory taken) := by
  refine ⟨rfl, fun isValid => ?_⟩
  simp only [TournamentBP.update, if_true, if_neg isValid, Function.update_self]

/-- A mispredicted branch leaves the histories that its right direction would have made, whatever was
predicted, squashed and committed since it was predicted; no assertion fails. -/
theorem misprediction_repairs (entries : 0 < rasSize)
    (ran : run (step params) earlier (init btb rasSize) = some start)
    (behind : ∀ action ∈ later, Behind seqNum action)
    (ranLater : run (step params) later (start.predict params inst seqNum pc).2.2 = some unit)
    (corrTarget : PCState) (actuallyTaken : Bool) :
    ∃ after, unit.squashMispredicted params seqNum corrTarget actuallyTaken = some after ∧
      after.bp.globalHistory = shifted start.bp.globalHistory actuallyTaken &&& params.historyRegisterMask ∧
      (inst.isUncondCtrl = false → after.bp.localHistoryTable (TournamentBP.calcLocHistIdx params pc.pc) =
        shifted (start.bp.localHistoryTable (TournamentBP.calcLocHistIdx params pc.pc) &&&
          params.localPredictorMask) actuallyTaken) ∧
      (actuallyTaken = true → after.btb.lookup pc.pc = corrTarget) ∧
      ∃ committed, start.predHist = after.predHist ++ committed := by
  have bounded := run_bounded entries ran
  obtain ⟨record, predicted⟩ := predict_spec params bounded.tos inst seqNum pc
  have isSeqNum := predicted.seqNum
  have each : EachStep (step params) (fun _ action => Behind record.seqNum action) later
      (start.predict params inst seqNum pc).2.2 := fun before action rest _ _ split _ _ =>
    isSeqNum.symm ▸ behind action (split ▸ List.mem_append_right before List.mem_cons_self)
  have initial : Bounded (start.predict params inst seqNum pc).2.2 ∧
      InFlight record start (start.predict params inst seqNum pc).2.2 :=
    ⟨bounded.predict inst seqNum pc, [], start.predHist, predicted.predHist,
      fun other member => absurd member List.not_mem_nil, [], (List.append_nil _).symm⟩
  obtain ⟨_, inFlight⟩ := run_preserves (fun _ _ _ holds later stepped =>
    And.intro (holds.1.step stepped) (holds.2.step holds.1 later stepped)) later _ unit initial each ranLater
  -- the younger branches have left the history, whichever way, and the squash comes to this one
  obtain ⟨old, newest, older⟩ := inFlight.squash_self
  obtain ⟨after, squashed, bp, buffer, predHist⟩ := squashMispredicted_newest params newest
    corrTarget actuallyTaken
  obtain ⟨globalHistory, localHistory⟩ := update_mispredicted params (unit.squash record.seqNum).bp record.pc
    actuallyTaken record.bpHistory
  refine ⟨after, isSeqNum ▸ squashed, ?_, fun conditional => ?_, fun taken => ?_, ?_⟩
  · rw [bp, globalHistory, predicted.globalHistory]
  · have recorded := predicted.localHistory conditional
    have isValid : record.bpHistory.localHistory ≠ invalidPredictorIndex := by
      rw [recorded]
      exact masked_ne_invalid _ _
    rw [bp, ← predicted.instAddr, localHistory isValid, recorded, predicted.instAddr]
  · rw [buffer taken, predicted.instAddr, DefaultBTB.lookup_update]
  · rw [predHist]
    exact older

def smallBehind : List Action :=
  [.predict ⟨true, true, false⟩ 4 (.set 140), .predict ⟨false, false, false⟩ 5 (.set 68), .update 1,
    .squashMispredicted 5 (.set 200) true, .predict ⟨true, false, true⟩ 6 (.set 200)]

theorem small_misprediction_repairs : ∃ start unit after,
    run (step smallParams) smallEarlier small = some start ∧
    run (step smallParams) smallBehind (start.predict smallParams ⟨false, false, false⟩ 3 (.set 136)).2.2 =
      some unit ∧
    unit.squashMispredicted smallParams 3 (.set 160) true = some after ∧ start.bp.globalHistory = 2 ∧
    after.bp.globalHistory = 5 := by
  have shown : ((run (step smallParams) smallEarlier small).bind fun start =>
      (run (step smallParams) smallBehind (start.predict smallParams ⟨false, false, false⟩ 3 (.set 136)).2.2).map
        fun unit => (start.bp.globalHistory, unit.bp.globalHistory)) = some (2, 7) := by decide +kernel
  obtain ⟨start, ran, shown⟩ := Option.bind_eq_some_iff.mp shown
  obtain ⟨unit, ranLater, facts⟩ := Option.map_eq_some_iff.mp shown
  simp only [Prod.mk.injEq] at facts
  obtain ⟨history, _⟩ := facts
  obtain ⟨after, squashed, repaired, _⟩ := misprediction_repairs (by decide) ran
    (by simp [smallBehind, Behind]) ranLater (.set 160) true
  refine ⟨start, unit, after, ran, ranLater, squashed, history, repaired.trans ?_⟩
  rw [history]
  decide

end Mispredicted

/-! ## Assertions -/

section Assertions

variable {params : TournamentParams} {unit after : BPredUnit} {squashed seqNum : ℕ} {btb : DefaultBTB}
  {rasSize : ℕ} {actions : List Action}

def Ready (unit : BPredUnit) : Action → Prop
  -- branches are predicted in program order, and a mispredicted one is in flight, unless all that
  -- are in flight are younger
  | .predict _ seqNum _ => ∀ record ∈ unit.predHist, record.seqNum < seqNum
  | .squashMispredicted squashed _ _ =>
      (∃ record ∈ unit.predHist, record.seqNum = squashed) ∨ ∀ record ∈ unit.predHist, squashed < record.seqNum
  | .update _ | .squash _ => True

instance (unit : BPredUnit) (action : Action) : Decidable (Ready unit action) :=
  match action with
  | .predict _ seqNum _ => inferInstanceAs (Decidable (∀ record ∈ unit.predHist, record.seqNum < seqNum))
  | .squashMispredicted squashed _ _ => inferInstanceAs (Decidable
      ((∃ record ∈ unit.predHist, record.seqNum = squashed) ∨ ∀ record ∈ unit.predHist, squashed < record.seqNum))
  | .update _ | .squash _ => inferInstanceAs (Decidable True)

/-- The history is in program order. -/
structure Sound (unit : BPredUnit) : Prop where
  bounded : Bounded unit
  ordered : unit.predHist.Pairwise fun newer older => older.seqNum < newer.seqNum

theorem Sound.squash_ordered (sound : Sound unit) (squashed : ℕ) :
    (unit.squash squashed).predHist.Pairwise fun newer older => older.seqNum < newer.seqNum := by
  obtain ⟨dropped, split, _⟩ := squashFrom_suffix squashed unit.predHist unit.bp unit.ras
  have ordered := sound.ordered
  rw [split] at ordered
  exact (List.pairwise_append.mp ordered).2.1

theorem Sound.inFlight (sound : Sound unit) {record : PredictorHistory} (member : record ∈ unit.predHist) :
    ∃ start, InFlight record start unit := by
  obtain ⟨young, old, split⟩ := List.append_of_mem member
  have ordered := sound.ordered
  rw [split] at ordered
  obtain ⟨_, _, apart⟩ := List.pairwise_append.mp ordered
  exact ⟨{ unit with predHist := old }, young, old, split,
    fun other isYoung => apart other isYoung record List.mem_cons_self, [], (List.append_nil old).symm⟩

theorem Sound.squashMispredicted (sound : Sound unit) (corrTarget : PCState) (actuallyTaken : Bool)
    (ready : Ready unit (.squashMispredicted squashed corrTarget actuallyTaken)) :
    ∃ after, unit.squashMispredicted params squashed corrTarget actuallyTaken = some after ∧ Sound after := by
  have ordered := sound.squash_ordered squashed
  obtain ⟨record, member, rfl⟩ | all := ready
  · obtain ⟨start, inFlight⟩ := sound.inFlight member
    obtain ⟨old, newest, _⟩ := inFlight.squash_self
    obtain ⟨after, ran, _, _, predHist⟩ := squashMispredicted_newest params newest corrTarget actuallyTaken
    refine ⟨after, ran, sound.bounded.squashMispredicted ran, ?_⟩
    rw [newest] at ordered
    rw [predHist]
    exact (List.pairwise_cons.mp ordered).2
  · obtain ⟨dropped, split, _, stops⟩ := squashFrom_suffix squashed unit.predHist unit.bp unit.ras
    have none_left : (unit.squash squashed).predHist = [] := by
      refine List.eq_nil_iff_forall_not_mem.mpr fun record member => ?_
      obtain ⟨first, rest, isLeft⟩ := List.exists_cons_of_ne_nil (List.ne_nil_of_mem member)
      have isHead : (unit.squash squashed).predHist.head? = some first := by
        rw [isLeft]
        rfl
      have isFirst : first ∈ (unit.squash squashed).predHist := List.mem_of_mem_head? isHead
      have younger := all first (split ▸ List.mem_append_right dropped isFirst)
      exact absurd younger (Nat.not_lt_of_le (stops first isHead))
    have ran : unit.squashMispredicted params squashed corrTarget actuallyTaken = some (unit.squash squashed) := by
      unfold BPredUnit.squashMispredicted
      simp only [none_left]
    exact ⟨_, ran, sound.bounded.squash squashed, ordered⟩

theorem Sound.step (sound : Sound unit) {action : Action} (ready : Ready unit action) :
    ∃ after, step params unit action = some after ∧ Sound after := by
  cases action with
  | predict inst seqNum pc =>
      obtain ⟨record, predicted⟩ := predict_spec params sound.bounded.tos inst seqNum pc
      refine ⟨_, rfl, sound.bounded.predict inst seqNum pc, ?_⟩
      rw [predicted.predHist]
      refine List.pairwise_cons.mpr ⟨fun older member => ?_, sound.ordered⟩
      rw [predicted.seqNum]
      exact ready older member
  | update done =>
      obtain ⟨_, committed, split, _⟩ := update_spec params unit done
      have ordered := sound.ordered
      rw [split] at ordered
      exact ⟨_, rfl, sound.bounded.update done, (List.pairwise_append.mp ordered).1⟩
  | squash squashed => exact ⟨_, rfl, sound.bounded.squash squashed, sound.squash_ordered squashed⟩
  | squashMispredicted squashed corrTarget actuallyTaken =>
      exact sound.squashMispredicted corrTarget actuallyTaken ready

/-- The record of a mispredicted branch is found at every squash, and the branches in flight stay in
program order. -/
theorem predictor_never_fails (entries : 0 < rasSize)
    (ready : Admissible (step params) Ready actions (init btb rasSize)) :
    ∃ unit, run (step params) actions (init btb rasSize) = some unit ∧
      unit.predHist.Pairwise (fun newer older => older.seqNum < newer.seqNum) ∧
      unit.ras.tos < unit.ras.numEntries := by
  have initial : Sound (init btb rasSize) :=
    ⟨⟨entries, fun record member => absurd member List.not_mem_nil⟩, List.Pairwise.nil⟩
  obtain ⟨unit, ran, sound⟩ := run_completes (fun _ _ sound ready => Sound.step sound ready) actions _ initial ready
  exact ⟨unit, ran, sound.ordered, sound.bounded.tos⟩

theorem small_predictor_never_fails : ∃ unit,
    run (step smallParams) (smallEarlier ++ .predict ⟨false, false, false⟩ 3 (.set 136) :: smallBehind) small =
      some unit := by
  have entries : 0 < 2 := by decide
  have ready : Admissible (step smallParams) Ready
      (smallEarlier ++ .predict ⟨false, false, false⟩ 3 (.set 136) :: smallBehind) small :=
    admissible_of_admits (by decide +kernel)
  obtain ⟨unit, ran, _⟩ := predictor_never_fails entries ready
  exact ⟨unit, ran⟩

end Assertions

end GemFi.BranchRollback
