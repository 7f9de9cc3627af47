import GemFi.ByteRanges
import GemFi.LsqUnit
import GemFi.Outcomes

/-!
What a valid address and a mark in the store queue say, in every state of a run. An address comes
from a translation, which lets aligned accesses through alone, so that no range of an instruction
wraps. A store is marked when it commits; a store conditional marks itself when it executes.
-/

namespace GemFi.LsqMarks

open Outcomes ByteRanges LsqUnit LsqUnit.LSQUnit

/-- Each valid address is that of a range that fits, but for instructions that came with one, and
each marked store, in whatever slot, is committed or a store conditional. -/
structure Tidy (early : InstSeqNum → Prop) (doneSeqNum : InstSeqNum) (u : LSQUnit) : Prop where
  addressed : ∀ inst, ¬ early inst → (u.insts inst).effAddrValid = true →
    Fits (u.insts inst).effAddr (u.insts inst).effSize
  marked : ∀ store_idx inst, (u.storeQueue store_idx).inst = some inst →
    (u.storeQueue store_idx).canWB = true →
      (u.insts inst).isStoreConditional = true ∨ inst ≤ doneSeqNum

abbrev EndsTidy (early : InstSeqNum → Prop) (doneSeqNum : InstSeqNum) :
    Except Stop LSQUnit → Prop :=
  -- what an operation returns is tidy, if it returns
  Ends (fun _ => True) (Tidy early doneSeqNum)

abbrev EndsTidyWith {α : Type} (early : InstSeqNum → Prop) (doneSeqNum : InstSeqNum) :
    Except Stop (α × LSQUnit) → Prop :=
  Ends (fun _ => True) fun result => Tidy early doneSeqNum result.2

section Primitives

variable {early : InstSeqNum → Prop} {u : LSQUnit} {doneSeqNum : InstSeqNum} {store_idx : Nat}

theorem ends_anyhow {α : Type} (program : Except Stop α) :
    Ends (fun _ => True) (fun _ => True) program := by
  cases program <;> exact True.intro

theorem deref_ends {α : Type} (pointer : Option α) :
    Ends (fun _ => True) (fun a => pointer = some a) (deref pointer) := by
  cases pointer with
  | none => exact True.intro
  | some a => exact Ends.ok rfl

theorem Tidy.later {doneSeqNum' : InstSeqNum} (tidy : Tidy early doneSeqNum u)
    (later : doneSeqNum ≤ doneSeqNum') : Tidy early doneSeqNum' u :=
  ⟨tidy.addressed, fun store_idx inst named isMarked =>
    (tidy.marked store_idx inst named isMarked).imp_right fun done => done.trans later⟩

theorem Tidy.setInst (tidy : Tidy early doneSeqNum u) (inst : InstSeqNum) (value : DynInst)
    (fits : ¬ early inst → value.effAddrValid = true → Fits value.effAddr value.effSize)
    (same : value.isStoreConditional = (u.insts inst).isStoreConditional) :
    Tidy early doneSeqNum (u.setInst inst value) := by
  constructor
  · intro other
    by_cases equal : other = inst
    · subst other
      simpa only [LSQUnit.setInst, Function.update_self] using fits
    · simpa only [LSQUnit.setInst, Function.update_of_ne equal] using tidy.addressed other
  · intro store_idx other named isMarked
    have was := tidy.marked store_idx other named isMarked
    by_cases equal : other = inst
    · subst other
      simpa only [LSQUnit.setInst, Function.update_self, same] using was
    · simpa only [LSQUnit.setInst, Function.update_of_ne equal] using was

theorem Tidy.setEntry (tidy : Tidy early doneSeqNum u) (store_idx : Nat) (entry : SQEntry)
    (marked : ∀ inst, entry.inst = some inst → entry.canWB = true →
      (u.insts inst).isStoreConditional = true ∨ inst ≤ doneSeqNum) :
    Tidy early doneSeqNum (u.setEntry store_idx entry) := by
  refine ⟨tidy.addressed, fun other => ?_⟩
  by_cases equal : other = store_idx
  · subst other
    simpa only [LSQUnit.setEntry, Function.update_self] using marked
  · simpa only [LSQUnit.setEntry, Function.update_of_ne equal] using tidy.marked other

theorem Tidy.markStore (tidy : Tidy early doneSeqNum u)
    (ready : ∀ inst, (u.storeQueue store_idx).inst = some inst →
      (u.insts inst).isStoreConditional = true ∨ inst ≤ doneSeqNum) :
    Tidy early doneSeqNum (u.markStore store_idx) := by
  have set := tidy.setEntry store_idx { u.storeQueue store_idx with canWB := true }
    fun inst named _ => ready inst named
  exact ⟨set.addressed, set.marked⟩

theorem Tidy.markCompleted (tidy : Tidy early doneSeqNum u) (store_idx : Nat) :
    Tidy early doneSeqNum (u.markCompleted store_idx) := by
  have set := tidy.setEntry store_idx { u.storeQueue store_idx with completed := true }
    (tidy.marked store_idx)
  exact ⟨set.addressed, set.marked⟩

theorem Tidy.unstall (tidy : Tidy early doneSeqNum u) (inst : InstSeqNum) :
    Tidy early doneSeqNum (u.unstall inst) := by
  unfold LSQUnit.unstall
  split <;> exact ⟨tidy.addressed, tidy.marked⟩

theorem Tidy.setStoreInFlight (tidy : Tidy early doneSeqNum u) (storeInFlight : Bool) :
    Tidy early doneSeqNum (u.setStoreInFlight storeInFlight) := by
  unfold LSQUnit.setStoreInFlight
  split <;> exact ⟨tidy.addressed, tidy.marked⟩

theorem Tidy.unstallAt (tidy : Tidy early doneSeqNum u) (load_idx : Nat) :
    Tidy early doneSeqNum (u.unstallAt load_idx) := by
  unfold LSQUnit.unstallAt
  split <;> exact ⟨tidy.addressed, tidy.marked⟩

theorem init_tidy (doneSeqNum : InstSeqNum) (maxLQEntries maxSQEntries depCheckShift : Nat)
    (checkLoads needsTSO : Bool) (insts : InstSeqNum → DynInst) :
    Tidy (fun inst => (insts inst).effAddrValid = true) doneSeqNum
      (init maxLQEntries maxSQEntries depCheckShift checkLoads needsTSO insts) :=
  ⟨fun _ late valid => absurd valid late,
    fun _ inst named => absurd named (Option.some_ne_none inst).symm⟩

end Primitives

section Operations

variable {early : InstSeqNum → Prop} {u : LSQUnit} {doneSeqNum : InstSeqNum}

theorem Tidy.insertLoad (tidy : Tidy early doneSeqNum u) (load_inst : InstSeqNum) :
    EndsTidy early doneSeqNum (u.insertLoad load_inst) := by
  refine (ends_anyhow _).bind fun _ _ => (ends_anyhow _).bind fun _ _ => Ends.ok ?_
  have set := tidy.setInst load_inst
    { u.insts load_inst with
      lqIdx := u.loadTail
      sqIdx := if u.stores = 0 then none else some u.storeTail } (tidy.addressed load_inst) rfl
  exact ⟨set.addressed, set.marked⟩

theorem Tidy.insertStore (tidy : Tidy early doneSeqNum u) (store_inst : InstSeqNum) :
    EndsTidy early doneSeqNum (u.insertStore store_inst) := by
  refine (ends_anyhow _).bind fun _ _ => (ends_anyhow _).bind fun _ _ => Ends.ok ?_
  have set := (tidy.setInst store_inst
    { u.insts store_inst with sqIdx := some u.storeTail, lqIdx := u.loadTail }
    (tidy.addressed store_inst) rfl).setEntry u.storeTail (SQEntry.new (some store_inst))
    fun _ _ unmarked => absurd unmarked Bool.false_ne_true
  exact ⟨set.addressed, set.marked⟩

theorem fits_of_aligned_request {req : Request} (aligned : req.aligned = true) :
    Fits req.vaddr (req.size % 256) := by
  have divides : 256 ∣ 2 ^ 64 := by decide
  refine fits_of_aligned (of_decide_eq_true aligned) ?_
  rw [← Nat.mod_mod_of_dvd req.size divides]
  exact Nat.mod_le _ _

theorem Tidy.setAddress (tidy : Tidy early doneSeqNum u) (inst : InstSeqNum) {req : Request}
    (aligned : req.aligned = true) : Tidy early doneSeqNum (u.setAddress inst req) :=
  tidy.setInst _ _ (fun _ _ => fits_of_aligned_request aligned) rfl

theorem checkViolationsLoop_tidy (inst : InstSeqNum) (fuel load_idx : Nat) (u : LSQUnit)
    (tidy : Tidy early doneSeqNum u) :
    EndsTidyWith early doneSeqNum (checkViolationsLoop inst fuel load_idx u) := by
  induction fuel generalizing load_idx u with
  | zero => exact True.intro
  | succ fuel ih =>
      rw [checkViolationsLoop]
      split
      · exact Ends.ok tidy
      · refine (ends_anyhow _).bind fun ld_inst _ => ?_
        have blamed : Tidy early doneSeqNum { u with memDepViolator := some ld_inst } :=
          ⟨tidy.addressed, tidy.marked⟩
        split
        · exact ih _ u tidy
        · split
          · split
            · split
              · exact Ends.ok blamed
              · exact ih _ _ (tidy.setInst _ _ (tidy.addressed ld_inst) rfl)
            · split
              · exact Ends.ok tidy
              · exact Ends.ok blamed
          · exact ih _ u tidy

theorem Tidy.read (tidy : Tidy early doneSeqNum u) (req : Request) (load_idx : Nat)
    (isAtCommit cacheBlocked : Bool) :
    EndsTidyWith early doneSeqNum (u.read req load_idx isAtCommit cacheBlocked) := by
  refine (ends_anyhow _).bind fun load_inst _ => ?_
  have stalling (store_idx : Nat) :
      EndsTidy early doneSeqNum (u.recordStall load_inst load_idx store_idx) := by
    refine (ends_anyhow _).bind fun store_inst _ => ?_
    have set : Tidy early doneSeqNum { u with
        stalled := true, stallingStoreIsn := store_inst, stallingLoadIdx := load_idx } :=
      ⟨tidy.addressed, tidy.marked⟩
    dsimp only
    split
    · refine (ends_anyhow _).bind fun other _ => Ends.ok ?_
      split
      · exact set
      · exact tidy
    · exact Ends.ok set
  split
  · exact Ends.ok tidy
  · split
    · exact Ends.ok tidy
    · refine (ends_anyhow _).bind fun found _ => ?_
      cases found with
      | forward store_idx => exact (ends_anyhow _).bind fun _ _ => Ends.ok tidy
      | mismatch store_idx => exact (stalling store_idx).bind fun _ after => Ends.ok after
      | nothing =>
          refine Ends.ok ?_
          dsimp only
          unfold accessMemory
          split
          · split <;> exact ⟨tidy.addressed, tidy.marked⟩
          · exact tidy

theorem Tidy.executeLoad (tidy : Tidy early doneSeqNum u) (inst : InstSeqNum) {access : LoadAccess}
    (aligned : access.aligned = true) :
    EndsTidyWith early doneSeqNum (u.executeLoad inst access) := by
  cases access with
  | delayed => exact (ends_anyhow _).bind fun _ _ => Ends.ok tidy
  | faulted => exact (ends_anyhow _).bind fun _ _ => Ends.ok tidy
  | predicatedFalse => exact (ends_anyhow _).bind fun _ _ => Ends.ok tidy
  | translated req isAtCommit cacheBlocked =>
      refine (ends_anyhow _).bind fun _ _ => ?_
      refine ((tidy.setAddress inst aligned).read req _ isAtCommit cacheBlocked).bind ?_
      rintro ⟨result, after⟩ tidyAfter
      dsimp only at tidyAfter ⊢
      split
      · exact Ends.ok tidyAfter
      · split
        · exact Ends.ok tidyAfter
        · split
          · exact checkViolationsLoop_tidy inst _ _ after tidyAfter
          · exact Ends.ok tidyAfter

theorem Tidy.executeStore (tidy : Tidy early doneSeqNum u) (store_inst : InstSeqNum) {access : StoreAccess}
    (own : ∀ store_idx ∈ (u.insts store_inst).sqIdx,
      (u.storeQueue store_idx).inst = some store_inst)
    (aligned : access.aligned = true) :
    EndsTidyWith early doneSeqNum (u.executeStore store_inst access) := by
  refine (ends_anyhow _).bind fun _ _ => (deref_ends _).bind fun store_idx isOwn => ?_
  refine (ends_anyhow _).bind fun _ _ => ?_
  have named := own store_idx isOwn
  have initiated : Ends (fun _ => True) (fun after => Tidy early doneSeqNum after ∧
      (after.storeQueue store_idx).inst = some store_inst)
      (u.initiateStore store_inst store_idx access) := by
    cases access with
    | written req data =>
        refine (ends_anyhow _).bind fun _ _ => (ends_anyhow _).bind fun _ _ => Ends.ok ⟨?_, ?_⟩
        · have set := tidy.setAddress store_inst aligned
          exact set.setEntry _ _ (set.marked store_idx)
        · refine (congrArg SQEntry.inst (Function.update_self _ _ _)).trans ?_
          exact named
    | delayed => exact Ends.ok ⟨tidy, named⟩
    | faulted => exact Ends.ok ⟨tidy, named⟩
    | predicatedFalse => exact Ends.ok ⟨tidy, named⟩
  have finished (after : LSQUnit) (tidyAfter : Tidy early doneSeqNum after)
      (stillNamed : (after.storeQueue store_idx).inst = some store_inst) (load_idx : Nat) :
      EndsTidyWith early doneSeqNum (after.finishStore store_inst store_idx load_idx access) := by
    unfold finishStore
    split
    · exact Ends.ok tidyAfter
    · split
      · exact Ends.ok tidyAfter
      · refine (ends_anyhow _).bind fun _ _ => checkViolationsLoop_tidy _ _ _ _ ?_
        unfold readyConditional
        split
        · next conditional =>
            refine tidyAfter.markStore fun inst other => .inl ?_
            cases stillNamed.symm.trans other
            exact conditional
        · exact tidyAfter
  cases access with
  | delayed => exact Ends.ok tidy
  | faulted => exact initiated.bind fun after both => finished after both.1 both.2 _
  | predicatedFalse => exact initiated.bind fun after both => finished after both.1 both.2 _
  | written req data => exact initiated.bind fun after both => finished after both.1 both.2 _

theorem commitLoadsLoop_tidy (youngest_inst : InstSeqNum) (fuel : Nat) (u : LSQUnit)
    (tidy : Tidy early doneSeqNum u) :
    EndsTidy early doneSeqNum (commitLoadsLoop youngest_inst fuel u) := by
  induction fuel generalizing u with
  | zero => exact True.intro
  | succ fuel ih =>
      rw [commitLoadsLoop]
      split
      · exact Ends.ok tidy
      · refine (ends_anyhow _).bind fun inst _ => ?_
        split
        · have committed : EndsTidy early doneSeqNum u.commitLoad :=
            (ends_anyhow _).bind fun _ _ => Ends.ok ⟨tidy.addressed, tidy.marked⟩
          exact committed.bind fun after => ih after
        · exact Ends.ok tidy

theorem commitStoresLoop_tidy {youngest_inst : InstSeqNum} (reached : youngest_inst ≤ doneSeqNum)
    (fuel store_idx : Nat) (u : LSQUnit) (tidy : Tidy early doneSeqNum u) :
    EndsTidy early doneSeqNum (commitStoresLoop youngest_inst fuel store_idx u) := by
  induction fuel generalizing store_idx u with
  | zero => exact True.intro
  | succ fuel ih =>
      rw [commitStoresLoop]
      split
      · exact Ends.ok tidy
      · split
        · exact True.intro
        · next inst named =>
            split
            · exact ih _ u tidy
            · split
              · exact Ends.ok tidy
              · next old =>
                  refine ih _ _ (tidy.markStore fun other is => .inr ?_)
                  cases named.symm.trans is
                  exact (Nat.not_lt.mp old).trans reached

theorem storePostSend_tidy (tidy : Tidy early doneSeqNum u) :
    EndsTidy early doneSeqNum u.storePostSend := by
  refine (ends_anyhow _).bind fun inst _ => Ends.ok ?_
  have posted := (tidy.unstall inst).setStoreInFlight true
  exact ⟨posted.addressed, posted.marked⟩

theorem popCompleted_tidy (fuel : Nat) (u : LSQUnit) (tidy : Tidy early doneSeqNum u) :
    EndsTidy early doneSeqNum (popCompleted fuel u) := by
  induction fuel generalizing u with
  | zero => exact True.intro
  | succ fuel ih =>
      have popped : Tidy early doneSeqNum u.popStore := ⟨tidy.addressed, tidy.marked⟩
      rw [popCompleted]
      split
      · exact ih _ popped
      · exact Ends.ok popped

theorem completeStore_tidy (tidy : Tidy early doneSeqNum u) (store_idx : Nat) :
    EndsTidy early doneSeqNum (u.completeStore store_idx) := by
  unfold completeStore
  split
  · exact True.intro
  · next inst _ =>
      have completed := tidy.markCompleted store_idx
      have popped : EndsTidy early doneSeqNum ((u.markCompleted store_idx).popFrom store_idx) := by
        unfold popFrom
        split
        · exact popCompleted_tidy _ _ completed
        · exact Ends.ok completed
      exact popped.bind fun after tidyAfter =>
        Ends.ok ((tidyAfter.unstall inst).setStoreInFlight false)

theorem completeAtOnce_tidy (tidy : Tidy early doneSeqNum u) :
    EndsTidy early doneSeqNum u.completeAtOnce :=
  (completeStore_tidy tidy u.storeWBIdx).bind fun _ after => Ends.ok ⟨after.addressed, after.marked⟩

theorem sendToMemory_tidy (tidy : Tidy early doneSeqNum u) (inst : InstSeqNum) (attempt : SendAttempt) :
    EndsTidy early doneSeqNum (u.sendToMemory inst attempt) := by
  unfold sendToMemory
  split
  · exact True.intro
  · refine (ends_anyhow _).bind fun _ _ => ?_
    have handed := tidy.setEntry u.storeWBIdx
      { u.storeQueue u.storeWBIdx with committed := true } (tidy.marked u.storeWBIdx)
    dsimp only
    split
    · exact completeAtOnce_tidy handed
    · split
      · exact (ends_anyhow _).bind fun _ _ => completeAtOnce_tidy handed
      · split
        · exact storePostSend_tidy handed
        · exact Ends.ok ⟨handed.addressed, handed.marked⟩

theorem writebackStore_tidy (tidy : Tidy early doneSeqNum u) (attempt : SendAttempt) :
    EndsTidy early doneSeqNum (u.writebackStore attempt) := by
  unfold writebackStore
  split
  · exact Ends.ok tidy
  · split
    · exact completeAtOnce_tidy tidy
    · refine (ends_anyhow _).bind fun inst _ => ?_
      split
      · exact Ends.ok ⟨tidy.addressed, tidy.marked⟩
      · exact sendToMemory_tidy tidy inst attempt

theorem recvRetry_tidy (tidy : Tidy early doneSeqNum u) (sent : Bool) :
    EndsTidy early doneSeqNum (u.recvRetry sent) := by
  unfold recvRetry
  split
  · exact (storePostSend_tidy tidy).bind fun _ after => Ends.ok ⟨after.addressed, after.marked⟩
  · exact Ends.ok tidy

theorem squashLoads_tidy (squashed_num : InstSeqNum) (fuel load_idx : Nat) (u : LSQUnit)
    (tidy : Tidy early doneSeqNum u) :
    EndsTidy early doneSeqNum (squashLoads squashed_num fuel load_idx u) := by
  induction fuel generalizing load_idx u with
  | zero => exact True.intro
  | succ fuel ih =>
      rw [squashLoads]
      split
      · exact Ends.ok tidy
      · refine (ends_anyhow _).bind fun load_inst _ => ?_
        split
        · have free := tidy.unstallAt load_idx
          have removed := free.setInst load_inst
            { (u.unstallAt load_idx).insts load_inst with squashed := true }
            (free.addressed load_inst) rfl
          exact ih _ _ ⟨removed.addressed, removed.marked⟩
        · exact Ends.ok tidy

theorem squashStores_tidy (squashed_num : InstSeqNum) (fuel store_idx : Nat) (u : LSQUnit)
    (tidy : Tidy early doneSeqNum u) :
    EndsTidy early doneSeqNum (squashStores squashed_num fuel store_idx u) := by
  induction fuel generalizing store_idx u with
  | zero => exact True.intro
  | succ fuel ih =>
      rw [squashStores]
      split
      · exact Ends.ok tidy
      · refine (ends_anyhow _).bind fun store_inst _ => ?_
        split
        · split
          · exact True.intro
          · have removed := (tidy.setInst store_inst
              { u.insts store_inst with squashed := true }
              (tidy.addressed store_inst) rfl).setEntry store_idx
              { u.storeQueue store_idx with inst := none, canWB := false, req := none }
              fun other named _ => absurd named (Option.some_ne_none other).symm
            exact ih _ _ ⟨removed.addressed, removed.marked⟩
        · exact Ends.ok tidy

theorem squash_tidy (tidy : Tidy early doneSeqNum u) (squashed_num : InstSeqNum) :
    EndsTidy early doneSeqNum (u.squash squashed_num) := by
  refine (squashLoads_tidy squashed_num _ _ u tidy).bind fun loaded tidyLoaded => ?_
  have cleared :
      Tidy early doneSeqNum ((loaded.clearBlocked squashed_num).clearViolator squashed_num) := by
    unfold clearBlocked
    split <;> exact ⟨tidyLoaded.addressed, tidyLoaded.marked⟩
  exact squashStores_tidy squashed_num _ _ _ cleared

end Operations

end GemFi.LsqMarks
