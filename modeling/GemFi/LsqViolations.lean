import GemFi.ByteRanges
import GemFi.LsqRuns

/-!
The check for ordering violations when a store executes. It stops at the oldest younger load
whose shifted range meets that of the store. Accesses are aligned, so that no range wraps around
the top of the address space, and then none that shares a byte is missed.
-/

namespace GemFi.LsqViolations

open Rings Outcomes Transitions ByteRanges LsqUnit LsqUnit.LSQUnit LsqInvariant LsqMarks LsqExecution LsqRuns

def hits (u : LSQUnit) (inst load : InstSeqNum) : Bool :=
  (u.insts load).effAddrValid && !(u.insts load).uncacheable && u.overlaps (u.insts inst) (u.insts load)

def blame (violator : Option InstSeqNum) : Option InstSeqNum → Option InstSeqNum
  | none => violator
  | some load =>
      match violator with
      | none => some load
      | some older => if older < load then some older else some load

section Check

variable {spared : InstSeqNum → Prop} {u : LSQUnit} {doneSeqNum inst : InstSeqNum}
  {loads : List InstSeqNum} {stores : List SQEntry} {sent offset : Nat} {entry : SQEntry}
  {req : Request}

theorem blame_le_iff (before found : Option InstSeqNum) (load : InstSeqNum) :
    (∃ violator, blame before found = some violator ∧ violator ≤ load) ↔
      (∃ violator, before = some violator ∧ violator ≤ load) ∨
        ∃ first, found = some first ∧ first ≤ load := by
  cases found with
  | none => simp [blame]
  | some first =>
      cases before with
      | none => simp [blame]
      | some older =>
          by_cases stands : older < first
          · have later : first ≤ load → older ≤ load := Nat.le_trans (Nat.le_of_lt stands)
            simpa [blame, stands] using later
          · have later : older ≤ load → first ≤ load := Nat.le_trans (Nat.not_lt.mp stands)
            simpa [blame, stands] using later

theorem checkViolationsLoop_store (isStore : (u.insts inst).isLoad = false) (fuel : Nat)
    (inv : ConsistentFor spared u doneSeqNum loads stores sent) (within : offset ≤ loads.length)
    (enough : loads.length < offset + fuel) :
    ∃ fault u', checkViolationsLoop inst fuel (slot u.LQEntries u.loadHead offset) u = .ok (fault, u') ∧
      u'.memDepViolator = blame u.memDepViolator ((loads.drop offset).find? (hits u inst)) := by
  induction fuel generalizing offset with
  | zero => omega
  | succ fuel ih =>
      rcases visited inv within with ⟨last, atTail⟩ | ⟨inside, notTail, atSlot, following⟩
      · refine ⟨false, u, by rw [checkViolationsLoop, if_pos atTail], ?_⟩
        rw [last, List.drop_length]
        rfl
      · have on := ih inside (by omega)
        rw [checkViolationsLoop, if_neg notTail, atSlot, deref_bind, following,
          List.drop_eq_getElem_cons inside, List.find?_cons]
        by_cases skips : (!(u.insts loads[offset]).effAddrValid ||
            (u.insts loads[offset]).uncacheable) = true
        · have misses : hits u inst loads[offset] = false := by
            rw [hits, ← Bool.not_eq_true, Bool.and_eq_true, Bool.and_eq_true]
            rintro ⟨⟨valid, cached⟩, _⟩
            rw [valid, Bool.not_true, Bool.false_or] at skips
            rw [skips] at cached
            cases cached
          rw [if_pos skips, misses]
          exact on
        rw [if_neg skips]
        have exposed : (u.insts loads[offset]).effAddrValid = true ∧
            (u.insts loads[offset]).uncacheable = false := by simpa using skips
        by_cases meets : u.overlaps (u.insts inst) (u.insts loads[offset]) = true
        · have hit : hits u inst loads[offset] = true := by
            simp [hits, exposed.1, exposed.2, meets]
          rw [if_pos meets, if_neg (by rw [isStore]; exact Bool.false_ne_true), hit]
          cases before : u.memDepViolator with
          | none =>
              refine ⟨true, _, if_neg ?_, rfl⟩
              rw [violatorStands, before]
              exact Bool.false_ne_true
          | some older =>
              by_cases stands : older < loads[offset]
              · refine ⟨false, u, if_pos ?_, ?_⟩
                · rw [violatorStands, before]
                  exact decide_eq_true stands
                · exact before.trans (if_pos stands).symm
              · refine ⟨true, _, if_neg ?_, (if_neg stands).symm⟩
                rw [violatorStands, before]
                simpa using stands
        · have misses : hits u inst loads[offset] = false := by
            rw [hits, Bool.eq_false_iff.mpr meets, Bool.and_false]
          rw [if_neg meets, misses]
          exact on

def younger (loads : List InstSeqNum) (inst : InstSeqNum) : List InstSeqNum :=
  loads.drop (loads.countP fun load => decide (load < inst))

theorem mem_younger_iff (sorted : loads.Pairwise (· < ·)) (load : InstSeqNum) :
    load ∈ younger loads inst ↔ load ∈ loads ∧ inst ≤ load := by
  induction loads with
  | nil => simp [younger]
  | cons first rest ih =>
      have later := (List.pairwise_cons.mp sorted).1
      by_cases below : first < inst
      · have skip : younger (first :: rest) inst = younger rest inst := by
          rw [younger, List.countP_cons, if_pos (decide_eq_true below), List.drop_succ_cons, younger]
        rw [skip, ih sorted.of_cons, List.mem_cons]
        constructor
        · rintro ⟨member, after⟩
          exact ⟨Or.inr member, after⟩
        · rintro ⟨rfl | member, after⟩
          · exact absurd below (Nat.not_lt.mpr after)
          · exact ⟨member, after⟩
      · have none' : (first :: rest).countP (fun load => decide (load < inst)) = 0 := by
          apply List.countP_eq_zero.mpr
          intro other member
          have above : inst ≤ other := by
            rcases List.mem_cons.mp member with rfl | member
            · exact Nat.not_lt.mp below
            · exact Nat.le_trans (Nat.not_lt.mp below) (Nat.le_of_lt (later other member))
          simpa using above
        rw [younger, none', List.drop_zero]
        refine ⟨fun member => ⟨member, ?_⟩, fun both => both.1⟩
        have notBelow := List.countP_eq_zero.mp none' load member
        simpa using notBelow

theorem find?_le_iff {keep : InstSeqNum → Bool} {items : List InstSeqNum}
    (sorted : items.Pairwise (· < ·)) (load : InstSeqNum) :
    (∃ first, items.find? keep = some first ∧ first ≤ load) ↔
      ∃ other ∈ items, other ≤ load ∧ keep other = true := by
  induction items with
  | nil => simp
  | cons first rest ih =>
      have later := (List.pairwise_cons.mp sorted).1
      cases hit : keep first with
      | true =>
          rw [List.find?_cons_of_pos hit]
          constructor
          · rintro ⟨_, found, le⟩
            cases found
            exact ⟨first, List.mem_cons_self, le, hit⟩
          · rintro ⟨other, member, le, _⟩
            refine ⟨first, rfl, ?_⟩
            rcases List.mem_cons.mp member with rfl | behind
            · exact le
            · exact Nat.le_trans (Nat.le_of_lt (later other behind)) le
      | false =>
          rw [List.find?_cons_of_neg (by rw [hit]; exact Bool.false_ne_true), ih sorted.of_cons]
          simp [hit]

end Check

section Store

variable {m : Machine} {doneSeqNum inst load : InstSeqNum} {loads : List InstSeqNum}
  {stores : List SQEntry} {sent : Nat} {req : Request} {data : Nat → Byte}

/-- A younger cacheable load has an address, and shares a byte with the store. -/
def Conflicts (u : LSQUnit) (inst : InstSeqNum) (req : Request) (load : InstSeqNum) : Prop :=
  some load ∈ u.loadSlots ∧ inst < load ∧
    (u.insts load).effAddrValid = true ∧ (u.insts load).uncacheable = false ∧
    Overlap req.vaddr (req.size % 256) (u.insts load).effAddr (u.insts load).effSize

/-- `executeStore` returns and leaves a violator that is no younger than any load that the
store conflicts with. -/
def ViolationsCaught (u : LSQUnit) (inst : InstSeqNum) (req : Request) (data : Nat → Byte) : Prop :=
  ∃ fault u', u.executeStore inst (.written req data) = .ok (fault, u') ∧
    ∀ load, Conflicts u inst req load →
      ∃ violator, u'.memDepViolator = some violator ∧ violator ≤ load

theorem executeStore_blames (inv : Consistent m.lsq m.doneSeqNum loads stores sent)
    (orderly : Orderly m (.executeStore inst (.written req data))) (nonempty : 0 < req.size % 256) :
    ∃ fault u', m.lsq.executeStore inst (.written req data) = .ok (fault, u') ∧
      u'.memDepViolator = blame m.lsq.memDepViolator
        ((younger loads inst).find? (hits (m.lsq.setAddress inst req) inst)) := by
  obtain ⟨offset, entry, executes⟩ := executes_of_orderly inv orderly
  obtain ⟨stores', ready⟩ := ready_keeps inv executes
  -- what the check reads is what the address calculation left
  have same : ∀ store_idx,
      ((started m.lsq inst store_idx entry req data).readyConditional inst store_idx).memDepViolator =
        m.lsq.memDepViolator ∧
      ((started m.lsq inst store_idx entry req data).readyConditional inst store_idx).insts =
        (m.lsq.setAddress inst req).insts ∧
      hits ((started m.lsq inst store_idx entry req data).readyConditional inst store_idx) inst =
        hits (m.lsq.setAddress inst req) inst := by
    intro store_idx
    unfold readyConditional
    split <;> exact ⟨rfl, rfl, rfl⟩
  obtain ⟨violatorIs, instsAre, hitsAre⟩ := same (slot m.lsq.SQEntries m.lsq.storeHead offset)
  have isStore : ((m.lsq.setAddress inst req).insts inst).isLoad = false := by
    simp [setAddress, setInst, executes.isStore]
  rw [← instsAre] at isStore
  have room := ready.loadRing.room
  rw [List.length_map] at room
  obtain ⟨fault, u', checked, blames⟩ := checkViolationsLoop_store isStore _ ready
    (List.countP_le_length (p := fun load => decide (load < inst)))
    (Nat.lt_of_lt_of_le room (Nat.le_add_left _ _))
  obtain ⟨size, head⟩ := readyConditional_loads
    (started m.lsq inst (slot m.lsq.SQEntries m.lsq.storeHead offset) entry req data) inst
    (slot m.lsq.SQEntries m.lsq.storeHead offset)
  refine ⟨fault, u', (executeStore_checks inv executes (Nat.ne_of_gt nonempty)).trans ?_, ?_⟩
  · rw [size, head] at checked
    rw [checkViolations, size]
    exact checked
  · rw [blames, violatorIs, hitsAre, younger]

theorem mem_loadSlots_iff (inv : Consistent m.lsq m.doneSeqNum loads stores sent) :
    some load ∈ m.lsq.loadSlots ↔ load ∈ loads := by
  rw [loadSlots_eq inv]
  simp

theorem hits_of_conflict (conflict : Conflicts m.lsq inst req load) (nonempty : 0 < req.size % 256)
    (fits : Fits req.vaddr (req.size % 256))
    (loadFits : Fits (m.lsq.insts load).effAddr (m.lsq.insts load).effSize) :
    hits (m.lsq.setAddress inst req) inst load = true := by
  obtain ⟨_, before, valid, cached, shared⟩ := conflict
  have apart : load ≠ inst := fun same => Nat.lt_irrefl _ (same ▸ before)
  have unchanged :
      (m.lsq.setAddress inst req).insts load = m.lsq.insts load := Function.update_of_ne apart _ _
  have addressed : (m.lsq.setAddress inst req).insts inst = { m.lsq.insts inst with
      effAddr := req.vaddr
      effSize := req.size % 256
      effAddrValid := true
      uncacheable := req.uncacheable } := Function.update_self _ _ _
  have loadNonempty : 0 < (m.lsq.insts load).effSize := by
    obtain ⟨_, _, k, inside, _⟩ := shared
    exact Nat.zero_lt_of_lt inside
  obtain ⟨first, second⟩ := (overlap_iff fits loadFits nonempty loadNonempty).mp shared
  have loadBeforeLast : (m.lsq.insts load).effAddr ≤
      req.vaddr + BitVec.ofNat 64 (req.size % 256) - 1 := by
    rw [BitVec.le_def, toNat_last fits nonempty]
    omega
  have storeBeforeLast : req.vaddr ≤ (m.lsq.insts load).effAddr +
      BitVec.ofNat 64 (m.lsq.insts load).effSize - 1 := by
    rw [BitVec.le_def, toNat_last loadFits loadNonempty]
    omega
  have meets : (m.lsq.setAddress inst req).overlaps ((m.lsq.setAddress inst req).insts inst)
      (m.lsq.insts load) = true := by
    rw [addressed]
    exact decide_eq_true ⟨ushiftRight_mono loadBeforeLast _, ushiftRight_mono storeBeforeLast _⟩
  rw [hits, unchanged, valid, cached, meets]
  rfl

/-- In every state that an orderly run reaches, from instructions that have no address yet, a store
that writes something catches its violations. -/
theorem violations_caught (maxLQEntries maxSQEntries depCheckShift : Nat)
    (checkLoads needsTSO : Bool) (insts : InstSeqNum → DynInst)
    (fresh : ∀ inst, (insts inst).effAddrValid = false) (actions : List Action)
    (admissible : Admissible step Orderly actions
      (start maxLQEntries maxSQEntries depCheckShift checkLoads needsTSO insts))
    (ran : run step actions
      (start maxLQEntries maxSQEntries depCheckShift checkLoads needsTSO insts) = some m)
    (orderly : Orderly m (.executeStore inst (.written req data)))
    (nonempty : 0 < req.size % 256) : ViolationsCaught m.lsq inst req data := by
  obtain ⟨sound, tidy⟩ := reached_tidy (start_sound _ _ _ _ _ _)
    (init_tidy 0 maxLQEntries maxSQEntries depCheckShift checkLoads needsTSO insts)
    admissible ran
  obtain ⟨loads, stores, sent, inv⟩ := sound
  obtain ⟨fault, u', executed, blames⟩ := executeStore_blames inv orderly nonempty
  have sorted :
      (younger loads inst).Pairwise (· < ·) := inv.loadsSorted.sublist (List.drop_sublist _ _)
  have fits : Fits req.vaddr (req.size % 256) := fits_of_aligned_request orderly.2.2.2.2.2
  refine ⟨fault, u', executed, fun load conflict => ?_⟩
  have ⟨held, before, valid, _⟩ := conflict
  have loadFits := tidy.addressed load (by rw [fresh load]; exact Bool.false_ne_true) valid
  rw [blames, blame_le_iff, find?_le_iff sorted]
  exact .inr ⟨load, (mem_younger_iff inv.loadsSorted load).mpr
    ⟨(mem_loadSlots_iff inv).mp held, Nat.le_of_lt before⟩, Nat.le_refl load,
    hits_of_conflict conflict nonempty fits loadFits⟩

def loadFirst (vaddr : Addr) (size : Nat) : List Action :=
  -- a load executes before the older store beside it
  [.insertStore 1, .insertLoad 2, .executeLoad 2 (.translated ⟨vaddr, size, false, false, false⟩ true false)]

def afterLoad (vaddr : Addr) (size : Nat) : Machine :=
  (run step (loadFirst vaddr size) (start 2 2 4 true false fun _ => dispatched)).getD
    (start 2 2 4 true false fun _ => dispatched)

theorem violations_caught_beside_load :
    Conflicts (afterLoad 64 8).lsq 1 ⟨64, 4, false, false, false⟩ 2 ∧
    ViolationsCaught (afterLoad 64 8).lsq 1 ⟨64, 4, false, false, false⟩ fun _ => 7 :=
  ⟨⟨by decide, by decide, by decide, by decide, 64, within_start (by decide), within_start (by decide)⟩,
    violations_caught 2 2 4 true false (fun _ => dispatched) (fun _ => rfl) (loadFirst 64 8)
      (admissible_of_admits (by decide)) rfl (by decide) (by decide)⟩

end Store

end GemFi.LsqViolations
