import Mathlib.Data.List.Induction
import Mathlib.Data.List.TakeWhile
import Mathlib.Order.Basic
import GemFi.OutOfOrder
import GemFi.RenameRollback

/-!
Renaming in the out-of-order core. The history buffer holds the destinations of the instructions in
the reorder buffer, so that undoing it from its new end gives the map that each of them has read its
sources from. A register that an instruction has taken is in no map before it.
-/

namespace GemFi.OutOfOrderRenaming

open Outcomes (assert assert_ok)
open UndoLogs RegisterRename RegisterConservation FreeRegisters OutOfOrder

variable {Value : Type} {cpu : Cpu}

section Definitions

def entry (seqNum : ℕ) (dest : DestReg) :
    RenameHistory := ⟨seqNum, dest.flat, dest.renamed, dest.prev⟩

def changes (insts : ℕ → DynInst cpu.isa Value) (list : List ℕ) :
    List (Change (RegClass × RegIndex) PhysRegIndex) :=
  (list.flatMap fun i => (insts i).dests.map (entry i)).reverse.map (changeOf cpu.isa)

def fresh (inst : DynInst cpu.isa Value) : List PhysRegIndex :=
  -- the registers that an instruction has taken from the free lists
  (inst.dests.filter fun dest => dest.renamed ≠ dest.prev).map (·.renamed)

def mapBefore (s : State cpu Value) (young : List ℕ) :
    RenameMap := undoAll s.rename.map (changes s.insts young)

structure DestShaped (cpu : Cpu) (dest : DestReg) : Prop where
  bounded : dest.flat < cpu.isa.maxRegIndex
  mapped : cpu.isa.classify dest.flat ∈ archRegs cpu.isa
  same_iff : dest.renamed = dest.prev ↔ cpu.isa.classify dest.flat = (.int, cpu.isa.zeroReg)
  zero_iff : dest.renamed = cpu.isa.zeroReg ↔ cpu.isa.classify dest.flat = (.int, cpu.isa.zeroReg)
  isPhys : cpu.file.isPhysReg (cpu.isa.classify dest.flat).1 dest.renamed = true

structure Shaped (inst : DynInst cpu.isa Value) : Prop where
  srcs : ∀ reg ∈ inst.staticInst.srcRegs, flat inst.staticInst.tc reg ∈ archRegs cpu.isa
  keys : inst.dests.map (fun dest => cpu.isa.classify dest.flat) =
    inst.staticInst.destRegs.map (flat inst.staticInst.tc)
  dests : ∀ dest ∈ inst.dests, DestShaped cpu dest

/-- The history belongs to the instructions in the reorder buffer, which have their sources from the
map as it was when they were renamed. -/
structure Tracked (s : State cpu Value) : Prop where
  conserved : Conserved cpu.isa cpu.file s.rename
  zeroMapped : (RegClass.int, cpu.isa.zeroReg) ∈ archRegs cpu.isa
  zero : s.rename.map (.int, cpu.isa.zeroReg) = cpu.isa.zeroReg
  history : s.rename.history = (s.rob.flatMap fun i => (s.insts i).dests.map (entry i)).reverse
  shaped : ∀ i ∈ s.rob, Shaped (s.insts i)
  sources : ∀ front i back, s.rob = front ++ i :: back →
    (s.insts i).srcRegs = (s.insts i).staticInst.srcRegs.map fun reg =>
      mapBefore s (i :: back) (flat (s.insts i).staticInst.tc reg)
  committed : s.commitRenameMap = mapBefore s s.rob

end Definitions

section Changes

variable {insts : ℕ → DynInst cpu.isa Value} {s : State cpu Value} {front back : List ℕ} {i j : ℕ}
  {reg : RegClass × RegIndex} {p : PhysRegIndex}

theorem changes_append (insts : ℕ → DynInst cpu.isa Value) (front back : List ℕ) :
    changes insts (front ++ back) = changes insts back ++ changes insts front := by
  simp [changes]

theorem changes_congr {insts' : ℕ → DynInst cpu.isa Value} {list : List ℕ}
    (same : ∀ i ∈ list, (insts' i).dests = (insts i).dests) :
    changes insts' list = changes insts list := by
  unfold changes
  congr 2
  exact List.flatMap_congr fun i member => by rw [same i member]

theorem mem_made_changes {list : List ℕ} :
    p ∈ made (changes insts list) ↔ ∃ i ∈ list, p ∈ fresh (insts i) := by
  simp only [made, changes, fresh, changeOf, entry, List.mem_map, List.mem_filter, List.mem_reverse, List.mem_flatMap]
  constructor
  · rintro ⟨change, ⟨⟨_, ⟨i, inside, dest, member, rfl⟩, rfl⟩, differs⟩, rfl⟩
    exact ⟨i, inside, dest, ⟨member, differs⟩, rfl⟩
  · rintro ⟨i, inside, dest, ⟨member, differs⟩, rfl⟩
    exact ⟨_, ⟨⟨_, ⟨i, inside, dest, member, rfl⟩, rfl⟩, differs⟩, rfl⟩

theorem mapBefore_append (s : State cpu Value) (front back : List ℕ) :
    mapBefore s (front ++ back) = undoAll (mapBefore s back) (changes s.insts front) := by
  rw [mapBefore, changes_append, undoAll_append]
  rfl

@[simp] theorem mapBefore_nil (s : State cpu Value) : mapBefore s [] = s.rename.map := rfl

namespace Tracked

theorem log_eq (tracked : Tracked s) : log cpu.isa s.rename = changes s.insts s.rob := by
  rw [log, tracked.history, changes]

/-- The physical registers at any place between the instructions: free, taken behind that place, mapped
there, or kept for a squash before it. -/
theorem parted (tracked : Tracked s) (split : s.rob = front ++ back) :
    (freed s.rename ++ (made (changes s.insts back) ++
      ((archRegs cpu.isa).map (mapBefore s back) ++ kept (changes s.insts front)))).Perm
        (List.range cpu.file.totalNumRegs) := by
  have whole := tracked.log_eq
  rw [split, changes_append] at whole
  have consistent := tracked.conserved.consistent
  rw [whole] at consistent
  have keys :
      ∀ change ∈ changes s.insts back, change.new ≠ change.old → change.key ∈ archRegs cpu.isa := by
    intro change member differs
    have inLog : change ∈ log cpu.isa s.rename := whole ▸ List.mem_append_left _ member
    obtain ⟨e, inside, rfl⟩ := List.mem_map.mp inLog
    exact (tracked.conserved.sane e inside differs).mapped
  have undone := undoAll_perm (archRegs_nodup cpu.isa) keys consistent
  rw [← whole] at undone
  exact (undone.symm.append_left _).trans tracked.conserved.parted

theorem parted_nodup (tracked : Tracked s) (split : s.rob = front ++ back) :
    (freed s.rename ++ (made (changes s.insts back) ++
      ((archRegs cpu.isa).map (mapBefore s back) ++ kept (changes s.insts front)))).Nodup :=
  (tracked.parted split).nodup_iff.mpr List.nodup_range

theorem older_mem (s : State cpu Value) (front back : List ℕ) (inArch : reg ∈ archRegs cpu.isa) :
    mapBefore s (front ++ back) reg ∈ (archRegs cpu.isa).map (mapBefore s back) ++ kept (changes s.insts front) := by
  rw [mapBefore_append]
  obtain same | inside := undoAll_mem (mapBefore s back) (changes s.insts front) reg
  · rw [same]
    exact List.mem_append_left _ (List.mem_map_of_mem inArch)
  · exact List.mem_append_right _ inside

theorem mapBefore_live (tracked : Tracked s) (split : s.rob = front ++ back) (inArch : reg ∈ archRegs cpu.isa) :
    mapBefore s back reg ∉ freed s.rename ∧ mapBefore s back reg < cpu.file.totalNumRegs := by
  have inside : mapBefore s back reg ∈ made (changes s.insts back) ++
      ((archRegs cpu.isa).map (mapBefore s back) ++ kept (changes s.insts front)) :=
    List.mem_append_right _ (List.mem_append_left _ (List.mem_map_of_mem inArch))
  refine ⟨fun free => ?_, ?_⟩
  · exact (List.nodup_append.mp (tracked.parted_nodup split)).2.2 _ free _ inside rfl
  · exact List.mem_range.mp ((tracked.parted split).mem_iff.mp (List.mem_append_right _ inside))

theorem source_eq (tracked : Tracked s) (split : s.rob = front ++ i :: back) (source : p ∈ (s.insts i).srcRegs) :
    ∃ reg ∈ archRegs cpu.isa, mapBefore s (i :: back) reg = p := by
  rw [tracked.sources front i back split] at source
  obtain ⟨reg, member, rfl⟩ := List.mem_map.mp source
  have inRob : i ∈ s.rob := split ▸ List.mem_append_right front List.mem_cons_self
  exact ⟨_, (tracked.shaped i inRob).srcs reg member, rfl⟩

theorem source_live (tracked : Tracked s) (inRob : i ∈ s.rob) (source : p ∈ (s.insts i).srcRegs) :
    p ∉ freed s.rename ∧ p < cpu.file.totalNumRegs := by
  obtain ⟨front, back, split⟩ := List.append_of_mem inRob
  obtain ⟨reg, inArch, rfl⟩ := tracked.source_eq split source
  exact tracked.mapBefore_live split inArch

theorem fresh_live (tracked : Tracked s) (inRob : i ∈ s.rob) (taken : p ∈ fresh (s.insts i)) :
    p ∉ freed s.rename ∧ p < cpu.file.totalNumRegs := by
  have split : s.rob = [] ++ s.rob := rfl
  have inside : p ∈ made (changes s.insts s.rob) := mem_made_changes.mpr ⟨i, inRob, taken⟩
  refine ⟨fun free => ?_, ?_⟩
  · exact (List.nodup_append.mp (tracked.parted_nodup split)).2.2 p free p (List.mem_append_left _ inside) rfl
  · exact List.mem_range.mp ((tracked.parted split).mem_iff.mp
      (List.mem_append_right _ (List.mem_append_left _ inside)))

theorem fresh_not_mapped (tracked : Tracked s) (older : List ℕ) (split : s.rob = front ++ older ++ i :: back)
    (taken : p ∈ fresh (s.insts i)) (inArch : reg ∈ archRegs cpu.isa) :
    mapBefore s (older ++ i :: back) reg ≠ p := by
  intro same
  have mapped := older_mem s older (i :: back) inArch
  rw [same] at mapped
  have isMade :
      p ∈ made (changes s.insts (i :: back)) := mem_made_changes.mpr ⟨i, List.mem_cons_self, taken⟩
  have behind : p ∈ (archRegs cpu.isa).map (mapBefore s (i :: back)) ++ kept (changes s.insts (front ++ older)) := by
    rw [changes_append, kept_append, ← List.append_assoc]
    exact List.mem_append_left _ mapped
  obtain ⟨_, _, apart⟩ := List.nodup_append.mp (List.nodup_append.mp (tracked.parted_nodup split)).2.1
  exact apart p isMade p behind rfl

theorem fresh_not_source (tracked : Tracked s) (split : s.rob = front ++ i :: back) (taken : p ∈ fresh (s.insts i))
    (older : j ∈ front ∨ j = i) : p ∉ (s.insts j).srcRegs := by
  intro source
  obtain inFront | rfl := older
  · obtain ⟨before, between, rfl⟩ := List.append_of_mem inFront
    have at_j : s.rob = before ++ j :: (between ++ i :: back) := by simp [split]
    obtain ⟨reg, inArch, same⟩ := tracked.source_eq at_j source
    exact tracked.fresh_not_mapped (j :: between) (by simpa using at_j) taken inArch same
  · obtain ⟨reg, inArch, same⟩ := tracked.source_eq split source
    exact tracked.fresh_not_mapped [] (by simpa using split) taken inArch same

theorem fresh_unique (tracked : Tracked s) (first : i ∈ s.rob) (second : j ∈ s.rob)
    (taken : p ∈ fresh (s.insts i)) (other : p ∈ fresh (s.insts j)) : i = j := by
  have single : (made (changes s.insts s.rob)).Nodup :=
    (List.nodup_append.mp (List.nodup_append.mp (tracked.parted_nodup (List.nil_append s.rob).symm)).2.1).1
  by_contra differs
  obtain ⟨front, back, split⟩ := List.append_of_mem first
  rw [split, List.append_cons, changes_append, changes_append, made_append, made_append] at single
  have own :
      p ∈ made (changes s.insts [i]) := mem_made_changes.mpr ⟨i, List.mem_singleton_self i, taken⟩
  obtain ⟨_, rest, apart⟩ := List.nodup_append.mp single
  obtain inFront | inBack := List.mem_append.mp (split ▸ second)
  · have old : p ∈ made (changes s.insts front) := mem_made_changes.mpr ⟨j, inFront, other⟩
    exact (List.nodup_append.mp rest).2.2 p own p old rfl
  · obtain rfl | inBack := List.mem_cons.mp inBack
    · exact differs rfl
    · have new : p ∈ made (changes s.insts back) := mem_made_changes.mpr ⟨j, inBack, other⟩
      exact apart p new p (List.mem_append_left _ own) rfl

theorem fresh_nodup (tracked : Tracked s) (inRob : i ∈ s.rob) : (fresh (s.insts i)).Nodup := by
  have single : (made (changes s.insts s.rob)).Nodup :=
    (List.nodup_append.mp (List.nodup_append.mp (tracked.parted_nodup (List.nil_append s.rob).symm)).2.1).1
  obtain ⟨front, back, split⟩ := List.append_of_mem inRob
  rw [split, List.append_cons, changes_append, changes_append, made_append, made_append] at single
  have own := (List.nodup_append.mp (List.nodup_append.mp single).2.1).1
  have turned : made (changes s.insts [i]) = (fresh (s.insts i)).reverse := by
    simp only [made, changes, fresh, changeOf, entry, List.flatMap_singleton, List.filter_map, List.map_map,
      List.map_reverse, List.filter_reverse, Function.comp_def]
  rw [turned] at own
  exact List.nodup_reverse.mp own

theorem zero_not_fresh (tracked : Tracked s) (inRob : i ∈ s.rob) :
    cpu.isa.zeroReg ∉ fresh (s.insts i) := by
  intro taken
  obtain ⟨dest, member, isZero⟩ := List.mem_map.mp taken
  obtain ⟨member, differs⟩ := List.mem_filter.mp member
  have shaped := (tracked.shaped i inRob).dests dest member
  exact (of_decide_eq_true differs) (shaped.same_iff.mpr (shaped.zero_iff.mp isZero))

theorem mapBefore_zero (tracked : Tracked s) (split : s.rob = front ++ back) :
    mapBefore s back (.int, cpu.isa.zeroReg) = cpu.isa.zeroReg := by
  refine (undoAll_of_ne s.rename.map fun change member differs isZero => ?_).trans tracked.zero
  obtain ⟨e, inside, rfl⟩ := List.mem_map.mp member
  obtain ⟨i, young, isEntry⟩ := List.mem_flatMap.mp (List.mem_reverse.mp inside)
  obtain ⟨dest, isDest, rfl⟩ := List.mem_map.mp isEntry
  have shaped := (tracked.shaped i (split ▸ List.mem_append_right front young)).dests dest isDest
  exact differs (shaped.same_iff.mpr isZero)

theorem dest_cases (tracked : Tracked s) (inRob : i ∈ s.rob) (isDest : p ∈ (s.insts i).destRegs) :
    p = cpu.isa.zeroReg ∨ p ∈ fresh (s.insts i) := by
  obtain ⟨dest, member, rfl⟩ := List.mem_map.mp isDest
  by_cases same : dest.renamed = dest.prev
  · have shaped := (tracked.shaped i inRob).dests dest member
    exact .inl (shaped.zero_iff.mpr (shaped.same_iff.mp same))
  · exact .inr (List.mem_map.mpr ⟨dest, List.mem_filter.mpr ⟨member, decide_eq_true same⟩, rfl⟩)

end Tracked

theorem fresh_sub_dests {inst : DynInst cpu.isa Value} (taken : p ∈ fresh inst) :
    p ∈ inst.destRegs := by
  obtain ⟨dest, member, rfl⟩ := List.mem_map.mp taken
  exact List.mem_map_of_mem (List.mem_of_mem_filter member)

end Changes

/-! ## Renaming an instruction -/

section Sources

variable {scoreboard : PhysRegIndex → Bool} {map : RenameMap} {inst : DynInst cpu.isa Value}

structure Counted (scoreboard : PhysRegIndex → Bool) (inst : DynInst cpu.isa Value) : Prop where
  flags : ∀ k p, inst.srcRegs[k]? = some p → inst.readySrcRegIdx k = scoreboard p
  beyond : ∀ k, inst.srcRegs.length ≤ k → inst.readySrcRegIdx k = false
  readyRegs : inst.readyRegs = inst.srcRegs.countP scoreboard
  canIssue : inst.canIssue = true ↔ inst.readyRegs = inst.staticInst.srcRegs.length

theorem markSrcRegReady_canIssue (counted : inst.canIssue = true ↔ inst.readyRegs = inst.staticInst.srcRegs.length)
    (more : inst.readyRegs < inst.staticInst.srcRegs.length) :
    inst.markSrcRegReady.canIssue = true ↔ inst.markSrcRegReady.readyRegs = inst.staticInst.srcRegs.length := by
  have not_yet : inst.canIssue = false := Bool.eq_false_iff.mpr fun can => more.ne (counted.mp can)
  simp [DynInst.markSrcRegReady, not_yet]

theorem getReg_eq {p : PhysRegIndex} (inFile : p < cpu.file.totalNumRegs)
    (zero : scoreboard cpu.isa.zeroReg = true) :
    OutOfOrder.getReg cpu scoreboard p = some (scoreboard p) := by
  have notZero : ¬(p = cpu.isa.zeroReg ∧ scoreboard p = false) := by
    rintro ⟨rfl, unready⟩
    exact absurd (zero.symm.trans unready) nofun
  rw [OutOfOrder.getReg, if_pos (Nat.lt_add_right _ inFile), if_neg (Nat.not_le_of_lt inFile), if_neg notZero]

theorem toOption_classify {reg : RegIndex} (bounded : reg < cpu.isa.maxRegIndex) :
    (cpu.isa.regIdxToClass reg).toOption = some (cpu.isa.classify reg) := by
  rw [Isa.regIdxToClass, assert_ok (decide_eq_true bounded)]
  rfl

theorem getElem?_concat_cases {α : Type} {list : List α} {last a : α} {k : ℕ} (isElem : (list ++ [last])[k]? = some a) :
    (k < list.length ∧ list[k]? = some a) ∨ (k = list.length ∧ a = last) := by
  by_cases inside : k < list.length
  · rw [List.getElem?_append_left inside] at isElem
    exact .inl ⟨inside, isElem⟩
  · rw [List.getElem?_append_right (Nat.le_of_not_lt inside), List.getElem?_singleton] at isElem
    split at isElem
    · next only => exact .inr ⟨by omega, (Option.some.inj isElem).symm⟩
    · cases isElem

theorem renameSrcReg_counted {srcReg : RegIndex} (counted : Counted scoreboard inst)
    (zero : scoreboard cpu.isa.zeroReg = true) (bounded : srcReg < cpu.isa.maxRegIndex)
    (notMisc : (cpu.isa.classify srcReg).1 ≠ .misc)
    (inFile : map (flat inst.staticInst.tc srcReg) < cpu.file.totalNumRegs)
    (more : inst.srcRegs.length < inst.staticInst.srcRegs.length) :
    ∃ flags readyRegs canIssue,
      State.renameSrcReg scoreboard map inst srcReg = some { inst with
        srcRegs := inst.srcRegs ++ [map (flat inst.staticInst.tc srcReg)]
        readySrcRegIdx := flags, readyRegs := readyRegs, canIssue := canIssue } ∧
      Counted scoreboard { inst with
        srcRegs := inst.srcRegs ++ [map (flat inst.staticInst.tc srcReg)]
        readySrcRegIdx := flags, readyRegs := readyRegs, canIssue := canIssue } := by
  have renamed : State.renameSrcReg scoreboard map inst srcReg =
      (OutOfOrder.getReg cpu scoreboard (map (flat inst.staticInst.tc srcReg))).map fun ready =>
        let added := { inst with srcRegs := inst.srcRegs ++ [map (flat inst.staticInst.tc srcReg)] }
        if ready then added.markSrcRegReadyAt inst.srcRegs.length else added := by
    unfold State.renameSrcReg flat
    rw [toOption_classify bounded]
    cases shape : cpu.isa.classify srcReg with
    | mk c reg =>
        cases c with
        | int | float | cc => rfl
        | misc => exact absurd (congrArg Prod.fst shape) notMisc
  rw [getReg_eq inFile zero] at renamed
  have atMost : inst.readyRegs ≤ inst.srcRegs.length := counted.readyRegs ▸ List.countP_le_length
  have longer (k : ℕ) (above : (inst.srcRegs ++ [map (flat inst.staticInst.tc srcReg)]).length ≤ k) :
      inst.srcRegs.length < k := by
    rw [List.length_append] at above
    exact above
  cases ready : scoreboard (map (flat inst.staticInst.tc srcReg)) with
  | false =>
      rw [ready] at renamed
      refine ⟨inst.readySrcRegIdx, inst.readyRegs, inst.canIssue, renamed, ?_, ?_, ?_, counted.canIssue⟩
      · intro k p isSource
        obtain ⟨_, old⟩ | ⟨rfl, rfl⟩ := getElem?_concat_cases isSource
        · exact counted.flags k p old
        · rw [ready]
          exact counted.beyond _ le_rfl
      · exact fun k above => counted.beyond k (longer k above).le
      · rw [List.countP_append, counted.readyRegs]
        simp [ready]
  | true =>
      rw [ready] at renamed
      refine ⟨Function.update inst.readySrcRegIdx inst.srcRegs.length true, inst.readyRegs + 1, _, renamed, ?_, ?_, ?_, ?_⟩
      · intro k p isSource
        obtain ⟨inside, old⟩ | ⟨rfl, rfl⟩ := getElem?_concat_cases isSource
        · exact (Function.update_of_ne inside.ne _ _).trans (counted.flags k p old)
        · rw [ready]
          exact Function.update_self _ _ _
      · intro k above
        exact (Function.update_of_ne (longer k above).ne' _ _).trans (counted.beyond k (longer k above).le)
      · rw [List.countP_append, counted.readyRegs]
        simp [ready]
      · exact markSrcRegReady_canIssue counted.canIssue (Nat.lt_of_le_of_lt atMost more)

theorem renameSrcRegs_counted {list : List RegIndex} (counted : Counted scoreboard inst)
    (zero : scoreboard cpu.isa.zeroReg = true)
    (bounded : ∀ reg ∈ list, reg < cpu.isa.maxRegIndex ∧ (cpu.isa.classify reg).1 ≠ .misc ∧
      map (flat inst.staticInst.tc reg) < cpu.file.totalNumRegs)
    (fits : inst.srcRegs.length + list.length ≤ inst.staticInst.srcRegs.length) :
    ∃ flags readyRegs canIssue,
      list.foldlM (State.renameSrcReg scoreboard map) inst = some { inst with
        srcRegs := inst.srcRegs ++ list.map fun reg => map (flat inst.staticInst.tc reg)
        readySrcRegIdx := flags, readyRegs := readyRegs, canIssue := canIssue } ∧
      Counted scoreboard { inst with
        srcRegs := inst.srcRegs ++ list.map fun reg => map (flat inst.staticInst.tc reg)
        readySrcRegIdx := flags, readyRegs := readyRegs, canIssue := canIssue } := by
  induction list generalizing inst with
  | nil =>
      refine ⟨inst.readySrcRegIdx, inst.readyRegs, inst.canIssue, ?_, ?_⟩
      · simp
      · simpa using counted
  | cons reg list ih =>
      obtain ⟨⟨inIsa, notMisc, inFile⟩, bounded⟩ := List.forall_mem_cons.mp bounded
      rw [List.length_cons] at fits
      obtain ⟨flags, readyRegs, canIssue, renamed, counted⟩ :=
        renameSrcReg_counted counted zero inIsa notMisc inFile (by omega)
      have still : (inst.srcRegs ++ [map (flat inst.staticInst.tc reg)]).length + list.length ≤
          inst.staticInst.srcRegs.length := by
        rw [List.length_append, List.length_singleton]
        omega
      obtain ⟨flags, readyRegs, canIssue, rest, counted⟩ := ih counted bounded still
      refine ⟨flags, readyRegs, canIssue, ?_, ?_⟩
      · rw [List.foldlM_cons, renamed, Option.bind_eq_bind, Option.bind_some, rest]
        simp
      · simpa using counted

end Sources

section Destinations

variable {rename after : RegisterRename.State} {tc : ThreadContext cpu.isa} {destReg : RegIndex} {seqNum : ℕ}
  {inst : DynInst cpu.isa Value} {scoreboard : PhysRegIndex → Bool}

theorem lt_of_isPhysReg {file : PhysRegFile} {c : RegClass} {p : ℕ} (isReg : file.isPhysReg c p = true) :
    p < file.totalNumRegs := by
  have float := file.floatFits
  have cc := file.ccFits
  cases c <;> simp only [PhysRegFile.isPhysReg, PhysRegFile.isIntPhysReg, PhysRegFile.isFloatPhysReg,
    PhysRegFile.isCCPhysReg, Bool.and_eq_true, decide_eq_true_eq, Bool.false_eq_true] at isReg <;> omega

theorem flat_mem_archRegs (tc : ThreadContext cpu.isa) {reg : RegIndex} (notMisc : (cpu.isa.classify reg).1 ≠ .misc) :
    flat tc reg ∈ archRegs cpu.isa := mem_archRegs.mpr (tc.inRange reg notMisc)

theorem renameDest_spec (scoreboard : PhysRegIndex → Bool) (conserved : Conserved cpu.isa cpu.file rename)
    (zeroMapped : (RegClass.int, cpu.isa.zeroReg) ∈ archRegs cpu.isa)
    (zero : rename.map (.int, cpu.isa.zeroReg) = cpu.isa.zeroReg) (bounded : destReg < cpu.isa.maxRegIndex)
    (notMisc : (cpu.isa.classify destReg).1 ≠ .misc)
    (notFloat : flat inst.staticInst.tc destReg ≠ (.float, cpu.isa.fpZeroReg))
    (renamed : renameDestReg cpu.isa cpu.file inst.staticInst.tc seqNum rename destReg = .ok after) :
    ∃ dest, State.renameDest seqNum (rename, scoreboard, inst) destReg =
        some (after, (fun p => if p = dest.renamed ∧ dest.renamed ≠ dest.prev then false else scoreboard p),
          { inst with dests := inst.dests ++ [dest] }) ∧
      Recorded cpu.isa cpu.file (entry seqNum dest) rename after ∧ DestShaped cpu dest ∧
      cpu.isa.classify dest.flat = flat inst.staticInst.tc destReg ∧
      after.map (.int, cpu.isa.zeroReg) = cpu.isa.zeroReg := by
  have inArch := flat_mem_archRegs inst.staticInst.tc notMisc
  have whole : renameDestReg cpu.isa cpu.file inst.staticInst.tc seqNum rename destReg = _ :=
    renameDestReg_class cpu.file seqNum rename bounded notMisc
  have zeroPhys : cpu.file.isPhysReg .int cpu.isa.zeroReg = true := by
    have isPhys := conserved.mapClass _ zeroMapped
    rwa [zero] at isPhys
  have zeroBelow : cpu.isa.zeroReg < cpu.file.totalNumRegs + cpu.numMiscRegs :=
    Nat.lt_add_right _ (lt_of_isPhysReg zeroPhys)
  obtain ⟨unified, uniBounded⟩ : cpu.isa.classify ((flat inst.staticInst.tc destReg).2 +
      cpu.isa.base (flat inst.staticInst.tc destReg).1) = flat inst.staticInst.tc destReg ∧
        (flat inst.staticInst.tc destReg).2 + cpu.isa.base (flat inst.staticInst.tc destReg).1 <
          cpu.isa.maxRegIndex := classify_unified (mem_archRegs.mp inArch)
  rw [renamed] at whole
  by_cases isZero : flat inst.staticInst.tc destReg = (.int, cpu.isa.zeroReg)
  · have first : (flat inst.staticInst.tc destReg).1 = .int := congrArg Prod.fst isZero
    have second : (flat inst.staticInst.tc destReg).2 = cpu.isa.zeroReg := congrArg Prod.snd isZero
    rw [first, second] at whole uniBounded
    rw [first, second, isZero] at unified
    rw [renameClass_zero rfl zero zeroPhys] at whole
    cases whole
    refine ⟨⟨cpu.isa.zeroReg + cpu.isa.base .int, cpu.isa.zeroReg, rename.map (.int, cpu.isa.zeroReg)⟩,
      ?_, recorded_same conserved zero.symm, ⟨uniBounded, unified ▸ zeroMapped, ?_, ?_, ?_⟩, ?_, zero⟩
    · simp only [State.renameDest, renamed, Except.toOption, Option.bind_some, List.head?_cons, unsetReg,
        if_pos zeroBelow, or_true, if_true, Option.map_some, zero, ne_eq, not_true, and_false, if_false]
    · exact iff_of_true zero.symm unified
    · exact iff_of_true rfl unified
    · rw [unified]
      exact zeroPhys
    · rw [unified, isZero]
  · have takes : cpu.isa.zeroOf (flat inst.staticInst.tc destReg).1 ≠ some (flat inst.staticInst.tc destReg).2 := by
      intro same
      cases shape : flat inst.staticInst.tc destReg with
      | mk c reg =>
          rw [shape] at same isZero notFloat
          cases c with
          | int => exact isZero (Prod.ext rfl (Option.some.inj same).symm)
          | float => exact notFloat (Prod.ext rfl (Option.some.inj same).symm)
          | cc | misc => cases same
    cases isFree : rename.free (flat inst.staticInst.tc destReg).1 with
    | nil =>
        rw [renameClass_empty takes isFree] at whole
        cases whole
    | cons phys rest =>
        have isPhys : cpu.file.isPhysReg (flat inst.staticInst.tc destReg).1 phys = true :=
          conserved.freeClass _ phys (isFree ▸ List.mem_cons_self)
        have inFreed : phys ∈ freed rename :=
          (freed_pop (not_misc_of_isPhysReg isPhys) isFree).mem_iff.mpr List.mem_cons_self
        have unmapped (arch : RegClass × RegIndex) (mapped : arch ∈ archRegs cpu.isa) :
            phys ≠ rename.map arch := by
          intro same
          have apart := (List.nodup_append.mp (conserved.parted.nodup_iff.mpr List.nodup_range)).2.2
          exact apart phys inFreed phys (List.mem_append_left _ (same ▸ List.mem_map_of_mem mapped)) rfl
        have notZero :
            phys ≠ cpu.isa.zeroReg := fun same => unmapped _ zeroMapped (same.trans zero.symm)
        have inBoard : phys < cpu.file.totalNumRegs + cpu.numMiscRegs :=
          Nat.lt_add_right _ (lt_of_isPhysReg isPhys)
        rw [renameClass_some takes isFree isPhys] at whole
        cases whole
        refine ⟨⟨(flat inst.staticInst.tc destReg).2 + cpu.isa.base (flat inst.staticInst.tc destReg).1, phys,
          rename.map (flat inst.staticInst.tc destReg)⟩, ?_,
          recorded_update conserved (mem_archRegs.mp inArch) isFree seqNum,
          ⟨uniBounded, by rwa [unified], ?_, ?_, by rwa [unified]⟩, unified, ?_⟩
        · have marked : (fun p => if p = phys ∧ phys ≠ rename.map (flat inst.staticInst.tc destReg) then false
              else scoreboard p) = Function.update scoreboard phys false := by
            funext p
            simp only [Function.update_apply, unmapped _ inArch, ne_eq, not_false_eq_true, and_true]
          simp only [State.renameDest, renamed, Except.toOption, Option.bind_some, List.head?_cons, unsetReg,
            if_pos inBoard, Option.map_some, marked, notZero, Nat.not_le_of_lt (lt_of_isPhysReg isPhys), ge_iff_le,
            or_self, if_false]
        · exact iff_of_false (unmapped _ inArch) (by rwa [unified])
        · exact iff_of_false notZero (by rwa [unified])
        · exact (Function.update_of_ne (fun same => isZero same.symm) _ _).trans zero

theorem renameDests_spec (scoreboard : PhysRegIndex → Bool) (inst : DynInst cpu.isa Value)
    {list : List RegIndex} (conserved : Conserved cpu.isa cpu.file rename)
    (zeroMapped : (RegClass.int, cpu.isa.zeroReg) ∈ archRegs cpu.isa)
    (zero : rename.map (.int, cpu.isa.zeroReg) = cpu.isa.zeroReg)
    (bounded : ∀ reg ∈ list, reg < cpu.isa.maxRegIndex ∧ (cpu.isa.classify reg).1 ≠ .misc ∧
      flat inst.staticInst.tc reg ≠ (.float, cpu.isa.fpZeroReg))
    (renamed : renameDestRegs cpu.isa cpu.file inst.staticInst.tc seqNum list rename = .ok after) :
    ∃ dests, list.foldlM (State.renameDest seqNum) (rename, scoreboard, inst) =
        some (after,
          (fun p => if ∃ dest ∈ dests, p = dest.renamed ∧ dest.renamed ≠ dest.prev then false else scoreboard p),
          { inst with dests := inst.dests ++ dests }) ∧
      Conserved cpu.isa cpu.file after ∧ after.map (.int, cpu.isa.zeroReg) = cpu.isa.zeroReg ∧
      after.history = (dests.map (entry seqNum)).reverse ++ rename.history ∧
      undoAll after.map ((dests.map (entry seqNum)).reverse.map (changeOf cpu.isa)) = rename.map ∧
      (∀ dest ∈ dests, DestShaped cpu dest) ∧
      dests.map (fun dest => cpu.isa.classify dest.flat) = list.map (flat inst.staticInst.tc) := by
  induction list generalizing rename scoreboard inst with
  | nil =>
      cases renamed
      exact ⟨[], by simp, conserved, zero, rfl, rfl, by simp, rfl⟩
  | cons destReg list ih =>
      obtain ⟨⟨inIsa, notMisc, notFloat⟩, bounded⟩ := List.forall_mem_cons.mp bounded
      obtain ⟨middle, first, later⟩ : ∃ middle,
          renameDestReg cpu.isa cpu.file inst.staticInst.tc seqNum rename destReg = .ok middle ∧
            renameDestRegs cpu.isa cpu.file inst.staticInst.tc seqNum list middle = .ok after := by
        cases step : renameDestReg cpu.isa cpu.file inst.staticInst.tc seqNum rename destReg with
        | error stop =>
            rw [renameDestRegs, List.foldlM_cons, step] at renamed
            cases renamed
        | ok middle =>
            rw [renameDestRegs, List.foldlM_cons, step] at renamed
            exact ⟨middle, rfl, renamed⟩
      obtain ⟨dest, one, recorded, shaped, classified, zero⟩ :=
        renameDest_spec scoreboard conserved zeroMapped zero inIsa notMisc notFloat first
      obtain ⟨dests, rest, conserved, zero, history, undone, allShaped, keys⟩ :=
        ih (fun p => if p = dest.renamed ∧ dest.renamed ≠ dest.prev then false else scoreboard p)
          { inst with dests := inst.dests ++ [dest] } recorded.conserved zero bounded later
      refine ⟨dest :: dests, ?_, conserved, zero, ?_, ?_, List.forall_mem_cons.mpr ⟨shaped, allShaped⟩, ?_⟩
      · rw [List.foldlM_cons, one, Option.bind_eq_bind, Option.bind_some, rest]
        have merged (p : PhysRegIndex) :
            (if ∃ other ∈ dests, p = other.renamed ∧ other.renamed ≠ other.prev then false
              else if p = dest.renamed ∧ dest.renamed ≠ dest.prev then false else scoreboard p) =
            if ∃ other ∈ dest :: dests, p = other.renamed ∧ other.renamed ≠ other.prev then false
              else scoreboard p := by
          simp only [List.mem_cons, exists_eq_or_imp]
          by_cases later : ∃ other ∈ dests, p = other.renamed ∧ other.renamed ≠ other.prev
          · rw [if_pos later, if_pos (.inr later)]
          · rw [if_neg later]
            by_cases here : p = dest.renamed ∧ dest.renamed ≠ dest.prev
            · rw [if_pos here, if_pos (.inl here)]
            · rw [if_neg here, if_neg (fun either => either.elim here later)]
        simp only [merged, List.append_assoc, List.singleton_append]
      · rw [history, recorded.history]
        simp
      · rw [List.map_cons, List.reverse_cons, List.map_append, undoAll_append, undone]
        exact recorded.undone
      · rw [List.map_cons, List.map_cons, classified, keys]

end Destinations

section Instruction

variable {s after : State cpu Value} {seqNum : ℕ} {inst : StaticInst cpu.isa Value}
  {dyn : DynInst cpu.isa Value} {rename : RegisterRename.State}

structure RenamedInst (s : State cpu Value) (seqNum : ℕ) (inst : StaticInst cpu.isa Value)
    (dyn : DynInst cpu.isa Value) (rename : RegisterRename.State) (after : State cpu Value) :
    Prop where
  state : after = { s with
    globalSeqNum := seqNum + 1
    insts := Function.update s.insts seqNum dyn
    rename := rename
    scoreboard := fun p => if p ∈ fresh dyn then false else s.scoreboard p
    rob := s.rob ++ [seqNum] }
  staticInst : dyn.staticInst = inst
  srcRegs : dyn.srcRegs = inst.srcRegs.map fun reg => s.rename.map (flat inst.tc reg)
  counted : Counted s.scoreboard dyn
  executed : dyn.executed = false
  canCommit : dyn.canCommit = false
  squashed : dyn.squashed = false
  conserved : Conserved cpu.isa cpu.file rename
  zero : rename.map (.int, cpu.isa.zeroReg) = cpu.isa.zeroReg
  history : rename.history = (dyn.dests.map (entry seqNum)).reverse ++ s.rename.history
  undone : undoAll rename.map ((dyn.dests.map (entry seqNum)).reverse.map (changeOf cpu.isa)) = s.rename.map
  shaped : Shaped dyn

theorem renameInst_spec (tracked : Tracked s) (zeroReady : s.scoreboard cpu.isa.zeroReg = true)
    (renamable : Renamable inst) (enough : ∀ c, needs inst.tc inst.destRegs c ≤ (s.rename.free c).length)
    (seqNum : ℕ) :
    ∃ after dyn rename, s.renameInst seqNum inst = some after ∧ RenamedInst s seqNum inst dyn rename after := by
  have inFile (reg : RegIndex) (member : reg ∈ inst.srcRegs) :
      s.rename.map (flat inst.tc reg) < cpu.file.totalNumRegs :=
    (tracked.mapBefore_live (List.append_nil s.rob).symm
      (flat_mem_archRegs inst.tc (renamable.srcs reg member).2)).2
  have created : Counted s.scoreboard (DynInst.create inst) := by
    refine ⟨by simp [DynInst.create], fun _ _ => rfl, rfl, ?_⟩
    simp [DynInst.create, List.length_eq_zero_iff, eq_comm]
  obtain ⟨sourced, sources, counted, isInst, srcRegs, noDests, executed, canCommit, squashed⟩ :
      ∃ sourced, inst.srcRegs.foldlM (State.renameSrcReg s.scoreboard s.rename.map) (DynInst.create inst) = some sourced ∧
        Counted s.scoreboard sourced ∧ sourced.staticInst = inst ∧
        sourced.srcRegs = (inst.srcRegs.map fun reg => s.rename.map (flat inst.tc reg)) ∧ sourced.dests = [] ∧
        sourced.executed = false ∧ sourced.canCommit = false ∧ sourced.squashed = false := by
    have bounded (reg : RegIndex) (member : reg ∈ inst.srcRegs) := And.intro (renamable.srcs reg member).1
      (And.intro (renamable.srcs reg member).2 (inFile reg member))
    obtain ⟨flags, readyRegs, canIssue, sources, counted⟩ :=
      renameSrcRegs_counted created zeroReady bounded (by simp [DynInst.create])
    exact ⟨_, sources, counted, rfl, rfl, rfl, rfl, rfl, rfl⟩
  have admissible : Admissible inst.tc cpu.file inst.destRegs s.rename := by
    refine ⟨tracked.conserved.freeClass, fun reg member => (renamable.dests reg member).1, ?_⟩
    intro reg member isZero
    have isInt : flat inst.tc reg = (.int, cpu.isa.zeroReg) := by
      have notFloat := (renamable.dests reg member).2.2
      cases shape : flat inst.tc reg with
      | mk c index =>
          rw [shape] at isZero notFloat
          cases c with
          | int => exact Prod.ext rfl (Option.some.inj isZero).symm
          | float => exact absurd (congrArg (Prod.mk RegClass.float) (Option.some.inj isZero).symm) notFloat
          | cc | misc => cases isZero
    have isPhys := tracked.conserved.mapClass _ tracked.zeroMapped
    rw [tracked.zero] at isPhys
    rw [isInt]
    exact ⟨tracked.zero, isPhys⟩
  obtain ⟨rename, renamed⟩ : ∃ rename,
      renameDestRegs cpu.isa cpu.file inst.tc seqNum inst.destRegs s.rename = .ok rename :=
    (renameDestRegs_ok_iff admissible).mpr enough
  obtain ⟨dests, destinations, conserved, zero, history, undone, shaped, keys⟩ :=
    renameDests_spec s.scoreboard sourced tracked.conserved tracked.zeroMapped tracked.zero
      (isInst.symm ▸ renamable.dests) (isInst.symm ▸ renamed)
  rw [noDests, List.nil_append] at destinations
  conv at destinations => lhs; rw [isInst]
  refine ⟨{ s with
      globalSeqNum := seqNum + 1
      insts := Function.update s.insts seqNum { sourced with dests := dests }
      rename := rename
      scoreboard := fun p =>
        if ∃ dest ∈ dests, p = dest.renamed ∧ dest.renamed ≠ dest.prev then false else s.scoreboard p
      rob := s.rob ++ [seqNum] }, { sourced with dests := dests }, rename, ?_, ?_⟩
  · rw [State.renameInst, sources, Option.bind_some, destinations, Option.map_some]
  · refine ⟨?_, isInst, srcRegs, ⟨counted.flags, counted.beyond, counted.readyRegs, counted.canIssue⟩, executed,
      canCommit, squashed, conserved, zero, history, undone, ⟨?_, ?_, shaped⟩⟩
    · have marked (p : PhysRegIndex) : (∃ dest ∈ dests, p = dest.renamed ∧ dest.renamed ≠ dest.prev) ↔
          p ∈ fresh { sourced with dests := dests } := by
        simp only [fresh, List.mem_map, List.mem_filter, decide_eq_true_eq]
        constructor
        · rintro ⟨dest, member, rfl, differs⟩
          exact ⟨dest, ⟨member, differs⟩, rfl⟩
        · rintro ⟨dest, ⟨member, differs⟩, rfl⟩
          exact ⟨dest, member, rfl, differs⟩
      simp only [marked]
    · intro reg member
      exact flat_mem_archRegs _ (renamable.srcs reg (isInst ▸ member)).2
    · change _ = sourced.staticInst.destRegs.map (flat sourced.staticInst.tc)
      rw [keys, isInst]

end Instruction

/-! ## Steps -/

section Steps

variable {s after : State cpu Value} {seqNum done squashed : ℕ} {inst : StaticInst cpu.isa Value}
  {dyn : DynInst cpu.isa Value} {rename : RegisterRename.State} {front back young : List ℕ}

/-- Nothing is lost where the instructions keep their operands. -/
theorem Tracked.congr (tracked : Tracked s) (sameRename : after.rename = s.rename) (sameRob : after.rob = s.rob)
    (sameMap : after.commitRenameMap = s.commitRenameMap)
    (same : ∀ i ∈ s.rob, (after.insts i).staticInst = (s.insts i).staticInst ∧
      (after.insts i).srcRegs = (s.insts i).srcRegs ∧ (after.insts i).dests = (s.insts i).dests) :
    Tracked after := by
  have sameMapBefore (young : List ℕ) (inRob : ∀ i ∈ young, i ∈ s.rob) :
      mapBefore after young = mapBefore s young := by
    rw [mapBefore, mapBefore, sameRename, changes_congr fun i member => (same i (inRob i member)).2.2]
  refine ⟨sameRename ▸ tracked.conserved, tracked.zeroMapped, sameRename ▸ tracked.zero, ?_, ?_, ?_, ?_⟩
  · rw [sameRename, sameRob, tracked.history]
    congr 1
    exact List.flatMap_congr fun i member => by rw [(same i member).2.2]
  · rw [sameRob]
    intro i member
    obtain ⟨static, _, dests⟩ := same i member
    have shaped := tracked.shaped i member
    exact ⟨static ▸ shaped.srcs, by rw [dests, static]; exact shaped.keys, dests ▸ shaped.dests⟩
  · rw [sameRob]
    intro front i back split
    have inRob :
        ∀ j ∈ i :: back, j ∈ s.rob := fun j member => split ▸ List.mem_append_right front member
    obtain ⟨static, srcs, _⟩ := same i (inRob i List.mem_cons_self)
    rw [srcs, static, sameMapBefore _ inRob]
    exact tracked.sources front i back split
  · rw [sameMap, sameRob, sameMapBefore s.rob fun _ member => member]
    exact tracked.committed

namespace RenamedInst

theorem insts_self (renamed : RenamedInst s seqNum inst dyn rename after) :
    after.insts seqNum = dyn := by
  rw [renamed.state]
  exact Function.update_self _ _ _

theorem insts_of_ne (renamed : RenamedInst s seqNum inst dyn rename after) {i : ℕ} (differs : i ≠ seqNum) :
    after.insts i = s.insts i := by
  rw [renamed.state]
  exact Function.update_of_ne differs _ _

/-- The map in front of the older instructions is the one from before. -/
theorem mapBefore_eq (renamed : RenamedInst s seqNum inst dyn rename after) (notIn : seqNum ∉ young) :
    mapBefore after (young ++ [seqNum]) = mapBefore s young := by
  rw [mapBefore, changes_append, undoAll_append]
  have own : changes after.insts [seqNum] = (dyn.dests.map (entry seqNum)).reverse.map (changeOf cpu.isa) := by
    rw [changes, List.flatMap_singleton, renamed.insts_self]
  have others : changes after.insts young = changes s.insts young := by
    refine changes_congr fun i member => ?_
    rw [renamed.insts_of_ne (ne_of_mem_of_not_mem member notIn)]
  have isRename : after.rename = rename := by rw [renamed.state]
  rw [own, others, isRename, renamed.undone]
  rfl

theorem tracked (renamed : RenamedInst s seqNum inst dyn rename after) (tracked : Tracked s) (notIn : seqNum ∉ s.rob) :
    Tracked after := by
  have rob : after.rob = s.rob ++ [seqNum] := by rw [renamed.state]
  have isRename : after.rename = rename := by rw [renamed.state]
  have own := renamed.insts_self
  have others (i : ℕ) (member : i ∈ s.rob) : after.insts i = s.insts i :=
    renamed.insts_of_ne (ne_of_mem_of_not_mem member notIn)
  have sameEntries : (s.rob.flatMap fun i => (after.insts i).dests.map (entry i)) =
      s.rob.flatMap fun i => (s.insts i).dests.map (entry i) :=
    List.flatMap_congr fun i member => by rw [others i member]
  refine ⟨isRename ▸ renamed.conserved, tracked.zeroMapped, isRename ▸ renamed.zero, ?_, ?_, ?_, ?_⟩
  · rw [isRename, renamed.history, tracked.history, rob, List.flatMap_append, List.reverse_append,
      List.flatMap_singleton, own, sameEntries]
  · rw [rob]
    intro i member
    obtain old | new := List.mem_append.mp member
    · rw [others i old]
      exact tracked.shaped i old
    · rw [List.mem_singleton.mp new, own]
      exact renamed.shaped
  · rw [rob]
    intro front i back split
    obtain rfl | ⟨older, last, rfl⟩ := List.eq_nil_or_concat back
    · obtain ⟨rfl, same⟩ := List.append_inj' split rfl
      cases same
      have atEnd := renamed.mapBefore_eq List.not_mem_nil
      rw [List.nil_append] at atEnd
      rw [own, atEnd, renamed.srcRegs, renamed.staticInst]
      rfl
    · rw [List.concat_eq_append, ← List.cons_append, ← List.append_assoc] at split
      obtain ⟨isRob, same⟩ := List.append_inj' split rfl
      cases same
      have notInOlder : seqNum ∉ i :: older := fun member =>
        notIn (isRob ▸ List.mem_append_right front member)
      rw [List.concat_eq_append, ← List.cons_append, renamed.mapBefore_eq notInOlder,
        others i (isRob ▸ List.mem_append_right front List.mem_cons_self)]
      exact tracked.sources front i older isRob
  · rw [rob, renamed.mapBefore_eq notIn, ← tracked.committed, renamed.state]

end RenamedInst

/-- Where rename has undone what the youngest instructions have put in the history. -/
theorem Tracked.squash (tracked : Tracked s) (split : s.rob = front ++ back) (rob : after.rob = front)
    (conserved : Conserved cpu.isa cpu.file after.rename)
    (history : after.rename.history = (front.flatMap fun i => (s.insts i).dests.map (entry i)).reverse)
    (map : after.rename.map = mapBefore s back) (sameMap : after.commitRenameMap = s.commitRenameMap)
    (same : ∀ i ∈ front, (after.insts i).staticInst = (s.insts i).staticInst ∧
      (after.insts i).srcRegs = (s.insts i).srcRegs ∧ (after.insts i).dests = (s.insts i).dests) :
    Tracked after := by
  have sameMapBefore (young : List ℕ) (inFront : ∀ i ∈ young, i ∈ front) :
      mapBefore after young = mapBefore s (young ++ back) := by
    rw [mapBefore_append, mapBefore, map, changes_congr fun i member => (same i (inFront i member)).2.2]
  refine ⟨conserved, tracked.zeroMapped, ?_, ?_, ?_, ?_, ?_⟩
  · rw [map]
    exact tracked.mapBefore_zero split
  · rw [history, rob]
    congr 1
    exact List.flatMap_congr fun i member => by rw [(same i member).2.2]
  · rw [rob]
    intro i member
    obtain ⟨static, _, dests⟩ := same i member
    have shaped := tracked.shaped i (split ▸ List.mem_append_left back member)
    exact ⟨static ▸ shaped.srcs, by rw [dests, static]; exact shaped.keys, dests ▸ shaped.dests⟩
  · rw [rob]
    intro older i younger isFront
    have inFront : ∀ j ∈ i :: younger, j ∈ front := fun j member => isFront ▸ List.mem_append_right older member
    obtain ⟨static, srcs, _⟩ := same i (inFront i List.mem_cons_self)
    rw [srcs, static, sameMapBefore _ inFront]
    exact tracked.sources older i (younger ++ back) (by rw [split, isFront, List.append_assoc, List.cons_append])
  · rw [sameMap, rob, sameMapBefore front fun _ member => member, ← split]
    exact tracked.committed

theorem split_at (increasing : front.Pairwise (· < ·)) (bound : ℕ) :
    ∃ older younger, front = older ++ younger ∧ (∀ i ∈ older, i ≤ bound) ∧ (∀ i ∈ younger, bound < i) ∧
      (front.takeWhile fun i => decide (i ≤ bound)) = older ∧ (front.dropWhile fun i => decide (i ≤ bound)) = younger ∧
      (front.filter fun i => decide (i ≤ bound)) = older := by
  refine ⟨_, _, List.takeWhile_append_dropWhile.symm, ?_, ?_, rfl, rfl, ?_⟩
  · exact fun i member => by simpa using List.mem_takeWhile_imp member
  · intro i member
    cases stopped : front.dropWhile fun i => decide (i ≤ bound) with
    | nil => exact absurd (stopped ▸ member) List.not_mem_nil
    | cons next rest =>
        have above : bound < next := by
          have head := List.head_dropWhile_not (fun i => decide (i ≤ bound)) (l := front) (by simp [stopped])
          simpa [stopped] using head
        have tail : (next :: rest).Pairwise (· < ·) := stopped ▸ increasing.sublist (List.dropWhile_sublist _)
        obtain rfl | later := List.mem_cons.mp (stopped ▸ member)
        · exact above
        · exact above.trans (List.rel_of_pairwise_cons tail later)
  · induction front with
    | nil => rfl
    | cons first rest ih =>
        obtain ⟨after, increasing⟩ := List.pairwise_cons.mp increasing
        by_cases small : first ≤ bound
        · simp [small, ih increasing]
        · have stops : ((first :: rest).takeWhile fun i => decide (i ≤ bound)) = [] := by
            simp [small]
          rw [stops]
          refine List.filter_eq_nil_iff.mpr fun i member => ?_
          obtain rfl | later := List.mem_cons.mp member
          · simpa using small
          · simpa using (Nat.lt_of_not_le small).trans (after i later)

theorem mem_entries {insts : ℕ → DynInst cpu.isa Value} {e : RenameHistory}
    (member : e ∈ (front.flatMap fun i => (insts i).dests.map (entry i)).reverse) : e.instSeqNum ∈ front := by
  obtain ⟨i, inside, isEntry⟩ := List.mem_flatMap.mp (List.mem_reverse.mp member)
  obtain ⟨_, _, rfl⟩ := List.mem_map.mp isEntry
  exact inside

theorem doSquash_split (tracked : Tracked s) (split : s.rob = front ++ back) (older : ∀ i ∈ front, i ≤ squashed)
    (younger : ∀ i ∈ back, squashed < i) :
    ∃ rename, doSquash cpu.isa cpu.file squashed s.rename = .ok rename ∧ Conserved cpu.isa cpu.file rename ∧
      rename.history = (front.flatMap fun i => (s.insts i).dests.map (entry i)).reverse ∧
      rename.map = mapBefore s back := by
  obtain ⟨rename, undone, ran, conserved, history, above, below, map⟩ :=
    doSquash_conserved tracked.conserved squashed
  have whole := tracked.history
  rw [split, List.flatMap_append, List.reverse_append, history] at whole
  obtain ⟨isUndone, isKept⟩ := RenameRollback.split_unique (p := fun e => decide (squashed < e.instSeqNum)) whole
    (fun e member => decide_eq_true (above e member))
    (fun e member => decide_eq_false (Nat.not_lt_of_le (below e member)))
    (fun e member => decide_eq_true (younger _ (mem_entries member)))
    (fun e member => decide_eq_false (Nat.not_lt_of_le (older _ (mem_entries (List.mem_of_mem_head? member)))))
  exact ⟨rename, ran, conserved, isKept, by rw [map, isUndone]; rfl⟩

theorem removeFromHistory_split (tracked : Tracked s) (split : s.rob = front ++ back) (older : ∀ i ∈ front, i ≤ done)
    (younger : ∀ i ∈ back, done < i) :
    ∃ rename, removeFromHistory cpu.file done s.rename = .ok rename ∧ Conserved cpu.isa cpu.file rename ∧
      rename.history = (back.flatMap fun i => (s.insts i).dests.map (entry i)).reverse ∧
      rename.map = s.rename.map := by
  obtain ⟨rename, dropped, ran, conserved, history, below, above, map⟩ :=
    removeFromHistory_conserved tracked.conserved done
  have whole := congrArg List.reverse tracked.history
  rw [split, List.flatMap_append, List.reverse_reverse, history, List.reverse_append] at whole
  obtain ⟨_, isKept⟩ := RenameRollback.split_unique (p := fun e => decide (e.instSeqNum ≤ done)) whole
    (fun e member => decide_eq_true (below e (List.mem_reverse.mp member)))
    (fun e member => decide_eq_false (Nat.not_le_of_lt (above e (by rwa [List.head?_reverse] at member))))
    (fun e member => decide_eq_true (older _ (mem_entries (List.mem_reverse.mpr member))))
    (fun e member => decide_eq_false
      (Nat.not_le_of_lt (younger _ (mem_entries (List.mem_reverse.mpr (List.mem_of_mem_head? member))))))
  exact ⟨rename, ran, conserved, by rw [← isKept, List.reverse_reverse], map⟩

theorem setCommitEntries {map : RenameMap} (dests : List DestReg) (shaped : ∀ dest ∈ dests, DestShaped cpu dest)
    (consistent : Consistent map ((dests.map (entry seqNum)).reverse.map (changeOf cpu.isa)))
    (zero : map (.int, cpu.isa.zeroReg) = cpu.isa.zeroReg) :
    dests.foldlM (State.setCommitEntry cpu) (undoAll map ((dests.map (entry seqNum)).reverse.map (changeOf cpu.isa))) =
      some map := by
  induction dests using List.reverseRecOn generalizing map with
  | nil => rfl
  | append_singleton dests dest ih =>
      obtain ⟨allShaped, shaped⟩ := List.forall_mem_append.mp shaped
      have own := shaped dest (List.mem_singleton_self dest)
      rw [List.map_append, List.reverse_append, List.map_singleton, List.reverse_singleton, List.singleton_append,
        List.map_cons] at consistent ⊢
      obtain ⟨holds, consistent⟩ := consistent
      have before : undo map (changeOf cpu.isa (entry seqNum dest)) (.int, cpu.isa.zeroReg) = cpu.isa.zeroReg := by
        unfold undo
        split
        · exact zero
        · next differs =>
            exact (Function.update_of_ne (fun same => differs (own.same_iff.mpr same.symm)) _ _).trans zero
      rw [List.foldlM_append]
      change ((dests.foldlM (State.setCommitEntry cpu) (undoAll (undo map (changeOf cpu.isa (entry seqNum dest)))
        ((dests.map (entry seqNum)).reverse.map (changeOf cpu.isa)))) >>= fun map =>
          [dest].foldlM (State.setCommitEntry cpu) map) = _
      rw [ih allShaped consistent before, Option.bind_eq_bind, Option.bind_some, List.foldlM_cons]
      have set : setEntry cpu.isa cpu.file dest.flat dest.renamed
          ⟨fun _ => [], undo map (changeOf cpu.isa (entry seqNum dest)), []⟩ =
            .ok ⟨fun _ => [], Function.update (undo map (changeOf cpu.isa (entry seqNum dest)))
              (cpu.isa.classify dest.flat) dest.renamed, []⟩ := by
        have isPhys := own.isPhys
        rw [setEntry, Isa.regIdxToClass, assert_ok (decide_eq_true own.bounded)]
        cases shape : cpu.isa.classify dest.flat with
        | mk c reg =>
            rw [shape] at isPhys
            cases c with
            | int | float | cc =>
                change (assert (cpu.file.isPhysReg _ dest.renamed) >>= fun _ => _) = _
                rw [assert_ok isPhys]
                rfl
            | misc => cases isPhys
      have redone : Function.update (undo map (changeOf cpu.isa (entry seqNum dest)))
          (cpu.isa.classify dest.flat) dest.renamed = map := by
        by_cases same : dest.renamed = dest.prev
        · have isZero := own.same_iff.mp same
          have kept : undo map (changeOf cpu.isa (entry seqNum dest)) = map := if_pos same
          rw [kept, isZero, own.zero_iff.mpr isZero]
          exact Function.update_eq_self_iff.mpr zero.symm
        · have made : redo (undo map (changeOf cpu.isa (entry seqNum dest))) (changeOf cpu.isa (entry seqNum dest)) = map :=
            redo_undo holds
          have differs : (changeOf cpu.isa (entry seqNum dest)).new ≠ (changeOf cpu.isa (entry seqNum dest)).old := same
          rw [redo, if_neg differs] at made
          exact made
      rw [State.setCommitEntry, set, redone]
      rfl

theorem Tracked.setCommitEntries (tracked : Tracked s) (older : List ℕ) (split : s.rob = older ++ (front ++ back)) :
    (front.flatMap fun i => (s.insts i).dests).foldlM (State.setCommitEntry cpu) (mapBefore s (front ++ back)) =
      some (mapBefore s back) := by
  induction front generalizing older with
  | nil => rfl
  | cons i front ih =>
      have later : s.rob = (older ++ [i]) ++ (front ++ back) := by
        rw [split, List.append_assoc]
        rfl
      have inRob : i ∈ s.rob := split ▸ List.mem_append_right older List.mem_cons_self
      have isLog : log cpu.isa s.rename = changes s.insts (front ++ back) ++ (changes s.insts [i] ++ changes s.insts older) := by
        rw [tracked.log_eq, later, changes_append, changes_append s.insts older]
      have consistent := tracked.conserved.consistent
      rw [isLog, consistent_append_iff, consistent_append_iff] at consistent
      have own : changes s.insts [i] = ((s.insts i).dests.map (entry i)).reverse.map (changeOf cpu.isa) := by
        rw [changes, List.flatMap_singleton]
      have one := OutOfOrderRenaming.setCommitEntries (s.insts i).dests (tracked.shaped i inRob).dests
        (own ▸ consistent.2.1) (tracked.mapBefore_zero later)
      have before : mapBefore s (i :: front ++ back) = undoAll (mapBefore s (front ++ back))
          (((s.insts i).dests.map (entry i)).reverse.map (changeOf cpu.isa)) := by
        rw [← own, ← mapBefore_append]
        rfl
      rw [List.flatMap_cons, List.foldlM_append, before]
      change _ >>= _ = _
      rw [one, Option.bind_eq_bind, Option.bind_some]
      exact ih _ later

/-- A commit never fails, and takes the oldest instructions out of rename. -/
theorem Tracked.commit (tracked : Tracked s) (split : s.rob = front ++ back) (older : ∀ i ∈ front, i ≤ done)
    (younger : ∀ i ∈ back, done < i) :
    ∃ rename, s.commit done = some { s with
        commitRenameMap := mapBefore s back
        rename := rename
        rob := back
        retired := s.retired ++ front.map fun i => (s.insts i).staticInst } ∧
      rename.map = s.rename.map ∧
      ∀ after : State cpu Value, after.rename = rename → after.rob = back → after.insts = s.insts →
        after.commitRenameMap = mapBefore s back → Tracked after := by
  have taken : (s.rob.takeWhile fun i => decide (i ≤ done)) = front ∧
      (s.rob.dropWhile fun i => decide (i ≤ done)) = back := by
    have within (i : ℕ) (member : i ∈ front) :
        decide (i ≤ done) = true := decide_eq_true (older i member)
    rw [split, List.takeWhile_append_of_pos within, List.dropWhile_append_of_pos within]
    cases back with
    | nil => simp
    | cons next back =>
        have above := Nat.not_le_of_lt (younger next List.mem_cons_self)
        simp [above]
  obtain ⟨rename, ran, conserved, history, map⟩ := removeFromHistory_split tracked split older younger
  have committed := tracked.setCommitEntries [] (by simpa using split)
  refine ⟨rename, ?_, map, ?_⟩
  · have flattened : (front.map s.insts).flatMap (·.dests) = front.flatMap fun i => (s.insts i).dests := by
      rw [List.flatMap_map]
    rw [State.commit, taken.1, taken.2, flattened, tracked.committed, split, committed, Option.bind_some, ran]
    simp [Except.toOption]
  · intro after sameRename sameRob sameInsts sameMap
    have sameMapBefore (young : List ℕ) : mapBefore after young = mapBefore s young := by
      rw [mapBefore, mapBefore, sameRename, map, sameInsts]
    refine ⟨sameRename ▸ conserved, tracked.zeroMapped, ?_, ?_, ?_, ?_, ?_⟩
    · rw [sameRename, map, tracked.zero]
    · rw [sameRename, history, sameRob, sameInsts]
    · rw [sameRob, sameInsts]
      exact fun i member => tracked.shaped i (split ▸ List.mem_append_right front member)
    · rw [sameRob, sameInsts]
      intro before i behind isBack
      rw [sameMapBefore]
      exact tracked.sources (front ++ before) i behind (by rw [split, isBack, List.append_assoc])
    · rw [sameMap, sameRob, sameMapBefore]

/-! ### The free registers -/

theorem RenamedInst.freed_iff (renamed : RenamedInst s seqNum inst dyn rename after) (before : Tracked s)
    (notIn : seqNum ∉ s.rob) {p : PhysRegIndex} :
    p ∈ freed s.rename ↔ p ∈ freed after.rename ∨ p ∈ fresh dyn := by
  have tracked := renamed.tracked before notIn
  have rob : after.rob = s.rob ++ [seqNum] := by rw [renamed.state]
  have was := before.parted (List.append_nil s.rob).symm
  have now := tracked.parted rob
  have atEnd := renamed.mapBefore_eq List.not_mem_nil
  rw [List.nil_append] at atEnd
  have others : changes after.insts s.rob = changes s.insts s.rob := by
    refine changes_congr fun i member => ?_
    rw [renamed.insts_of_ne (ne_of_mem_of_not_mem member notIn)]
  have nothing : made (changes s.insts []) = [] := rfl
  rw [nothing, List.nil_append] at was
  rw [atEnd, others, ← List.append_assoc] at now
  have same := (List.perm_append_right_iff _).mp (was.trans now.symm)
  rw [same.mem_iff, List.mem_append, mem_made_changes]
  simp [renamed.insts_self]

theorem freed_squash_iff (tracked : Tracked s) (split : s.rob = front ++ back) (squashed : Tracked after)
    (rob : after.rob = front) (map : after.rename.map = mapBefore s back)
    (same : ∀ i ∈ front, (after.insts i).dests = (s.insts i).dests) {p : PhysRegIndex} :
    p ∈ freed after.rename ↔ p ∈ freed s.rename ∨ ∃ i ∈ back, p ∈ fresh (s.insts i) := by
  have was := tracked.parted split
  have now := squashed.parted (List.append_nil after.rob).symm
  have nothing : made (changes after.insts []) = [] := rfl
  rw [nothing, List.nil_append, mapBefore_nil, map, rob, changes_congr same] at now
  rw [← List.append_assoc] at was
  have equal := (List.perm_append_right_iff _).mp (now.trans was.symm)
  rw [equal.mem_iff, List.mem_append, mem_made_changes]

theorem freed_commit (tracked : Tracked s) (split : s.rob = front ++ back) (committed : Tracked after)
    (rob : after.rob = back) (insts : after.insts = s.insts) (map : after.rename.map = s.rename.map)
    {p : PhysRegIndex} (free : p ∈ freed s.rename) : p ∈ freed after.rename := by
  have was := tracked.parted split
  have now := committed.parted (List.nil_append after.rob).symm
  have nothing : kept (changes after.insts []) = [] := rfl
  have sameMap : mapBefore after back = mapBefore s back := by rw [mapBefore, mapBefore, map, insts]
  rw [nothing, List.append_nil, rob, insts, sameMap] at now
  have inside := now.mem_iff.mpr (was.mem_iff.mp (List.mem_append_left _ free))
  obtain stays | elsewhere := List.mem_append.mp inside
  · exact stays
  · have apart := (List.nodup_append.mp (tracked.parted_nodup split)).2.2 p free p
    refine absurd rfl (apart ?_)
    rw [← List.append_assoc]
    exact List.mem_append_left _ elsewhere

end Steps

end GemFi.OutOfOrderRenaming
