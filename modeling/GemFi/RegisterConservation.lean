import GemFi.RegisterRename
import GemFi.Outcomes
import GemFi.Transitions

/-!
Renaming conserves the physical registers. The history buffer is a log of changes of
the rename map: squashes undo it from its new end, commits forget it from its old end.
-/

namespace GemFi.RegisterConservation

open UndoLogs Outcomes Transitions RegisterRename

variable {isa : Isa} {file : PhysRegFile} {s s' : State}

section Registers

theorem mem_archRegs {c : RegClass} {reg : RegIndex} :
    (c, reg) ∈ archRegs isa ↔ reg < isa.numRegs c := by
  cases c <;> simp [archRegs, Isa.numRegs]

theorem archRegs_nodup (isa : Isa) : (archRegs isa).Nodup := by
  unfold archRegs
  refine List.nodup_flatMap.mpr ⟨?_, ?_⟩
  · intro c _
    exact List.nodup_range.map fun _ _ same => congrArg Prod.snd same
  · have distinct : [RegClass.int, .float, .cc].Nodup := by decide
    refine distinct.imp ?_
    intro first second differs arch inFirst inSecond
    obtain ⟨_, _, rfl⟩ := List.mem_map.mp inFirst
    obtain ⟨_, _, same⟩ := List.mem_map.mp inSecond
    exact differs (congrArg Prod.fst same).symm

theorem classify_unified {c : RegClass} {reg : Nat} (inRange : reg < isa.numRegs c) :
    isa.classify (reg + isa.base c) = (c, reg) ∧ reg + isa.base c < isa.maxRegIndex := by
  have int := isa.intFits
  have float := isa.floatFits
  have cc := isa.ccFits
  have misc := isa.miscFits
  cases c with
  | int =>
      have inside : reg < isa.fpRegBase := Nat.lt_of_lt_of_le inRange int
      refine ⟨?_, show reg + 0 < _ by omega⟩
      simp [Isa.classify, Isa.base, inside]
  | float =>
      have inside : reg + isa.fpRegBase < isa.ccRegBase := by
        have small : reg < isa.numFloatRegs := inRange
        omega
      refine ⟨?_, show reg + isa.fpRegBase < _ by omega⟩
      simp [Isa.classify, Isa.base, inside]
  | cc =>
      have inside : reg + isa.ccRegBase < isa.miscRegBase := by
        have small : reg < isa.numCCRegs := inRange
        omega
      have above : ¬ reg + isa.ccRegBase < isa.fpRegBase := by omega
      refine ⟨?_, show reg + isa.ccRegBase < _ by omega⟩
      simp [Isa.classify, Isa.base, inside, above]
  | misc => cases inRange

theorem isPhysReg_unique {c d : RegClass} {reg : Nat} (inC : file.isPhysReg c reg = true)
    (inD : file.isPhysReg d reg = true) : c = d := by
  have float := file.floatFits
  have cc := file.ccFits
  cases c <;> cases d <;>
    simp only [PhysRegFile.isPhysReg, PhysRegFile.isIntPhysReg, PhysRegFile.isFloatPhysReg,
      PhysRegFile.isCCPhysReg, Bool.and_eq_true, decide_eq_true_eq, Bool.false_eq_true] at inC inD <;>
    first | rfl | omega

theorem addReg_of_class {c : RegClass} {reg : PhysRegIndex} (isReg : file.isPhysReg c reg = true)
    (s : State) : addReg file reg s = .ok (addSimpleReg c reg s) := by
  unfold addReg
  split
  · rename_i isInt
    rw [isPhysReg_unique isReg (d := .int) isInt]
  · split
    · rename_i isFloat
      rw [isPhysReg_unique isReg (d := .float) isFloat]
    · rename_i notInt notFloat
      cases c with
      | int => exact absurd isReg notInt
      | float => exact absurd isReg notFloat
      | cc =>
          rw [show file.isCCPhysReg reg = true from isReg]
          rfl
      | misc => cases isReg

end Registers

section Conserved

def freed (s : State) : List PhysRegIndex := s.free .int ++ s.free .float ++ s.free .cc

def changeOf (isa : Isa) (entry : RenameHistory) : Change (RegClass × RegIndex) PhysRegIndex :=
  ⟨isa.classify entry.archReg, entry.newPhysReg, entry.prevPhysReg⟩

def log (isa : Isa) (s : State) : List (Change (RegClass × RegIndex) PhysRegIndex) :=
  s.history.map (changeOf isa)

structure Sane (isa : Isa) (file : PhysRegFile) (entry : RenameHistory) : Prop where
  mapped : isa.classify entry.archReg ∈ archRegs isa
  bounded : entry.archReg < isa.maxRegIndex
  new : file.isPhysReg (isa.classify entry.archReg).1 entry.newPhysReg = true
  prev : file.isPhysReg (isa.classify entry.archReg).1 entry.prevPhysReg = true

structure Conserved (isa : Isa) (file : PhysRegFile) (s : State) : Prop where
  parted : (freed s ++ ((archRegs isa).map s.map ++ kept (log isa s))).Perm
    (List.range file.totalNumRegs)
  freeClass : ∀ c, ∀ reg ∈ s.free c, file.isPhysReg c reg = true
  mapClass : ∀ arch ∈ archRegs isa, file.isPhysReg arch.1 (s.map arch) = true
  consistent : Consistent s.map (log isa s)
  sane : ∀ entry ∈ s.history, entry.newPhysReg ≠ entry.prevPhysReg → Sane isa file entry

theorem freed_pop {c : RegClass} {reg : PhysRegIndex} {rest : List PhysRegIndex} (notMisc : c ≠ .misc)
    (isFree : s.free c = reg :: rest) :
    (freed s).Perm (reg :: freed { s with free := Function.update s.free c rest }) := by
  cases c with
  | int => simp [freed, isFree]
  | float =>
      simp only [freed, isFree, Function.update_self, List.append_assoc, List.cons_append]
      exact List.perm_middle
  | cc =>
      simp only [freed, isFree, Function.update_self]
      exact List.perm_middle
  | misc => exact absurd rfl notMisc

theorem freed_push {c : RegClass} (notMisc : c ≠ .misc) (reg : PhysRegIndex) (s : State) :
    (freed (addSimpleReg c reg s)).Perm (reg :: freed s) := by
  cases c with
  | int =>
      simp only [freed, addSimpleReg, Function.update_self, List.append_assoc, List.singleton_append]
      exact List.perm_middle
  | float =>
      simp only [freed, addSimpleReg, Function.update_self, ← List.append_assoc]
      simp only [List.append_assoc, List.singleton_append]
      rw [← List.append_assoc, ← List.append_assoc]
      exact List.perm_middle
  | cc =>
      simp only [freed, addSimpleReg, Function.update_self, ← List.append_assoc]
      exact List.perm_append_singleton reg _
  | misc => exact absurd rfl notMisc

theorem not_misc_of_isPhysReg {c : RegClass} {reg : PhysRegIndex}
    (isReg : file.isPhysReg c reg = true) : c ≠ .misc := by
  rintro rfl
  cases isReg

end Conserved

section Renames

structure Recorded (isa : Isa) (file : PhysRegFile) (entry : RenameHistory) (s s' : State) : Prop where
  conserved : Conserved isa file s'
  history : s'.history = entry :: s.history
  undone : undo s'.map (changeOf isa entry) = s.map

theorem recorded_same {entry : RenameHistory} (conserved : Conserved isa file s)
    (same : entry.newPhysReg = entry.prevPhysReg) :
    Recorded isa file entry s { s with history := entry :: s.history } := by
  have isSame : (changeOf isa entry).new = (changeOf isa entry).old := same
  refine ⟨⟨?_, conserved.freeClass, conserved.mapClass,
    consistent_same conserved.consistent isSame, ?_⟩, rfl, if_pos isSame⟩
  · change (freed s ++ ((archRegs isa).map s.map ++ kept (changeOf isa entry :: log isa s))).Perm _
    rw [kept_same isSame]
    exact conserved.parted
  · intro other member differs
    rcases List.mem_cons.mp member with rfl | old
    · exact absurd same differs
    · exact conserved.sane other old differs

theorem recorded_update {c : RegClass} {reg : Nat} {phys : PhysRegIndex} {rest : List PhysRegIndex}
    (conserved : Conserved isa file s) (inRange : reg < isa.numRegs c)
    (isFree : s.free c = phys :: rest) (seqNum : Nat) :
    Recorded isa file ⟨seqNum, reg + isa.base c, phys, s.map (c, reg)⟩ s
      { free := Function.update s.free c rest, map := Function.update s.map (c, reg) phys,
        history := ⟨seqNum, reg + isa.base c, phys, s.map (c, reg)⟩ :: s.history } := by
  obtain ⟨unified, bounded⟩ := classify_unified inRange
  have member : (c, reg) ∈ archRegs isa := mem_archRegs.mpr inRange
  have isPhys : file.isPhysReg c phys = true :=
    conserved.freeClass c phys (isFree ▸ List.mem_cons_self)
  have popped := freed_pop (not_misc_of_isPhysReg isPhys) isFree
  have isChange : changeOf isa ⟨seqNum, reg + isa.base c, phys, s.map (c, reg)⟩ =
      ⟨(c, reg), phys, s.map (c, reg)⟩ := by
    rw [changeOf, unified]
  -- a free register is not in the map
  have differs : phys ≠ s.map (c, reg) := by
    intro same
    have unique : (freed s ++ ((archRegs isa).map s.map ++ kept (log isa s))).Nodup :=
      conserved.parted.nodup_iff.mpr List.nodup_range
    have inFreed : phys ∈ freed s := popped.mem_iff.mpr List.mem_cons_self
    have inMap : phys ∈ (archRegs isa).map s.map := same ▸ List.mem_map_of_mem member
    exact (List.nodup_append.mp unique).2.2 phys inFreed phys (List.mem_append_left _ inMap) rfl
  refine ⟨⟨?_, ?_, ?_, ?_, ?_⟩, rfl, ?_⟩
  · refine List.Perm.trans ?_ conserved.parted
    refine List.Perm.trans ?_ (popped.append_right _).symm
    rw [List.cons_append]
    refine List.Perm.trans ?_ List.perm_middle
    refine List.Perm.append_left _ ?_
    change ((archRegs isa).map (Function.update s.map (c, reg) phys) ++
      kept (changeOf isa ⟨seqNum, reg + isa.base c, phys, s.map (c, reg)⟩ :: log isa s)).Perm _
    rw [isChange]
    exact (update_perm (archRegs_nodup isa) member differs).symm
  · intro d other isOther
    by_cases here : d = c
    · subst here
      simp only [Function.update_self] at isOther
      exact conserved.freeClass d other (isFree ▸ List.mem_cons_of_mem phys isOther)
    · simp only [Function.update_of_ne here] at isOther
      exact conserved.freeClass d other isOther
  · intro arch isArch
    by_cases here : arch = (c, reg)
    · subst here
      simpa using isPhys
    · simpa [here] using conserved.mapClass arch isArch
  · change Consistent _ (changeOf isa ⟨seqNum, reg + isa.base c, phys, s.map (c, reg)⟩ :: log isa s)
    rw [isChange]
    exact consistent_update conserved.consistent (c, reg) phys
  · intro entry isEntry really
    rcases List.mem_cons.mp isEntry with rfl | old
    · refine ⟨?_, bounded, ?_, ?_⟩ <;> rw [unified]
      · exact member
      · exact isPhys
      · exact conserved.mapClass (c, reg) member
    · exact conserved.sane entry old really
  · rw [isChange]
    exact undo_update s.map (c, reg) phys

theorem ends_assert (condition : Bool) :
    Ends (fun _ => True) (fun _ => condition = true) (assert condition) :=
  ends_check True.intro condition

theorem renameClass_recorded {c : RegClass} {reg : Nat} (conserved : Conserved isa file s)
    (inRange : reg < isa.numRegs c) (seqNum : Nat) :
    Ends (fun _ => True) (fun result => ∃ entry, entry.instSeqNum = seqNum ∧ Recorded isa file entry s
        { result.2 with
          history := ⟨seqNum, reg + isa.base c, result.1.1, result.1.2⟩ :: result.2.history })
      (renameClass isa file c reg s) := by
  unfold renameClass renameSimple
  split
  · unfold getReg
    split
    · trivial
    · rename_i phys rest isFree
      refine (ends_assert _).bind fun _ _ => ?_
      exact ⟨_, rfl, recorded_update conserved inRange isFree seqNum⟩
  · have zero : Ends (fun _ => True) (fun result : (PhysRegIndex × PhysRegIndex) × State =>
        result = ((reg, s.map (c, reg)), s) ∧ reg = s.map (c, reg))
        (assert (s.map (c, reg) == reg) >>=
          fun _ => .ok ((reg, s.map (c, reg)), s)) := by
      exact (ends_assert _).bind fun _ isSame => ⟨rfl, (beq_iff_eq.mp isSame).symm⟩
    refine zero.bind ?_
    rintro _ ⟨rfl, same⟩
    refine (ends_assert _).bind fun _ _ => ?_
    exact ⟨_, rfl, recorded_same conserved same⟩

theorem renameDestReg_recorded (conserved : Conserved isa file s) (tc : ThreadContext isa)
    (seqNum : Nat) (destReg : RegIndex) :
    Ends (fun _ => True) (fun s' => ∃ entry, entry.instSeqNum = seqNum ∧ Recorded isa file entry s s')
      (renameDestReg isa file tc seqNum s destReg) := by
  have inRange := tc.inRange destReg
  have classified : Ends (fun _ => True) (fun arch => arch = isa.classify destReg)
      (isa.regIdxToClass destReg) := (ends_assert _).bind fun _ _ => rfl
  unfold renameDestReg
  refine classified.bind ?_
  rintro ⟨c, reg⟩ isArch
  rw [← isArch] at inRange
  cases c with
  | int | float | cc =>
      have renames := renameClass_recorded conserved (inRange (by simp)) seqNum
      exact renames.bind fun _ recorded => recorded
  | misc => exact ⟨_, rfl, recorded_same conserved rfl⟩

structure Renamed (isa : Isa) (file : PhysRegFile) (seqNum : Nat) (entries : List RenameHistory)
    (s s' : State) : Prop where
  conserved : Conserved isa file s'
  history : s'.history = entries ++ s.history
  seqNums : ∀ entry ∈ entries, entry.instSeqNum = seqNum
  undone : undoAll s'.map (entries.map (changeOf isa)) = s.map

theorem renameDestRegs_renamed (conserved : Conserved isa file s) (tc : ThreadContext isa)
    (seqNum : Nat) (destRegs : List RegIndex) :
    Ends (fun _ => True) (fun s' => ∃ entries, Renamed isa file seqNum entries s s')
      (renameDestRegs isa file tc seqNum destRegs s) := by
  refine ends_foldlM (fun _ s' => ∃ entries, Renamed isa file seqNum entries s s') ?_ destRegs s
    ⟨[], conserved, rfl, by simp, rfl⟩
  rintro destReg _ s' ⟨entries, renamed⟩
  refine (renameDestReg_recorded renamed.conserved tc seqNum destReg).mono ?_
  rintro s'' ⟨entry, rfl, recorded⟩
  refine ⟨entry :: entries, recorded.conserved, ?_, ?_, ?_⟩
  · rw [recorded.history, renamed.history, List.cons_append]
  · exact List.forall_mem_cons.mpr ⟨rfl, renamed.seqNums⟩
  · rw [List.map_cons]
    change undoAll (undo s''.map (changeOf isa entry)) _ = _
    rw [recorded.undone, renamed.undone]

end Renames

section Squashes

theorem addSimpleReg_class {c d : RegClass} {reg other : PhysRegIndex}
    (isReg : file.isPhysReg c reg = true)
    (freeClass : ∀ c, ∀ reg ∈ s.free c, file.isPhysReg c reg = true)
    (member : other ∈ (addSimpleReg c reg s).free d) : file.isPhysReg d other = true := by
  by_cases here : d = c
  · subst here
    simp only [addSimpleReg, Function.update_self] at member
    rcases List.mem_append.mp member with old | new
    · exact freeClass d other old
    · exact List.mem_singleton.mp new ▸ isReg
  · simp only [addSimpleReg, Function.update_of_ne here] at member
    exact freeClass d other member

theorem setEntry_of_class {entry : RenameHistory} (sane : Sane isa file entry) :
    setEntry isa file entry.archReg entry.prevPhysReg s =
      .ok (setSimpleEntry (isa.classify entry.archReg).1 (isa.classify entry.archReg).2
        entry.prevPhysReg s) := by
  have prev := sane.prev
  have classified : isa.regIdxToClass entry.archReg = .ok (isa.classify entry.archReg) := by
    rw [Isa.regIdxToClass, assert, if_pos (decide_eq_true sane.bounded)]
    rfl
  rw [setEntry, classified]
  generalize isa.classify entry.archReg = arch at prev
  obtain ⟨c, reg⟩ := arch
  cases c with
  | misc => cases prev
  | int | float | cc =>
      change assert (file.isPhysReg _ entry.prevPhysReg) >>= _ = _
      rw [assert, if_pos prev]
      rfl

theorem undoEntry_conserved {entry : RenameHistory} {older : List RenameHistory}
    (conserved : Conserved isa file s) (newest : s.history = entry :: older) :
    ∃ s', undoEntry isa file entry s = .ok s' ∧ Conserved isa file { s' with history := older } ∧
      s'.map = undo s.map (changeOf isa entry) := by
  have isLog : log isa s = changeOf isa entry :: older.map (changeOf isa) := by
    rw [log, newest, List.map_cons]
  have consistent := conserved.consistent
  rw [isLog] at consistent
  obtain ⟨holds, consistent⟩ := consistent
  have saneOlder : ∀ e ∈ older, e.newPhysReg ≠ e.prevPhysReg → Sane isa file e := fun e member =>
    conserved.sane e (newest ▸ List.mem_cons_of_mem entry member)
  have parted := conserved.parted
  rw [isLog] at parted
  unfold undoEntry
  split
  · rename_i differs
    have sane := conserved.sane entry (newest ▸ List.mem_cons_self) differs
    have isUndo : undo s.map (changeOf isa entry) =
        Function.update s.map (isa.classify entry.archReg) entry.prevPhysReg := if_neg differs
    have shape : setSimpleEntry (isa.classify entry.archReg).1 (isa.classify entry.archReg).2
        entry.prevPhysReg s = { s with map := undo s.map (changeOf isa entry) } := by
      rw [isUndo]
      rfl
    rw [setEntry_of_class sane, shape]
    refine ⟨_, addReg_of_class sane.new _, ⟨?_, ?_, ?_, consistent, saneOlder⟩, rfl⟩
    · refine List.Perm.trans ?_ parted
      refine ((freed_push (not_misc_of_isPhysReg sane.new) _ _).append_right _).trans ?_
      rw [List.cons_append]
      refine List.perm_middle.symm.trans (List.Perm.append_left _ ?_)
      exact (undo_perm (archRegs_nodup isa) sane.mapped differs (holds differs)).symm
    · intro c reg member
      exact addSimpleReg_class (s := { s with map := undo s.map (changeOf isa entry) }) sane.new
        conserved.freeClass member
    · intro arch isArch
      change file.isPhysReg arch.1 (undo s.map (changeOf isa entry) arch) = true
      rw [isUndo]
      by_cases here : arch = isa.classify entry.archReg
      · rw [here, Function.update_self]
        exact sane.prev
      · rw [Function.update_of_ne here]
        exact conserved.mapClass arch isArch
  · rename_i same
    have isSame : (changeOf isa entry).new = (changeOf isa entry).old := not_not.mp same
    have isUndo : undo s.map (changeOf isa entry) = s.map := if_pos isSame
    rw [kept_same isSame] at parted
    rw [isUndo] at consistent ⊢
    exact ⟨s, rfl, ⟨parted, conserved.freeClass, conserved.mapClass, consistent, saneOlder⟩, rfl⟩

theorem doSquash_conserved (conserved : Conserved isa file s) (squashed : Nat) :
    ∃ s' undone, doSquash isa file squashed s = .ok s' ∧ Conserved isa file s' ∧
      s.history = undone ++ s'.history ∧ (∀ entry ∈ undone, squashed < entry.instSeqNum) ∧
      (∀ entry ∈ s'.history.head?, entry.instSeqNum ≤ squashed) ∧
      s'.map = undoAll s.map (undone.map (changeOf isa)) := by
  unfold doSquash
  generalize isHistory : s.history = history
  induction history generalizing s with
  | nil => exact ⟨s, [], rfl, conserved, by simp [isHistory], by simp, by simp [isHistory], rfl⟩
  | cons entry older ih =>
      unfold undoHistory
      by_cases newer : entry.instSeqNum > squashed
      · rw [if_pos newer]
        obtain ⟨s₁, undone₁, conserved₁, map₁⟩ := undoEntry_conserved conserved isHistory
        obtain ⟨s', undone, ended, conserved', split, newers, head, map'⟩ := ih conserved₁ rfl
        refine ⟨s', entry :: undone, ?_, conserved', ?_, ?_, head, ?_⟩
        · rw [undone₁]
          exact ended
        · rw [List.cons_append, split]
        · exact List.forall_mem_cons.mpr ⟨newer, newers⟩
        · rw [map', List.map_cons]
          change undoAll s₁.map _ = undoAll (undo s.map (changeOf isa entry)) _
          rw [map₁]
      · rw [if_neg newer]
        refine ⟨s, [], rfl, conserved, by simp [isHistory], by simp, ?_, rfl⟩
        rw [isHistory]
        simpa using newer

end Squashes

section Commits

theorem freeEntry_conserved {entry : RenameHistory} {newer : List RenameHistory}
    (conserved : Conserved isa file s) (oldest : s.history = newer ++ [entry]) :
    ∃ s', freeEntry file entry s = .ok s' ∧ s'.map = s.map ∧ s'.history = s.history ∧
      Conserved isa file { s' with history := newer } := by
  have isLog : log isa s = newer.map (changeOf isa) ++ [changeOf isa entry] := by
    rw [log, oldest, List.map_append, List.map_singleton]
  have consistent := conserved.consistent
  rw [isLog] at consistent
  have saneNewer : ∀ e ∈ newer, e.newPhysReg ≠ e.prevPhysReg → Sane isa file e := fun e member =>
    conserved.sane e (oldest ▸ List.mem_append_left _ member)
  have parted := conserved.parted
  rw [isLog] at parted
  unfold freeEntry
  split
  · rename_i differs
    have isChange : (changeOf isa entry).new ≠ (changeOf isa entry).old := differs
    have sane := conserved.sane entry (oldest ▸ List.mem_append_right _ List.mem_cons_self) differs
    rw [addReg_of_class sane.prev]
    refine ⟨_, rfl, rfl, rfl, ?_, ?_, conserved.mapClass, (consistent_append_iff.mp consistent).1,
      saneNewer⟩
    · refine List.Perm.trans ?_ parted
      refine ((freed_push (not_misc_of_isPhysReg sane.prev) _ _).append_right _).trans ?_
      rw [List.cons_append]
      refine List.perm_middle.symm.trans (List.Perm.append_left _ ?_)
      exact (forget_perm isChange _).symm
    · intro c reg member
      exact addSimpleReg_class sane.prev conserved.freeClass member
  · rename_i same
    have isSame : (changeOf isa entry).new = (changeOf isa entry).old := not_not.mp same
    rw [kept_append, kept_same isSame, show kept [] = ([] : List PhysRegIndex) from rfl,
      List.append_nil] at parted
    exact ⟨s, rfl, rfl, rfl, parted, conserved.freeClass, conserved.mapClass,
      (consistent_append_iff.mp consistent).1, saneNewer⟩

theorem freeHistory_conserved (done : Nat) (oldestFirst : List RenameHistory)
    (conserved : Conserved isa file s) (isHistory : s.history = oldestFirst.reverse) :
    ∃ s' dropped, freeHistory file done oldestFirst s = .ok s' ∧ Conserved isa file s' ∧
      s.history = s'.history ++ dropped ∧ (∀ entry ∈ dropped, entry.instSeqNum ≤ done) ∧
      (∀ entry ∈ s'.history.getLast?, done < entry.instSeqNum) ∧ s'.map = s.map := by
  induction oldestFirst generalizing s with
  | nil => exact ⟨s, [], rfl, conserved, by simp, by simp, by simp [isHistory], rfl⟩
  | cons entry newer ih =>
      rw [List.reverse_cons] at isHistory
      unfold freeHistory
      by_cases old : entry.instSeqNum ≤ done
      · rw [if_pos old]
        obtain ⟨s₁, freed₁, map₁, history₁, conserved₁⟩ := freeEntry_conserved conserved isHistory
        have shorter : { s₁ with history := s₁.history.dropLast } =
              { s₁ with history := newer.reverse } := by
          rw [history₁, isHistory, List.dropLast_concat]
        obtain ⟨s', dropped, ended, conserved', split, olds, last, map'⟩ := ih conserved₁ rfl
        refine ⟨s', dropped ++ [entry], ?_, conserved', ?_, ?_, last, map'.trans map₁⟩
        · rw [freed₁, ← ended, ← shorter]
          rfl
        · rw [isHistory, ← List.append_assoc]
          exact congrArg (· ++ [entry]) split
        · intro e member
          rcases List.mem_append.mp member with inside | isEntry
          · exact olds e inside
          · exact List.mem_singleton.mp isEntry ▸ old
      · rw [if_neg old]
        refine ⟨s, [], rfl, conserved, by simp, by simp, ?_, rfl⟩
        rw [isHistory, List.getLast?_concat]
        simpa using old

/-- removeFromHistory forgets the entries of the committed instructions, and never fails an
assertion. -/
theorem removeFromHistory_conserved (conserved : Conserved isa file s) (done : Nat) :
    ∃ s' dropped, removeFromHistory file done s = .ok s' ∧ Conserved isa file s' ∧
      s.history = s'.history ++ dropped ∧ (∀ entry ∈ dropped, entry.instSeqNum ≤ done) ∧
      (∀ entry ∈ s'.history.getLast?, done < entry.instSeqNum) ∧ s'.map = s.map := by
  unfold removeFromHistory
  cases isLast : s.history.getLast? with
  | none => exact ⟨s, [], rfl, conserved, by simp, by simp, by simp [isLast], rfl⟩
  | some oldest =>
      by_cases newer : oldest.instSeqNum > done
      · refine ⟨s, [], if_pos newer, conserved, by simp, by simp, ?_, rfl⟩
        rw [isLast]
        simpa using newer
      · obtain ⟨s', dropped, ended, result⟩ :=
          freeHistory_conserved done s.history.reverse conserved (List.reverse_reverse _).symm
        exact ⟨s', dropped, (if_neg newer).trans ended, result⟩

end Commits

section Runs

/-- The rename map and the free lists before the first instruction. -/
structure Partitioned (isa : Isa) (file : PhysRegFile) (s : State) : Prop where
  parted : (freed s ++ (archRegs isa).map s.map).Perm (List.range file.totalNumRegs)
  freeClass : ∀ c, ∀ reg ∈ s.free c, file.isPhysReg c reg = true
  mapClass : ∀ arch ∈ archRegs isa, file.isPhysReg arch.1 (s.map arch) = true
  history : s.history = []

theorem Partitioned.conserved (partitioned : Partitioned isa file s) : Conserved isa file s := by
  have noLog : log isa s = [] := by rw [log, partitioned.history, List.map_nil]
  refine ⟨?_, partitioned.freeClass, partitioned.mapClass, ?_, ?_⟩
  · rw [noLog]
    simpa [kept] using partitioned.parted
  · rw [noLog]
    trivial
  · rw [partitioned.history]
    simp

structure Filling (file : PhysRegFile) (mapped : List (RegClass × RegIndex)) (s : State) : Prop where
  parted : (freed s ++ mapped.map s.map).Perm (List.range file.totalNumRegs)
  freeClass : ∀ c, ∀ reg ∈ s.free c, file.isPhysReg c reg = true
  mapClass : ∀ arch ∈ mapped, file.isPhysReg arch.1 (s.map arch) = true
  history : s.history = []

theorem mapReg_filling {mapped : List (RegClass × RegIndex)} {arch : RegClass × RegIndex}
    (filling : Filling file mapped s) (fresh : arch ∉ mapped) :
    Ends (fun _ => True) (Filling file (mapped ++ [arch])) (mapReg file s arch) := by
  unfold mapReg getReg
  split
  · trivial
  · rename_i phys rest isFree
    refine (ends_assert _).bind fun _ isPhys => ?_
    have popped := freed_pop (not_misc_of_isPhysReg isPhys) isFree
    have same : mapped.map (Function.update s.map arch phys) = mapped.map s.map := by
      apply List.map_congr_left
      intro other member
      have differs : other ≠ arch := fun here => fresh (here ▸ member)
      exact Function.update_of_ne differs _ _
    refine ⟨?_, ?_, ?_, filling.history⟩
    · refine List.Perm.trans ?_ filling.parted
      refine List.Perm.trans ?_ (popped.append_right _).symm
      change (_ ++ (mapped ++ [arch]).map (Function.update s.map arch phys)).Perm _
      rw [List.map_append, same, List.map_singleton, Function.update_self, ← List.append_assoc]
      exact List.perm_append_singleton phys _
    · intro c reg member
      by_cases here : c = arch.1
      · subst here
        simp only [setSimpleEntry, Function.update_self] at member
        exact filling.freeClass arch.1 reg (isFree ▸ List.mem_cons_of_mem phys member)
      · simp only [setSimpleEntry, Function.update_of_ne here] at member
        exact filling.freeClass c reg member
    · intro other member
      change file.isPhysReg other.1 (Function.update s.map arch phys other) = true
      rcases List.mem_append.mp member with old | isArch
      · have differs : other ≠ arch := fun here => fresh (here ▸ old)
        rw [Function.update_of_ne differs]
        exact filling.mapClass other old
      · rw [List.mem_singleton.mp isArch, Function.update_self]
        exact isPhys

theorem initFreeList_filling (file : PhysRegFile) : Filling file [] (initFreeList file) := by
  have float := file.floatFits
  have cc := file.ccFits
  refine ⟨?_, ?_, by simp, rfl⟩
  · have whole : freed (initFreeList file) = List.range file.totalNumRegs := by
      have first := List.range'_append_1 (s := 0) (m := file.baseFloatRegIndex)
        (n := file.baseCCRegIndex - file.baseFloatRegIndex)
      have second := List.range'_append_1 (s := 0) (m := file.baseCCRegIndex)
        (n := file.totalNumRegs - file.baseCCRegIndex)
      rw [Nat.zero_add] at first second
      rw [Nat.add_sub_cancel' float] at first
      rw [Nat.add_sub_cancel' cc] at second
      rw [List.range_eq_range', ← second, ← first]
      rfl
    rw [whole]
    simp
  · intro c reg member
    cases c with
    | int =>
        have bounds := List.mem_range'_1.mp member
        simp only [PhysRegFile.isPhysReg, PhysRegFile.isIntPhysReg, decide_eq_true_eq]
        omega
    | float =>
        have bounds := List.mem_range'_1.mp member
        simp only [PhysRegFile.isPhysReg, PhysRegFile.isFloatPhysReg,
          Bool.and_eq_true, decide_eq_true_eq]
        omega
    | cc =>
        have bounds := List.mem_range'_1.mp member
        simp only [PhysRegFile.isPhysReg, PhysRegFile.isCCPhysReg,
          Bool.and_eq_true, decide_eq_true_eq]
        omega
    | misc => cases member

/-- The constructor leaves a partition. -/
theorem constructed_partitioned (built : constructed isa file = .ok s) : Partitioned isa file s := by
  have loop : Ends (fun _ => True)
      (fun s => ∃ mapped, mapped ++ [] = archRegs isa ∧ Filling file mapped s)
      (constructed isa file) := by
    refine ends_foldlM (fun left s => ∃ mapped, mapped ++ left = archRegs isa ∧ Filling file mapped s)
      ?_ (archRegs isa) _ ⟨[], rfl, initFreeList_filling file⟩
    rintro arch left s ⟨mapped, split, filling⟩
    have unique := archRegs_nodup isa
    rw [← split] at unique
    have fresh : arch ∉ mapped := fun member =>
      (List.nodup_append.mp unique).2.2 arch member arch List.mem_cons_self rfl
    refine (mapReg_filling filling fresh).mono fun s' filling' => ⟨mapped ++ [arch], ?_, filling'⟩
    rw [List.append_assoc, List.singleton_append, split]
  obtain ⟨mapped, all, filling⟩ := loop.of_ok built
  rw [List.append_nil] at all
  subst all
  exact ⟨filling.parted, filling.freeClass, filling.mapClass, filling.history⟩

theorem step_conserved {action : Action isa} (conserved : Conserved isa file s)
    (stepped : step isa file s action = some s') : Conserved isa file s' := by
  have returned := eq_ok_of_toOption stepped
  cases action with
  | rename tc seqNum destRegs =>
      obtain ⟨entries, renamed⟩ :=
        (renameDestRegs_renamed conserved tc seqNum destRegs).of_ok returned
      exact renamed.conserved
  | commit done =>
      obtain ⟨after, dropped, ended, conserved', _⟩ := removeFromHistory_conserved conserved done
      cases ended.symm.trans returned
      exact conserved'
  | squash squashed =>
      obtain ⟨after, undone, ended, conserved', _⟩ := doSquash_conserved conserved squashed
      cases ended.symm.trans returned
      exact conserved'

theorem run_conserved {actions : List (Action isa)} (conserved : Conserved isa file s)
    (ran : run (step isa file) actions s = some s') : Conserved isa file s' := by
  induction actions generalizing s with
  | nil =>
      cases ran
      exact conserved
  | cons action rest ih =>
      obtain ⟨next, stepped, ran⟩ := Option.bind_eq_some_iff.mp ran
      exact ih (step_conserved conserved stepped) ran

theorem kept_log (isa : Isa) (s : State) : kept (log isa s) =
    (s.history.filter fun entry => entry.newPhysReg ≠ entry.prevPhysReg).map (·.prevPhysReg) := by
  simp only [kept, log, List.filter_map, List.map_map]
  rfl

/-- Every physical register is in one place, once: free, mapped, or kept by the history for the
instruction that replaced it. Commits and squashes always return. -/
theorem registers_conserved (isa : Isa) (file : PhysRegFile) (start reached : State)
    (actions : List (Action isa)) (partitioned : Partitioned isa file start)
    (ran : run (step isa file) actions start = some reached) :
    (∀ reg, (freed reached).count reg + ((archRegs isa).map reached.map).count reg +
      ((reached.history.filter fun entry => entry.newPhysReg ≠ entry.prevPhysReg).map
        (·.prevPhysReg)).count reg = if reg < file.totalNumRegs then 1 else 0) ∧
    (∀ done, ∃ s', removeFromHistory file done reached = .ok s') ∧
    (∀ squashed, ∃ s', doSquash isa file squashed reached = .ok s') := by
  have conserved := run_conserved partitioned.conserved ran
  refine ⟨?_, ?_, ?_⟩
  · intro reg
    have counted := conserved.parted.count_eq reg
    rw [List.count_append, List.count_append, kept_log, ← Nat.add_assoc] at counted
    rw [counted, List.nodup_range.count]
    simp only [List.mem_range]
  · intro done
    obtain ⟨s', _, ended, _⟩ := removeFromHistory_conserved conserved done
    exact ⟨s', ended⟩
  · intro squashed
    obtain ⟨s', _, ended, _⟩ := doSquash_conserved conserved squashed
    exact ⟨s', ended⟩

def smallIsa : Isa where
  -- three integer registers, the last of them the zero register, two floating-point registers, one
  -- condition code and some misc registers
  numIntRegs := 3
  numFloatRegs := 2
  numCCRegs := 1
  fpRegBase := 3
  ccRegBase := 5
  miscRegBase := 6
  maxRegIndex := 9
  zeroReg := 2
  fpZeroReg := 3
  intFits := by decide
  floatFits := by decide
  ccFits := by decide
  miscFits := by decide

def smallContext : ThreadContext smallIsa where
  flatten _ reg := reg
  inRange reg notMisc := by
    by_cases int : reg < 3
    · rw [show smallIsa.classify reg = (.int, reg) from if_pos int]
      exact int
    by_cases float : reg < 5
    · rw [show smallIsa.classify reg = (.float, reg - 3) by simp [Isa.classify, smallIsa, int, float]]
      exact Nat.sub_lt_left_of_lt_add (by omega) float
    by_cases cc : reg < 6
    · rw [show smallIsa.classify reg = (.cc, reg - 5)
          by simp [Isa.classify, smallIsa, int, float, cc]]
      exact Nat.sub_lt_left_of_lt_add (by omega) cc
    · simp [Isa.classify, smallIsa, int, float, cc] at notMisc

def smallFile : PhysRegFile := ⟨5, 9, 11, by decide, by decide⟩

def smallActions : List (Action smallIsa) :=
  -- an integer register, the zero register, a floating-point, a condition code and a misc register
  -- are renamed; the first instruction is committed, the others are squashed
  [.rename smallContext 1 [0, 2], .rename smallContext 2 [0, 4, 5], .commit 1,
    .rename smallContext 3 [7], .squash 2, .squash 1]

theorem small_run_conserves :
    ∃ start reached, constructed smallIsa smallFile = .ok start ∧
      run (step smallIsa smallFile) smallActions start = some reached ∧ reached.history = [] ∧
      ∀ reg, reg < 11 →
        (freed reached).count reg + ((archRegs smallIsa).map reached.map).count reg = 1 := by
  obtain ⟨start, built⟩ : ∃ start, constructed smallIsa smallFile = .ok start := ⟨_, rfl⟩
  obtain ⟨reached, ran, history⟩ : ∃ reached,
      run (step smallIsa smallFile) smallActions start = some reached ∧ reached.history = [] := by
    cases built
    exact ⟨_, rfl, rfl⟩
  have conserved := (registers_conserved smallIsa smallFile start reached smallActions
    (constructed_partitioned built) ran).1
  refine ⟨start, reached, built, ran, history, fun reg inFile => ?_⟩
  have counted := conserved reg
  rw [if_pos (show reg < smallFile.totalNumRegs from inFile), history] at counted
  exact counted

end Runs

end GemFi.RegisterConservation
