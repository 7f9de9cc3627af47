import GemFi.OutOfOrderRenaming

/-!
The values of the registers in the out-of-order core. Beside the core stands a value that each
physical register is to get, set when the register is taken: through any of the rename maps these
values are the registers of the instructions run in order up to that map.
-/

namespace GemFi.OutOfOrderValues

open UndoLogs RegisterRename RegisterConservation FreeRegisters OutOfOrder OutOfOrderRenaming

variable {Value : Type} {cpu : Cpu}

abbrev Arch (Value : Type) := RegClass × RegIndex → Value

section Definitions

def setArch (isa : Isa) (arch : Arch Value) (key : RegClass × RegIndex) (value : Value) :
    Arch Value :=
  -- setting a register; the integer register zero does not change
  if key = (.int, isa.zeroReg) then arch else Function.update arch key value

def runInst (inst : StaticInst cpu.isa Value) (arch : Arch Value) : Arch Value :=
  let values := inst.execute (inst.srcRegs.map fun reg => arch (flat inst.tc reg))
  inst.destRegs.zipIdx.foldl (fun arch (reg, destIdx) => setArch cpu.isa arch (flat inst.tc reg) (values destIdx)) arch

def sequential (insts : List (StaticInst cpu.isa Value)) (arch : Arch Value) : Arch Value :=
  -- instructions run one after the other
  insts.foldl (fun arch inst => runInst inst arch) arch

def archAfter (s : State cpu Value) (start : Arch Value) (front : List ℕ) : Arch Value :=
  -- the registers behind the committed instructions and some of those in the reorder buffer
  sequential (s.retired ++ front.map fun i => (s.insts i).staticInst) start

def results (inst : StaticInst cpu.isa Value) (arch : Arch Value) : ℕ → Value :=
  inst.execute (inst.srcRegs.map fun reg => arch (flat inst.tc reg))

/-- `expected` gives each register that is in use the value that its instruction computes in order. -/
structure Valued (start : Arch Value) (expected : PhysRegIndex → Value) (s : State cpu Value) : Prop where
  mapped : ∀ front back, s.rob = front ++ back → ∀ reg ∈ archRegs cpu.isa,
    expected (mapBefore s back reg) = archAfter s start front reg
  computed : ∀ front i back, s.rob = front ++ i :: back → ∀ k dest, (s.insts i).dests[k]? = some dest →
    dest.renamed ∈ fresh (s.insts i) →
      expected dest.renamed = results (s.insts i).staticInst (archAfter s start front) k

def Filled (expected : PhysRegIndex → Value) (s : State cpu Value) : Prop :=
  ∀ p, p ∉ freed s.rename → (∀ i ∈ s.rob, p ∈ fresh (s.insts i) → (s.insts i).executed = true) →
    s.regFile p = expected p

end Definitions

section Renaming

variable {expected : PhysRegIndex → Value} {arch : Arch Value} {map : RenameMap} {seqNum : ℕ}

def expect (cpu : Cpu) (expected : PhysRegIndex → Value) (values : ℕ → Value) (dests : List DestReg) :
    PhysRegIndex → Value :=
  dests.zipIdx.foldl (fun expected (dest, k) => State.setOperand cpu expected dest.renamed (values k)) expected

theorem expect_concat (values : ℕ → Value) (dests : List DestReg) (dest : DestReg) :
    expect cpu expected values (dests ++ [dest]) =
      State.setOperand cpu (expect cpu expected values dests) dest.renamed (values dests.length) := by
  simp [expect, List.zipIdx_append]

theorem expect_of_not_mem (values : ℕ → Value) {dests : List DestReg} {p : PhysRegIndex}
    (away : ∀ dest ∈ dests, p = dest.renamed → p = cpu.isa.zeroReg) :
    expect cpu expected values dests p = expected p := by
  induction dests using List.reverseRecOn with
  | nil => rfl
  | append_singleton dests dest ih =>
      obtain ⟨others, here⟩ := List.forall_mem_append.mp away
      rw [expect_concat, State.setOperand]
      split
      · exact ih others
      · next notZero =>
          have differs : p ≠ dest.renamed := fun same =>
            notZero (same ▸ here dest (List.mem_singleton_self dest) same)
          rw [Function.update_of_ne differs]
          exact ih others

def settle (isa : Isa) (arch : Arch Value) (values : ℕ → Value) (dests : List DestReg) :
    Arch Value :=
  dests.zipIdx.foldl (fun arch (dest, k) => setArch isa arch (isa.classify dest.flat) (values k)) arch

theorem settle_concat (isa : Isa) (arch : Arch Value) (values : ℕ → Value) (dests : List DestReg) (dest : DestReg) :
    settle isa arch values (dests ++ [dest]) =
      setArch isa (settle isa arch values dests) (isa.classify dest.flat) (values dests.length) := by
  simp [settle, List.zipIdx_append]

theorem expect_mapped (values : ℕ → Value) (dests : List DestReg) (shaped : ∀ dest ∈ dests, DestShaped cpu dest)
    (consistent : Consistent map ((dests.map (entry seqNum)).reverse.map (changeOf cpu.isa)))
    (single : ((archRegs cpu.isa).map map ++
      kept ((dests.map (entry seqNum)).reverse.map (changeOf cpu.isa))).Nodup)
    (before : ∀ reg ∈ archRegs cpu.isa,
      expected (undoAll map ((dests.map (entry seqNum)).reverse.map (changeOf cpu.isa)) reg) = arch reg) :
    ∀ reg ∈ archRegs cpu.isa, expect cpu expected values dests (map reg) = settle cpu.isa arch values dests reg := by
  induction dests using List.reverseRecOn generalizing map with
  | nil => exact before
  | append_singleton dests dest ih =>
      obtain ⟨allShaped, shaped⟩ := List.forall_mem_append.mp shaped
      have own := shaped dest (List.mem_singleton_self dest)
      rw [List.map_append, List.reverse_append, List.map_singleton, List.reverse_singleton, List.singleton_append,
        List.map_cons] at consistent single before
      obtain ⟨holds, consistent⟩ := consistent
      intro reg inArch
      rw [expect_concat, settle_concat, State.setOperand, setArch]
      by_cases same : dest.renamed = dest.prev
      · have isZero := own.same_iff.mp same
        have isSame : (changeOf cpu.isa (entry seqNum dest)).new = (changeOf cpu.isa (entry seqNum dest)).old := same
        have unchanged : undo map (changeOf cpu.isa (entry seqNum dest)) = map := if_pos isSame
        rw [if_pos (own.zero_iff.mpr isZero), if_pos isZero]
        rw [unchanged] at consistent
        rw [kept_same isSame] at single
        exact ih allShaped consistent single (by simpa [undoAll, unchanged] using before) reg inArch
      · have notZero : cpu.isa.classify dest.flat ≠ (.int, cpu.isa.zeroReg) := fun isZero => same (own.same_iff.mpr isZero)
        have differs : (changeOf cpu.isa (entry seqNum dest)).new ≠ (changeOf cpu.isa (entry seqNum dest)).old := same
        have isKey : map (cpu.isa.classify dest.flat) = dest.renamed := holds differs
        rw [if_neg (fun isZero => notZero (own.zero_iff.mp isZero)), if_neg notZero]
        have undone : ((archRegs cpu.isa).map map ++ kept (changeOf cpu.isa (entry seqNum dest) ::
            (dests.map (entry seqNum)).reverse.map (changeOf cpu.isa))).Perm _ :=
          undo_perm (archRegs_nodup cpu.isa) own.mapped differs (holds differs)
        have earlier := (List.nodup_cons.mp (undone.nodup_iff.mp single)).2
        have induct := ih allShaped consistent earlier before
        by_cases here : reg = cpu.isa.classify dest.flat
        · rw [here, isKey, Function.update_self, Function.update_self]
        · have elsewhere : map reg ≠ dest.renamed := fun equal =>
            here (List.inj_on_of_nodup_map (List.nodup_append.mp single).1 inArch own.mapped (equal.trans isKey.symm))
          have unchanged : undo map (changeOf cpu.isa (entry seqNum dest)) reg = map reg := by
            rw [undo, if_neg differs]
            exact Function.update_of_ne here _ _
          rw [Function.update_of_ne elsewhere, Function.update_of_ne here, ← unchanged]
          exact induct reg inArch

theorem expect_taken (values : ℕ → Value) (dests : List DestReg) (shaped : ∀ dest ∈ dests, DestShaped cpu dest)
    (single : ((dests.filter fun dest => dest.renamed ≠ dest.prev).map (·.renamed)).Nodup) {k : ℕ} {dest : DestReg}
    (isDest : dests[k]? = some dest) (taken : dest.renamed ≠ dest.prev) :
    expect cpu expected values dests dest.renamed = values k := by
  induction dests using List.reverseRecOn with
  | nil => cases isDest
  | append_singleton dests last ih =>
      obtain ⟨allShaped, shaped⟩ := List.forall_mem_append.mp shaped
      have own := shaped last (List.mem_singleton_self last)
      rw [List.filter_append, List.map_append] at single
      obtain ⟨earlier, _, apart⟩ := List.nodup_append.mp single
      rw [expect_concat, State.setOperand]
      obtain ⟨_, old⟩ | ⟨rfl, rfl⟩ := getElem?_concat_cases isDest
      · split
        · exact ih allShaped earlier old
        · next notZero =>
            have lastTaken : last.renamed ≠ last.prev := fun same => notZero (own.zero_iff.mpr (own.same_iff.mp same))
            have inOld : dest.renamed ∈ (dests.filter fun dest => dest.renamed ≠ dest.prev).map (·.renamed) :=
              List.mem_map_of_mem (List.mem_filter.mpr ⟨List.mem_of_getElem? old, decide_eq_true taken⟩)
            have differs : dest.renamed ≠ last.renamed :=
              apart dest.renamed inOld last.renamed (by simp [lastTaken])
            rw [Function.update_of_ne differs]
            exact ih allShaped earlier old
      · have notZero : dest.renamed ≠ cpu.isa.zeroReg := fun isZero => taken (own.same_iff.mpr (own.zero_iff.mp isZero))
        rw [if_neg notZero, Function.update_self]

end Renaming

section Steps

variable {start : Arch Value} {expected : PhysRegIndex → Value} {s after : State cpu Value} {seqNum : ℕ}
  {inst : StaticInst cpu.isa Value} {dyn : DynInst cpu.isa Value} {rename : RegisterRename.State}
  {front back : List ℕ}

theorem archAfter_congr (retired : after.retired = s.retired)
    (same : ∀ i ∈ front, (after.insts i).staticInst = (s.insts i).staticInst) :
    archAfter after start front = archAfter s start front := by
  unfold archAfter
  rw [retired, List.map_congr_left same]

theorem archAfter_concat (s : State cpu Value) (start : Arch Value) (front : List ℕ) (i : ℕ) :
    archAfter s start (front ++ [i]) = runInst (s.insts i).staticInst (archAfter s start front) := by
  rw [archAfter, List.map_append, ← List.append_assoc, sequential, List.foldl_append]
  rfl

theorem runInst_eq {dests : List DestReg} (arch : Arch Value)
    (keys : dests.map (fun dest => cpu.isa.classify dest.flat) = inst.destRegs.map (flat inst.tc)) :
    settle cpu.isa arch (results inst arch) dests = runInst inst arch := by
  have first : settle cpu.isa arch (results inst arch) dests =
      (dests.map fun dest => cpu.isa.classify dest.flat).zipIdx.foldl
        (fun arch' (key, k) => setArch cpu.isa arch' key (results inst arch k)) arch := by
    rw [settle, List.zipIdx_map, List.foldl_map]
    rfl
  rw [first, keys, List.zipIdx_map, List.foldl_map]
  rfl

theorem Valued.congr (valued : Valued start expected s) (sameRename : after.rename = s.rename)
    (sameRob : after.rob = s.rob) (retired : after.retired = s.retired)
    (same : ∀ i ∈ s.rob, (after.insts i).staticInst = (s.insts i).staticInst ∧
      (after.insts i).dests = (s.insts i).dests) : Valued start expected after := by
  have sameMapBefore (young : List ℕ) (inRob : ∀ i ∈ young, i ∈ s.rob) :
      mapBefore after young = mapBefore s young := by
    rw [mapBefore, mapBefore, sameRename, changes_congr fun i member => (same i (inRob i member)).2]
  have sameArch (front : List ℕ) (inRob : ∀ i ∈ front, i ∈ s.rob) :
      archAfter after start front = archAfter s start front :=
    archAfter_congr retired fun i member => (same i (inRob i member)).1
  refine ⟨?_, ?_⟩ <;> rw [sameRob]
  · intro front back split reg inArch
    rw [sameMapBefore back fun i member => split ▸ List.mem_append_right front member,
      sameArch front fun i member => split ▸ List.mem_append_left back member]
    exact valued.mapped front back split reg inArch
  · intro front i back split k dest isDest taken
    obtain ⟨static, dests⟩ := same i (split ▸ List.mem_append_right front List.mem_cons_self)
    rw [dests] at isDest
    have stillTaken : dest.renamed ∈ fresh (s.insts i) := by rwa [fresh, dests] at taken
    rw [static, sameArch front fun j member => split ▸ List.mem_append_left (i :: back) member]
    exact valued.computed front i back split k dest isDest stillTaken

/-- Renaming an instruction: its results are expected in the registers that it takes. -/
theorem Valued.renamed (valued : Valued start expected s) (tracked : Tracked s) (notIn : seqNum ∉ s.rob)
    (renamed : RenamedInst s seqNum inst dyn rename after) :
    Valued start (expect cpu expected (results inst (archAfter s start s.rob)) dyn.dests) after ∧
      ∀ p ∉ fresh dyn, expect cpu expected (results inst (archAfter s start s.rob)) dyn.dests p = expected p := by
  have later := renamed.tracked tracked notIn
  have rob : after.rob = s.rob ++ [seqNum] := by rw [renamed.state]
  have isRename : after.rename = rename := by rw [renamed.state]
  have retired : after.retired = s.retired := by rw [renamed.state]
  have others (i : ℕ) (member : i ∈ s.rob) : after.insts i = s.insts i :=
    renamed.insts_of_ne (ne_of_mem_of_not_mem member notIn)
  have sameArch (front : List ℕ) (inRob : ∀ i ∈ front, i ∈ s.rob) :
      archAfter after start front = archAfter s start front :=
    archAfter_congr retired fun i member => by rw [others i (inRob i member)]
  have untouched (p : PhysRegIndex) (notTaken : p ∉ fresh dyn) :
      expect cpu expected (results inst (archAfter s start s.rob)) dyn.dests p = expected p := by
    refine expect_of_not_mem _ fun dest member same => ?_
    have shaped := renamed.shaped.dests dest member
    by_contra notZero
    have differs : dest.renamed ≠ dest.prev := fun equal =>
      notZero (same.trans (shaped.zero_iff.mpr (shaped.same_iff.mp equal)))
    exact notTaken (same ▸ List.mem_map_of_mem (List.mem_filter.mpr ⟨member, decide_eq_true differs⟩))
  have inRob : seqNum ∈ after.rob := rob ▸ List.mem_append_right _ (List.mem_singleton_self seqNum)
  refine ⟨⟨?_, ?_⟩, untouched⟩ <;> rw [rob]
  · intro front back split reg inArch
    obtain rfl | ⟨older, last, rfl⟩ := List.eq_nil_or_concat back
    · -- behind the new instruction
      rw [List.append_nil] at split
      subst split
      have single := later.conserved.parted.nodup_iff.mpr List.nodup_range
      rw [isRename] at single
      have isLog :
          log cpu.isa rename = (dyn.dests.map (entry seqNum)).reverse.map (changeOf cpu.isa) ++
          log cpu.isa s.rename := by
        rw [log, log, renamed.history, List.map_append]
      rw [isLog, kept_append, ← List.append_assoc (List.map _ _)] at single
      have consistent := renamed.conserved.consistent
      rw [isLog, consistent_append_iff] at consistent
      have earlier : ∀ reg ∈ archRegs cpu.isa,
          expected (undoAll rename.map ((dyn.dests.map (entry seqNum)).reverse.map (changeOf cpu.isa)) reg) =
            archAfter s start s.rob reg := by
        rw [renamed.undone]
        exact valued.mapped s.rob [] (List.append_nil _).symm
      have behind := expect_mapped (results inst (archAfter s start s.rob)) dyn.dests renamed.shaped.dests consistent.1
        (List.nodup_append.mp (List.nodup_append.mp single).2.1).1 earlier reg inArch
      have keys := renamed.shaped.keys
      rw [renamed.staticInst] at keys
      rw [mapBefore_nil, isRename, behind, runInst_eq _ keys, archAfter_concat, renamed.insts_self, renamed.staticInst,
        sameArch s.rob fun _ member => member]
    · -- before it
      rw [List.concat_eq_append] at split ⊢
      rw [← List.append_assoc] at split
      obtain ⟨isRob, same⟩ := List.append_inj' split rfl
      cases same
      have notOlder :
          seqNum ∉ older := fun member => notIn (isRob ▸ List.mem_append_right front member)
      have away : mapBefore s older reg ∉ fresh dyn := by
        intro taken
        have inOrder : after.rob = front ++ older ++ seqNum :: [] := by rw [rob, isRob]
        have mapped := later.fresh_not_mapped older inOrder (renamed.insts_self.symm ▸ taken) inArch
        rw [renamed.mapBefore_eq notOlder] at mapped
        exact mapped rfl
      rw [renamed.mapBefore_eq notOlder, untouched _ away,
        sameArch front fun i member => isRob ▸ List.mem_append_left older member]
      exact valued.mapped front older isRob reg inArch
  · intro front i back split k dest isDest taken
    obtain rfl | ⟨older, last, rfl⟩ := List.eq_nil_or_concat back
    · obtain ⟨rfl, same⟩ := List.append_inj' split rfl
      cases same
      rw [renamed.insts_self] at isDest taken ⊢
      have single := later.fresh_nodup inRob
      rw [renamed.insts_self] at single
      have differs : dest.renamed ≠ dest.prev := by
        intro same
        have shaped := renamed.shaped.dests dest (List.mem_of_getElem? isDest)
        have isZero :
            dest.renamed = cpu.isa.zeroReg := shaped.zero_iff.mpr (shaped.same_iff.mp same)
        have notFresh := later.zero_not_fresh inRob
        rw [renamed.insts_self, ← isZero] at notFresh
        exact notFresh taken
      rw [renamed.staticInst, sameArch s.rob fun _ member => member]
      exact expect_taken _ dyn.dests renamed.shaped.dests single isDest differs
    · rw [List.concat_eq_append, ← List.cons_append, ← List.append_assoc] at split
      obtain ⟨isRob, same⟩ := List.append_inj' split rfl
      cases same
      have isOld : i ∈ s.rob := isRob ▸ List.mem_append_right front List.mem_cons_self
      have away : dest.renamed ∉ fresh dyn := by
        intro also
        have equal := later.fresh_unique (rob ▸ List.mem_append_left _ isOld) inRob taken (renamed.insts_self.symm ▸ also)
        exact notIn (equal ▸ isOld)
      rw [others i isOld] at isDest taken ⊢
      rw [untouched _ away, sameArch front fun j member => isRob ▸ List.mem_append_left (i :: older) member]
      exact valued.computed front i older isRob k dest isDest taken

/-- A squash takes instructions off the end. -/
theorem Valued.squash (valued : Valued start expected s) (split : s.rob = front ++ back) (rob : after.rob = front)
    (map : after.rename.map = mapBefore s back) (retired : after.retired = s.retired)
    (same : ∀ i ∈ front, (after.insts i).staticInst = (s.insts i).staticInst ∧
      (after.insts i).dests = (s.insts i).dests) : Valued start expected after := by
  have sameMapBefore (young : List ℕ) (inFront : ∀ i ∈ young, i ∈ front) :
      mapBefore after young = mapBefore s (young ++ back) := by
    rw [mapBefore_append, mapBefore, map, changes_congr fun i member => (same i (inFront i member)).2]
  have sameArch (older : List ℕ) (inFront : ∀ i ∈ older, i ∈ front) :
      archAfter after start older = archAfter s start older :=
    archAfter_congr retired fun i member => (same i (inFront i member)).1
  refine ⟨?_, ?_⟩ <;> rw [rob]
  · rintro older young rfl reg inArch
    rw [sameMapBefore young fun i member => List.mem_append_right older member,
      sameArch older fun i member => List.mem_append_left young member]
    exact valued.mapped older (young ++ back) (by rw [split, List.append_assoc]) reg inArch
  · rintro older i young rfl k dest isDest taken
    obtain ⟨static, dests⟩ := same i (List.mem_append_right older List.mem_cons_self)
    rw [dests] at isDest
    have stillTaken : dest.renamed ∈ fresh (s.insts i) := by rwa [fresh, dests] at taken
    rw [static, sameArch older fun j member => List.mem_append_left (i :: young) member]
    exact valued.computed older i (young ++ back) (by rw [split, List.append_assoc, List.cons_append]) k dest isDest
      stillTaken

/-- A commit moves instructions to those that are retired. -/
theorem Valued.commit (valued : Valued start expected s) (split : s.rob = front ++ back) (rob : after.rob = back)
    (map : after.rename.map = s.rename.map) (insts : after.insts = s.insts)
    (retired : after.retired = s.retired ++ front.map fun i => (s.insts i).staticInst) :
    Valued start expected after := by
  have sameMapBefore (young : List ℕ) : mapBefore after young = mapBefore s young := by
    rw [mapBefore, mapBefore, map, insts]
  have sameArch (older : List ℕ) :
      archAfter after start older = archAfter s start (front ++ older) := by
    rw [archAfter, archAfter, retired, insts, List.map_append, List.append_assoc]
  refine ⟨?_, ?_⟩ <;> rw [rob]
  · rintro older young rfl reg inArch
    rw [sameMapBefore, sameArch]
    exact valued.mapped (front ++ older) young (by rw [split, List.append_assoc]) reg inArch
  · rintro older i young rfl k dest isDest taken
    rw [insts] at isDest taken ⊢
    rw [sameArch]
    exact valued.computed (front ++ older) i young (by rw [split, List.append_assoc]) k dest isDest taken

/-! ### The registers that have their values -/

theorem Filled.congr (filled : Filled expected s) (sameRename : after.rename = s.rename) (sameRob : after.rob = s.rob)
    (sameFile : after.regFile = s.regFile)
    (same : ∀ i ∈ s.rob, (after.insts i).dests = (s.insts i).dests ∧ (after.insts i).executed = (s.insts i).executed) :
    Filled expected after := by
  intro p live takers
  rw [sameRename] at live
  rw [sameRob] at takers
  rw [sameFile]
  refine filled p live fun i member taken => ?_
  obtain ⟨dests, executed⟩ := same i member
  rw [← executed]
  exact takers i member (by rwa [fresh, dests])

theorem Filled.renamed (filled : Filled expected s) (tracked : Tracked s) (notIn : seqNum ∉ s.rob)
    (renamed : RenamedInst s seqNum inst dyn rename after) {expected' : PhysRegIndex → Value}
    (untouched : ∀ p ∉ fresh dyn, expected' p = expected p) : Filled expected' after := by
  intro p live takers
  have rob : after.rob = s.rob ++ [seqNum] := by rw [renamed.state]
  have sameFile : after.regFile = s.regFile := by rw [renamed.state]
  have notTaken : p ∉ fresh dyn := by
    intro taken
    have executed := takers seqNum (rob ▸ List.mem_append_right _ (List.mem_singleton_self seqNum))
    rw [renamed.insts_self, renamed.executed] at executed
    exact absurd (executed taken) nofun
  have wasLive : p ∉ freed s.rename := fun free =>
    ((renamed.freed_iff tracked notIn).mp free).elim live notTaken
  rw [sameFile, untouched p notTaken]
  refine filled p wasLive fun i member taken => ?_
  have executed := takers i (rob ▸ List.mem_append_left _ member)
  rw [renamed.insts_of_ne (ne_of_mem_of_not_mem member notIn)] at executed
  exact executed taken

/-- The sources that an instruction reads, once the instructions that take them are executed. -/
theorem Filled.sources {i : ℕ} (filled : Filled expected s) (valued : Valued start expected s) (tracked : Tracked s)
    (split : s.rob = front ++ i :: back)
    (produced : ∀ p ∈ (s.insts i).srcRegs, ∀ j ∈ s.rob, p ∈ fresh (s.insts j) → (s.insts j).executed = true) :
    (s.insts i).srcRegs.map s.regFile =
      (s.insts i).staticInst.srcRegs.map fun reg => archAfter s start front (flat (s.insts i).staticInst.tc reg) := by
  have inRob : i ∈ s.rob := split ▸ List.mem_append_right front List.mem_cons_self
  have filledSources : (s.insts i).srcRegs.map s.regFile = (s.insts i).srcRegs.map expected :=
    List.map_congr_left fun p source =>
      filled p (tracked.source_live inRob source).1 fun j member => produced p source j member
  rw [filledSources, tracked.sources front i back split, List.map_map]
  exact List.map_congr_left fun reg member =>
    valued.mapped front (i :: back) split _ ((tracked.shaped i inRob).srcs reg member)

theorem execute_eq (dyn : DynInst cpu.isa Value) (regFile : PhysRegIndex → Value) :
    State.execute dyn regFile = expect cpu regFile (dyn.staticInst.execute (dyn.srcRegs.map regFile)) dyn.dests := by
  rw [State.execute, DynInst.destRegs, List.zipIdx_map, List.foldl_map]
  rfl

/-- An instruction that executes fills the registers that it has taken. -/
theorem Filled.execute {i : ℕ} (filled : Filled expected s) (valued : Valued start expected s) (tracked : Tracked s)
    (inRob : i ∈ s.rob)
    (produced : ∀ p ∈ (s.insts i).srcRegs, ∀ j ∈ s.rob, p ∈ fresh (s.insts j) → (s.insts j).executed = true)
    (sameRename : after.rename = s.rename) (sameRob : after.rob = s.rob)
    (file : after.regFile = State.execute (s.insts i) s.regFile)
    (same : ∀ j ∈ s.rob, (after.insts j).dests = (s.insts j).dests)
    (others : ∀ j ∈ s.rob, j ≠ i → (after.insts j).executed = (s.insts j).executed) :
    Filled expected after := by
  obtain ⟨front, back, split⟩ := List.append_of_mem inRob
  have values : (s.insts i).staticInst.execute ((s.insts i).srcRegs.map s.regFile) =
      results (s.insts i).staticInst (archAfter s start front) := by
    rw [filled.sources valued tracked split produced]
    rfl
  intro p live takers
  rw [sameRename] at live
  rw [sameRob] at takers
  rw [file, execute_eq, values]
  by_cases own : p ∈ fresh (s.insts i)
  · obtain ⟨dest, member, rfl⟩ := List.mem_map.mp own
    obtain ⟨member, differs⟩ := List.mem_filter.mp member
    obtain ⟨k, isDest⟩ := List.mem_iff_getElem?.mp member
    rw [expect_taken _ _ (tracked.shaped i inRob).dests (tracked.fresh_nodup inRob) isDest (of_decide_eq_true differs)]
    exact (valued.computed front i back split k dest isDest own).symm
  · have away : ∀ dest ∈ (s.insts i).dests, p = dest.renamed → p = cpu.isa.zeroReg := by
      rintro dest member rfl
      exact (tracked.dest_cases inRob (List.mem_map_of_mem member)).resolve_right own
    rw [expect_of_not_mem _ away]
    refine filled p live fun j member taken => ?_
    have differs : j ≠ i := fun same => own (same ▸ taken)
    rw [← others j member differs]
    exact takers j member (by rwa [fresh, same j member])

theorem Filled.squash (filled : Filled expected s) (tracked : Tracked s) (split : s.rob = front ++ back)
    (squashed : Tracked after) (rob : after.rob = front) (map : after.rename.map = mapBefore s back)
    (sameFile : after.regFile = s.regFile)
    (same : ∀ i ∈ front, (after.insts i).dests = (s.insts i).dests ∧ (after.insts i).executed = (s.insts i).executed) :
    Filled expected after := by
  intro p live takers
  rw [freed_squash_iff tracked split squashed rob map fun i member => (same i member).1, not_or] at live
  rw [sameFile]
  refine filled p live.1 fun i member taken => ?_
  rw [split] at member
  obtain inFront | inBack := List.mem_append.mp member
  · obtain ⟨dests, executed⟩ := same i inFront
    rw [← executed]
    exact takers i (rob ▸ inFront) (by rwa [fresh, dests])
  · exact absurd ⟨i, inBack, taken⟩ live.2

theorem Filled.commit (filled : Filled expected s) (tracked : Tracked s) (split : s.rob = front ++ back)
    (committed : Tracked after) (rob : after.rob = back) (insts : after.insts = s.insts)
    (map : after.rename.map = s.rename.map) (sameFile : after.regFile = s.regFile)
    (executed : ∀ i ∈ front, (s.insts i).executed = true) : Filled expected after := by
  intro p live takers
  rw [sameFile]
  refine filled p (fun free => live (freed_commit tracked split committed rob insts map free)) fun i member taken => ?_
  rw [split] at member
  obtain inFront | inBack := List.mem_append.mp member
  · exact executed i inFront
  · rw [rob, insts] at takers
    exact takers i inBack taken

end Steps

end GemFi.OutOfOrderValues
