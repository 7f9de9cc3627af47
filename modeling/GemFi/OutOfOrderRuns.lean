import GemFi.OutOfOrderValues
import GemFi.Outcomes

/-!
Runs of the out-of-order core. The scoreboard holds back an instruction until its sources are written,
so that in whatever order instructions execute, the committed registers are those of the instructions
run in order. No assertion of the stages fails, and what is in flight can always be completed.
-/

namespace GemFi.OutOfOrderRuns

open Outcomes (assert assert_ok)
open Transitions RegisterRename RegisterConservation FreeRegisters OutOfOrder OutOfOrderRenaming OutOfOrderValues

variable {Value : Type} {cpu : Cpu} {start : Arch Value} {s after : State cpu Value} {seqNum done squashed i : ℕ}

section Definitions

/-- The reorder buffer in its order, and the scoreboard beside it: a register is not ready while the
instruction that has taken it is not written back. -/
structure Placed (s : State cpu Value) : Prop where
  increasing : s.rob.Pairwise (· < ·)
  below : ∀ i ∈ s.rob, i < s.globalSeqNum
  standing : ∀ i ∈ s.rob, (s.insts i).squashed = false
  written : ∀ i ∈ s.rob, (s.insts i).canCommit = true → (s.insts i).executed = true
  zeroReady : s.scoreboard cpu.isa.zeroReg = true
  unready : ∀ i ∈ s.rob, (s.insts i).canCommit = false → ∀ p ∈ fresh (s.insts i), s.scoreboard p = false
  awaited : ∀ p, s.scoreboard p = false →
    p ∈ freed s.rename ∨ ∃ i ∈ s.rob, (s.insts i).canCommit = false ∧ p ∈ fresh (s.insts i)

structure Sound (start : Arch Value) (s : State cpu Value) : Prop where
  placed : Placed s
  tracked : Tracked s
  filled : ∃ expected, Valued start expected s ∧ Filled expected s

end Definitions

/-! ## Steps -/

section Steps

/-- Sources that the scoreboard has as ready are of instructions that are executed. -/
theorem Placed.produced (placed : Placed s) {p : PhysRegIndex} (ready : s.scoreboard p = true) (inRob : i ∈ s.rob)
    (taken : p ∈ fresh (s.insts i)) : (s.insts i).executed = true := by
  cases written : (s.insts i).canCommit with
  | true => exact placed.written i inRob written
  | false => exact absurd ((placed.unready i inRob written p taken).symm.trans ready) nofun

theorem Placed.notIn (placed : Placed s) (later : s.globalSeqNum ≤ seqNum) :
    seqNum ∉ s.rob := fun member =>
  absurd (placed.below seqNum member) (Nat.not_lt_of_le later)

theorem Placed.renamed {inst : StaticInst cpu.isa Value} {dyn : DynInst cpu.isa Value} {rename : RegisterRename.State}
    (placed : Placed s) (tracked : Tracked s) (later : s.globalSeqNum ≤ seqNum)
    (renamed : RenamedInst s seqNum inst dyn rename after) : Placed after := by
  have notIn := placed.notIn later
  have trackedAfter := renamed.tracked tracked notIn
  have rob : after.rob = s.rob ++ [seqNum] := by rw [renamed.state]
  have next : after.globalSeqNum = seqNum + 1 := by rw [renamed.state]
  have scoreboard :
      after.scoreboard = fun p => if p ∈ fresh dyn then false else s.scoreboard p := by
    rw [renamed.state]
  have inRob : seqNum ∈ after.rob := rob ▸ List.mem_append_right _ (List.mem_singleton_self seqNum)
  have others (i : ℕ) (member : i ∈ s.rob) : after.insts i = s.insts i :=
    renamed.insts_of_ne (ne_of_mem_of_not_mem member notIn)
  have cases_rob (P : ℕ → Prop) (old : ∀ i ∈ s.rob, P i) (new : P seqNum) :
      ∀ i ∈ after.rob, P i := by
    intro i member
    rw [rob] at member
    obtain member | isNew := List.mem_append.mp member
    · exact old i member
    · exact List.mem_singleton.mp isNew ▸ new
  refine ⟨?_, ?_, ?_, ?_, ?_, ?_, ?_⟩
  · rw [rob]
    refine List.pairwise_append.mpr ⟨placed.increasing, List.pairwise_singleton _ _, fun i member j isNew => ?_⟩
    rw [List.mem_singleton.mp isNew]
    exact Nat.lt_of_lt_of_le (placed.below i member) later
  · rw [next]
    exact cases_rob _ (fun i member => Nat.lt_succ_of_lt (Nat.lt_of_lt_of_le (placed.below i member) later))
      (Nat.lt_succ_self seqNum)
  · refine cases_rob _ (fun i member => ?_) ?_
    · rw [others i member]
      exact placed.standing i member
    · rw [renamed.insts_self]
      exact renamed.squashed
  · refine cases_rob _ (fun i member => ?_) ?_
    · rw [others i member]
      exact placed.written i member
    · rw [renamed.insts_self, renamed.canCommit]
      exact nofun
  · have notTaken := trackedAfter.zero_not_fresh inRob
    rw [renamed.insts_self] at notTaken
    rw [scoreboard]
    exact (if_neg notTaken).trans placed.zeroReady
  · rw [scoreboard]
    refine cases_rob _ (fun i member waiting p taken => ?_) ?_
    · rw [others i member] at waiting taken
      change (if p ∈ fresh dyn then false else s.scoreboard p) = false
      rw [placed.unready i member waiting p taken, ite_self]
    · rw [renamed.insts_self]
      exact fun _ p taken => if_pos taken
  · intro p unready
    rw [scoreboard] at unready
    by_cases taken : p ∈ fresh dyn
    · refine .inr ⟨seqNum, inRob, ?_⟩
      rw [renamed.insts_self]
      exact ⟨renamed.canCommit, taken⟩
    · obtain free | ⟨i, member, waiting, holds⟩ := placed.awaited p ((if_neg taken).symm.trans unready)
      · exact .inl (((renamed.freed_iff tracked notIn).mp free).resolve_right taken)
      · refine .inr ⟨i, rob ▸ List.mem_append_left _ member, ?_⟩
        rw [others i member]
        exact ⟨waiting, holds⟩

/-- A step that leaves the reorder buffer, and its instructions up to what they have done, as they are. -/
theorem Placed.congr (placed : Placed s) (sameRob : after.rob = s.rob) (sameNum : after.globalSeqNum = s.globalSeqNum)
    (sameRename : after.rename = s.rename)
    (same : ∀ i ∈ s.rob, (after.insts i).dests = (s.insts i).dests ∧ (after.insts i).squashed = (s.insts i).squashed)
    (written : ∀ i ∈ s.rob, (after.insts i).canCommit = true → (after.insts i).executed = true)
    (scoreboard : ∀ p, after.scoreboard p = false ↔ s.scoreboard p = false ∧
      ∀ i ∈ s.rob, (after.insts i).canCommit = true → (s.insts i).canCommit = false → p ∉ fresh (s.insts i))
    (waiting : ∀ i ∈ s.rob, (after.insts i).canCommit = false → (s.insts i).canCommit = false)
    (tracked : Tracked s) : Placed after := by
  have sameFresh (i : ℕ) (member : i ∈ s.rob) : fresh (after.insts i) = fresh (s.insts i) := by
    rw [fresh, (same i member).1]
    rfl
  refine ⟨sameRob ▸ placed.increasing, ?_, ?_, ?_, ?_, ?_, ?_⟩
  · rw [sameRob, sameNum]
    exact placed.below
  · rw [sameRob]
    exact fun i member => (same i member).2.trans (placed.standing i member)
  · rw [sameRob]
    exact written
  · exact Bool.of_not_eq_false fun unready =>
      absurd (((scoreboard _).mp unready).1.symm.trans placed.zeroReady) Bool.false_ne_true
  · rw [sameRob]
    intro i member notWritten p taken
    rw [sameFresh i member] at taken
    refine (scoreboard p).mpr ⟨placed.unready i member (waiting i member notWritten) p taken, ?_⟩
    intro j other now _ also
    rw [tracked.fresh_unique member other taken also, now] at notWritten
    exact absurd notWritten.symm Bool.false_ne_true
  · intro p unready
    obtain ⟨wasUnready, untouched⟩ := (scoreboard p).mp unready
    rw [sameRename, sameRob]
    refine (placed.awaited p wasUnready).imp_right ?_
    rintro ⟨i, member, wasWaiting, taken⟩
    refine ⟨i, member, Bool.eq_false_iff.mpr fun now => untouched i member now wasWaiting taken, ?_⟩
    rwa [sameFresh i member]

theorem Placed.executeInst_eq (placed : Placed s) (inRob : i ∈ s.rob) :
    s.executeInst i = { s with
      insts := Function.update s.insts i { s.insts i with executed := true }
      regFile := State.execute (s.insts i) s.regFile } := by
  have stands : ¬(s.insts i).squashed = true := by
    rw [placed.standing i inRob]
    exact nofun
  exact if_neg stands

theorem Sound.execute (sound : Sound start s) (ready : s.Ready (.execute i)) :
    Sound start (s.executeInst i) := by
  obtain ⟨placed, tracked, expected, valued, filled⟩ := sound
  obtain ⟨fresh_exec, isSquashed | ⟨inRob, sources⟩⟩ := ready
  · have away : i ∉ s.rob := fun member => absurd (isSquashed.symm.trans (placed.standing i member)) nofun
    have state : s.executeInst i = { s with
        insts := Function.update s.insts i { s.insts i with executed := true, canCommit := true } } := if_pos isSquashed
    have others (j : ℕ) (member : j ∈ s.rob) : (s.executeInst i).insts j = s.insts j := by
      rw [state]
      exact Function.update_of_ne (ne_of_mem_of_not_mem member away) _ _
    have rob : (s.executeInst i).rob = s.rob := by rw [state]
    have rename : (s.executeInst i).rename = s.rename := by rw [state]
    refine ⟨?_, ?_, expected, ?_, ?_⟩
    · refine placed.congr rob (by rw [state]) rename (fun j member => ?_) (fun j member => ?_) (fun p => ?_)
        (fun j member => ?_) tracked
      · rw [others j member]
        exact ⟨rfl, rfl⟩
      · rw [others j member]
        exact placed.written j member
      · rw [state]
        refine ⟨fun unready => ⟨unready, fun j member now wasWaiting => ?_⟩, And.left⟩
        rw [← state, others j member, wasWaiting] at now
        exact absurd now nofun
      · rw [others j member]
        exact id
    · refine tracked.congr rename rob (by rw [state]) fun j member => ?_
      rw [others j member]
      exact ⟨rfl, rfl, rfl⟩
    · refine valued.congr rename rob (by rw [state]) fun j member => ?_
      rw [others j member]
      exact ⟨rfl, rfl⟩
    · refine filled.congr rename rob (by rw [state]) fun j member => ?_
      rw [others j member]
      exact ⟨rfl, rfl⟩
  · have state := placed.executeInst_eq inRob
    have own : (s.executeInst i).insts i = { s.insts i with executed := true } := by
      rw [state]
      exact Function.update_self _ _ _
    have others (j : ℕ) (differs : j ≠ i) : (s.executeInst i).insts j = s.insts j := by
      rw [state]
      exact Function.update_of_ne differs _ _
    have kept (j : ℕ) : ((s.executeInst i).insts j).staticInst = (s.insts j).staticInst ∧
        ((s.executeInst i).insts j).srcRegs = (s.insts j).srcRegs ∧
        ((s.executeInst i).insts j).dests = (s.insts j).dests ∧
        ((s.executeInst i).insts j).squashed = (s.insts j).squashed ∧
        ((s.executeInst i).insts j).canCommit = (s.insts j).canCommit := by
      by_cases here : j = i
      · rw [here, own]
        exact ⟨rfl, rfl, rfl, rfl, rfl⟩
      · rw [others j here]
        exact ⟨rfl, rfl, rfl, rfl, rfl⟩
    have rob : (s.executeInst i).rob = s.rob := by rw [state]
    have rename : (s.executeInst i).rename = s.rename := by rw [state]
    refine ⟨?_, ?_, expected, ?_, ?_⟩
    · refine placed.congr rob (by rw [state]) rename (fun j _ => ⟨(kept j).2.2.1, (kept j).2.2.2.1⟩)
        (fun j member now => ?_) (fun p => ?_) (fun j _ => (kept j).2.2.2.2 ▸ id) tracked
      · by_cases here : j = i
        · rw [here, own]
        · rw [others j here] at now ⊢
          exact placed.written j member now
      · have sameBoard : (s.executeInst i).scoreboard = s.scoreboard := by rw [state]
        rw [sameBoard]
        refine ⟨fun unready => ⟨unready, fun j _ now wasWaiting => ?_⟩, And.left⟩
        rw [(kept j).2.2.2.2, wasWaiting] at now
        exact absurd now nofun
    · exact tracked.congr rename rob (by rw [state]) fun j _ => ⟨(kept j).1, (kept j).2.1, (kept j).2.2.1⟩
    · exact valued.congr rename rob (by rw [state]) fun j _ => ⟨(kept j).1, (kept j).2.2.1⟩
    · exact filled.execute valued tracked inRob
        (fun p source j member taken => placed.produced (sources p source) member taken) rename rob (by rw [state])
        (fun j _ => (kept j).2.2.1) fun j _ differs => by rw [others j differs]

theorem setRegs {dests : List PhysRegIndex} (inFile : ∀ p ∈ dests, p < cpu.file.totalNumRegs)
    (scoreboard : PhysRegIndex → Bool) :
    dests.foldlM (setReg cpu) scoreboard = some fun p => if p ∈ dests then true else scoreboard p := by
  induction dests generalizing scoreboard with
  | nil => simp
  | cons dest rest ih =>
      have below := inFile dest List.mem_cons_self
      have first : setReg cpu scoreboard dest = some (Function.update scoreboard dest true) := by
        rw [setReg, if_pos (Nat.lt_add_right _ below), if_neg (Nat.not_le_of_lt below)]
      rw [List.foldlM_cons, first, Option.bind_eq_bind, Option.bind_some,
        ih fun p member => inFile p (List.mem_cons_of_mem dest member)]
      congr 1
      funext p
      by_cases here : p = dest
      · simp [here]
      · simp [here]

theorem Placed.unready_dest (placed : Placed s) (tracked : Tracked s) {p : PhysRegIndex} (inRob : i ∈ s.rob)
    (isDest : p ∈ (s.insts i).destRegs) (unready : s.scoreboard p = false) :
    p ∈ fresh (s.insts i) ∧ (s.insts i).canCommit = false := by
  obtain rfl | taken := tracked.dest_cases inRob isDest
  · exact absurd (placed.zeroReady.symm.trans unready) nofun
  · refine ⟨taken, ?_⟩
    obtain free | ⟨j, member, waiting, also⟩ := placed.awaited p unready
    · exact absurd free (tracked.fresh_live inRob taken).1
    · rwa [tracked.fresh_unique inRob member taken also]

theorem Sound.writeback (sound : Sound start s) (ready : s.Ready (.writeback i)) :
    ∃ after, s.writebackInst i = some after ∧ Sound start after ∧
      after.rob = s.rob ∧ after.retired = s.retired ∧
      ∀ j, (after.insts j).staticInst = (s.insts j).staticInst ∧ (after.insts j).executed = (s.insts j).executed ∧
        ((after.insts j).canCommit = true ↔ (s.insts j).canCommit = true ∨ j = i ∧ (s.insts i).squashed = false) := by
  obtain ⟨placed, tracked, expected, valued, filled⟩ := sound
  cases isSquashed : (s.insts i).squashed with
  | true =>
      refine ⟨s, if_pos isSquashed, ⟨placed, tracked, expected, valued, filled⟩, rfl, rfl, fun j => ⟨rfl, rfl, ?_⟩⟩
      simp
  | false =>
      obtain wrong | ⟨inRob, executed⟩ := ready
      · exact absurd (isSquashed.symm.trans wrong) nofun
      have inFile (p : PhysRegIndex) (member : p ∈ (s.insts i).destRegs) :
          p < cpu.file.totalNumRegs := by
        obtain rfl | taken := tracked.dest_cases inRob member
        · have live := (tracked.mapBefore_live (List.append_nil s.rob).symm tracked.zeroMapped).2
          rwa [mapBefore_nil, tracked.zero] at live
        · exact (tracked.fresh_live inRob taken).2
      obtain ⟨after, state⟩ : ∃ after : State cpu Value, after = { s with
          scoreboard := fun p => if p ∈ (s.insts i).destRegs then true else s.scoreboard p
          insts := Function.update s.insts i { s.insts i with canCommit := true } } := ⟨_, rfl⟩
      have own : after.insts i = { s.insts i with canCommit := true } := by
        rw [state]
        exact Function.update_self _ _ _
      have others (j : ℕ) (differs : j ≠ i) : after.insts j = s.insts j := by
        rw [state]
        exact Function.update_of_ne differs _ _
      have kept (j : ℕ) : (after.insts j).staticInst = (s.insts j).staticInst ∧
          (after.insts j).srcRegs = (s.insts j).srcRegs ∧ (after.insts j).dests = (s.insts j).dests ∧
          (after.insts j).squashed = (s.insts j).squashed ∧ (after.insts j).executed = (s.insts j).executed := by
        by_cases here : j = i
        · rw [here, own]
          exact ⟨rfl, rfl, rfl, rfl, rfl⟩
        · rw [others j here]
          exact ⟨rfl, rfl, rfl, rfl, rfl⟩
      have marked (j : ℕ) :
          (after.insts j).canCommit = true ↔ (s.insts j).canCommit = true ∨ j = i := by
        by_cases here : j = i
        · rw [here, own]
          exact iff_of_true rfl (.inr rfl)
        · rw [others j here]
          exact (or_iff_left here).symm
      have rob : after.rob = s.rob := by rw [state]
      have rename : after.rename = s.rename := by rw [state]
      refine ⟨after, ?_, ⟨?_, ?_, expected, ?_, ?_⟩, rob, by rw [state],
        fun j => ⟨(kept j).1, (kept j).2.2.2.2, ?_⟩⟩
      · have stands : ¬(s.insts i).squashed = true := by
          rw [isSquashed]
          exact nofun
        rw [State.writebackInst, if_neg stands, if_pos executed, setRegs inFile, Option.map_some, state]
      · refine placed.congr rob (by rw [state]) rename (fun j _ => ⟨(kept j).2.2.1, (kept j).2.2.2.1⟩)
          (fun j member now => ?_) (fun p => ?_) (fun j _ waiting => ?_) tracked
        · rw [(kept j).2.2.2.2]
          obtain was | rfl := (marked j).mp now
          · exact placed.written j member was
          · exact executed
        · have board : after.scoreboard p = if p ∈ (s.insts i).destRegs then true else s.scoreboard p := by rw [state]
          rw [board]
          split
          · next isDest =>
              refine iff_of_false nofun ?_
              rintro ⟨unready, untouched⟩
              obtain ⟨taken, wasWaiting⟩ := placed.unready_dest tracked inRob isDest unready
              exact untouched i inRob ((marked i).mpr (.inr rfl)) wasWaiting taken
          · next notDest =>
              refine ⟨fun unready => ⟨unready, fun j _ now wasWaiting taken => ?_⟩, And.left⟩
              obtain was | rfl := (marked j).mp now
              · exact absurd (was.symm.trans wasWaiting) nofun
              · exact notDest (fresh_sub_dests taken)
        · exact Bool.eq_false_iff.mpr fun was => absurd (((marked j).mpr (.inl was)).symm.trans waiting) nofun
      · exact tracked.congr rename rob (by rw [state]) fun j _ => ⟨(kept j).1, (kept j).2.1, (kept j).2.2.1⟩
      · exact valued.congr rename rob (by rw [state]) fun j _ => ⟨(kept j).1, (kept j).2.2.1⟩
      · exact filled.congr rename rob (by rw [state]) fun j _ => ⟨(kept j).2.2.1, (kept j).2.2.2.2⟩
      · rw [marked]
        simp

theorem Sound.commit (sound : Sound start s) (ready : s.Ready (.commit done)) :
    ∃ after, s.commit done = some after ∧ Sound start after ∧
      after.rob = (s.rob.dropWhile fun i => decide (i ≤ done)) ∧
      after.retired = s.retired ++ (s.rob.takeWhile fun i => decide (i ≤ done)).map fun i => (s.insts i).staticInst := by
  obtain ⟨placed, tracked, expected, valued, filled⟩ := sound
  obtain ⟨front, back, split, older, younger, taken, dropped, _⟩ := split_at placed.increasing done
  obtain ⟨rename, ran, map, keeps⟩ := tracked.commit split older younger
  obtain ⟨after, state⟩ : ∃ after : State cpu Value, after = { s with
      commitRenameMap := mapBefore s back
      rename := rename
      rob := back
      retired := s.retired ++ front.map fun i => (s.insts i).staticInst } := ⟨_, rfl⟩
  have rob : after.rob = back := by rw [state]
  have insts : after.insts = s.insts := by rw [state]
  have isRename : after.rename = rename := by rw [state]
  have sameMap : after.rename.map = s.rename.map := by rw [isRename, map]
  have trackedAfter : Tracked after := keeps after isRename rob insts (by rw [state])
  have inRob (i : ℕ) (member : i ∈ back) : i ∈ s.rob := split ▸ List.mem_append_right front member
  have written (i : ℕ) (member : i ∈ front) : (s.insts i).canCommit = true :=
    ready i (split ▸ List.mem_append_left back member) (older i member)
  refine ⟨after, ran.trans (congrArg some state.symm), ⟨⟨?_, ?_, ?_, ?_, ?_, ?_, ?_⟩, trackedAfter, expected, ?_, ?_⟩,
    rob.trans dropped.symm, ?_⟩
  · rw [rob]
    have ordered := placed.increasing
    rw [split] at ordered
    exact (List.pairwise_append.mp ordered).2.1
  · rw [rob, state]
    exact fun i member => placed.below i (inRob i member)
  · rw [rob, insts]
    exact fun i member => placed.standing i (inRob i member)
  · rw [rob, insts]
    exact fun i member => placed.written i (inRob i member)
  · rw [state]
    exact placed.zeroReady
  · rw [rob, insts, state]
    exact fun i member => placed.unready i (inRob i member)
  · have board : after.scoreboard = s.scoreboard := by rw [state]
    rw [rob, insts, board]
    intro p unready
    obtain free | ⟨i, member, waiting, holds⟩ := placed.awaited p unready
    · exact .inl (freed_commit tracked split trackedAfter rob insts sameMap free)
    · rw [split] at member
      obtain inFront | inBack := List.mem_append.mp member
      · exact absurd (waiting.symm.trans (written i inFront)) nofun
      · exact .inr ⟨i, inBack, waiting, holds⟩
  · exact valued.commit split rob sameMap insts (by rw [state])
  · refine filled.commit tracked split trackedAfter rob insts sameMap (by rw [state]) fun i member => ?_
    exact placed.written i (split ▸ List.mem_append_left back member) (written i member)
  · rw [taken, state]

theorem Sound.squash (sound : Sound start s) (squashed : ℕ) :
    ∃ after, s.squash squashed = some after ∧ Sound start after := by
  obtain ⟨placed, tracked, expected, valued, filled⟩ := sound
  obtain ⟨front, back, split, older, younger, _, _, filtered⟩ := split_at placed.increasing squashed
  obtain ⟨rename, ran, conserved, history, map⟩ := doSquash_split tracked split older younger
  obtain ⟨after, state⟩ : ∃ after : State cpu Value, after = { s with
      insts := fun seqNum =>
        if seqNum ∈ s.rob ∧ squashed < seqNum then { s.insts seqNum with squashed := true } else s.insts seqNum
      rename := rename
      rob := front } := ⟨_, rfl⟩
  have rob : after.rob = front := by rw [state]
  have isRename : after.rename = rename := by rw [state]
  have isMap : after.rename.map = mapBefore s back := by rw [isRename, map]
  have others (i : ℕ) (member : i ∈ front) : after.insts i = s.insts i := by
    rw [state]
    exact if_neg fun both => absurd both.2 (Nat.not_lt_of_le (older i member))
  have inRob (i : ℕ) (member : i ∈ front) : i ∈ s.rob := split ▸ List.mem_append_left back member
  have trackedAfter : Tracked after := by
    refine tracked.squash split rob (isRename ▸ conserved) (isRename ▸ history) isMap (by rw [state]) fun i member => ?_
    rw [others i member]
    exact ⟨rfl, rfl, rfl⟩
  refine ⟨after, ?_, ⟨⟨?_, ?_, ?_, ?_, ?_, ?_, ?_⟩, trackedAfter, expected, ?_, ?_⟩⟩
  · rw [State.squash, ran, state, filtered]
    rfl
  · rw [rob]
    have ordered := placed.increasing
    rw [split] at ordered
    exact (List.pairwise_append.mp ordered).1
  · rw [rob, state]
    exact fun i member => placed.below i (inRob i member)
  · rw [rob]
    intro i member
    rw [others i member]
    exact placed.standing i (inRob i member)
  · rw [rob]
    intro i member
    rw [others i member]
    exact placed.written i (inRob i member)
  · rw [state]
    exact placed.zeroReady
  · have board : after.scoreboard = s.scoreboard := by rw [state]
    rw [rob, board]
    intro i member
    rw [others i member]
    exact placed.unready i (inRob i member)
  · have board : after.scoreboard = s.scoreboard := by rw [state]
    rw [rob, board]
    intro p unready
    have freedAfter := freed_squash_iff (p := p) tracked split trackedAfter rob isMap
      fun i member => by rw [others i member]
    obtain free | ⟨i, member, waiting, holds⟩ := placed.awaited p unready
    · exact .inl (freedAfter.mpr (.inl free))
    · rw [split] at member
      obtain inFront | inBack := List.mem_append.mp member
      · refine .inr ⟨i, inFront, ?_⟩
        rw [others i inFront]
        exact ⟨waiting, holds⟩
      · exact .inl (freedAfter.mpr (.inr ⟨i, inBack, holds⟩))
  · refine valued.squash split rob isMap (by rw [state]) fun i member => ?_
    rw [others i member]
    exact ⟨rfl, rfl⟩
  · refine filled.squash tracked split trackedAfter rob isMap (by rw [state]) fun i member => ?_
    rw [others i member]
    exact ⟨rfl, rfl⟩

theorem Sound.rename {inst : StaticInst cpu.isa Value} (sound : Sound start s) (ready : s.Ready (.rename seqNum inst)) :
    ∃ after, s.renameInst seqNum inst = some after ∧ Sound start after := by
  obtain ⟨placed, tracked, expected, valued, filled⟩ := sound
  obtain ⟨later, renamable, enough⟩ := ready
  have notIn := placed.notIn later
  obtain ⟨after, dyn, rename, ran, renamed⟩ := renameInst_spec tracked placed.zeroReady renamable enough seqNum
  obtain ⟨valuedAfter, untouched⟩ := valued.renamed tracked notIn renamed
  exact ⟨after, ran, placed.renamed tracked later renamed, renamed.tracked tracked notIn, _, valuedAfter,
    filled.renamed tracked notIn renamed untouched⟩

/-- A stage that has what it waits for does its work without a failed assertion. -/
theorem step_sound (sound : Sound start s) {action : Action cpu.isa Value} (ready : s.Ready action) :
    ∃ after, s.step action = some after ∧ Sound start after := by
  cases action with
  | rename seqNum inst => exact sound.rename ready
  | execute i => exact ⟨_, rfl, sound.execute ready⟩
  | writeback i =>
      obtain ⟨after, ran, soundAfter, _⟩ := sound.writeback ready
      exact ⟨after, ran, soundAfter⟩
  | commit done =>
      obtain ⟨after, ran, soundAfter, _⟩ := sound.commit ready
      exact ⟨after, ran, soundAfter⟩
  | squash squashed => exact sound.squash squashed

end Steps

/-! ## Runs -/

section Constructor

variable {isa : Isa} {file : PhysRegFile} {rename : RegisterRename.State}

theorem mapped_integers {n : ℕ}
    (filled : ((List.range n).map (Prod.mk RegClass.int)).foldlM (mapReg file) (initFreeList file) = .ok rename) :
    (∀ r < n, rename.map (.int, r) = r) ∧ rename.free .int = List.range' n (file.baseFloatRegIndex - n) := by
  induction n generalizing rename with
  | zero =>
      cases filled
      exact ⟨nofun, rfl⟩
  | succ n ih =>
      rw [List.range_succ, List.map_append, List.foldlM_append] at filled
      cases before : ((List.range n).map (Prod.mk RegClass.int)).foldlM (mapReg file) (initFreeList file) with
      | error stop =>
          rw [before] at filled
          cases filled
      | ok earlier =>
          obtain ⟨mapped, free⟩ := ih before
          rw [before] at filled
          change (mapReg file earlier (.int, n) >>= pure) = .ok rename at filled
          rw [bind_pure, mapReg, RegisterRename.getReg, free] at filled
          cases left : file.baseFloatRegIndex - n with
          | zero =>
              rw [left] at filled
              cases filled
          | succ more =>
              rw [left, List.range'_succ] at filled
              have isPhys : file.isPhysReg .int n = true := by
                simp only [PhysRegFile.isPhysReg, PhysRegFile.isIntPhysReg, decide_eq_true_eq]
                omega
              change (assert (file.isPhysReg .int n) >>= fun _ => Except.ok _) = _ at filled
              rw [assert_ok isPhys] at filled
              cases filled
              refine ⟨fun r bound => ?_, ?_⟩
              · obtain below | rfl := Nat.lt_succ_iff_lt_or_eq.mp bound
                · have differs : (RegClass.int, r) ≠ (RegClass.int, n) := fun same => below.ne (congrArg Prod.snd same)
                  exact (Function.update_of_ne differs _ _).trans (mapped r below)
                · exact Function.update_self _ _ _
              · have fewer : file.baseFloatRegIndex - (n + 1) = more := by omega
                rw [fewer]
                change Function.update earlier.free RegClass.int (List.range' (n + 1) more) RegClass.int = _
                exact Function.update_self _ _ _

theorem constructed_zero (built : constructed isa file = .ok rename) (inRange : isa.zeroReg < isa.numIntRegs) :
    rename.map (.int, isa.zeroReg) = isa.zeroReg := by
  rw [constructed, archRegs, List.flatMap_cons, List.foldlM_append] at built
  cases integers : ((List.range (isa.numRegs .int)).map (Prod.mk RegClass.int)).foldlM (mapReg file) (initFreeList file) with
  | error stop =>
      rw [integers] at built
      cases built
  | ok earlier =>
      rw [integers] at built
      have loop : Outcomes.Ends (fun _ => True)
          (fun s => s.map (.int, isa.zeroReg) = isa.zeroReg)
          (([RegClass.float, .cc].flatMap fun c => (List.range (isa.numRegs c)).map (Prod.mk c)).foldlM
            (mapReg file) earlier) := by
        refine (Outcomes.ends_foldlM
          (fun left s => (∀ arch ∈ left, arch.1 ≠ .int) ∧ s.map (.int, isa.zeroReg) = isa.zeroReg)
          ?_ _ _ ⟨?_, (mapped_integers integers).1 isa.zeroReg inRange⟩).mono fun _ => And.right
        · rintro arch left s ⟨others, same⟩
          unfold mapReg RegisterRename.getReg
          split
          · trivial
          · refine (ends_assert _).bind fun _ _ => ⟨fun a member => others a (List.mem_cons_of_mem arch member), ?_⟩
            have differs : (RegClass.int, isa.zeroReg) ≠ arch := fun here =>
              others arch List.mem_cons_self (congrArg Prod.fst here).symm
            exact (Function.update_of_ne differs _ _).trans same
        · intro arch member
          obtain ⟨c, isClass, member⟩ := List.mem_flatMap.mp member
          obtain ⟨r, _, rfl⟩ := List.mem_map.mp member
          rintro rfl
          simp at isClass
      exact loop.of_ok built

end Constructor

section Runs

variable {rename : RegisterRename.State} {regFile : PhysRegIndex → Value} {insts : ℕ → DynInst cpu.isa Value}

theorem init_sound (partitioned : Partitioned cpu.isa cpu.file rename)
    (inRange : cpu.isa.zeroReg < cpu.isa.numIntRegs) (zero : rename.map (.int, cpu.isa.zeroReg) = cpu.isa.zeroReg) :
    Sound (fun reg => regFile (rename.map reg)) (State.init cpu rename regFile insts) := by
  refine ⟨⟨List.Pairwise.nil, nofun, nofun, nofun, rfl, nofun, nofun⟩, ?_, regFile, ⟨?_, ?_⟩, fun _ _ _ => rfl⟩
  · refine ⟨partitioned.conserved, mem_archRegs.mpr inRange, zero, partitioned.history, nofun, fun front i back split => ?_, rfl⟩
    exact absurd split.symm (List.append_ne_nil_of_right_ne_nil front nofun)
  · intro front back split reg _
    obtain ⟨rfl, rfl⟩ := List.append_eq_nil_iff.mp split.symm
    rfl
  · intro front i back split
    exact absurd split.symm (List.append_ne_nil_of_right_ne_nil front nofun)

theorem run_sound {actions : List (Action cpu.isa Value)} (sound : Sound start s)
    (ready : EachStep State.step State.Ready actions s) (ran : run State.step actions s = some after) :
    Sound start after := by
  refine run_preserves (fun s action next sound ready stepped => ?_) actions s after sound ready ran
  obtain ⟨other, again, soundNext⟩ := step_sound sound ready
  cases again.symm.trans stepped
  exact soundNext

theorem constructed_sound {actions : List (Action cpu.isa Value)} (built : constructed cpu.isa cpu.file = .ok rename)
    (inRange : cpu.isa.zeroReg < cpu.isa.numIntRegs)
    (ready : EachStep State.step State.Ready actions (State.init cpu rename regFile insts))
    (ran : run State.step actions (State.init cpu rename regFile insts) = some s) :
    Sound (fun reg => regFile (rename.map reg)) s :=
  run_sound (init_sound (constructed_partitioned built) inRange (constructed_zero built inRange)) ready ran

/-- Through the rename map in front of any instruction, once those before it are executed, the
registers are those of the instructions run in order. -/
theorem Sound.registers (sound : Sound start s) {front back : List ℕ} (split : s.rob = front ++ back)
    (executed : ∀ i ∈ front, (s.insts i).executed = true) {reg : RegClass × RegIndex} (inArch : reg ∈ archRegs cpu.isa) :
    s.regFile (mapBefore s back reg) = archAfter s start front reg := by
  obtain ⟨placed, tracked, expected, valued, filled⟩ := sound
  rw [← valued.mapped front back split reg inArch]
  refine filled _ (tracked.mapBefore_live split inArch).1 fun i member taken => ?_
  rw [split] at member
  obtain inFront | inBack := List.mem_append.mp member
  · exact executed i inFront
  · obtain ⟨older, younger, rfl⟩ := List.append_of_mem inBack
    exact absurd rfl (tracked.fresh_not_mapped older (by rw [split, List.append_assoc]) taken inArch)

end Runs

/-! ## Completion -/

section Completion

theorem Sound.sources_ready (sound : Sound start s) {front back : List ℕ} (split : s.rob = front ++ i :: back)
    (written : ∀ j ∈ front, (s.insts j).canCommit = true) :
    ∀ p ∈ (s.insts i).srcRegs, s.scoreboard p = true := by
  intro p source
  have inRob : i ∈ s.rob := split ▸ List.mem_append_right front List.mem_cons_self
  refine Bool.of_not_eq_false fun unready => ?_
  obtain free | ⟨j, member, waiting, taken⟩ := sound.placed.awaited p unready
  · exact (sound.tracked.source_live inRob source).1 free
  · rw [split] at member
    obtain inFront | inBack := List.mem_append.mp member
    · exact absurd (waiting.symm.trans (written j inFront)) nofun
    · obtain rfl | inBack := List.mem_cons.mp inBack
      · exact sound.tracked.fresh_not_source split taken (.inr rfl) source
      · obtain ⟨between, behind, rfl⟩ := List.append_of_mem inBack
        have later : s.rob = (front ++ i :: between) ++ j :: behind := by simp [split]
        exact sound.tracked.fresh_not_source later taken
          (.inl (List.mem_append_right front List.mem_cons_self)) source

def left (s : State cpu Value) : ℕ :=
  s.rob.length + s.rob.countP (fun i => (s.insts i).executed = false) +
    s.rob.countP (fun i => (s.insts i).canCommit = false)

theorem countP_lt {list : List ℕ} {p q : ℕ → Bool} (fewer : ∀ j ∈ list, q j = true → p j = true) (member : i ∈ list)
    (was : p i = true) (notNow : q i = false) : list.countP q < list.countP p := by
  obtain ⟨front, back, rfl⟩ := List.append_of_mem member
  have before : front.countP q ≤ front.countP p := List.countP_mono_left fun j member =>
    fewer j (List.mem_append_left _ member)
  have behind : back.countP q ≤ back.countP p := List.countP_mono_left fun j member =>
    fewer j (List.mem_append_right _ (List.mem_cons_of_mem i member))
  simp only [List.countP_append, List.countP_cons, was, notNow]
  simp
  omega

/-- Some stage can always go on with the oldest instruction that is not written back, or commit can. -/
theorem Sound.onward (sound : Sound start s) (some_left : s.rob ≠ []) :
    ∃ action after, s.Ready action ∧ s.step action = some after ∧ Sound start after ∧
      (after.retired ++ after.rob.map fun i => (after.insts i).staticInst) =
        (s.retired ++ s.rob.map fun i => (s.insts i).staticInst) ∧ left after < left s := by
  cases unwritten : s.rob.find? fun i => decide ((s.insts i).canCommit = false) with
  | none =>
      have ready : s.Ready (.commit s.globalSeqNum) := fun j member _ => by
        have written := List.find?_eq_none.mp unwritten j member
        simpa using written
      obtain ⟨after, ran, soundAfter, rob, retired⟩ := sound.commit ready
      have within : ∀ j ∈ s.rob, decide (j ≤ s.globalSeqNum) = true := fun j member =>
        decide_eq_true (Nat.le_of_lt (sound.placed.below j member))
      rw [List.dropWhile_eq_nil_iff.mpr within] at rob
      rw [List.takeWhile_eq_self_iff.mpr within] at retired
      refine ⟨_, after, ready, ran, soundAfter, ?_, ?_⟩
      · rw [rob, retired, List.map_nil, List.append_nil]
      · have some_length := List.length_pos_iff.mpr some_left
        simp only [left, rob, List.length_nil, List.countP_nil]
        omega
  | some i =>
      obtain ⟨waiting, front, back, split, older⟩ := List.find?_eq_some_iff_append.mp unwritten
      have notWritten : (s.insts i).canCommit = false := of_decide_eq_true waiting
      have written : ∀ j ∈ front, (s.insts j).canCommit = true := fun j member => by
        simpa using older j member
      have inRob : i ∈ s.rob := split ▸ List.mem_append_right front List.mem_cons_self
      cases executed : (s.insts i).executed with
      | true =>
          have ready : s.Ready (.writeback i) := .inr ⟨inRob, executed⟩
          obtain ⟨after, ran, soundAfter, rob, retired, same⟩ := sound.writeback ready
          refine ⟨_, after, ready, ran, soundAfter, ?_, ?_⟩
          · rw [rob, retired, List.map_congr_left fun j _ => (same j).1]
          · have waitingBefore (j : ℕ) (now : (after.insts j).canCommit = false) : (s.insts j).canCommit = false :=
              Bool.eq_false_iff.mpr fun was => absurd (((same j).2.2.mpr (.inl was)).symm.trans now) nofun
            have writtenNow : (after.insts i).canCommit = true :=
              (same i).2.2.mpr (.inr ⟨rfl, sound.placed.standing i inRob⟩)
            have fewer := countP_lt (p := fun j => decide ((s.insts j).canCommit = false))
              (q := fun j => decide ((after.insts j).canCommit = false))
              (fun j _ now => decide_eq_true (waitingBefore j (of_decide_eq_true now))) inRob waiting
              (by rw [writtenNow]; rfl)
            have equal : (s.rob.countP fun j => decide ((after.insts j).executed = false)) =
                s.rob.countP fun j => decide ((s.insts j).executed = false) := by
              simp only [(same _).2.1]
            simp only [left, rob, equal]
            omega
      | false =>
          have ready :
              s.Ready (.execute i) := ⟨executed, .inr ⟨inRob, sound.sources_ready split written⟩⟩
          have state := sound.placed.executeInst_eq inRob
          have own : (s.executeInst i).insts i = { s.insts i with executed := true } := by
            rw [state]
            exact Function.update_self _ _ _
          have others (j : ℕ) (differs : j ≠ i) : (s.executeInst i).insts j = s.insts j := by
            rw [state]
            exact Function.update_of_ne differs _ _
          have same (j : ℕ) : ((s.executeInst i).insts j).staticInst = (s.insts j).staticInst ∧
              ((s.executeInst i).insts j).canCommit = (s.insts j).canCommit := by
            by_cases here : j = i
            · rw [here, own]
              exact ⟨rfl, rfl⟩
            · rw [others j here]
              exact ⟨rfl, rfl⟩
          have rob : (s.executeInst i).rob = s.rob := by rw [state]
          have retired : (s.executeInst i).retired = s.retired := by rw [state]
          refine ⟨_, _, ready, rfl, sound.execute ready, ?_, ?_⟩
          · rw [rob, retired, List.map_congr_left fun j _ => (same j).1]
          · have fewer := countP_lt (p := fun j => decide ((s.insts j).executed = false))
              (q := fun j => decide (((s.executeInst i).insts j).executed = false))
              (fun j _ now => by
                by_cases here : j = i
                · rw [here]
                  exact decide_eq_true executed
                · rwa [others j here] at now) inRob (decide_eq_true executed) (by rw [own]; rfl)
            have equal :
                (s.rob.countP fun j => decide (((s.executeInst i).insts j).canCommit = false)) =
                s.rob.countP fun j => decide ((s.insts j).canCommit = false) := by
              simp only [(same _).2]
            simp only [left, rob, equal]
            omega

/-! ## Main results -/

variable {rename : RegisterRename.State} {regFile : PhysRegIndex → Value} {insts : ℕ → DynInst cpu.isa Value}
  {actions : List (Action cpu.isa Value)}

/-- In whatever order instructions execute, are squashed and are committed, the committed registers are
those of the retired instructions run in order. So are those in front of any instruction in flight,
once the instructions before it are executed. -/
theorem committed_registers (built : constructed cpu.isa cpu.file = .ok rename)
    (inRange : cpu.isa.zeroReg < cpu.isa.numIntRegs)
    (ready : EachStep State.step State.Ready actions (State.init cpu rename regFile insts))
    (ran : run State.step actions (State.init cpu rename regFile insts) = some s) :
    (∀ reg ∈ archRegs cpu.isa, s.regFile (s.commitRenameMap reg) =
      sequential s.retired (fun reg => regFile (rename.map reg)) reg) ∧
    ∀ front back, s.rob = front ++ back → (∀ i ∈ front, (s.insts i).executed = true) →
      ∀ reg ∈ archRegs cpu.isa, s.regFile (mapBefore s back reg) =
        sequential (s.retired ++ front.map fun i => (s.insts i).staticInst) (fun reg => regFile (rename.map reg)) reg := by
  have sound := constructed_sound built inRange ready ran
  refine ⟨fun reg inArch => ?_, fun front back split executed reg inArch => sound.registers split executed inArch⟩
  have none_before := sound.registers (List.nil_append s.rob).symm nofun inArch
  rw [← sound.tracked.committed, archAfter, List.map_nil, List.append_nil] at none_before
  exact none_before

def smallCpu : Cpu := ⟨smallIsa, smallFile, 3⟩

def addition (srcRegs destRegs : List RegIndex) (amount : ℕ) : StaticInst smallIsa ℕ :=
  -- an addition of `amount` to the sum of the sources
  ⟨smallContext, srcRegs, destRegs, fun values _ => values.foldl (· + ·) amount⟩

def smallSteps : List (Action smallCpu.isa ℕ) :=
  -- the second instruction runs before the first one, and the third is squashed while it is under
  -- way
  [.rename 1 (addition [0] [0] 5), .rename 2 (addition [1, 3] [1] 7), .rename 3 (addition [4] [4, 2] 9), .execute 2,
    .execute 3, .execute 1, .writeback 2, .squash 2, .writeback 3, .writeback 1, .rename 4 (addition [0, 1] [5] 0),
    .commit 2]

abbrev smallStart (rename : RegisterRename.State) : State smallCpu ℕ :=
  State.init smallCpu rename (fun p => p) fun _ => DynInst.create (addition [] [] 0)

theorem small_run : ∃ rename reached, constructed smallIsa smallFile = .ok rename ∧
    Transitions.Admissible State.step State.Ready smallSteps (smallStart rename) ∧
    run State.step smallSteps (smallStart rename) = some reached ∧ reached.rob = [4] ∧ reached.retired.length = 2 := by
  obtain ⟨rename, built⟩ : ∃ rename, constructed smallIsa smallFile = .ok rename := ⟨_, rfl⟩
  have shown :
      (run State.step smallSteps (smallStart rename)).map (fun s => (s.rob, s.retired.length)) =
      some ([4], 2) := by
    cases built
    rfl
  have ready : Transitions.Admissible State.step State.Ready smallSteps (smallStart rename) := by
    cases built
    exact admissible_of_admits (by decide +kernel)
  obtain ⟨reached, ran, facts⟩ := Option.map_eq_some_iff.mp shown
  obtain ⟨rob, retired⟩ := Prod.ext_iff.mp facts
  exact ⟨rename, reached, built, ready, ran, rob, retired⟩

theorem small_registers_committed :
    ∃ rename reached, run State.step smallSteps (smallStart rename) = some reached ∧
    reached.rob = [4] ∧ reached.retired.length = 2 ∧ ∀ reg ∈ archRegs smallIsa,
      reached.regFile (reached.commitRenameMap reg) = sequential reached.retired rename.map reg := by
  obtain ⟨rename, reached, built, ready, ran, rob, retired⟩ := small_run
  exact ⟨rename, reached, ran, rob, retired, (committed_registers built (by decide) ready.eachStep ran).1⟩

/-- What is in flight can be completed at any time: within three steps for each instruction all of them
are committed, in their order. -/
theorem comes_to_commit (built : constructed cpu.isa cpu.file = .ok rename)
    (inRange : cpu.isa.zeroReg < cpu.isa.numIntRegs)
    (ready : EachStep State.step State.Ready actions (State.init cpu rename regFile insts))
    (ran : run State.step actions (State.init cpu rename regFile insts) = some s) :
    ∃ later reached, Transitions.Admissible State.step State.Ready later s ∧ run State.step later s = some reached ∧
      later.length ≤ 3 * s.rob.length ∧ reached.rob = [] ∧
      reached.retired = (s.retired ++ s.rob.map fun i => (s.insts i).staticInst) ∧
      ∀ reg ∈ archRegs cpu.isa, reached.regFile (reached.commitRenameMap reg) =
        sequential reached.retired (fun reg => regFile (rename.map reg)) reg := by
  have sound := constructed_sound built inRange ready ran
  obtain ⟨later, reached, admissible, finished, ⟨soundReached, program⟩, empty, short⟩ :=
    exists_admissible_run
      (fun t => Sound (fun reg => regFile (rename.map reg)) t ∧
        (t.retired ++ t.rob.map fun i => (t.insts i).staticInst) =
          (s.retired ++ s.rob.map fun i => (s.insts i).staticInst))
      (fun t => t.rob = []) State.Ready left
      (by
        rintro t ⟨soundT, program⟩
        by_cases empty : t.rob = []
        · exact .inl empty
        · obtain ⟨action, next, met, stepped, soundNext, same, lower⟩ := soundT.onward empty
          exact .inr ⟨action, next, met, stepped, ⟨soundNext, same.trans program⟩, lower⟩)
      s ⟨sound, rfl⟩
  have bound : left s ≤ 3 * s.rob.length := by
    have first := List.countP_le_length (p := fun i => decide ((s.insts i).executed = false)) (l := s.rob)
    have second := List.countP_le_length (p := fun i => decide ((s.insts i).canCommit = false)) (l := s.rob)
    simp only [left]
    omega
  rw [empty, List.map_nil, List.append_nil] at program
  refine ⟨later, reached, admissible, finished, short.trans bound, empty, program, fun reg inArch => ?_⟩
  have none_before := soundReached.registers (List.nil_append reached.rob).symm nofun inArch
  rw [← soundReached.tracked.committed, archAfter, List.map_nil, List.append_nil] at none_before
  exact none_before

theorem small_run_comes_to_commit : ∃ rename s later reached,
    run State.step smallSteps (smallStart rename) = some s ∧ s.rob = [4] ∧
    run State.step later s = some reached ∧ later.length ≤ 3 ∧ reached.rob = [] := by
  obtain ⟨rename, s, built, ready, ran, rob, _⟩ := small_run
  obtain ⟨later, reached, _, finished, short, empty, _⟩ := comes_to_commit built (by decide) ready.eachStep ran
  rw [rob] at short
  exact ⟨rename, s, later, reached, ran, rob, finished, short, empty⟩

end Completion

end GemFi.OutOfOrderRuns
