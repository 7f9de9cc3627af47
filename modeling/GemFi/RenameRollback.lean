import GemFi.RegisterConservation

/-!
A squash takes the rename map back to what it was. Beside the run stands a ledger of the
instructions that are renamed and not squashed, the youngest first: what each of them put in
the history, the map right after it, and whether it is committed.
-/

namespace GemFi.RenameRollback

open UndoLogs Outcomes Transitions RegisterRename RegisterConservation

abbrev RenameMap := RegClass × RegIndex → PhysRegIndex

structure Record where
  seqNum : Nat
  entries : List RenameHistory
  after : RenameMap
  committed : Bool

section Ledgers

variable (isa : Isa) (file : PhysRegFile)

def enter (before after : State) (ledger : List Record) : Action isa → List Record
  -- what an action means for the ledger, from the states before and after it
  | .rename _ seqNum _ =>
      ⟨seqNum, after.history.take (after.history.length - before.history.length), after.map, false⟩ ::
        ledger
  | .commit done =>
      ledger.map fun record => { record with committed := record.committed || record.seqNum ≤ done }
  | .squash squashed => ledger.filter fun record => record.seqNum ≤ squashed

def traced (s : State × List Record) (action : Action isa) : Option (State × List Record) :=
  (step isa file s.1 action).map fun after => (after, enter isa s.1 after s.2 action)

def Disciplined (seqNums commits : List Nat) : List (Action isa) → Prop
  | [] => True
  | .rename _ seqNum _ :: rest =>
      (∀ old ∈ seqNums, old < seqNum) ∧ Disciplined (seqNum :: seqNums) commits rest
  | .commit done :: rest => Disciplined seqNums (done :: commits) rest
  | .squash squashed :: rest =>
      (∀ done ∈ commits, done ≤ squashed) ∧ Disciplined seqNums commits rest

def mapAfter (initial : RenameMap) : List Record → RenameMap
  -- the rename map right after the youngest instruction of the ledger, or the initial one
  | [] => initial
  | record :: _ => record.after

def uncommitted (ledger : List Record) : List RenameHistory :=
  (ledger.filter fun record => !record.committed).flatMap Record.entries

def Chained (initial : RenameMap) : RenameMap → List Record → Prop
  -- undoing the entries of an instruction gives the map before it
  | map, [] => map = initial
  | map, record :: older =>
      map = record.after ∧ Chained initial (undoAll map (record.entries.map (changeOf isa))) older

end Ledgers

section Invariant

variable {isa : Isa} {file : PhysRegFile} {initial map : RenameMap} {s s' : State}
  {ledger newer older : List Record} {seqNums commits : List Nat}

structure Rolled (isa : Isa) (file : PhysRegFile) (initial : RenameMap) (seqNums commits : List Nat)
    (s : State) (ledger : List Record) : Prop where
  conserved : Conserved isa file s
  decreasing : ledger.Pairwise fun young old => old.seqNum < young.seqNum
  known : ∀ record ∈ ledger, record.seqNum ∈ seqNums
  covered : ∀ record ∈ ledger, record.committed = true → ∃ done ∈ commits, record.seqNum ≤ done
  stamped : ∀ record ∈ ledger, ∀ entry ∈ record.entries, entry.instSeqNum = record.seqNum
  chained : Chained isa initial s.map ledger
  history : s.history = uncommitted ledger

theorem Chained.map_eq (chained : Chained isa initial map ledger) : map = mapAfter initial ledger := by
  cases ledger with
  | nil => exact chained
  | cons record older => exact chained.1

theorem Chained.drop (chained : Chained isa initial map (newer ++ older)) :
    Chained isa initial (undoAll map ((newer.flatMap Record.entries).map (changeOf isa))) older := by
  induction newer generalizing map with
  | nil => exact chained
  | cons record newer ih =>
      rw [List.flatMap_cons, List.map_append, undoAll_append]
      exact ih chained.2

theorem Chained.mark (chained : Chained isa initial map ledger) (done : Nat) :
    Chained isa initial map (ledger.map fun record =>
      { record with committed := record.committed || record.seqNum ≤ done }) := by
  induction ledger generalizing map with
  | nil => exact chained
  | cons record older ih => exact ⟨chained.1, ih chained.2⟩

theorem split_unique {α : Type} {p : α → Bool} {front rest front' rest' : List α}
    (same : front ++ rest = front' ++ rest') (within : ∀ a ∈ front, p a = true)
    (out : ∀ a ∈ rest.head?, p a = false) (within' : ∀ a ∈ front', p a = true)
    (out' : ∀ a ∈ rest'.head?, p a = false) : front = front' ∧ rest = rest' := by
  have taken : ∀ front rest : List α, (∀ a ∈ front, p a = true) → (∀ a ∈ rest.head?, p a = false) →
      (front ++ rest).takeWhile p = front := by
    intro front rest within out
    rw [List.takeWhile_append_of_pos within]
    cases rest with
    | nil => simp
    | cons a rest => simp [out a rfl]
  have fronts : front = front' := by
    rw [← taken front rest within out, same, taken front' rest' within' out']
  subst fronts
  exact ⟨rfl, List.append_cancel_left same⟩

theorem split_ledger (decreasing : ledger.Pairwise fun young old => old.seqNum < young.seqNum)
    (number : Nat) :
    ∃ newer older, ledger = newer ++ older ∧ (∀ record ∈ newer, number < record.seqNum) ∧
      (∀ record ∈ older, record.seqNum ≤ number) ∧
      ledger.filter (fun record => record.seqNum ≤ number) = older := by
  induction ledger with
  | nil => exact ⟨[], [], rfl, by simp, by simp, rfl⟩
  | cons record rest ih =>
      obtain ⟨smaller, decreasing⟩ := List.pairwise_cons.mp decreasing
      by_cases small : record.seqNum ≤ number
      · have all : ∀ r ∈ record :: rest, r.seqNum ≤ number := by
          refine List.forall_mem_cons.mpr ⟨small, fun r member => ?_⟩
          exact Nat.le_of_lt (Nat.lt_of_lt_of_le (smaller r member) small)
        refine ⟨[], record :: rest, rfl, by simp, all, ?_⟩
        exact List.filter_eq_self.mpr fun r member => decide_eq_true (all r member)
      · obtain ⟨newer, older, rfl, above, below, filtered⟩ := ih decreasing
        refine ⟨record :: newer, older, rfl, ?_, below, ?_⟩
        · exact List.forall_mem_cons.mpr ⟨Nat.lt_of_not_le small, above⟩
        · rw [List.filter_cons_of_neg (by simpa using small)]
          exact filtered

theorem uncommitted_append (newer older : List Record) :
    uncommitted (newer ++ older) = uncommitted newer ++ uncommitted older := by
  simp [uncommitted]

theorem mem_uncommitted {entry : RenameHistory} (member : entry ∈ uncommitted ledger) :
    ∃ record ∈ ledger, entry ∈ record.entries := by
  obtain ⟨record, inside, isEntry⟩ := List.mem_flatMap.mp member
  exact ⟨record, List.mem_of_mem_filter inside, isEntry⟩

theorem Rolled.stamped_part (rolled : Rolled isa file initial seqNums commits s ledger)
    (part : List Record) (inside : part ⊆ ledger) (entry : RenameHistory)
    (member : entry ∈ uncommitted part) : ∃ record ∈ part, entry.instSeqNum = record.seqNum := by
  obtain ⟨record, isRecord, isEntry⟩ := mem_uncommitted member
  exact ⟨record, isRecord, rolled.stamped record (inside isRecord) entry isEntry⟩

/-- A squash at a number that is not below a commit. -/
theorem Rolled.squash (rolled : Rolled isa file initial seqNums commits s ledger) {squashed : Nat}
    (late : ∀ done ∈ commits, done ≤ squashed) :
    ∃ s', doSquash isa file squashed s = .ok s' ∧ Rolled isa file initial seqNums commits s'
      (ledger.filter fun record => record.seqNum ≤ squashed) := by
  obtain ⟨s', undone, ended, conserved, split, newers, head, isMap⟩ :=
    doSquash_conserved rolled.conserved squashed
  obtain ⟨newer, older, rfl, above, below, filtered⟩ := split_ledger rolled.decreasing squashed
  have within : ∀ record ∈ older, record ∈ newer ++ older := fun record =>
    List.mem_append_right newer
  -- what is squashed is not committed
  have allOpen : uncommitted newer = newer.flatMap Record.entries := by
    rw [uncommitted, List.filter_eq_self.mpr]
    intro record member
    by_contra isCommitted
    obtain ⟨done, isDone, small⟩ := rolled.covered record (List.mem_append_left older member)
      (by simpa using isCommitted)
    exact absurd (Nat.le_trans small (late done isDone)) (Nat.not_le_of_lt (above record member))
  have pieces : undone ++ s'.history = uncommitted newer ++ uncommitted older := by
    rw [← split, rolled.history, uncommitted_append]
  obtain ⟨isUndone, isHistory⟩ : undone = uncommitted newer ∧ s'.history = uncommitted older := by
    refine split_unique (p := fun entry => squashed < entry.instSeqNum) pieces ?_ ?_ ?_ ?_
    · exact fun entry member => decide_eq_true (newers entry member)
    · exact fun entry member => decide_eq_false (Nat.not_lt_of_le (head entry member))
    · intro entry member
      obtain ⟨record, isRecord, same⟩ := rolled.stamped_part newer (List.subset_append_left _ _) entry member
      exact decide_eq_true (same ▸ above record isRecord)
    · intro entry member
      obtain ⟨record, isRecord, same⟩ := rolled.stamped_part older (List.subset_append_right _ _) entry
        (List.mem_of_mem_head? member)
      exact decide_eq_false (Nat.not_lt_of_le (same ▸ below record isRecord))
  refine ⟨s', ended, ?_⟩
  rw [filtered]
  refine ⟨conserved, (List.pairwise_append.mp rolled.decreasing).2.1,
    fun record member => rolled.known record (within record member),
    fun record member => rolled.covered record (within record member),
    fun record member => rolled.stamped record (within record member), ?_, isHistory⟩
  rw [isMap, isUndone, allOpen]
  exact rolled.chained.drop

theorem uncommitted_commit (ledger : List Record) (done : Nat) :
    uncommitted (ledger.map fun record =>
        { record with committed := record.committed || record.seqNum ≤ done }) =
      uncommitted (ledger.filter fun record => done < record.seqNum) := by
  induction ledger with
  | nil => rfl
  | cons record rest ih =>
      by_cases small : record.seqNum ≤ done
      · rw [List.filter_cons_of_neg (by simpa using small), ← ih]
        simp [uncommitted, small]
      · rw [List.filter_cons_of_pos (by simpa using small)]
        simp only [uncommitted] at ih ⊢
        cases isCommitted : record.committed <;> simp [small, isCommitted, ih]

theorem Rolled.commit (rolled : Rolled isa file initial seqNums commits s ledger) (done : Nat) :
    ∃ s', removeFromHistory file done s = .ok s' ∧
      Rolled isa file initial seqNums (done :: commits) s' (ledger.map fun record =>
        { record with committed := record.committed || record.seqNum ≤ done }) := by
  obtain ⟨s', dropped, ended, conserved, split, olds, last, isMap⟩ :=
    removeFromHistory_conserved rolled.conserved done
  obtain ⟨newer, older, isLedger, above, below, _⟩ := split_ledger rolled.decreasing done
  -- the same split, read from the old end
  have pieces : dropped.reverse ++ s'.history.reverse =
      (uncommitted older).reverse ++ (uncommitted newer).reverse := by
    rw [← List.reverse_append, ← List.reverse_append, ← split, rolled.history, ← uncommitted_append,
      isLedger]
  obtain ⟨_, isHistory⟩ : dropped.reverse = (uncommitted older).reverse ∧
      s'.history.reverse = (uncommitted newer).reverse := by
    refine split_unique (p := fun entry => entry.instSeqNum ≤ done) pieces ?_ ?_ ?_ ?_
    · exact fun entry member => decide_eq_true (olds entry (List.mem_reverse.mp member))
    · intro entry member
      rw [List.head?_reverse] at member
      exact decide_eq_false (Nat.not_le_of_lt (last entry member))
    · intro entry member
      obtain ⟨record, isRecord, same⟩ := rolled.stamped_part older
        (isLedger ▸ List.subset_append_right newer older) entry (List.mem_reverse.mp member)
      exact decide_eq_true (same ▸ below record isRecord)
    · intro entry member
      obtain ⟨record, isRecord, same⟩ := rolled.stamped_part newer
        (isLedger ▸ List.subset_append_left newer older) entry
        (List.mem_reverse.mp (List.mem_of_mem_head? member))
      exact decide_eq_false (Nat.not_le_of_lt (same ▸ above record isRecord))
  have filtered : ledger.filter (fun record => done < record.seqNum) = newer := by
    rw [isLedger, List.filter_append, List.filter_eq_self.mpr, List.filter_eq_nil_iff.mpr,
      List.append_nil]
    · exact fun record member => by simpa using below record member
    · exact fun record member => decide_eq_true (above record member)
  refine ⟨s', ended, conserved, ?_, ?_, ?_, ?_, ?_, ?_⟩
  · exact List.pairwise_map.mpr rolled.decreasing
  · intro record member
    obtain ⟨old, isOld, rfl⟩ := List.mem_map.mp member
    exact rolled.known old isOld
  · intro record member isCommitted
    obtain ⟨old, isOld, rfl⟩ := List.mem_map.mp member
    rcases Bool.or_eq_true_iff.mp isCommitted with before | now
    · obtain ⟨earlier, isEarlier, small⟩ := rolled.covered old isOld before
      exact ⟨earlier, List.mem_cons_of_mem done isEarlier, small⟩
    · exact ⟨done, List.mem_cons_self, of_decide_eq_true now⟩
  · intro record member
    obtain ⟨old, isOld, rfl⟩ := List.mem_map.mp member
    exact rolled.stamped old isOld
  · rw [isMap]
    exact rolled.chained.mark done
  · rw [uncommitted_commit, filtered]
    exact List.reverse_injective isHistory

theorem Rolled.rename (rolled : Rolled isa file initial seqNums commits s ledger) {seqNum : Nat}
    {entries : List RenameHistory} (renamed : Renamed isa file seqNum entries s s')
    (youngest : ∀ old ∈ seqNums, old < seqNum) :
    Rolled isa file initial (seqNum :: seqNums) commits s' (⟨seqNum,
      s'.history.take (s'.history.length - s.history.length), s'.map, false⟩ :: ledger) := by
  have taken : s'.history.take (s'.history.length - s.history.length) = entries := by
    rw [renamed.history, List.length_append, Nat.add_sub_cancel, List.take_left]
  rw [taken]
  refine ⟨renamed.conserved, ?_, ?_, ?_, ?_, ⟨rfl, ?_⟩, ?_⟩
  · exact List.pairwise_cons.mpr
      ⟨fun record member => youngest _ (rolled.known record member), rolled.decreasing⟩
  · exact List.forall_mem_cons.mpr ⟨List.mem_cons_self, fun record member =>
      List.mem_cons_of_mem seqNum (rolled.known record member)⟩
  · refine List.forall_mem_cons.mpr ⟨fun isCommitted => absurd isCommitted Bool.false_ne_true,
      rolled.covered⟩
  · exact List.forall_mem_cons.mpr ⟨renamed.seqNums, rolled.stamped⟩
  · rw [renamed.undone]
    exact rolled.chained
  · rw [renamed.history, rolled.history]
    simp [uncommitted]

end Invariant

section Runs

variable {isa : Isa} {file : PhysRegFile} {initial : RenameMap}

theorem run_rolled {actions : List (Action isa)} {s reached : State} {ledger ledger' : List Record}
    {seqNums commits : List Nat} (final : Action isa)
    (rolled : Rolled isa file initial seqNums commits s ledger)
    (disciplined : Disciplined isa seqNums commits (actions ++ [final]))
    (ran : run (traced isa file) actions (s, ledger) = some (reached, ledger')) :
    ∃ seqNums' commits', Rolled isa file initial seqNums' commits' reached ledger' ∧
      Disciplined isa seqNums' commits' [final] := by
  induction actions generalizing s ledger seqNums commits with
  | nil =>
      cases ran
      exact ⟨seqNums, commits, rolled, disciplined⟩
  | cons action rest ih =>
      obtain ⟨next, stepped, ran⟩ := Option.bind_eq_some_iff.mp ran
      obtain ⟨after, returned, rfl⟩ := Option.map_eq_some_iff.mp stepped
      have returned := eq_ok_of_toOption returned
      cases action with
      | rename tc seqNum destRegs =>
          obtain ⟨youngest, disciplined⟩ := disciplined
          obtain ⟨entries, renamed⟩ :=
            (renameDestRegs_renamed rolled.conserved tc seqNum destRegs).of_ok returned
          exact ih (rolled.rename renamed youngest) disciplined ran
      | commit done =>
          obtain ⟨s', ended, rolled'⟩ := rolled.commit done
          cases ended.symm.trans returned
          exact ih rolled' disciplined ran
      | squash squashed =>
          obtain ⟨late, disciplined⟩ := disciplined
          obtain ⟨s', ended, rolled'⟩ := rolled.squash late
          cases ended.symm.trans returned
          exact ih rolled' disciplined ran

/-- A squash gives back the rename map of the youngest instruction that stays, and leaves in the
history the entries of the uncommitted instructions that stay, the newest first. -/
theorem squash_rolls_back (isa : Isa) (file : PhysRegFile) (start reached : State)
    (actions : List (Action isa)) (ledger : List Record) (squashed : Nat)
    (partitioned : Partitioned isa file start)
    (disciplined : Disciplined isa [] [] (actions ++ [.squash squashed]))
    (ran : run (traced isa file) actions (start, []) = some (reached, ledger)) :
    ∃ after, doSquash isa file squashed reached = .ok after ∧
      after.map = mapAfter start.map (ledger.filter fun record => record.seqNum ≤ squashed) ∧
      after.history = uncommitted (ledger.filter fun record => record.seqNum ≤ squashed) := by
  have rolled : Rolled isa file start.map [] [] start [] :=
    ⟨partitioned.conserved, List.Pairwise.nil, by simp, by simp, by simp, rfl, partitioned.history⟩
  obtain ⟨seqNums, commits, rolled', late, _⟩ := run_rolled (.squash squashed) rolled disciplined ran
  obtain ⟨after, ended, final⟩ := rolled'.squash late
  exact ⟨after, ended, final.chained.map_eq, final.history⟩

theorem small_squash_rolls_back :
    ∃ start reached ledger after, constructed smallIsa smallFile = .ok start ∧
      run (traced smallIsa smallFile) [.rename smallContext 1 [0, 2], .rename smallContext 2 [0, 4],
        .commit 1, .rename smallContext 3 [0, 7]] (start, []) = some (reached, ledger) ∧
      doSquash smallIsa smallFile 2 reached = .ok after ∧
      after.map = mapAfter start.map (ledger.filter fun record => record.seqNum ≤ 2) ∧
      after.history.map (·.instSeqNum) = [2, 2] := by
  obtain ⟨start, built⟩ : ∃ start, constructed smallIsa smallFile = .ok start := ⟨_, rfl⟩
  obtain ⟨reached, ledger, ran, kept⟩ : ∃ reached ledger, run (traced smallIsa smallFile)
      [.rename smallContext 1 [0, 2], .rename smallContext 2 [0, 4], .commit 1,
        .rename smallContext 3 [0, 7]] (start, []) = some (reached, ledger) ∧
      (uncommitted (ledger.filter fun record => record.seqNum ≤ 2)).map (·.instSeqNum) = [2, 2] := by
    cases built
    exact ⟨_, _, rfl, rfl⟩
  obtain ⟨after, ended, isMap, isHistory⟩ := squash_rolls_back smallIsa smallFile start reached _ ledger
    2 (constructed_partitioned built) (by simp [Disciplined]) ran
  exact ⟨start, reached, ledger, after, built, ran, ended, isMap, isHistory ▸ kept⟩

end Runs

end GemFi.RenameRollback
