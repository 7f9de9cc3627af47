import GemFi.FaultRuns
import GemFi.StageFrames

/-!
A reset empties the five queues and reads the fault file again. Emptying them
always works; what the file puts into them depends on the memory its faults are
constructed in, as their links are read before anything wrote them.
-/

namespace GemFi.Reloading

open LinkedLists ThreadInfo FaultQueue FaultQueue.FaultStore QueueRepresentation QueueHistory
open FaultScan FaultRuns Activation Activation.FiSystem StageFrames

section Contents

def recordOf (p : InjectedFault) : FaultRecord where
  faultType := p.faultType
  timingType := p.timingType
  valueType := p.valueType
  timing := p.timing
  value := p.value
  where_ := p.where_
  thread := p.thread
  occurrence := p.occurrence
  srcOrDst := p.srcOrDst
  regToChange := p.regToChange
  changeToReg := p.changeToReg

def place (record : FaultRecord) (records : List FaultRecord) : List FaultRecord :=
  -- the records of one queue, those with an earlier timing before the new one
  records.takeWhile (fun r => decide (r.timing < record.timing)) ++
    record :: records.dropWhile (fun r => decide (r.timing < record.timing))

def contents (q : StageQueue) (records : List FaultRecord) : List FaultRecord :=
  (records.filter fun r => stageOf r.faultType = q).foldl (fun placed r => place r placed) []

theorem place_perm (record : FaultRecord) (records : List FaultRecord) :
    (place record records).Perm (record :: records) := by
  refine List.perm_middle.trans (List.Perm.cons record ?_)
  rw [List.takeWhile_append_dropWhile]

theorem contents_snoc (q : StageQueue) (records : List FaultRecord) (record : FaultRecord) :
    contents q (records ++ [record]) =
      if stageOf record.faultType = q then place record (contents q records)
      else contents q records := by
  by_cases same : stageOf record.faultType = q <;> simp [contents, List.filter_append, same]

theorem contents_perm (q : StageQueue) (records : List FaultRecord) :
    (contents q records).Perm (records.filter fun r => stageOf r.faultType = q) := by
  induction records using List.reverseRecOn with
  | nil => exact List.Perm.refl []
  | append_singleton records record ih =>
      rw [contents_snoc, List.filter_append]
      by_cases same : stageOf record.faultType = q
      · rw [if_pos same]
        have added : (place record (contents q records)).Perm (record :: _) :=
          (place_perm record _).trans (ih.cons record)
        simpa [same] using added.trans (List.perm_append_singleton record _).symm
      · simpa [same] using ih

end Contents

section Draining

variable {fuel : Nat} {q : StageQueue} {s s' : FaultStore}
  {lists lists' lists'' : StageQueue → List FaultPtr}

/-- One loop of `delete_faults` ends with its queue empty: the removal of the
head leaves the rest of the list. -/
theorem drain_clears (nodes : List FaultPtr) (rounds : Nat) (s : FaultStore)
    (lists : StageQueue → List FaultPtr) (held : Represents s lists) (isList : lists q = nodes)
    (enough : nodes.length < fuel) (more : nodes.length < rounds) :
    ∃ s', drain fuel q rounds s = some s' ∧
      Within q s lists s' (Function.update lists q []) ∧ s'.fresh = s.fresh := by
  induction nodes generalizing rounds s lists with
  | nil =>
      obtain ⟨rounds, rfl⟩ := Nat.exists_eq_succ_of_ne_zero (Nat.ne_of_gt more)
      have vacant := (empty_linked_iff (held.linked q)).mpr isList
      refine ⟨s, by rw [drain, if_pos vacant], ?_, rfl⟩
      rw [← isList, Function.update_eq_self]
      exact Within.refl held
  | cons f rest ih =>
      obtain ⟨rounds, rfl⟩ := Nat.exists_eq_succ_of_ne_zero (Nat.ne_of_gt (Nat.zero_lt_of_lt more))
      rw [List.length_cons] at enough more
      have occupied : ¬ s.empty q = true := by
        rw [empty_linked_iff (held.linked q), isList]
        exact List.cons_ne_nil f rest
      have atHead : s.head q = some f := by rw [(held.linked q).head_eq, isList, List.head?_cons]
      have member : f ∈ lists q := isList ▸ List.mem_cons_self
      have short : (lists q).length < fuel := by rwa [isList, List.length_cons]
      obtain ⟨next, removed⟩ := remove_returns (held.linked q) member short
      have within := remove_within held member removed
      have left : Function.update lists q ((lists q).erase f) q = rest := by
        rw [Function.update_self, isList, List.erase_cons_head]
      obtain ⟨s', drained, later, fresh⟩ :=
        ih rounds next _ within.held left (by omega) (by omega)
      rw [Function.update_idem] at later
      refine ⟨s', ?_, within.trans later, fresh.trans (remove_frame removed).2.1⟩
      rw [drain, if_neg occupied, atHead]
      show (s.remove fuel q f).bind (drain fuel q rounds) = some s'
      rw [removed]
      exact drained

structure Drained (s : FaultStore) (lists : StageQueue → List FaultPtr) (s' : FaultStore)
    (lists' : StageQueue → List FaultPtr) : Prop where
  held : Represents s' lists'
  shorter : ∀ q, lists' q = lists q ∨ lists' q = []
  untouched : ∀ p, (∀ q, p ∉ lists q) → s'.mem p = s.mem p
  fresh : s'.fresh = s.fresh

theorem drain_drained (q : StageQueue) (drained : Drained s lists s' lists')
    (enough : ∀ q, (lists q).length < fuel) :
    ∃ s'', drain fuel q fuel s' = some s'' ∧
      Drained s lists s'' (Function.update lists' q []) := by
  have short : (lists' q).length < fuel := by
    rcases drained.shorter q with same | nothing
    · exact same ▸ enough q
    · rw [nothing]
      exact Nat.zero_lt_of_lt (enough q)
  obtain ⟨s'', returned, within, fresh⟩ :=
    drain_clears (lists' q) fuel s' lists' drained.held rfl short short
  refine ⟨s'', returned, within.held, ?_, ?_, fresh.trans drained.fresh⟩
  · intro r
    by_cases same : r = q
    · exact Or.inr (by rw [same, Function.update_self])
    · rw [Function.update_of_ne same]
      exact drained.shorter r
  · intro p outside
    have outside' : p ∉ lists' q := by
      rcases drained.shorter q with same | nothing
      · exact same ▸ outside q
      · rw [nothing]
        exact List.not_mem_nil
    exact (within.untouched p outside').trans (drained.untouched p outside)

theorem deleteFaults_clears (held : Represents s lists)
    (enough : ∀ q, (lists q).length < fuel) :
    ∃ s', deleteFaults fuel s = some s' ∧ Drained s lists s' (fun _ => []) := by
  have none' : Drained s lists s lists := ⟨held, fun _ => Or.inl rfl, fun _ _ => rfl, rfl⟩
  obtain ⟨s₁, first, drained⟩ := drain_drained .main none' enough
  obtain ⟨s₂, second, drained⟩ := drain_drained .fetchStage drained enough
  obtain ⟨s₃, third, drained⟩ := drain_drained .decodeStage drained enough
  obtain ⟨s₄, fourth, drained⟩ := drain_drained .iewStage drained enough
  obtain ⟨s₅, fifth, drained⟩ := drain_drained .loadStore drained enough
  refine ⟨{ s₅ with queues := fun _ => ⟨none, none⟩ }, ?_, ⟨?_, ?_, ?_⟩, fun _ => Or.inr rfl,
    drained.untouched, drained.fresh⟩
  · simp only [deleteFaults, first, second, third, fourth, fifth, Option.bind_eq_bind,
      Option.bind_some]
  · exact fun q => Linked.nil
  · exact fun q r p member => absurd member List.not_mem_nil
  · exact fun q p member => absurd member List.not_mem_nil

end Draining

section Loading

/-- What `insert` leaves unwritten for a record constructed at `f`, when its queue
holds `earlier`, has to be clear. -/
structure FindsClear (s : FaultStore) (f : FaultPtr) (earlier : List FaultRecord)
    (record : FaultRecord) : Prop where
  atEnd : earlier ≠ [] → (∀ r ∈ earlier, r.timing < record.timing) → s.nxt f = none
  atFront : ∀ r, earlier.head? = some r → ¬ r.timing < record.timing → s.prv f = none

def FileFindsClear (s : FaultStore) (first : FaultPtr) (records : List FaultRecord) : Prop :=
  -- every record of a file finds so, constructed from the address `first` on
  ∀ before record after, records = before ++ record :: after →
    FindsClear s (first + before.length) (contents (stageOf record.faultType) before) record

/-- The queues hold what the first records of a file gave, in objects constructed
since the state was `s₀`. -/
structure Loaded (s₀ s : FaultStore) (done : List FaultRecord)
    (lists : StageQueue → List FaultPtr) : Prop where
  holds : Holds ⟨s, lists⟩ lists
  records : ∀ q, (lists q).map (fun p => recordOf (s.mem p)) = contents q done
  new : ∀ q, ∀ p ∈ lists q, s₀.fresh ≤ p ∧ (s.mem p).manifested = false
  fresh : s.fresh = s₀.fresh + done.length
  untouched : ∀ p, s.fresh ≤ p → s.mem p = s₀.mem p

variable {fuel : Nat} {s₀ s s' : FaultStore} {done : List FaultRecord} {record : FaultRecord}
  {lists : StageQueue → List FaultPtr}

theorem findsClear_nil (record : FaultRecord) {f : FaultPtr} : FindsClear s f [] record :=
  ⟨fun occupied => absurd rfl occupied, fun r atHead => by cases atHead⟩

/-- The constructor writes at an address that is in no queue. -/
theorem allocate_other (record : FaultRecord) {p : FaultPtr} (other : p ≠ s.fresh) :
    (allocate record s).mem p = s.mem p := by
  simp [allocate, FaultStore.write, other]

theorem allocate_new (record : FaultRecord) (s : FaultStore) :
    (allocate record s).mem s.fresh = record.construct (s.mem s.fresh) := by
  simp [allocate, FaultStore.write]

theorem allocate_timing (record : FaultRecord) (s : FaultStore) :
    (allocate record s).timing s.fresh = record.timing := by
  rw [FaultStore.timing, allocate_new]
  rfl

theorem Loaded.member_ne (loaded : Loaded s₀ s done lists) {q : StageQueue} {p : FaultPtr}
    (member : p ∈ lists q) : p ≠ s.fresh := Nat.ne_of_lt (loaded.holds.older q p member)

theorem Loaded.allocated (loaded : Loaded s₀ s done lists) (record : FaultRecord)
    (q : StageQueue) :
    (lists q).map (fun p => recordOf ((allocate record s).mem p)) = contents q done := by
  rw [← loaded.records q]
  apply List.map_congr_left
  intro p member
  rw [allocate_other record (loaded.member_ne member)]

theorem Loaded.linksCleared_iff (loaded : Loaded s₀ s done lists) :
    LoadsCleared ⟨s, lists⟩ (.load record) ↔
      FindsClear s₀ (s₀.fresh + done.length) (contents (stageOf record.faultType) done) record := by
  have memory : s.mem s.fresh = s₀.mem s.fresh := loaded.untouched s.fresh (Nat.le_refl _)
  have nxt : (allocate record s).nxt s.fresh = s₀.nxt s.fresh := by
    rw [FaultStore.nxt, allocate_new, memory]
    rfl
  have prv : (allocate record s).prv s.fresh = s₀.prv s.fresh := by
    rw [FaultStore.prv, allocate_new, memory]
    rfl
  have timing := allocate_timing record s
  have head : (allocate record s).head (stageOf record.faultType) =
      (lists (stageOf record.faultType)).head? := (loaded.holds.held.linked _).head_eq
  rw [← loaded.fresh, ← loaded.allocated record]
  constructor
  · rintro ⟨atEnd, atFront⟩
    constructor
    · intro occupied below
      rw [← nxt]
      apply atEnd (fun nothing => occupied (List.map_eq_nil_iff.mpr nothing))
      intro p member
      rw [timing]
      exact below _ (List.mem_map_of_mem member)
    · intro r atHead late
      rw [List.head?_map, Option.map_eq_some_iff] at atHead
      obtain ⟨p, isHead, rfl⟩ := atHead
      rw [← prv]
      apply atFront p (head.trans isHead)
      rw [timing]
      exact late
  · rintro ⟨atEnd, atFront⟩
    constructor
    · intro occupied below
      rw [nxt]
      apply atEnd (fun nothing => occupied (List.map_eq_nil_iff.mp nothing))
      intro r member
      obtain ⟨p, inQ, rfl⟩ := List.mem_map.mp member
      rw [← timing]
      exact below p inQ
    · intro p atHead late
      rw [prv]
      apply atFront (recordOf ((allocate record s).mem p))
      · rw [List.head?_map, ← head, atHead]
        rfl
      · rw [← timing]
        exact late

theorem Loaded.inserted_records (loaded : Loaded s₀ s done lists) (record : FaultRecord)
    (q : StageQueue) :
    (ahead (allocate record s) s.fresh (lists q) ++
        s.fresh :: behind (allocate record s) s.fresh (lists q)).map
        (fun p => recordOf ((allocate record s).mem p)) =
      place record (contents q done) := by
  rw [← loaded.allocated record, place, List.takeWhile_map, List.dropWhile_map, List.map_append,
    List.map_cons, allocate_new, ahead, behind, allocate_timing]
  rfl

/-- The only links that `insert` writes are those of the new fault and of its
neighbours. -/
theorem inserted_untouched {q : StageQueue} {nodes : List FaultPtr} {f p : FaultPtr}
    (effect : Inserted s s' q f (ahead s f nodes) (behind s f nodes))
    (returned : s.insert fuel q f = some s') (other : p ≠ f) (outside : p ∉ nodes) :
    s'.mem p = s.mem p := by
  obtain ⟨data, _, owner⟩ := insert_frame returned
  apply mem_eq_of_data (congrFun data p)
  · rw [effect.nxt, if_neg other, if_neg]
    intro last
    have inAhead : p ∈ ahead s f nodes := List.mem_of_getLast? last
    exact outside (List.takeWhile_subset _ inAhead)
  · rw [effect.prv, if_neg other, if_neg]
    intro next
    have inBehind : p ∈ behind s f nodes := List.mem_of_head? next
    exact outside ((List.dropWhile_suffix _).subset inBehind)
  · rw [owner, if_neg other]

theorem load_loads (loaded : Loaded s₀ s done lists)
    (clear : FindsClear s₀ (s₀.fresh + done.length) (contents (stageOf record.faultType) done)
      record) (returned : load fuel record s = some s') :
    ∃ lists', Loaded s₀ s' (done ++ [record]) lists' := by
  have cleared := loaded.linksCleared_iff.mpr clear
  have stepped : faultStep fuel ⟨s, lists⟩ (.load record) = some ⟨s',
      Function.update lists (stageOf record.faultType)
        (s.fresh :: lists (stageOf record.faultType))⟩ := by
    rw [faultStep, returned]
    rfl
  have holds := (load_holds loaded.holds cleared stepped).1
  obtain ⟨data, fresh, _⟩ := insert_frame returned
  have newest : ∀ q, s.fresh ∉ lists q := fun q member =>
    loaded.member_ne member rfl
  have effect := insert_effect ((allocate_represents record loaded.holds).linked _) (newest _)
    ((linksCleared_perm (List.Perm.refl _)).mpr cleared) returned
  have sameRecord : ∀ p, recordOf (s'.mem p) = recordOf ((allocate record s).mem p) := by
    intro p
    have same := congrArg recordOf (congrFun data p)
    exact same
  have sameFlag : ∀ p, (s'.mem p).manifested = ((allocate record s).mem p).manifested := by
    intro p
    have same := congrArg InjectedFault.manifested (congrFun data p)
    exact same
  refine ⟨_, ⟨holds.held, fun q => List.Perm.refl _, holds.older, holds.typed⟩, ?_, ?_, ?_, ?_⟩
  · intro q
    simp only [sameRecord, contents_snoc]
    by_cases same : stageOf record.faultType = q
    · subst q
      rw [if_pos rfl, Function.update_self]
      exact loaded.inserted_records record _
    · rw [if_neg same, Function.update_of_ne (Ne.symm same)]
      exact loaded.allocated record q
  · intro q p member
    rw [sameFlag p]
    rcases mem_update_added (inserted_perm (allocate record s) s.fresh
      (lists (stageOf record.faultType))) newest q p member with ⟨rfl, _⟩ | ⟨other, old⟩
    · rw [allocate_new]
      exact ⟨loaded.fresh ▸ Nat.le_add_right _ _, rfl⟩
    · rw [allocate_other record other]
      exact loaded.new q p old
  · rw [fresh, List.length_append]
    show s.fresh + 1 = _
    rw [loaded.fresh]
    rfl
  · intro p above
    rw [fresh] at above
    have above : s.fresh < p := above
    have outside : p ∉ lists (stageOf record.faultType) := fun member =>
      Nat.lt_asymm above (loaded.holds.older _ p member)
    rw [inserted_untouched effect returned (Nat.ne_of_gt above) outside,
      allocate_other record (Nat.ne_of_gt above), loaded.untouched p (Nat.le_of_lt above)]

theorem load_returns (loaded : Loaded s₀ s done lists) (record : FaultRecord)
    (enough : done.length < fuel) : ∃ s', load fuel record s = some s' := by
  have represented := allocate_represents record loaded.holds
  apply insert_returns (represented.linked (stageOf record.faultType))
  have all := congrArg List.length (loaded.records (stageOf record.faultType))
  rw [List.length_map, (contents_perm _ done).length_eq] at all
  rw [all]
  exact Nat.lt_of_le_of_lt (List.length_filter_le _ _) enough

theorem getFromFile_loads (rest : List FaultRecord) (s : FaultStore) (done : List FaultRecord)
    (lists : StageQueue → List FaultPtr) (loaded : Loaded s₀ s done lists)
    (clear : FileFindsClear s₀ s₀.fresh (done ++ rest)) (enough : (done ++ rest).length ≤ fuel) :
    ∃ s' lists', getFromFile fuel rest s = some s' ∧ Loaded s₀ s' (done ++ rest) lists' := by
  induction rest generalizing s done lists with
  | nil => exact ⟨s, lists, rfl, by rwa [List.append_nil]⟩
  | cons record rest ih =>
      rw [List.length_append, List.length_cons] at enough
      have room : done.length < fuel := by omega
      obtain ⟨next, returned⟩ := load_returns loaded record room
      obtain ⟨lists', loaded'⟩ := load_loads loaded (clear done record rest rfl) returned
      have split : done ++ record :: rest = (done ++ [record]) ++ rest := by simp
      rw [split] at clear ⊢
      obtain ⟨s', last, rest', ended⟩ := ih next _ lists' loaded' clear (by simp; omega)
      refine ⟨s', last, ?_, ended⟩
      rw [getFromFile, returned]
      exact rest'

theorem getFromFile_append (before after : List FaultRecord) (s : FaultStore) :
    getFromFile fuel (before ++ after) s =
      (getFromFile fuel before s).bind (getFromFile fuel after) := by
  induction before generalizing s with
  | nil => rfl
  | cons record rest ih =>
      rw [List.cons_append, getFromFile, getFromFile, Option.bind_eq_bind, Option.bind_assoc]
      exact congrArg (Option.bind _) (funext fun next => ih next)

end Loading

section Resets

def fileOf (fi : FiSystem) (records : List FaultRecord) : List FaultRecord :=
  -- the records that a reset reads; with a name of at most one character there is no file
  if fi.inName.utf8ByteSize > 1 then records else []

/-- Each queue is a list of exactly what the file gives on empty queues, in objects
that a reset from `before` constructed. -/
def Reloaded (before after : FiSystem) (records : List FaultRecord) : Prop :=
  ∀ q, ∃ nodes,
    Linked after.store.nxt after.store.prv (after.store.head q) (after.store.tail q) nodes ∧
      nodes.map (fun p => recordOf (after.store.mem p)) = contents q (fileOf before records) ∧
        ∀ p ∈ nodes, before.store.fresh ≤ p ∧ (after.store.mem p).manifested = false

/-- Two resets in a row with the same file. -/
def ReloadsTwice (fuel : Nat) (records : List FaultRecord) (fi : FiSystem) : Prop :=
  ∃ once twice, fi.reset fuel records = some once ∧ Reloaded fi once records ∧
    once.reset fuel records = some twice ∧ Reloaded once twice records

def FreshLinksClear (s : FaultStore) : Prop :=
  -- the memory that `new` will return holds null links, but for the first object
  ∀ k, 0 < k → s.nxt (s.fresh + k) = none ∧ s.prv (s.fresh + k) = none

variable {fuel : Nat} {fi fi' : FiSystem} {lists : StageQueue → List FaultPtr}
  {records : List FaultRecord}

theorem Drained.loaded {s s' : FaultStore} (drained : Drained s lists s' (fun _ => []))
    (older : ∀ q, ∀ p ∈ lists q, p < s.fresh) : Loaded s s' [] (fun _ => []) := by
  have vacant : Vacant s' := fun q =>
    ⟨(drained.held.linked q).head_eq, (drained.held.linked q).tail_eq⟩
  refine ⟨vacant_holds s' vacant, fun q => rfl, fun q p => ?_, drained.fresh, ?_⟩
  · exact fun member => absurd member List.not_mem_nil
  · intro p above
    rw [drained.fresh] at above
    exact drained.untouched p fun q member =>
      Nat.lt_irrefl p (Nat.lt_of_lt_of_le (older q p member) above)

theorem Loaded.reloaded (loaded : Loaded fi.store fi'.store (fileOf fi records) lists) :
    Reloaded fi fi' records :=
  fun q => ⟨lists q, loaded.holds.held.linked q, loaded.records q, loaded.new q⟩

theorem fileOf_length (fi : FiSystem) (records : List FaultRecord) :
    (fileOf fi records).length ≤ records.length := by
  unfold fileOf
  split
  · exact Nat.le_refl _
  · exact Nat.zero_le _

theorem reset_loads (held : Represents fi.store lists)
    (older : ∀ q, ∀ p ∈ lists q, p < fi.store.fresh)
    (clear : FileFindsClear fi.store fi.store.fresh (fileOf fi records))
    (enough : ∀ q, (lists q).length < fuel) (room : records.length ≤ fuel) :
    ∃ fi' lists', fi.reset fuel records = some fi' ∧ fi'.inName = fi.inName ∧
      Loaded fi.store fi'.store (fileOf fi records) lists' := by
  obtain ⟨s, deleted, drained⟩ := deleteFaults_clears held enough
  obtain ⟨s', lists', read, loaded⟩ := getFromFile_loads (fileOf fi records) s [] _
    (drained.loaded older) clear (Nat.le_trans (fileOf_length fi records) room)
  refine ⟨{ fi with store := s' }, lists', ?_, rfl, loaded⟩
  rw [FiSystem.reset, deleted, Option.bind_eq_bind, Option.bind_some]
  by_cases named : fi.inName.utf8ByteSize > 1
  · rw [fileOf, if_pos named] at read
    rw [if_pos named, read]
    rfl
  · rw [fileOf, if_neg named] at read
    cases read
    rw [if_neg named]

theorem findsClear_of_reloaded {before : List FaultRecord} {record : FaultRecord}
    (held : Represents fi.store lists) (older : ∀ q, ∀ p ∈ lists q, p < fi.store.fresh)
    (named : fi.inName.utf8ByteSize > 1)
    (clear : FileFindsClear fi.store fi.store.fresh before)
    (enough : ∀ q, (lists q).length < fuel) (room : before.length ≤ fuel)
    (returned : fi.reset fuel (before ++ [record]) = some fi')
    (reloaded : Reloaded fi fi' (before ++ [record])) :
    FindsClear fi.store (fi.store.fresh + before.length)
      (contents (stageOf record.faultType) before) record := by
  obtain ⟨s, deleted, drained⟩ := deleteFaults_clears held enough
  obtain ⟨s', lists', read, loaded⟩ := getFromFile_loads before s [] _
    (drained.loaded older) clear room
  rw [FiSystem.reset, deleted, Option.bind_eq_bind, Option.bind_some, if_pos named,
    getFromFile_append, read, Option.bind_some, getFromFile] at returned
  obtain ⟨store, lastRead, result⟩ := Option.bind_eq_some_iff.mp returned
  obtain ⟨store', last, ended⟩ := Option.bind_eq_some_iff.mp lastRead
  cases ended
  cases result
  obtain ⟨nodes, linked, _⟩ := reloaded (stageOf record.faultType)
  apply loaded.linksCleared_iff.mp
  exact linksCleared_of_inserted ((allocate_represents record loaded.holds).linked _)
    (fun member => loaded.member_ne member rfl) last linked

theorem fileFindsClear_of_fresh (fresh : FreshLinksClear fi.store) (start : Nat)
    (records : List FaultRecord) :
    FileFindsClear fi.store (fi.store.fresh + start) records := by
  intro before record after split
  cases before with
  | nil => exact findsClear_nil record
  | cons first rest =>
      have clear := fresh (start + (first :: rest).length) (Nat.lt_add_left _ (Nat.succ_pos _))
      rw [← Nat.add_assoc] at clear
      exact ⟨fun _ _ => clear.1, fun _ _ _ => clear.2⟩

theorem reset_reloads_twice (held : Represents fi.store lists)
    (older : ∀ q, ∀ p ∈ lists q, p < fi.store.fresh)
    (first : FileFindsClear fi.store fi.store.fresh (fileOf fi records))
    (second : FileFindsClear fi.store (fi.store.fresh + (fileOf fi records).length)
      (fileOf fi records))
    (enough : ∀ q, (lists q).length < fuel) (room : records.length < fuel) :
    ReloadsTwice fuel records fi := by
  obtain ⟨once, lists', reset, name, loaded⟩ :=
    reset_loads held older first enough (Nat.le_of_lt room)
  have sameFile : fileOf once records = fileOf fi records := by rw [fileOf, name, fileOf]
  have clear : FileFindsClear once.store once.store.fresh (fileOf once records) := by
    rw [sameFile, loaded.fresh]
    intro before record after split
    obtain ⟨atEnd, atFront⟩ := second before record after split
    have memory := loaded.untouched _
      (loaded.fresh.le.trans (Nat.le_add_right _ before.length))
    constructor
    · intro occupied below
      rw [FaultStore.nxt, memory]
      exact atEnd occupied below
    · intro r atHead late
      rw [FaultStore.prv, memory]
      exact atFront r atHead late
  have short : ∀ q, (lists' q).length < fuel := by
    intro q
    have all := congrArg List.length (loaded.records q)
    rw [List.length_map, (contents_perm q _).length_eq] at all
    have fewer := List.length_filter_le (fun r => decide (stageOf r.faultType = q))
      (fileOf fi records)
    have bound := fileOf_length fi records
    omega
  obtain ⟨twice, lists'', again, _, loaded'⟩ := reset_loads loaded.holds.held
    loaded.holds.older clear short (Nat.le_of_lt room)
  exact ⟨once, twice, reset, loaded.reloaded, again, loaded'.reloaded⟩

theorem lists_bounded (lists : StageQueue → List FaultPtr) :
    ∃ bound, ∀ q, (lists q).length < bound := by
  refine ⟨(lists .main).length + (lists .fetchStage).length + (lists .decodeStage).length +
    (lists .iewStage).length + (lists .loadStore).length + 1, fun q => ?_⟩
  cases q <;> omega

def pcRecord (timing : Word) : FaultRecord :=
  ⟨.pc, .instruction, .flipBit, timing, 1, "all", "all", 1, .src, 0, 0⟩

/-- Any file may be read, so every address may be that of the last record of its
queue, or of the first one in front of others. -/
theorem freshLinksClear_of_reloads (held : Represents fi.store lists)
    (older : ∀ q, ∀ p ∈ lists q, p < fi.store.fresh) (named : fi.inName.utf8ByteSize > 1)
    (reloads : ∀ records, ∃ enough, ∀ fuel ≥ enough, ReloadsTwice fuel records fi) :
    FreshLinksClear fi.store := by
  obtain ⟨bound, short⟩ := lists_bounded lists
  intro k
  induction k using Nat.strong_induction_on with
  | _ k ih =>
      intro positive
      have clear : FileFindsClear fi.store fi.store.fresh (List.replicate k (pcRecord 0)) := by
        intro before record after split
        cases before with
        | nil => exact findsClear_nil record
        | cons first rest =>
            have all := congrArg List.length split
            rw [List.length_replicate, List.length_append] at all
            have more : 0 < (record :: after).length := Nat.succ_pos _
            have links := ih (first :: rest).length (by omega) (Nat.succ_pos _)
            exact ⟨fun _ _ => links.1, fun _ _ _ => links.2⟩
      have each : ∀ timing, FindsClear fi.store (fi.store.fresh + k)
          (contents .main (List.replicate k (pcRecord 0))) (pcRecord timing) := by
        intro timing
        obtain ⟨enough, reload⟩ := reloads (List.replicate k (pcRecord 0) ++ [pcRecord timing])
        obtain ⟨once, _, returned, reloaded, _⟩ := reload (enough + bound + k) (by omega)
        have found := findsClear_of_reloaded held older named clear
          (fun q => Nat.lt_of_lt_of_le (short q) (by omega))
          (by rw [List.length_replicate]; omega) returned reloaded
        rwa [List.length_replicate] at found
      have same : (contents .main (List.replicate k (pcRecord 0))).Perm
          (List.replicate k (pcRecord 0)) := by
        have perm := contents_perm .main (List.replicate k (pcRecord 0))
        simpa [List.filter_replicate, pcRecord, stageOf] using perm
      have isZero : ∀ r ∈ contents .main (List.replicate k (pcRecord 0)), r.timing = 0 := by
        intro r member
        rw [List.eq_of_mem_replicate (same.mem_iff.mp member)]
        rfl
      obtain ⟨r, rest, placed⟩ : ∃ r rest, contents .main (List.replicate k (pcRecord 0)) =
          r :: rest := by
        apply List.exists_cons_of_length_pos
        rw [same.length_eq, List.length_replicate]
        exact positive
      have front := isZero r (by rw [placed]; exact List.mem_cons_self)
      constructor
      · apply (each 1).atEnd (by rw [placed]; exact List.cons_ne_nil r rest)
        intro r member
        rw [isZero r member]
        decide
      · apply (each 0).atFront r (by rw [placed]; rfl)
        rw [front]
        decide

end Resets

/-- From any well-formed queues: `delete_faults` comes back with all of them empty,
a file whose records find clear what `insert` leaves unwritten is reloaded by two
resets in a row, and every file is so exactly when the memory that `new` will
return holds null links. -/
theorem reset_reloads_iff (fi : FiSystem) (lists : StageQueue → List FaultPtr)
    (held : Represents fi.store lists) (older : ∀ q, ∀ p ∈ lists q, p < fi.store.fresh) :
    (∃ enough, ∀ fuel ≥ enough, ∃ s, deleteFaults fuel fi.store = some s ∧
        ∀ q, s.empty q = true) ∧
      (∀ records, FileFindsClear fi.store fi.store.fresh (fileOf fi records) →
        FileFindsClear fi.store (fi.store.fresh + (fileOf fi records).length)
          (fileOf fi records) →
        ∃ enough, ∀ fuel ≥ enough, ReloadsTwice fuel records fi) ∧
      ((∀ records, ∃ enough, ∀ fuel ≥ enough, ReloadsTwice fuel records fi) ↔
        (fi.inName.utf8ByteSize > 1 → FreshLinksClear fi.store)) := by
  obtain ⟨bound, short⟩ := lists_bounded lists
  have perFile : ∀ records, FileFindsClear fi.store fi.store.fresh (fileOf fi records) →
      FileFindsClear fi.store (fi.store.fresh + (fileOf fi records).length)
        (fileOf fi records) →
      ∃ enough, ∀ fuel ≥ enough, ReloadsTwice fuel records fi := by
    intro records first second
    refine ⟨bound + records.length + 1, fun fuel enough => ?_⟩
    exact reset_reloads_twice held older first second
      (fun q => Nat.lt_of_lt_of_le (short q) (by omega)) (by omega)
  refine ⟨⟨bound, fun fuel enough => ?_⟩, perFile, ?_⟩
  · obtain ⟨s, deleted, drained⟩ := deleteFaults_clears held
      (fun q => Nat.lt_of_lt_of_le (short q) enough)
    exact ⟨s, deleted, fun q => (empty_linked_iff (drained.held.linked q)).mpr rfl⟩
  · constructor
    · intro reloads named
      exact freshLinksClear_of_reloads held older named reloads
    · intro fresh records
      by_cases named : fi.inName.utf8ByteSize > 1
      · exact perFile records (fileFindsClear_of_fresh (fresh named) 0 _)
          (fileFindsClear_of_fresh (fresh named) _ _)
      · have nothing : fileOf fi records = [] := by rw [fileOf, if_neg named]
        have trivially : ∀ start, FileFindsClear fi.store start (fileOf fi records) := by
          intro start before record after split
          rw [nothing] at split
          cases before <;> cases split
        exact perFile records (trivially _) (trivially _)

/-- An experiment left a fetch fault behind; the next one's file is `faults`. -/
def leftoverSystem (store : FaultStore) : FiSystem :=
  { bootedMachine.fi with inName := "faults", store := store }

theorem leftover_fault_goes :
    ∃ enough, ∀ fuel ≥ enough,
      ReloadsTwice fuel [fetchRecord .instruction 1 1, fetchRecord .instruction 2 1]
        (leftoverSystem (singleFault (fetchRecord .tick 7 2))) := by
  have holds := singleFault_holds (fetchRecord .tick 7 2)
  have clear : FreshLinksClear (singleFault (fetchRecord .tick 7 2)) := by
    intro k positive
    show (singleFault _).nxt (1 + k) = none ∧ (singleFault _).prv (1 + k) = none
    rw [Nat.add_comm]
    exact ⟨rfl, rfl⟩
  exact (reset_reloads_iff (leftoverSystem (singleFault (fetchRecord .tick 7 2))) _ holds.held
    holds.older).2.2.mpr (fun _ => clear) _

/-- The second object of the file is constructed where memory holds a pointer, and
keeps it as its `nxt`. -/
theorem stale_link_stays :
    ¬ ∃ enough, ∀ fuel ≥ enough,
      ReloadsTwice fuel [fetchRecord .instruction 1 1, fetchRecord .instruction 2 1]
        (leftoverSystem (clearMemory.setNxt 1 (some 5))) := by
  rintro ⟨enough, reload⟩
  obtain ⟨once, _, returned, reloaded, _⟩ := reload (enough + 1) (Nat.le_succ _)
  have empty := vacant_holds (clearMemory.setNxt 1 (some 5)) fun _ => ⟨rfl, rfl⟩
  have named : (leftoverSystem (clearMemory.setNxt 1 (some 5))).inName.utf8ByteSize > 1 := by
    decide
  have firstLine : FileFindsClear (clearMemory.setNxt 1 (some 5)) 0
      [fetchRecord .instruction 1 1] := by
    intro before record after split
    cases before with
    | nil => exact findsClear_nil record
    | cons first rest =>
        have all := congrArg List.length split
        simp at all
  have found : FindsClear (clearMemory.setNxt 1 (some 5)) 1 [fetchRecord .instruction 1 1]
      (fetchRecord .instruction 2 1) :=
    findsClear_of_reloaded empty.held empty.older named firstLine (fun _ => Nat.succ_pos _)
      (Nat.succ_le_succ (Nat.zero_le _)) returned reloaded
  have cleared := found.atEnd (List.cons_ne_nil _ _) (by decide)
  cases cleared

end GemFi.Reloading
