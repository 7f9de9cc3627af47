import GemFi.LsqInvariant

/-!
Loads and stores that execute. A load searches the stores that are older than it and not
yet written back, a store walks over the loads that are younger than it; both reach the end
of their walk, and what they write leaves the queues as they were.
-/

namespace GemFi.LsqExecution

open Rings Outcomes LsqUnit LsqUnit.LSQUnit LsqInvariant

section Execution

variable {spared : InstSeqNum → Prop} {u : LSQUnit} {doneSeqNum inst : InstSeqNum}
  {loads : List InstSeqNum} {stores : List SQEntry} {sent offset : Nat} {entry : SQEntry}
  {req : Request}

theorem setInst_keeps {value : DynInst} (inv : ConsistentFor spared u doneSeqNum loads stores sent)
    (same : SameInst (u.insts inst) value) :
    ConsistentFor spared (u.setInst inst value) doneSeqNum loads stores sent := by
  apply inv.frame
  · exact .beside (sameInst_update same)
  · exact inv.waiting

theorem setViolator_keeps (inv : ConsistentFor spared u doneSeqNum loads stores sent)
    (violator : Option InstSeqNum) :
    ConsistentFor spared { u with memDepViolator := violator } doneSeqNum loads stores sent := by
  apply inv.frame
  · exact .beside fun inst => sameInst_refl _
  · exact inv.waiting

/-- A walk over the loads is at the tail, or comes to the next load. -/
theorem visited (inv : ConsistentFor spared u doneSeqNum loads stores sent)
    (within : offset ≤ loads.length) :
    (offset = loads.length ∧ slot u.LQEntries u.loadHead offset = u.loadTail) ∨
      ∃ inside : offset < loads.length, slot u.LQEntries u.loadHead offset ≠ u.loadTail ∧
        u.loadQueue (slot u.LQEntries u.loadHead offset) = some loads[offset] ∧
        u.incrLdIdx (slot u.LQEntries u.loadHead offset) =
          slot u.LQEntries u.loadHead (offset + 1) := by
  have mapped : offset ≤ (loads.map some).length := by rwa [List.length_map]
  have tail_iff := inv.loadRing.slot_eq_tail_iff mapped
  rw [List.length_map] at tail_iff
  rcases Nat.lt_or_eq_of_le within with inside | last
  · refine Or.inr ⟨inside, tail_iff.not.mpr (Nat.ne_of_lt inside), ?_, next_slot inv.loadRing.inside⟩
    exact inv.loadRing.getElem? (by rw [List.getElem?_map, List.getElem?_eq_getElem inside]; rfl)
  · exact Or.inl ⟨last, tail_iff.mpr last⟩

theorem checkViolationsLoop_keeps (fuel : Nat)
    (inv : ConsistentFor spared u doneSeqNum loads stores sent) (within : offset ≤ loads.length)
    (enough : loads.length < offset + fuel) :
    ∃ result, checkViolationsLoop inst fuel (slot u.LQEntries u.loadHead offset) u = .ok result ∧
      ConsistentFor spared result.2 doneSeqNum loads stores sent := by
  induction fuel generalizing u offset with
  | zero => omega
  | succ fuel ih =>
      rcases visited inv within with ⟨_, atTail⟩ | ⟨inside, notTail, atSlot, following⟩
      · exact ⟨(false, u), by rw [checkViolationsLoop, if_pos atTail], inv⟩
      · have on := ih inv inside (by omega)
        have flagged : ConsistentFor spared
            (u.setInst loads[offset] { u.insts loads[offset] with possibleLoadViolation := true })
            doneSeqNum loads stores sent := setInst_keeps inv ⟨rfl, rfl, rfl, rfl, id⟩
        have onFlagged := ih flagged inside (by omega)
        rw [checkViolationsLoop, if_neg notTail, atSlot, deref_bind, following]
        split
        · exact on
        split
        · split
          · split
            · exact ⟨_, rfl, setViolator_keeps inv _⟩
            · exact onFlagged
          · split
            · exact ⟨_, rfl, inv⟩
            · exact ⟨_, rfl, setViolator_keeps inv _⟩
        · exact on

theorem checkViolations_keeps (inst : InstSeqNum) (inv : ConsistentFor spared u doneSeqNum loads stores sent)
    (within : offset ≤ loads.length) :
    ∃ result, u.checkViolations (slot u.LQEntries u.loadHead offset) inst = .ok result ∧
      ConsistentFor spared result.2 doneSeqNum loads stores sent := by
  have room := inv.loadRing.room
  rw [List.length_map] at room
  exact checkViolationsLoop_keeps u.LQEntries inv within (by omega)

/-- The search of `read` stops at an entry: it has executed, is cacheable and meets the load. -/
def Decides (u : LSQUnit) (req : Request) (entry : SQEntry) : Prop :=
  entry.size ≠ 0 ∧ (u.insts entry.seqNum).uncacheable = false ∧
    (covers entry (u.insts entry.seqNum) req = true ∨ touches entry (u.insts entry.seqNum) req = true)

def Passed (u : LSQUnit) (req : Request) (stores : List SQEntry) (first last : Nat) : Prop :=
  ∀ offset entry, first ≤ offset → offset < last → stores[offset]? = some entry → ¬ Decides u req entry

inductive Found (u : LSQUnit) (req : Request) (stores : List SQEntry) (sent mark : Nat) : Search → Prop where
  -- what the search of the stores between `sent` and `mark` finds: the youngest that decides
  | nothing (passed : Passed u req stores sent mark) : Found u req stores sent mark .nothing
  | forward (offset : Nat) (entry : SQEntry) (after : sent ≤ offset) (before : offset < mark)
      (read : stores[offset]? = some entry) (decides : Decides u req entry)
      (passed : Passed u req stores (offset + 1) mark)
      (all : covers entry (u.insts entry.seqNum) req = true) :
      Found u req stores sent mark (.forward (slot u.SQEntries u.storeHead offset))
  | mismatch (offset : Nat) (entry : SQEntry) (after : sent ≤ offset) (before : offset < mark)
      (read : stores[offset]? = some entry) (decides : Decides u req entry)
      (passed : Passed u req stores (offset + 1) mark)
      (part : ¬ covers entry (u.insts entry.seqNum) req = true) :
      Found u req stores sent mark (.mismatch (slot u.SQEntries u.storeHead offset))

theorem Passed.extend {first mark : Nat} (passed : Passed u req stores first mark)
    (read : stores[mark]? = some entry) (skips : ¬ Decides u req entry) :
    Passed u req stores first (mark + 1) := by
  intro offset other after before found
  rcases Nat.lt_succ_iff_lt_or_eq.mp before with earlier | rfl
  · exact passed offset other after earlier found
  · rw [read] at found
    cases found
    exact skips

theorem Found.extend {mark : Nat} {result : Search} (found : Found u req stores sent mark result)
    (read : stores[mark]? = some entry) (skips : ¬ Decides u req entry) :
    Found u req stores sent (mark + 1) result := by
  cases found with
  | nothing passed => exact .nothing (passed.extend read skips)
  | forward offset other after before stands decides passed all =>
      exact .forward offset other after (Nat.lt_succ_of_lt before) stands decides
        (passed.extend read skips) all
  | mismatch offset other after before stands decides passed part =>
      exact .mismatch offset other after (Nat.lt_succ_of_lt before) stands decides
        (passed.extend read skips) part

theorem passed_empty (mark : Nat) : Passed u req stores mark mark := by
  intro offset _ after before
  omega

/-- The search visits the stores before the mark, the youngest first, down to the first that is
not written back. -/
theorem searchStoresLoop_finds (fuel mark : Nat)
    (inv : ConsistentFor spared u doneSeqNum loads stores sent) (after : sent ≤ mark)
    (within : mark ≤ stores.length) (enough : mark < sent + fuel) :
    ∃ result, u.searchStoresLoop req fuel (slot u.SQEntries u.storeHead mark) = .ok result ∧
      Found u req stores sent mark result := by
  have room := inv.storeRing.room
  induction fuel generalizing mark with
  | zero => omega
  | succ fuel ih =>
      rw [searchStoresLoop, inv.storeWBIdx]
      by_cases top : mark = sent
      · subst mark
        exact ⟨.nothing, if_pos rfl, .nothing (passed_empty sent)⟩
      have notTop : slot u.SQEntries u.storeHead mark ≠ slot u.SQEntries u.storeHead sent :=
        fun same => top (slot_inj (by omega) (by omega) same)
      rw [if_neg notTop]
      obtain ⟨offset, rfl⟩ : ∃ offset, mark = offset + 1 := ⟨mark - 1, by omega⟩
      have inside : offset < stores.length := within
      have read : stores[offset]? = some stores[offset] := List.getElem?_eq_getElem inside
      have ok := inv.entries offset _ read
      have unsent : sent ≤ offset := by omega
      have slotIs := inv.storeRing.getElem? read
      have place : u.decrStIdx (slot u.SQEntries u.storeHead (offset + 1)) =
          slot u.SQEntries u.storeHead offset := previous_slot inv.storeRing.inside
      obtain ⟨result, returned, finds⟩ := ih offset unsent (Nat.le_of_lt inside) (by omega)
      simp only [place, slotIs, ok.named]
      have skip : ∀ skips : ¬ Decides u req stores[offset],
          ∃ result, u.searchStoresLoop req fuel (slot u.SQEntries u.storeHead offset) = .ok result ∧
            Found u req stores sent (offset + 1) result :=
        fun skips => ⟨result, returned, finds.extend read skips⟩
      split
      · next empty => exact skip fun decides => decides.1 empty
      next executed =>
        split
        · next uncached => exact skip fun decides => by rw [decides.2.1] at uncached; cases uncached
        next cached =>
          rw [Bool.not_eq_true] at cached
          rw [ok.addressed executed, Bool.not_true, if_neg Bool.false_ne_true]
          split
          · next all =>
              exact ⟨_, rfl, .forward offset _ unsent (Nat.lt_succ_self _) read
                ⟨executed, cached, Or.inl all⟩ (passed_empty _) all⟩
          next part =>
            split
            · next touched =>
                rw [ok.unanswered unsent, if_neg Bool.false_ne_true]
                exact ⟨_, rfl, .mismatch offset _ unsent (Nat.lt_succ_self _) read
                  ⟨executed, cached, Or.inr touched⟩ (passed_empty _) part⟩
            · next apart =>
                apply skip
                intro decides
                rcases decides.2.2 with all | touched
                · exact part all
                · exact apart touched

def olderStores (stores : List SQEntry) (load : InstSeqNum) : Nat :=
  (stores.map SQEntry.seqNum).countP fun inst => decide (inst < load)

theorem sent_le_olderStores (inv : ConsistentFor spared u doneSeqNum loads stores sent)
    {load : InstSeqNum} (member : load ∈ loads) (open' : doneSeqNum < load) :
    sent ≤ olderStores stores load := by
  have whole : olderStores stores load = olderStores (stores.take sent) load +
      olderStores (stores.drop sent) load := by
    rw [olderStores, olderStores, olderStores, ← List.countP_append, ← List.map_append,
      List.take_append_drop]
  have all : olderStores (stores.take sent) load = sent := by
    rw [olderStores, List.countP_eq_length.mpr]
    · rw [List.length_map, List.length_take, Nat.min_eq_left inv.sent_le]
    · intro inst older
      obtain ⟨entry, taken, rfl⟩ := List.mem_map.mp older
      obtain ⟨offset, within, is⟩ := List.getElem_of_mem taken
      have before : offset < sent := by
        rw [List.length_take] at within
        omega
      have read : stores[offset]? = some entry := by
        rw [List.getElem_take] at is
        exact List.getElem?_eq_some_iff.mpr ⟨_, is⟩
      exact decide_eq_true (inv.frontier entry (List.mem_of_getElem? read)
        ((inv.entries offset entry read).marked before) load member open')
  omega

theorem searchStores_finds (req : Request) (inv : ConsistentFor spared u doneSeqNum loads stores sent)
    {load : InstSeqNum} (member : load ∈ loads) (open' : doneSeqNum < load) :
    ∃ result, u.searchStores req (u.insts load).sqIdx = .ok result ∧
      Found u req stores sent (olderStores stores load) result := by
  have mark := inv.loadMarks load member open'
  have after := sent_le_olderStores inv member open'
  have within : olderStores stores load ≤ stores.length := by
    have bound := List.countP_le_length (p := fun inst => decide (inst < load))
      (l := stores.map SQEntry.seqNum)
    rwa [List.length_map] at bound
  have room := inv.storeRing.room
  cases index : (u.insts load).sqIdx with
  | none =>
      rw [index] at mark
      have none' : olderStores stores load = 0 := by
        apply List.countP_eq_zero.mpr
        intro inst older
        obtain ⟨entry, found, rfl⟩ := List.mem_map.mp older
        simpa using mark entry found
      refine ⟨.nothing, rfl, .nothing ?_⟩
      intro offset entry _ before
      omega
  | some store_idx =>
      rw [index] at mark
      obtain rfl : store_idx = slot u.SQEntries u.storeHead (olderStores stores load) := mark
      exact searchStoresLoop_finds u.SQEntries _ inv after within (by omega)

theorem older_of_lt_olderStores (inv : ConsistentFor spared u doneSeqNum loads stores sent)
    {load : InstSeqNum} (read : stores[offset]? = some entry) (before : offset < olderStores stores load) :
    entry.seqNum < load :=
  lt_of_lt_countP inv.storesSorted (by rw [List.getElem?_map, read]; rfl) before

def RecordsStall (u' : LSQUnit) (load : InstSeqNum) : Prop :=
  u'.stalled = true ∧ ∃ waiting, u'.loadQueue u'.stallingLoadIdx = some waiting ∧ waiting ≤ load

theorem recordStall_keeps (inv : ConsistentFor spared u doneSeqNum loads stores sent)
    {load : InstSeqNum} {load_offset : Nat} (loaded : loads[load_offset]? = some load)
    (open' : doneSeqNum < load) (read : stores[offset]? = some entry)
    (before : offset < olderStores stores load) :
    ∃ u', u.recordStall load (slot u.LQEntries u.loadHead load_offset)
        (slot u.SQEntries u.storeHead offset) = .ok u' ∧
      ConsistentFor spared u' doneSeqNum loads stores sent ∧ RecordsStall u' load := by
  have named := (inv.entries offset entry read).named
  have held : u.loadQueue (slot u.LQEntries u.loadHead load_offset) = some load :=
    inv.loadRing.getElem? (by rw [List.getElem?_map, loaded]; rfl)
  have waits : ConsistentFor spared
      { u with
        stalled := true
        stallingStoreIsn := entry.seqNum
        stallingLoadIdx := slot u.LQEntries u.loadHead load_offset } doneSeqNum loads stores sent := by
    apply inv.frame
    · exact .beside fun inst => sameInst_refl _
    · intro _
      exact ⟨load_offset, load, loaded, rfl, older_of_lt_olderStores inv read before, open'⟩
  rw [recordStall, inv.storeRing.getElem? read, named, deref_bind]
  split
  · next stalls =>
      obtain ⟨place, other, found, placeIs, _⟩ := inv.waiting stalls
      have atSlot : u.loadQueue u.stallingLoadIdx = some other := by
        rw [placeIs]
        exact inv.loadRing.getElem? (by rw [List.getElem?_map, found]; rfl)
      rw [atSlot, deref_bind]
      split
      · exact ⟨_, rfl, waits, rfl, load, held, Nat.le_refl _⟩
      · next older => exact ⟨_, rfl, inv, stalls, other, atSlot, Nat.not_lt.mp older⟩
  · exact ⟨_, rfl, waits, rfl, load, held, Nat.le_refl _⟩

theorem accessMemory_keeps (inv : ConsistentFor spared u doneSeqNum loads stores sent)
    (load : InstSeqNum) (cacheBlocked : Bool) :
    ConsistentFor spared (u.accessMemory load cacheBlocked) doneSeqNum loads stores sent := by
  unfold accessMemory
  split
  · split
    · exact inv
    · apply inv.frame
      · exact .beside fun inst => sameInst_refl _
      · exact inv.waiting
  · exact inv

theorem read_keeps (req : Request) (inv : ConsistentFor spared u doneSeqNum loads stores sent)
    {load : InstSeqNum}
    {load_offset : Nat} (loaded : loads[load_offset]? = some load) (open' : doneSeqNum < load)
    (isAtCommit cacheBlocked : Bool) :
    ∃ result, u.read req (slot u.LQEntries u.loadHead load_offset) isAtCommit cacheBlocked = .ok result ∧
      ConsistentFor spared result.2 doneSeqNum loads stores sent := by
  have atSlot : u.loadQueue (slot u.LQEntries u.loadHead load_offset) = some load :=
    inv.loadRing.getElem? (by rw [List.getElem?_map, loaded]; rfl)
  rw [LSQUnit.read, atSlot, deref_bind]
  split
  · exact ⟨_, rfl, inv⟩
  split
  · exact ⟨_, rfl, inv⟩
  obtain ⟨result, returned, found⟩ :=
    searchStores_finds req inv (List.mem_of_getElem? loaded) open'
  cases found with
  | nothing passed =>
      exact ⟨_, bind_eq_of_ok returned rfl, accessMemory_keeps inv load cacheBlocked⟩
  | forward offset entry _ _ read _ _ _ =>
      have named : (u.storeQueue (slot u.SQEntries u.storeHead offset)).inst = some entry.seqNum := by
        rw [inv.storeRing.getElem? read]
        exact (inv.entries offset entry read).named
      have derefs : deref (u.storeQueue (slot u.SQEntries u.storeHead offset)).inst =
          .ok entry.seqNum := by rw [named]; rfl
      exact ⟨(_, u), bind_eq_of_ok returned (bind_eq_of_ok derefs rfl), inv⟩
  | mismatch offset entry _ before read _ _ _ =>
      obtain ⟨u', recorded, kept, _⟩ := recordStall_keeps inv loaded open' read before
      exact ⟨(_, u'), bind_eq_of_ok returned (bind_eq_of_ok recorded rfl), kept⟩

theorem setAddress_keeps (inv : ConsistentFor spared u doneSeqNum loads stores sent)
    (inst : InstSeqNum) (req : Request) :
    ConsistentFor spared (u.setAddress inst req) doneSeqNum loads stores sent :=
  setInst_keeps inv ⟨rfl, rfl, rfl, rfl, fun _ => rfl⟩

theorem executeLoad_keeps (inv : ConsistentFor spared u doneSeqNum loads stores sent)
    {load_offset : Nat} (loaded : loads[load_offset]? = some inst) (open' : doneSeqNum < inst)
    (live : (u.insts inst).squashed = false) (access : LoadAccess) :
    ∃ result, u.executeLoad inst access = .ok result ∧
      ConsistentFor spared result.2 doneSeqNum loads stores sent := by
  have notSquashed : (!(u.insts inst).squashed) = true := by rw [live]; rfl
  cases access with
  | delayed => exact ⟨(_, u), assert_bind notSquashed _, inv⟩
  | faulted => exact ⟨(_, u), assert_bind notSquashed _, inv⟩
  | predicatedFalse => exact ⟨(_, u), assert_bind notSquashed _, inv⟩
  | translated req isAtCommit cacheBlocked =>
      have addressed := setAddress_keeps inv inst req
      obtain ⟨⟨result, u'⟩, returned, kept⟩ :=
        read_keeps req addressed loaded open' isAtCommit cacheBlocked
      rw [executeLoad, assert_bind notSquashed, inv.loadOwn load_offset inst loaded]
      have goesOn : ∃ final, (if result = .refused then Except.ok (true, u')
          else if u'.isLoadBlocked then .ok (false, u')
          else if u'.checkLoads then u'.checkViolations (u'.incrLdIdx (u'.insts inst).lqIdx) inst
          else .ok (false, u')) = .ok final ∧ ConsistentFor spared final.2 doneSeqNum loads stores sent := by
        split
        · exact ⟨_, rfl, kept⟩
        split
        · exact ⟨_, rfl, kept⟩
        split
        · have following : u'.incrLdIdx (u'.insts inst).lqIdx =
              slot u'.LQEntries u'.loadHead (load_offset + 1) := by
            rw [kept.loadOwn load_offset inst loaded]
            exact next_slot kept.loadRing.inside
          obtain ⟨within, _⟩ := List.getElem?_eq_some_iff.mp loaded
          rw [following]
          exact checkViolations_keeps inst kept within
        · exact ⟨_, rfl, kept⟩
      obtain ⟨final, decided, holds⟩ := goesOn
      exact ⟨final, bind_eq_of_ok returned decided, holds⟩

theorem write_keeps (inv : ConsistentFor spared u doneSeqNum loads stores sent)
    (read : stores[offset]? = some entry) (unmarked : entry.canWB = false)
    (address : (u.insts entry.seqNum).effAddrValid = true)
    (notIpr : (u.insts entry.seqNum).isStoreConditional = true → req.mmappedIpr = false)
    (data : Nat → Byte) :
    ConsistentFor spared (u.setEntry (slot u.SQEntries u.storeHead offset) (written entry req data))
      doneSeqNum loads (stores.set offset (written entry req data)) sent := by
  have ok := inv.entries offset entry read
  refine setEntry_keeps inv read ?_ ?_ ?_ ?_ ?_
  · rfl
  · exact ⟨ok.named, ok.marked, ok.unanswered, ok.unhanded, ok.noPrefetch,
      Nat.mod_lt _ (by decide), fun _ => address,
      fun _ => ⟨req, rfl, notIpr⟩, ok.own⟩
  · exact id
  · intro _ marked
    rw [written, unmarked] at marked
    cases marked
  · rw [pending_set read]
    exact inv.counted.trans (Int.sub_add_cancel _ _).symm

structure Executes (u : LSQUnit) (doneSeqNum : InstSeqNum) (loads : List InstSeqNum)
    (stores : List SQEntry) (offset : Nat) (entry : SQEntry) (inst : InstSeqNum)
    (access : StoreAccess) : Prop where
  read : stores[offset]? = some entry
  named : entry.seqNum = inst
  fresh : entry.size = 0
  unmarked : entry.canWB = false
  open' : doneSeqNum < inst
  isStore : (u.insts inst).isLoad = false
  live : (u.insts inst).squashed = false
  fits : ∀ req data, access = .written req data → req.size ≤ 16 ∨ req.cacheBlockZero = true
  oldest : ∀ req data, access = .written req data → (u.insts inst).isStoreConditional = true →
    req.mmappedIpr = false ∧ Ready doneSeqNum loads stores offset inst

theorem load_idx_eq (inv : Consistent u doneSeqNum loads stores sent)
    (read : stores[offset]? = some entry) (open' : doneSeqNum < entry.seqNum) :
    (u.insts entry.seqNum).lqIdx =
      slot u.LQEntries u.loadHead (loads.countP fun load => decide (load < entry.seqNum)) :=
  inv.storeMarks entry (List.mem_of_getElem? read) True.intro open'

def started (u : LSQUnit) (inst : InstSeqNum) (store_idx : Nat) (entry : SQEntry) (req : Request)
    (data : Nat → Byte) : LSQUnit :=
  -- what a store leaves before it checks for violations
  (u.setAddress inst req).setEntry store_idx (written entry req data)

theorem executeStore_written (inv : Consistent u doneSeqNum loads stores sent) {data : Nat → Byte}
    (executes : Executes u doneSeqNum loads stores offset entry inst (.written req data)) :
    u.executeStore inst (.written req data) =
      (started u inst (slot u.SQEntries u.storeHead offset) entry req data).finishStore inst
        (slot u.SQEntries u.storeHead offset)
        (slot u.LQEntries u.loadHead (loads.countP fun load => decide (load < inst)))
        (.written req data) := by
  obtain ⟨read, rfl, _, _, open', _, live, fits, _⟩ := executes
  have ok := inv.entries offset entry read
  have slotIs := inv.storeRing.getElem? read
  obtain ⟨within, _⟩ := List.getElem?_eq_some_iff.mp read
  have counted := inv.storeRing.counted
  have occupied : u.stores ≠ 0 := by omega
  have notSquashed : (!(u.insts entry.seqNum).squashed) = true := by rw [live]; rfl
  have present : ((u.setAddress entry.seqNum req).storeQueue
      (slot u.SQEntries u.storeHead offset)).inst.isSome = true := by
    change (u.storeQueue (slot u.SQEntries u.storeHead offset)).inst.isSome = true
    rw [slotIs, ok.named]
    rfl
  have sized : (decide (req.size ≤ 16) || req.cacheBlockZero) = true := by
    rcases fits req data rfl with small | zeros
    · simp [small]
    · simp [zeros]
  rw [executeStore, assert_bind (decide_eq_true occupied), ok.own, deref_bind, assert_bind notSquashed,
    load_idx_eq inv read open']
  refine bind_eq_of_ok ?_ rfl
  rw [initiateStore, write, assert_bind present, assert_bind sized]
  change Except.ok ((u.setAddress entry.seqNum req).setEntry _ (written (u.storeQueue _) req data)) = _
  rw [slotIs]
  rfl

theorem started_keeps (inv : Consistent u doneSeqNum loads stores sent) {data : Nat → Byte}
    (executes : Executes u doneSeqNum loads stores offset entry inst (.written req data)) :
    Consistent (started u inst (slot u.SQEntries u.storeHead offset) entry req data) doneSeqNum loads
      (stores.set offset (written entry req data)) sent := by
  have notIpr := fun conditional => (executes.oldest req data rfl conditional).1
  obtain ⟨read, rfl, _, unmarked, _, _, _, _, _⟩ := executes
  have addressed := setAddress_keeps inv entry.seqNum req
  have static : (u.setAddress entry.seqNum req).insts entry.seqNum = { u.insts entry.seqNum with
      effAddr := req.vaddr
      effSize := req.size % 256
      effAddrValid := true
      uncacheable := req.uncacheable } := Function.update_self _ _ _
  exact write_keeps addressed read unmarked (by rw [static]) (by rw [static]; exact notIpr) data

theorem ready_keeps (inv : Consistent u doneSeqNum loads stores sent) {data : Nat → Byte}
    (executes : Executes u doneSeqNum loads stores offset entry inst (.written req data)) :
    ∃ stores', Consistent
      ((started u inst (slot u.SQEntries u.storeHead offset) entry req data).readyConditional inst
        (slot u.SQEntries u.storeHead offset)) doneSeqNum loads stores' sent := by
  have kept := started_keeps inv executes
  have oldest := executes.oldest req data rfl
  obtain ⟨read, rfl, _, unmarked, _, _, _, _, _⟩ := executes
  obtain ⟨within, _⟩ := List.getElem?_eq_some_iff.mp read
  have static : ((started u entry.seqNum (slot u.SQEntries u.storeHead offset) entry req data).insts
      entry.seqNum).isStoreConditional = (u.insts entry.seqNum).isStoreConditional := by
    simp [started, setEntry, setAddress, setInst]
  unfold readyConditional
  split
  · next conditional =>
      rw [static] at conditional
      obtain ⟨_, first, younger⟩ := oldest conditional
      refine ⟨_, mark_keeps kept (List.getElem?_set_self within) unmarked ⟨?_, younger⟩⟩
      intro before older order found
      rcases getElem?_set_cases found with ⟨same, _⟩ | ⟨_, found⟩
      · omega
      · exact first before older order found
  · exact ⟨_, kept⟩

theorem readyConditional_loads (u : LSQUnit) (inst : InstSeqNum) (store_idx : Nat) :
    (u.readyConditional inst store_idx).LQEntries = u.LQEntries ∧
      (u.readyConditional inst store_idx).loadHead = u.loadHead := by
  unfold readyConditional
  split <;> exact ⟨rfl, rfl⟩

theorem started_size (u : LSQUnit) (inst : InstSeqNum) (store_idx : Nat) (entry : SQEntry)
    (data : Nat → Byte) :
    ((started u inst store_idx entry req data).storeQueue store_idx).size = req.size % 256 := by
  simp [started, setEntry, written]

theorem executeStore_checks (inv : Consistent u doneSeqNum loads stores sent) {data : Nat → Byte}
    (executes : Executes u doneSeqNum loads stores offset entry inst (.written req data))
    (nonempty : req.size % 256 ≠ 0) :
    u.executeStore inst (.written req data) =
      ((started u inst (slot u.SQEntries u.storeHead offset) entry req data).readyConditional inst
        (slot u.SQEntries u.storeHead offset)).checkViolations
          (slot u.LQEntries u.loadHead (loads.countP fun load => decide (load < inst))) inst := by
  rw [executeStore_written inv executes, finishStore, started_size, if_neg nonempty]
  rfl

theorem executeStore_keeps (inv : Consistent u doneSeqNum loads stores sent) {access : StoreAccess}
    (executes : Executes u doneSeqNum loads stores offset entry inst access) :
    ∃ result stores', u.executeStore inst access = .ok result ∧
      Consistent result.2 doneSeqNum loads stores' sent := by
  have slotIs := inv.storeRing.getElem? executes.read
  have ok := inv.entries offset entry executes.read
  obtain ⟨inside, _⟩ := List.getElem?_eq_some_iff.mp executes.read
  have counted := inv.storeRing.counted
  have occupied : u.stores ≠ 0 := by omega
  have own : (u.insts inst).sqIdx = some (slot u.SQEntries u.storeHead offset) := by
    rw [← executes.named]
    exact ok.own
  have notSquashed : (!(u.insts inst).squashed) = true := by rw [executes.live]; rfl
  cases access with
  | delayed =>
      refine ⟨(false, u), stores, ?_, inv⟩
      rw [executeStore, assert_bind (decide_eq_true occupied), own, deref_bind, assert_bind notSquashed]
  | faulted =>
      refine ⟨(true, u), stores, ?_, inv⟩
      rw [executeStore, assert_bind (decide_eq_true occupied), own, deref_bind, assert_bind notSquashed]
      exact bind_eq_of_ok rfl (by rw [finishStore, slotIs, if_pos executes.fresh]; rfl)
  | predicatedFalse =>
      refine ⟨(false, u), stores, ?_, inv⟩
      rw [executeStore, assert_bind (decide_eq_true occupied), own, deref_bind, assert_bind notSquashed]
      exact bind_eq_of_ok rfl (by rw [finishStore, slotIs, if_pos executes.fresh]; rfl)
  | written req data =>
      by_cases empty : req.size % 256 = 0
      · rw [executeStore_written inv executes, finishStore, started_size, if_pos empty]
        exact ⟨_, _, rfl, started_keeps inv executes⟩
      · obtain ⟨stores', ready⟩ := ready_keeps inv executes
        obtain ⟨result, checked, final⟩ := checkViolations_keeps inst ready List.countP_le_length
        obtain ⟨size, head⟩ := readyConditional_loads
          (started u inst (slot u.SQEntries u.storeHead offset) entry req data) inst
          (slot u.SQEntries u.storeHead offset)
        rw [size, head] at checked
        exact ⟨result, stores', (executeStore_checks inv executes empty).trans checked, final⟩

end Execution

end GemFi.LsqExecution
