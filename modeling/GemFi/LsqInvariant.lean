import GemFi.LsqUnit
import GemFi.Outcomes

/-!
The invariant of the load and store queues over orderly runs. It speaks of the lists that
the two rings hold; each primitive change of a ring (an insertion, the departure of the
oldest or of the youngest item, a change of an entry) keeps it, and every operation of the
unit is a sequence of these.
-/

namespace GemFi.LsqInvariant

open Rings Outcomes LsqUnit LsqUnit.LSQUnit

/-- What holds of the entry `offset` places behind the head of the store queue. The first
`sent` entries are written back. -/
structure EntryOk (insts : InstSeqNum → DynInst) (size head sent : Nat) (blocked : Bool)
    (offset : Nat) (entry : SQEntry) : Prop where
  named : entry.inst = some entry.seqNum
  marked : offset < sent → entry.canWB = true
  unanswered : sent ≤ offset → entry.completed = false
  unhanded : sent ≤ offset → entry.committed = true → offset = sent ∧ blocked = true
  noPrefetch : (insts entry.seqNum).isDataPrefetch = false
  small : entry.size < 256
  addressed : entry.size ≠ 0 → (insts entry.seqNum).effAddrValid = true
  requested : entry.size ≠ 0 → ∃ req, entry.req = some req ∧
    ((insts entry.seqNum).isStoreConditional = true → req.mmappedIpr = false)
  own : (insts entry.seqNum).sqIdx = some (slot size head offset)

def StoreMark (size head : Nat) (stores : List SQEntry) (load : InstSeqNum) : Option Nat → Prop
  -- the store queue index that a load remembers is that of the first store after it
  | none => ∀ entry ∈ stores, load ≤ entry.seqNum
  | some index => Bookmark size head (stores.map SQEntry.seqNum) load index

def Waiting (doneSeqNum : InstSeqNum) (size head : Nat) (loads : List InstSeqNum)
    (stallingStoreIsn : InstSeqNum) (stallingLoadIdx : Nat) : Prop :=
  ∃ offset load, loads[offset]? = some load ∧ stallingLoadIdx = slot size head offset ∧
    stallingStoreIsn < load ∧ doneSeqNum < load

/-- The unit, of which commit has reached `doneSeqNum`, holds these loads and stores. A squash
visits the loads first, and until it has reached the stores only those that it will spare
remember where the younger loads begin. -/
structure ConsistentFor (spared : InstSeqNum → Prop) (u : LSQUnit) (doneSeqNum : InstSeqNum)
    (loads : List InstSeqNum) (stores : List SQEntry) (sent : Nat) : Prop where
  loadRing : Ring u.loadQueue u.LQEntries u.loadHead u.loadTail u.loads (loads.map some)
  storeRing : Ring u.storeQueue u.SQEntries u.storeHead u.storeTail u.stores stores
  sent_le : sent ≤ stores.length
  storeWBIdx : u.storeWBIdx = slot u.SQEntries u.storeHead sent
  loadsSorted : loads.Pairwise (· < ·)
  storesSorted : (stores.map SQEntry.seqNum).Pairwise (· < ·)
  entries : ∀ offset entry, stores[offset]? = some entry →
    EntryOk u.insts u.SQEntries u.storeHead sent u.isStoreBlocked offset entry
  markedFirst : ∀ (first second : Nat) (older younger : SQEntry), first < second → stores[first]? = some older →
    stores[second]? = some younger → younger.canWB = true → older.canWB = true
  counted : u.storesToWB = stores.countP SQEntry.pending
  blocked : u.isStoreBlocked = true → ∃ entry, stores[sent]? = some entry ∧ entry.canWB = true
  loadOwn : ∀ offset load, loads[offset]? = some load →
    (u.insts load).lqIdx = slot u.LQEntries u.loadHead offset
  loadMarks : ∀ load ∈ loads, doneSeqNum < load →
    StoreMark u.SQEntries u.storeHead stores load (u.insts load).sqIdx
  storeMarks : ∀ entry ∈ stores, spared entry.seqNum → doneSeqNum < entry.seqNum →
    Bookmark u.LQEntries u.loadHead loads entry.seqNum (u.insts entry.seqNum).lqIdx
  frontier : ∀ entry ∈ stores, entry.canWB = true → ∀ load ∈ loads, doneSeqNum < load →
    entry.seqNum < load
  waiting : u.stalled = true →
    Waiting doneSeqNum u.LQEntries u.loadHead loads u.stallingStoreIsn u.stallingLoadIdx

abbrev Consistent := ConsistentFor fun _ => True

section Frame

def SameInst (inst inst' : DynInst) : Prop :=
  inst'.lqIdx = inst.lqIdx ∧ inst'.sqIdx = inst.sqIdx ∧ inst'.isDataPrefetch = inst.isDataPrefetch ∧
    inst'.isStoreConditional = inst.isStoreConditional ∧
    (inst.effAddrValid = true → inst'.effAddrValid = true)

structure SameQueues (u u' : LSQUnit) : Prop where
  LQEntries : u'.LQEntries = u.LQEntries
  SQEntries : u'.SQEntries = u.SQEntries
  loadQueue : u'.loadQueue = u.loadQueue
  storeQueue : u'.storeQueue = u.storeQueue
  loads : u'.loads = u.loads
  stores : u'.stores = u.stores
  storesToWB : u'.storesToWB = u.storesToWB
  loadHead : u'.loadHead = u.loadHead
  loadTail : u'.loadTail = u.loadTail
  storeHead : u'.storeHead = u.storeHead
  storeWBIdx : u'.storeWBIdx = u.storeWBIdx
  storeTail : u'.storeTail = u.storeTail
  isStoreBlocked : u'.isStoreBlocked = u.isStoreBlocked
  insts : ∀ inst, SameInst (u.insts inst) (u'.insts inst)

variable {spared : InstSeqNum → Prop} {insts insts' : InstSeqNum → DynInst} {u u' : LSQUnit} {doneSeqNum : InstSeqNum}
  {loads : List InstSeqNum} {stores : List SQEntry} {sent : Nat}

theorem sameInst_refl (inst : DynInst) : SameInst inst inst := ⟨rfl, rfl, rfl, rfl, id⟩

theorem sameInst_update {inst : InstSeqNum} {value : DynInst} (same : SameInst (insts inst) value) :
    ∀ other, SameInst (insts other) (Function.update insts inst value other) := by
  intro other
  by_cases equal : other = inst
  · subst other
    rw [Function.update_self]
    exact same
  · rw [Function.update_of_ne equal]
    exact sameInst_refl _

/-- Fields that have nothing to do with the queues may change. -/
theorem SameQueues.beside {stalled isLoadBlocked loadBlockedHandled storeInFlight : Bool}
    {stallingStoreIsn blockedLoadSeqNum : InstSeqNum} {stallingLoadIdx : Nat}
    {memDepViolator : Option InstSeqNum} (same : ∀ inst, SameInst (u.insts inst) (insts' inst)) :
    SameQueues u { u with
      insts := insts'
      stalled := stalled
      stallingStoreIsn := stallingStoreIsn
      stallingLoadIdx := stallingLoadIdx
      isLoadBlocked := isLoadBlocked
      loadBlockedHandled := loadBlockedHandled
      storeInFlight := storeInFlight
      blockedLoadSeqNum := blockedLoadSeqNum
      memDepViolator := memDepViolator } where
  LQEntries := rfl
  SQEntries := rfl
  loadQueue := rfl
  storeQueue := rfl
  loads := rfl
  stores := rfl
  storesToWB := rfl
  loadHead := rfl
  loadTail := rfl
  storeHead := rfl
  storeWBIdx := rfl
  storeTail := rfl
  isStoreBlocked := rfl
  insts := same

theorem EntryOk.of_sameInst {size head sent : Nat} {blocked : Bool} {offset : Nat} {entry : SQEntry}
    (ok : EntryOk insts size head sent blocked offset entry)
    (same : SameInst (insts entry.seqNum) (insts' entry.seqNum)) :
    EntryOk insts' size head sent blocked offset entry where
  named := ok.named
  marked := ok.marked
  unanswered := ok.unanswered
  unhanded := ok.unhanded
  noPrefetch := same.2.2.1.trans ok.noPrefetch
  small := ok.small
  addressed := fun executed => same.2.2.2.2 (ok.addressed executed)
  requested := by
    rw [same.2.2.2.1]
    exact ok.requested
  own := same.2.1.trans ok.own

theorem ConsistentFor.frame (inv : ConsistentFor spared u doneSeqNum loads stores sent) (same : SameQueues u u')
    (waits : u'.stalled = true →
      Waiting doneSeqNum u.LQEntries u.loadHead loads u'.stallingStoreIsn u'.stallingLoadIdx) :
    ConsistentFor spared u' doneSeqNum loads stores sent where
  loadRing := by
    rw [same.loadQueue, same.LQEntries, same.loadHead, same.loadTail, same.loads]
    exact inv.loadRing
  storeRing := by
    rw [same.storeQueue, same.SQEntries, same.storeHead, same.storeTail, same.stores]
    exact inv.storeRing
  sent_le := inv.sent_le
  storeWBIdx := by
    rw [same.storeWBIdx, same.SQEntries, same.storeHead]
    exact inv.storeWBIdx
  loadsSorted := inv.loadsSorted
  storesSorted := inv.storesSorted
  entries := by
    intro offset entry found
    rw [same.SQEntries, same.storeHead, same.isStoreBlocked]
    exact (inv.entries offset entry found).of_sameInst (same.insts _)
  markedFirst := inv.markedFirst
  counted := same.storesToWB.trans inv.counted
  blocked := by
    rw [same.isStoreBlocked]
    exact inv.blocked
  loadOwn := by
    intro offset load found
    rw [same.LQEntries, same.loadHead, (same.insts load).1]
    exact inv.loadOwn offset load found
  loadMarks := by
    intro load member open'
    rw [same.SQEntries, same.storeHead, (same.insts load).2.1]
    exact inv.loadMarks load member open'
  storeMarks := by
    intro entry member spares open'
    rw [same.LQEntries, same.loadHead, (same.insts entry.seqNum).1]
    exact inv.storeMarks entry member spares open'
  frontier := inv.frontier
  waiting := by
    rw [same.LQEntries, same.loadHead]
    exact waits

theorem ConsistentFor.respare {spared' : InstSeqNum → Prop}
    (inv : ConsistentFor spared u doneSeqNum loads stores sent)
    (weaker : ∀ value ∈ stores, spared' value.seqNum → spared value.seqNum) :
    ConsistentFor spared' u doneSeqNum loads stores sent where
  loadRing := inv.loadRing
  storeRing := inv.storeRing
  sent_le := inv.sent_le
  storeWBIdx := inv.storeWBIdx
  loadsSorted := inv.loadsSorted
  storesSorted := inv.storesSorted
  entries := inv.entries
  markedFirst := inv.markedFirst
  counted := inv.counted
  blocked := inv.blocked
  loadOwn := inv.loadOwn
  loadMarks := inv.loadMarks
  storeMarks := fun value member isSpared =>
    inv.storeMarks value member (weaker value member isSpared)
  frontier := inv.frontier
  waiting := inv.waiting

end Frame

section Marks

variable {size head : Nat} {stores stores' : List SQEntry} {entry : SQEntry} {load : InstSeqNum}
  {index : Option Nat}

theorem storeMark_congr (same : stores'.map SQEntry.seqNum = stores.map SQEntry.seqNum) :
    StoreMark size head stores' load index ↔ StoreMark size head stores load index := by
  cases index with
  | none =>
      have read : ∀ stores : List SQEntry, (∀ entry ∈ stores, load ≤ entry.seqNum) ↔
          ∀ seqNum ∈ stores.map SQEntry.seqNum, load ≤ seqNum := fun _ => List.forall_mem_map.symm
      rw [StoreMark, StoreMark, read, read, same]
  | some index => rw [StoreMark, StoreMark, same]

theorem storeMark_concat_iff (younger : load ≤ entry.seqNum) :
    StoreMark size head (stores ++ [entry]) load index ↔ StoreMark size head stores load index := by
  cases index with
  | none =>
      rw [StoreMark, StoreMark, List.forall_mem_append, and_iff_left]
      simpa using younger
  | some index =>
      rw [StoreMark, StoreMark, List.map_append]
      exact bookmark_append_iff (by simpa using younger)

theorem getElem?_concat_of_some {α : Type} {items : List α} {a found : α} {offset : Nat}
    (read : items[offset]? = some found) : (items ++ [a])[offset]? = some found := by
  obtain ⟨within, _⟩ := List.getElem?_eq_some_iff.mp read
  rw [List.getElem?_append_left within]
  exact read

theorem getElem?_concat_cases {α : Type} {items : List α} {a found : α} {offset : Nat}
    (read : (items ++ [a])[offset]? = some found) :
    items[offset]? = some found ∨ (offset = items.length ∧ found = a) := by
  rcases Nat.lt_or_ge offset items.length with within | beyond
  · rw [List.getElem?_append_left within] at read
    exact Or.inl read
  · rw [List.getElem?_append_right beyond] at read
    obtain ⟨last, is⟩ := List.getElem?_eq_some_iff.mp read
    rw [List.length_singleton] at last
    exact Or.inr ⟨by omega, by simpa using is.symm⟩

end Marks

section Insertion

variable {spared : InstSeqNum → Prop} {u : LSQUnit} {doneSeqNum inst : InstSeqNum} {loads : List InstSeqNum}
  {stores : List SQEntry} {sent : Nat}

theorem deref_bind {α β : Type} (a : α) (next : α → Except Stop β) :
    (deref (some a) >>= next) = next a := rfl

theorem init_consistent (maxLQEntries maxSQEntries depCheckShift : Nat) (checkLoads needsTSO : Bool)
    (insts : InstSeqNum → DynInst) (doneSeqNum : InstSeqNum) :
    ConsistentFor spared (init maxLQEntries maxSQEntries depCheckShift checkLoads needsTSO insts)
      doneSeqNum [] [] 0 where
  loadRing := ⟨Nat.succ_pos _, Nat.succ_pos _, rfl, rfl, rfl⟩
  storeRing := ⟨Nat.succ_pos _, Nat.succ_pos _, rfl, rfl, rfl⟩
  sent_le := Nat.le_refl _
  storeWBIdx := rfl
  loadsSorted := List.Pairwise.nil
  storesSorted := List.Pairwise.nil
  entries := by simp
  markedFirst := by simp
  counted := rfl
  blocked := by simp [init]
  loadOwn := by simp
  loadMarks := by simp
  storeMarks := by simp
  frontier := by simp
  waiting := by simp [init]

theorem insertLoad_keeps (inv : ConsistentFor spared u doneSeqNum loads stores sent)
    (room : loads.length + 1 < u.LQEntries) (afterLoads : ∀ other ∈ loads, other < inst)
    (afterStores : ∀ entry ∈ stores, entry.seqNum < inst) :
    ∃ u', u.insertLoad inst = .ok u' ∧ ConsistentFor spared u' doneSeqNum (loads ++ [inst]) stores sent := by
  have free : (u.loadTail + 1) % u.LQEntries ≠ u.loadHead :=
    inv.loadRing.next_tail_ne_head (by simpa using room)
  have counted := inv.loadRing.counted
  rw [List.length_map] at counted
  have few : u.loads < u.LQEntries := by omega
  rw [insertLoad, assert_bind (decide_eq_true free), assert_bind (decide_eq_true few)]
  refine ⟨_, rfl, ?_⟩
  have storesCounted := inv.storeRing.counted
  have oldLoad : ∀ other ∈ loads, other ≠ inst := fun other member => Nat.ne_of_lt (afterLoads other member)
  have oldStore : ∀ entry ∈ stores, entry.seqNum ≠ inst :=
    fun entry member => Nat.ne_of_lt (afterStores entry member)
  constructor
  case loadRing =>
    rw [List.map_append]
    exact inv.loadRing.push (by simpa using room)
  case storeRing => exact inv.storeRing
  case sent_le => exact inv.sent_le
  case storeWBIdx => exact inv.storeWBIdx
  case loadsSorted =>
    rw [List.pairwise_append]
    exact ⟨inv.loadsSorted, List.pairwise_singleton _ _, by simpa using afterLoads⟩
  case storesSorted => exact inv.storesSorted
  case entries =>
    intro offset entry found
    have apart := oldStore entry (List.mem_of_getElem? found)
    apply (inv.entries offset entry found).of_sameInst
    simp only [setInst, Function.update_of_ne apart]
    exact sameInst_refl _
  case markedFirst => exact inv.markedFirst
  case counted => exact inv.counted
  case blocked => exact inv.blocked
  case loadOwn =>
    intro offset load found
    rcases getElem?_concat_cases found with old | ⟨atEnd, rfl⟩
    · have apart := oldLoad load (List.mem_of_getElem? old)
      simpa only [setInst, Function.update_of_ne apart] using inv.loadOwn offset load old
    · simpa [setInst, atEnd] using inv.loadRing.tail_eq
  case loadMarks =>
    intro load member open'
    rcases List.mem_append.mp member with old | new
    · simpa only [setInst, Function.update_of_ne (oldLoad load old)] using inv.loadMarks load old open'
    · obtain rfl := List.mem_singleton.mp new
      simp only [setInst, Function.update_self]
      by_cases none' : u.stores = 0
      · have empty : stores = [] := List.eq_nil_of_length_eq_zero (by omega)
        rw [if_pos none', empty]
        simp [StoreMark]
      · rw [if_neg none']
        have tail : Bookmark u.SQEntries u.storeHead (stores.map SQEntry.seqNum) load
            (slot u.SQEntries u.storeHead (stores.map SQEntry.seqNum).length) :=
          bookmark_tail (by simpa using afterStores)
        rwa [List.length_map, ← inv.storeRing.tail_eq] at tail
  case storeMarks =>
    intro entry member spares open'
    simp only [setInst, Function.update_of_ne (oldStore entry member)]
    rw [bookmark_append_iff]
    · exact inv.storeMarks entry member spares open'
    · intro other new
      obtain rfl := List.mem_singleton.mp new
      exact Nat.le_of_lt (afterStores entry member)
  case frontier =>
    intro entry member marked load found open'
    rcases List.mem_append.mp found with old | new
    · exact inv.frontier entry member marked load old open'
    · obtain rfl := List.mem_singleton.mp new
      exact afterStores entry member
  case waiting =>
    intro stalls
    obtain ⟨offset, load, found, place, older, open'⟩ := inv.waiting stalls
    exact ⟨offset, load, getElem?_concat_of_some found, place, older, open'⟩

theorem insertStore_keeps (inv : ConsistentFor spared u doneSeqNum loads stores sent)
    (room : stores.length + 1 < u.SQEntries) (afterLoads : ∀ other ∈ loads, other < inst)
    (afterStores : ∀ entry ∈ stores, entry.seqNum < inst)
    (noPrefetch : (u.insts inst).isDataPrefetch = false) :
    ∃ u', u.insertStore inst = .ok u' ∧
      ConsistentFor spared u' doneSeqNum loads (stores ++ [SQEntry.new (some inst)]) sent := by
  have free : (u.storeTail + 1) % u.SQEntries ≠ u.storeHead := inv.storeRing.next_tail_ne_head room
  have counted := inv.storeRing.counted
  have few : u.stores < u.SQEntries := by omega
  rw [insertStore, assert_bind (decide_eq_true free), assert_bind (decide_eq_true few)]
  refine ⟨_, rfl, ?_⟩
  have oldLoad : ∀ other ∈ loads, other ≠ inst := fun other member => Nat.ne_of_lt (afterLoads other member)
  have oldStore : ∀ entry ∈ stores, entry.seqNum ≠ inst :=
    fun entry member => Nat.ne_of_lt (afterStores entry member)
  have named : (SQEntry.new (some inst)).seqNum = inst := rfl
  constructor
  case loadRing => exact inv.loadRing
  case storeRing => exact inv.storeRing.push room
  case sent_le =>
    rw [List.length_append]
    exact Nat.le_add_right_of_le inv.sent_le
  case storeWBIdx => exact inv.storeWBIdx
  case loadsSorted => exact inv.loadsSorted
  case storesSorted =>
    rw [List.map_append, List.pairwise_append]
    exact ⟨inv.storesSorted, List.pairwise_singleton _ _, by simpa [named] using afterStores⟩
  case entries =>
    intro offset entry found
    rcases getElem?_concat_cases found with old | ⟨rfl, rfl⟩
    · apply (inv.entries offset entry old).of_sameInst
      simp only [setInst, Function.update_of_ne (oldStore entry (List.mem_of_getElem? old))]
      exact sameInst_refl _
    · have sent_le := inv.sent_le
      refine ⟨rfl, by omega, ?_, ?_, ?_, ?_, ?_, ?_, ?_⟩ <;>
        simp [setInst, SQEntry.new, SQEntry.seqNum, noPrefetch, inv.storeRing.tail_eq]
  case markedFirst =>
    intro first second older younger before foundOlder foundYounger marked
    rcases getElem?_concat_cases foundYounger with old | ⟨_, rfl⟩
    · obtain ⟨within, _⟩ := List.getElem?_eq_some_iff.mp old
      rw [List.getElem?_append_left (Nat.lt_trans before within)] at foundOlder
      exact inv.markedFirst first second older younger before foundOlder old marked
    · cases marked
  case counted =>
    rw [List.countP_append]
    exact inv.counted
  case blocked =>
    intro isBlocked
    obtain ⟨entry, found, marked⟩ := inv.blocked isBlocked
    exact ⟨entry, getElem?_concat_of_some found, marked⟩
  case loadOwn =>
    intro offset load found
    have apart := oldLoad load (List.mem_of_getElem? found)
    simpa only [setInst, Function.update_of_ne apart] using inv.loadOwn offset load found
  case loadMarks =>
    intro load member open'
    simp only [setInst, Function.update_of_ne (oldLoad load member)]
    have younger : load ≤ (SQEntry.new (some inst)).seqNum := Nat.le_of_lt (afterLoads load member)
    exact (storeMark_concat_iff younger).mpr (inv.loadMarks load member open')
  case storeMarks =>
    intro entry member spares open'
    rcases List.mem_append.mp member with old | new
    · simpa only [setInst, Function.update_of_ne (oldStore entry old)] using
        inv.storeMarks entry old spares open'
    · obtain rfl := List.mem_singleton.mp new
      have tail : Bookmark u.LQEntries u.loadHead loads inst
          (slot u.LQEntries u.loadHead loads.length) := bookmark_tail afterLoads
      have tailIs := inv.loadRing.tail_eq
      rw [List.length_map] at tailIs
      simpa [named, setInst, tailIs] using tail
  case frontier =>
    intro entry member marked load found open'
    rcases List.mem_append.mp member with old | new
    · exact inv.frontier entry old marked load found open'
    · obtain rfl := List.mem_singleton.mp new
      cases marked
  case waiting => exact inv.waiting

end Insertion

section Entries

variable {spared : InstSeqNum → Prop} {u : LSQUnit} {doneSeqNum : InstSeqNum}
  {loads : List InstSeqNum} {stores : List SQEntry} {sent offset other : Nat}
  {entry entry' found' : SQEntry}

theorem getElem?_set_cases (read : (stores.set offset entry')[other]? = some found') :
    (other = offset ∧ found' = entry') ∨ (other ≠ offset ∧ stores[other]? = some found') := by
  by_cases same : other = offset
  · subst other
    obtain ⟨within, _⟩ := List.getElem?_eq_some_iff.mp read
    rw [List.length_set] at within
    rw [List.getElem?_set_self within] at read
    exact Or.inl ⟨rfl, (Option.some.inj read).symm⟩
  · rw [List.getElem?_set_ne (Ne.symm same)] at read
    exact Or.inr ⟨same, read⟩

theorem map_seqNum_set (found : stores[offset]? = some entry) (named : entry'.seqNum = entry.seqNum) :
    (stores.set offset entry').map SQEntry.seqNum = stores.map SQEntry.seqNum := by
  apply List.ext_getElem?
  intro other
  by_cases same : other = offset
  · subst other
    obtain ⟨within, _⟩ := List.getElem?_eq_some_iff.mp found
    rw [List.getElem?_map, List.getElem?_map, List.getElem?_set_self within, found]
    exact congrArg some named
  · rw [List.getElem?_map, List.getElem?_map, List.getElem?_set_ne (Ne.symm same)]

theorem pending_set (found : stores[offset]? = some entry) :
    ((stores.set offset entry').countP SQEntry.pending : Int) =
      stores.countP SQEntry.pending - (if entry.pending then 1 else 0) +
        (if entry'.pending then 1 else 0) := by
  obtain ⟨within, is⟩ := List.getElem?_eq_some_iff.mp found
  have counted : ∃ rest, stores.countP SQEntry.pending = rest + if entry.pending then 1 else 0 := by
    by_cases counts : entry.pending = true
    · have positive : 0 < stores.countP SQEntry.pending :=
        List.countP_pos_iff.mpr ⟨entry, List.mem_of_getElem? found, counts⟩
      exact ⟨stores.countP SQEntry.pending - 1, by rw [if_pos counts]; omega⟩
    · exact ⟨stores.countP SQEntry.pending, by rw [if_neg counts]; rfl⟩
  obtain ⟨rest, counted⟩ := counted
  rw [List.countP_set within, is, counted, Nat.add_sub_cancel]
  split <;> split <;> push_cast <;> omega

/-- A store may be marked: those before it are, and it is older than each load that is not
committed. -/
def Ready (doneSeqNum : InstSeqNum) (loads : List InstSeqNum) (stores : List SQEntry) (offset : Nat)
    (inst : InstSeqNum) : Prop :=
  (∀ first older, first < offset → stores[first]? = some older → older.canWB = true) ∧
    ∀ load ∈ loads, doneSeqNum < load → inst < load

theorem setEntry_keeps (inv : ConsistentFor spared u doneSeqNum loads stores sent)
    (found : stores[offset]? = some entry) (named : entry'.seqNum = entry.seqNum)
    (ok : EntryOk u.insts u.SQEntries u.storeHead sent u.isStoreBlocked offset entry')
    (kept : entry.canWB = true → entry'.canWB = true)
    (ready : entry.canWB = false → entry'.canWB = true →
      Ready doneSeqNum loads stores offset entry.seqNum)
    {storesToWB : Int}
    (counted : storesToWB = (stores.set offset entry').countP SQEntry.pending) :
    ConsistentFor spared
      { u.setEntry (slot u.SQEntries u.storeHead offset) entry' with storesToWB := storesToWB }
      doneSeqNum loads (stores.set offset entry') sent := by
  obtain ⟨within, _⟩ := List.getElem?_eq_some_iff.mp found
  have member := List.mem_of_getElem? found
  constructor
  case loadRing => exact inv.loadRing
  case storeRing => exact inv.storeRing.set within
  case sent_le =>
    rw [List.length_set]
    exact inv.sent_le
  case storeWBIdx => exact inv.storeWBIdx
  case loadsSorted => exact inv.loadsSorted
  case storesSorted =>
    rw [map_seqNum_set found named]
    exact inv.storesSorted
  case entries =>
    intro other value read
    rcases getElem?_set_cases read with ⟨rfl, rfl⟩ | ⟨_, read⟩
    · exact ok
    · exact inv.entries other value read
  case markedFirst =>
    intro first second older younger before foundOlder foundYounger marked
    rcases getElem?_set_cases foundYounger with ⟨rfl, rfl⟩ | ⟨_, oldYounger⟩
    · rcases getElem?_set_cases foundOlder with ⟨rfl, _⟩ | ⟨_, oldOlder⟩
      · exact absurd before (Nat.lt_irrefl _)
      · cases already : entry.canWB with
        | true => exact inv.markedFirst first second older entry before oldOlder found already
        | false => exact (ready already marked).1 first older before oldOlder
    · rcases getElem?_set_cases foundOlder with ⟨rfl, rfl⟩ | ⟨_, oldOlder⟩
      · exact kept (inv.markedFirst first second entry younger before found oldYounger marked)
      · exact inv.markedFirst first second older younger before oldOlder oldYounger marked
  case counted => exact counted
  case blocked =>
    intro isBlocked
    obtain ⟨value, read, marked⟩ := inv.blocked isBlocked
    by_cases same : sent = offset
    · subst sent
      rw [found] at read
      cases read
      exact ⟨entry', List.getElem?_set_self within, kept marked⟩
    · exact ⟨value, by rw [List.getElem?_set_ne (Ne.symm same)]; exact read, marked⟩
  case loadOwn => exact inv.loadOwn
  case loadMarks =>
    intro load loaded open'
    exact (storeMark_congr (map_seqNum_set found named)).mpr (inv.loadMarks load loaded open')
  case storeMarks =>
    intro value new spares open'
    rcases List.mem_or_eq_of_mem_set new with old | rfl
    · exact inv.storeMarks value old spares open'
    · rw [named] at spares open' ⊢
      exact inv.storeMarks entry member spares open'
  case frontier =>
    intro value new marked load loaded open'
    rcases List.mem_or_eq_of_mem_set new with old | rfl
    · exact inv.frontier value old marked load loaded open'
    · rw [named]
      cases already : entry.canWB with
      | true => exact inv.frontier entry member already load loaded open'
      | false => exact (ready already marked).2 load loaded open'
  case waiting => exact inv.waiting

end Entries

section Commit

variable {spared : InstSeqNum → Prop} {u : LSQUnit}
  {doneSeqNum youngest_inst load : InstSeqNum} {loads rest : List InstSeqNum}
  {stores : List SQEntry} {sent : Nat}

/-- Commit goes on, but not past a load that waits. -/
theorem ConsistentFor.advance (inv : ConsistentFor spared u doneSeqNum loads stores sent)
    (below : BelowStalled u youngest_inst) :
    ConsistentFor spared u (max doneSeqNum youngest_inst) loads stores sent where
  loadRing := inv.loadRing
  storeRing := inv.storeRing
  sent_le := inv.sent_le
  storeWBIdx := inv.storeWBIdx
  loadsSorted := inv.loadsSorted
  storesSorted := inv.storesSorted
  entries := inv.entries
  markedFirst := inv.markedFirst
  counted := inv.counted
  blocked := inv.blocked
  loadOwn := inv.loadOwn
  loadMarks := fun load member open' => inv.loadMarks load member (lt_of_le_of_lt (le_max_left _ _) open')
  storeMarks := fun entry member spares open' =>
    inv.storeMarks entry member spares (lt_of_le_of_lt (le_max_left _ _) open')
  frontier := fun entry member marked load found open' =>
    inv.frontier entry member marked load found (lt_of_le_of_lt (le_max_left _ _) open')
  waiting := by
    intro stalls
    obtain ⟨offset, load, found, place, older, open'⟩ := inv.waiting stalls
    have slotHolds : u.loadQueue u.stallingLoadIdx = some load := by
      rw [place]
      exact inv.loadRing.getElem? (by rw [List.getElem?_map, found]; rfl)
    exact ⟨offset, load, found, place, older, max_lt open' (below stalls load slotHolds)⟩

theorem commitLoad_keeps (inv : ConsistentFor spared u doneSeqNum (load :: rest) stores sent)
    (done : load ≤ doneSeqNum) :
    ∃ u', u.commitLoad = .ok u' ∧ ConsistentFor spared u' doneSeqNum rest stores sent := by
  have atHead : u.loadQueue u.loadHead = some load := inv.loadRing.head_eq
  have present : (u.loadQueue u.loadHead).isSome = true := by rw [atHead]; rfl
  rw [commitLoad, assert_bind present]
  refine ⟨_, rfl, ?_⟩
  constructor
  case loadRing => exact inv.loadRing.pop.write_free inv.loadRing.pop_free
  case storeRing => exact inv.storeRing
  case sent_le => exact inv.sent_le
  case storeWBIdx => exact inv.storeWBIdx
  case loadsSorted => exact inv.loadsSorted.of_cons
  case storesSorted => exact inv.storesSorted
  case entries => exact inv.entries
  case markedFirst => exact inv.markedFirst
  case counted => exact inv.counted
  case blocked => exact inv.blocked
  case loadOwn =>
    intro offset other found
    simpa only [incrLdIdx, slot_next inv.loadRing.inside] using inv.loadOwn (offset + 1) other found
  case loadMarks => exact fun other member => inv.loadMarks other (List.mem_cons_of_mem _ member)
  case storeMarks =>
    intro entry member spares open'
    exact (bookmark_cons_iff inv.loadRing.inside (Nat.lt_of_le_of_lt done open')).mp
      (inv.storeMarks entry member spares open')
  case frontier =>
    exact fun entry member marked other found =>
      inv.frontier entry member marked other (List.mem_cons_of_mem _ found)
  case waiting =>
    intro stalls
    obtain ⟨offset, other, found, place, older, open'⟩ := inv.waiting stalls
    cases offset with
    | zero =>
        cases found
        exact absurd open' (Nat.not_lt.mpr done)
    | succ offset =>
        refine ⟨offset, other, found, ?_, older, open'⟩
        simpa only [incrLdIdx, slot_next inv.loadRing.inside] using place

theorem commitLoadsLoop_keeps (reached : youngest_inst ≤ doneSeqNum) (fuel : Nat)
    (inv : ConsistentFor spared u doneSeqNum loads stores sent) (enough : loads.length < fuel) :
    ∃ u' rest, commitLoadsLoop youngest_inst fuel u = .ok u' ∧
      ConsistentFor spared u' doneSeqNum rest stores sent := by
  induction fuel generalizing u loads with
  | zero => exact absurd enough (Nat.not_lt_zero _)
  | succ fuel ih =>
      have counted := inv.loadRing.counted
      rw [List.length_map] at counted
      cases loads with
      | nil => exact ⟨u, [], by rw [commitLoadsLoop, if_pos (by simpa using counted)], inv⟩
      | cons load rest =>
          have occupied : u.loads ≠ 0 := by rw [counted, List.length_cons]; omega
          have atHead : u.loadQueue u.loadHead = some load := inv.loadRing.head_eq
          by_cases old : load ≤ youngest_inst
          · obtain ⟨after, committed, kept⟩ := commitLoad_keeps inv (Nat.le_trans old reached)
            obtain ⟨u', left, returned, final⟩ := ih kept (Nat.lt_of_succ_lt_succ enough)
            refine ⟨u', left, ?_, final⟩
            rw [commitLoadsLoop, if_neg occupied, atHead, deref, ← returned]
            exact (if_pos old).trans (by rw [committed]; rfl)
          · refine ⟨u, load :: rest, ?_, inv⟩
            rw [commitLoadsLoop, if_neg occupied, atHead, deref]
            exact if_neg old

theorem commitLoads_keeps (inv : ConsistentFor spared u doneSeqNum loads stores sent)
    (below : BelowStalled u youngest_inst) :
    ∃ u' rest, u.commitLoads youngest_inst = .ok u' ∧
      ConsistentFor spared u' (max doneSeqNum youngest_inst) rest stores sent := by
  have room := inv.loadRing.room
  have counted := inv.loadRing.counted
  rw [List.length_map] at room counted
  have present : (decide (u.loads = 0) || (u.loadQueue u.loadHead).isSome) = true := by
    cases loads with
    | nil => simp [counted]
    | cons load rest => simp [inv.loadRing.head_eq]
  rw [commitLoads, assert_bind present]
  exact commitLoadsLoop_keeps (le_max_right _ _) u.LQEntries (inv.advance below) room

theorem mark_keeps {offset : Nat} {entry : SQEntry}
    (inv : ConsistentFor spared u doneSeqNum loads stores sent) (found : stores[offset]? = some entry)
    (unmarked : entry.canWB = false) (ready : Ready doneSeqNum loads stores offset entry.seqNum) :
    ConsistentFor spared (u.markStore (slot u.SQEntries u.storeHead offset)) doneSeqNum loads
      (stores.set offset { entry with canWB := true }) sent := by
  have ok := inv.entries offset entry found
  rw [markStore, inv.storeRing.getElem? found]
  have unsent : sent ≤ offset := by
    rcases Nat.lt_or_ge offset sent with within | beyond
    · rw [ok.marked within] at unmarked
      cases unmarked
    · exact beyond
  refine setEntry_keeps inv found ?_ ?_ ?_ ?_ ?_
  · rfl
  · exact ⟨ok.named, fun _ => rfl, ok.unanswered, ok.unhanded, ok.noPrefetch, ok.small, ok.addressed,
      ok.requested, ok.own⟩
  · intro _
    rfl
  · intro _ _
    exact ready
  · rw [pending_set found, inv.counted]
    simp [SQEntry.pending, unmarked, ok.unanswered unsent]

theorem commitStoresLoop_keeps (reached : youngest_inst ≤ doneSeqNum) (fuel offset : Nat)
    (inv : ConsistentFor spared u doneSeqNum loads stores sent) (within : offset ≤ stores.length)
    (before : ∀ first older, first < offset → stores[first]? = some older → older.canWB = true)
    (enough : stores.length < offset + fuel) :
    ∃ u' stores', commitStoresLoop youngest_inst fuel (slot u.SQEntries u.storeHead offset) u = .ok u' ∧
      ConsistentFor spared u' doneSeqNum loads stores' sent := by
  induction fuel generalizing u stores offset with
  | zero => omega
  | succ fuel ih =>
      by_cases last : offset = stores.length
      · have atTail := (inv.storeRing.slot_eq_tail_iff within).mpr last
        exact ⟨u, stores, by rw [commitStoresLoop, if_pos atTail], inv⟩
      · have notTail := mt (inv.storeRing.slot_eq_tail_iff within).mp last
        have inside : offset < stores.length := Nat.lt_of_le_of_ne within last
        have found : stores[offset]? = some stores[offset] := List.getElem?_eq_getElem inside
        have slotIs := inv.storeRing.getElem? found
        have ok := inv.entries offset _ found
        have following : u.incrStIdx (slot u.SQEntries u.storeHead offset) =
            slot u.SQEntries u.storeHead (offset + 1) := next_slot inv.storeRing.inside
        have unfolded : commitStoresLoop youngest_inst (fuel + 1) (slot u.SQEntries u.storeHead offset) u =
            if stores[offset].canWB then
              commitStoresLoop youngest_inst fuel (slot u.SQEntries u.storeHead (offset + 1)) u
            else if youngest_inst < stores[offset].seqNum then .ok u
            else
              commitStoresLoop youngest_inst fuel (slot u.SQEntries u.storeHead (offset + 1))
                (u.markStore (slot u.SQEntries u.storeHead offset)) := by
          rw [commitStoresLoop, if_neg notTail, slotIs, ok.named, following]
        rw [unfolded]
        cases marked : stores[offset].canWB with
        | true =>
            apply ih (offset + 1) inv inside _ (by omega)
            intro first older below read
            rcases Nat.lt_succ_iff_lt_or_eq.mp below with earlier | rfl
            · exact before first older earlier read
            · rw [found] at read
              cases read
              exact marked
        | false =>
            by_cases young : youngest_inst < stores[offset].seqNum
            · exact ⟨u, stores, if_pos young, inv⟩
            · have old := Nat.le_trans (Nat.not_lt.mp young) reached
              have kept := mark_keeps inv found marked
                ⟨before, fun load _ open' => Nat.lt_of_le_of_lt old open'⟩
              rw [if_neg Bool.false_ne_true, if_neg young]
              apply ih (offset + 1) kept
              · rw [List.length_set]
                exact inside
              · intro first older below read
                rcases getElem?_set_cases read with ⟨_, rfl⟩ | ⟨apart, read⟩
                · rfl
                · exact before first older (by omega) read
              · rw [List.length_set]
                omega

theorem commitStores_keeps (inv : ConsistentFor spared u doneSeqNum loads stores sent)
    (below : BelowStalled u youngest_inst) :
    ∃ u' stores', u.commitStores youngest_inst = .ok u' ∧
      ConsistentFor spared u' (max doneSeqNum youngest_inst) loads stores' sent := by
  have room := inv.storeRing.room
  have counted := inv.storeRing.counted
  have present : (decide (u.stores = 0) || (u.storeQueue u.storeHead).inst.isSome) = true := by
    cases stores with
    | nil => simp [counted]
    | cons entry rest => simp [inv.storeRing.head_eq, (inv.entries 0 entry rfl).named]
  have looped := commitStoresLoop_keeps (le_max_right doneSeqNum youngest_inst) u.SQEntries 0
    (inv.advance below) (Nat.zero_le _) (by simp) (by omega)
  rw [slot_zero inv.storeRing.inside] at looped
  rw [commitStores, assert_bind present]
  exact looped

end Commit

end GemFi.LsqInvariant
