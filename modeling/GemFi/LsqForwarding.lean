import GemFi.ByteRanges
import GemFi.LsqRuns

/-!
Forwarding from the stores that a load passes. The comparisons of `read` add an address and
a size, and the sum is zero for an access that ends at the very top of the address space. The
outcome is exact as long as the search meets no pair of accesses that this puts in the wrong
order.
-/

namespace GemFi.LsqForwarding

open Rings Outcomes Transitions ByteRanges LsqUnit LsqUnit.LSQUnit LsqInvariant LsqExecution LsqRuns

/-- An older store that has executed, is cacheable and is not yet written back. -/
structure Candidate (u : LSQUnit) (load : InstSeqNum) (offset : Nat) (entry : SQEntry) : Prop where
  found : u.storeSlots[offset]? = some entry
  unsent : u.sentCount ≤ offset
  older : entry.seqNum < load
  executed : entry.size ≠ 0
  cached : (u.insts entry.seqNum).uncacheable = false

def Writes (u : LSQUnit) (entry : SQEntry) (a : Addr) : Prop :=
  Within (u.insts entry.seqNum).effAddr entry.size a

def storedByte (u : LSQUnit) (entry : SQEntry) (a : Addr) : Byte :=
  if entry.isAllZeros then 0 else entry.data (a - (u.insts entry.seqNum).effAddr).toNat

def Meets (u : LSQUnit) (req : Request) (entry : SQEntry) : Prop :=
  Overlap (u.insts entry.seqNum).effAddr entry.size req.vaddr req.size

def Decisive (u : LSQUnit) (load : InstSeqNum) (req : Request) (offset : Nat) (entry : SQEntry) :
    Prop :=
  Candidate u load offset entry ∧ Meets u req entry ∧
    ∀ later other, offset < later → Candidate u load later other → ¬ Meets u req other

def Exact (u u' : LSQUnit) (load : InstSeqNum) (req : Request) : ReadResult → Prop
  -- what a read may do, given the stores that the load passes
  | .forwarded data =>
      data.length = req.size ∧
        ∀ k < req.size, ∃ offset entry, Candidate u load offset entry ∧
          Writes u entry (req.vaddr + BitVec.ofNat 64 k) ∧
          (∀ later other, offset < later → Candidate u load later other →
            ¬ Writes u other (req.vaddr + BitVec.ofNat 64 k)) ∧
          data[k]? = some (storedByte u entry (req.vaddr + BitVec.ofNat 64 k))
  | .memory => ∀ offset entry, Candidate u load offset entry → ¬ Meets u req entry
  | .rescheduled =>
      (∃ offset entry, Decisive u load req offset entry ∧
        ¬ ∀ k < req.size, Writes u entry (req.vaddr + BitVec.ofNat 64 k)) ∧
      RecordsStall u' load
  | _ => False

/-- Two ranges of bytes are compared rightly by the sums of `read`. -/
def Compared (req : Request) (effAddr : Addr) (size : Nat) : Prop :=
  (req.vaddr.toNat + req.size = 2 ^ 64 →
    effAddr.toNat + size = 2 ^ 64 ∧ effAddr.toNat ≤ req.vaddr.toNat) ∧
  (effAddr.toNat + size = 2 ^ 64 →
    req.vaddr.toNat + req.size = 2 ^ 64 ∨ req.vaddr.toNat + req.size ≤ effAddr.toNat)

section Comparison

variable {req : Request} {entry : SQEntry} {store : DynInst}

theorem toNat_end {vaddr : Addr} {size : Nat} (fits : Fits vaddr size) :
    (vaddr + BitVec.ofNat 64 size).toNat =
      if vaddr.toNat + size = 2 ^ 64 then 0 else vaddr.toNat + size := by
  rw [BitVec.toNat_add, BitVec.toNat_ofNat, Nat.add_mod_mod]
  split
  · next top => rw [top, Nat.mod_self]
  · next below => exact Nat.mod_eq_of_lt (Nat.lt_of_le_of_ne fits below)

theorem covers_iff (loadFits : Fits req.vaddr req.size) (storeFits : Fits store.effAddr entry.size)
    (loadNonempty : 0 < req.size) (compared : Compared req store.effAddr entry.size) :
    covers entry store req = true ↔
      store.effAddr.toNat ≤ req.vaddr.toNat ∧
        req.vaddr.toNat + req.size ≤ store.effAddr.toNat + entry.size := by
  obtain ⟨loadAtTop, storeAtTop⟩ := compared
  unfold Fits at loadFits storeFits
  rw [covers, decide_eq_true_eq, BitVec.le_def, BitVec.le_def, toNat_end loadFits, toNat_end storeFits]
  split <;> split <;> omega

theorem touches_iff (loadFits : Fits req.vaddr req.size) (storeFits : Fits store.effAddr entry.size)
    (loadNonempty : 0 < req.size) (storeNonempty : 0 < entry.size)
    (compared : Compared req store.effAddr entry.size) (notAll : ¬ covers entry store req = true) :
    touches entry store req = true ↔ Overlap store.effAddr entry.size req.vaddr req.size := by
  rw [covers_iff loadFits storeFits loadNonempty compared] at notAll
  rw [overlap_iff storeFits loadFits storeNonempty loadNonempty]
  obtain ⟨loadAtTop, storeAtTop⟩ := compared
  unfold Fits at loadFits storeFits
  simp only [touches, Bool.or_eq_true, Bool.and_eq_true, decide_eq_true_eq, BitVec.le_def, BitVec.lt_def,
    toNat_end loadFits, toNat_end storeFits]
  split <;> split <;> omega

theorem decides_iff {u : LSQUnit} (executed : entry.size ≠ 0)
    (cached : (u.insts entry.seqNum).uncacheable = false) (loadFits : Fits req.vaddr req.size)
    (storeFits : Fits (u.insts entry.seqNum).effAddr entry.size) (loadNonempty : 0 < req.size)
    (compared : Compared req (u.insts entry.seqNum).effAddr entry.size) :
    Decides u req entry ↔ Meets u req entry := by
  have storeNonempty : 0 < entry.size := Nat.pos_of_ne_zero executed
  by_cases all : covers entry (u.insts entry.seqNum) req = true
  · refine iff_of_true ⟨executed, cached, Or.inl all⟩ ?_
    rw [covers_iff loadFits storeFits loadNonempty compared] at all
    rw [Meets, overlap_iff storeFits loadFits storeNonempty loadNonempty]
    omega
  · rw [Meets, ← touches_iff loadFits storeFits loadNonempty storeNonempty compared all]
    constructor
    · rintro ⟨_, _, covered | touched⟩
      · exact absurd covered all
      · exact touched
    · intro touched
      exact ⟨executed, cached, Or.inr touched⟩

instance (req : Request) (effAddr : Addr) (size : Nat) : Decidable (Compared req effAddr size) :=
  inferInstanceAs (Decidable (_ ∧ _))

end Comparison

/-- The search compares each store that it reaches rightly with the load. -/
def RightlyCompared (u : LSQUnit) (load : InstSeqNum) (req : Request) : Prop :=
  ∀ offset entry, Candidate u load offset entry →
    (∀ later other, offset < later → Candidate u load later other → ¬ Meets u req other) →
    Compared req (u.insts entry.seqNum).effAddr entry.size

section Read

variable {u : LSQUnit} {doneSeqNum load : InstSeqNum} {loads : List InstSeqNum} {stores : List SQEntry}
  {sent offset load_offset : Nat} {entry : SQEntry} {req : Request}

theorem candidate_iff (inv : Consistent u doneSeqNum loads stores sent) :
    Candidate u load offset entry ↔
      stores[offset]? = some entry ∧ sent ≤ offset ∧ offset < olderStores stores load ∧
        entry.size ≠ 0 ∧ (u.insts entry.seqNum).uncacheable = false := by
  constructor
  · rintro ⟨found, unsent, older, executed, cached⟩
    rw [storeSlots_eq inv] at found
    rw [sentCount_eq inv] at unsent
    have named : (stores.map SQEntry.seqNum)[offset]? = some entry.seqNum := by
      rw [List.getElem?_map, found]
      rfl
    exact ⟨found, unsent, lt_countP_of_lt inv.storesSorted named older, executed, cached⟩
  · rintro ⟨found, unsent, before, executed, cached⟩
    refine ⟨?_, ?_, older_of_lt_olderStores inv found before, executed, cached⟩
    · rwa [storeSlots_eq inv]
    · rwa [sentCount_eq inv]

/-- What the search has passed shares no byte with the load. The induction goes from the youngest
store down, since a store is compared rightly once no younger one meets the load. -/
theorem passed_clear (inv : Consistent u doneSeqNum loads stores sent) (nonempty : 0 < req.size)
    (fits : Fits req.vaddr req.size)
    (storesFit : ∀ offset entry, Candidate u load offset entry →
      Fits (u.insts entry.seqNum).effAddr entry.size)
    (compared : RightlyCompared u load req) {first : Nat}
    (passed : Passed u req stores first (olderStores stores load)) (after : first ≤ offset)
    (candidate : Candidate u load offset entry) : ¬ Meets u req entry := by
  induction distance : olderStores stores load - offset using Nat.strong_induction_on
    generalizing offset entry with
  | _ distance ih =>
      obtain ⟨found, _, before, executed, cached⟩ := (candidate_iff inv).mp candidate
      have laterClear : ∀ later other, offset < later → Candidate u load later other →
          ¬ Meets u req other := by
        intro later other further isLater
        exact ih _ (by omega) (by omega) isLater rfl
      have rightly := compared offset entry candidate laterClear
      rw [← decides_iff executed cached fits (storesFit offset entry candidate) nonempty rightly]
      exact passed offset entry after before found

/-- A store that stops the search is a candidate, no younger one meets the load, and so it is
compared rightly. -/
theorem decided_clear (inv : Consistent u doneSeqNum loads stores sent) (nonempty : 0 < req.size)
    (fits : Fits req.vaddr req.size)
    (storesFit : ∀ offset entry, Candidate u load offset entry →
      Fits (u.insts entry.seqNum).effAddr entry.size)
    (compared : RightlyCompared u load req) (unsent : sent ≤ offset)
    (before : offset < olderStores stores load) (found : stores[offset]? = some entry)
    (decides : Decides u req entry)
    (passed : Passed u req stores (offset + 1) (olderStores stores load)) :
    Candidate u load offset entry ∧
      (∀ later other, offset < later → Candidate u load later other → ¬ Meets u req other) ∧
      Compared req (u.insts entry.seqNum).effAddr entry.size := by
  have candidate : Candidate u load offset entry :=
    (candidate_iff inv).mpr ⟨found, unsent, before, decides.1, decides.2.1⟩
  have laterClear : ∀ later other, offset < later → Candidate u load later other →
      ¬ Meets u req other := fun later other further isLater =>
    passed_clear inv nonempty fits storesFit compared passed further isLater
  exact ⟨candidate, laterClear, compared offset entry candidate laterClear⟩

theorem forwardedData_getElem? {k : Nat} (small : entry.size < 256)
    (fits : Fits req.vaddr req.size) (inside : k < req.size)
    (starts : (u.insts entry.seqNum).effAddr.toNat ≤ req.vaddr.toNat)
    (ends : req.vaddr.toNat + req.size ≤ (u.insts entry.seqNum).effAddr.toNat + entry.size) :
    (forwardedData entry (u.insts entry.seqNum) req)[k]? =
      some (storedByte u entry (req.vaddr + BitVec.ofNat 64 k)) := by
  have shift_amt : ((req.vaddr - (u.insts entry.seqNum).effAddr).setWidth 32).toNat =
      req.vaddr.toNat - (u.insts entry.seqNum).effAddr.toNat := by
    rw [BitVec.toNat_setWidth, BitVec.toNat_sub_of_le (BitVec.le_def.mpr starts)]
    exact Nat.mod_eq_of_lt (by omega)
  have place : (req.vaddr + BitVec.ofNat 64 k - (u.insts entry.seqNum).effAddr).toNat =
      req.vaddr.toNat - (u.insts entry.seqNum).effAddr.toNat + k := by
    have address := toNat_add_of_fits fits inside
    rw [BitVec.toNat_sub_of_le (BitVec.le_def.mpr (by omega)), address]
    omega
  simp only [forwardedData, storedByte, shift_amt, place, List.getElem?_map,
    List.getElem?_range inside, Option.map_some]

/-- `read` returns, and what it does is exact. -/
def ReadsExactly (u : LSQUnit) (load : InstSeqNum) (req : Request) (isAtCommit cacheBlocked : Bool) :
    Prop :=
  ∃ result u', u.read req (u.insts load).lqIdx isAtCommit cacheBlocked = .ok (result, u') ∧
    Exact u u' load req result

theorem read_exact (inv : Consistent u doneSeqNum loads stores sent)
    (loaded : loads[load_offset]? = some load) (open' : doneSeqNum < load)
    (cacheable : req.uncacheable = false) (notIpr : req.mmappedIpr = false) (nonempty : 0 < req.size)
    (fits : Fits req.vaddr req.size)
    (storesFit : ∀ offset entry, Candidate u load offset entry →
      Fits (u.insts entry.seqNum).effAddr entry.size)
    (compared : RightlyCompared u load req) (isAtCommit cacheBlocked : Bool) :
    ReadsExactly u load req isAtCommit cacheBlocked := by
  have atSlot : u.loadQueue (slot u.LQEntries u.loadHead load_offset) = some load :=
    inv.loadRing.getElem? (by rw [List.getElem?_map, loaded]; rfl)
  obtain ⟨result, returned, finds⟩ := searchStores_finds req inv (List.mem_of_getElem? loaded) open'
  rw [ReadsExactly, inv.loadOwn load_offset load loaded, LSQUnit.read, atSlot, deref_bind, cacheable,
    notIpr]
  cases finds with
  | nothing passed =>
      refine ⟨_, _, bind_eq_of_ok returned rfl, ?_⟩
      intro offset entry candidate
      have unsent : sent ≤ offset := ((candidate_iff inv).mp candidate).2.1
      exact passed_clear inv nonempty fits storesFit compared passed unsent candidate
  | forward offset entry unsent before found decides passed all =>
      have ok := inv.entries offset entry found
      have derefs : deref (u.storeQueue (slot u.SQEntries u.storeHead offset)).inst =
          .ok entry.seqNum := by
        rw [inv.storeRing.getElem? found, ok.named]
        rfl
      refine ⟨_, _, bind_eq_of_ok returned (bind_eq_of_ok derefs rfl), ?_⟩
      obtain ⟨candidate, laterClear, rightly⟩ :=
        decided_clear inv nonempty fits storesFit compared unsent before found decides passed
      have storeFits := storesFit offset entry candidate
      obtain ⟨starts, ends⟩ := (covers_iff fits storeFits nonempty rightly).mp all
      rw [inv.storeRing.getElem? found]
      refine ⟨by simp [forwardedData], ?_⟩
      intro k inside
      have address := toNat_add_of_fits fits inside
      refine ⟨offset, entry, candidate, ?_, ?_, forwardedData_getElem? ok.small fits inside starts ends⟩
      · exact (within_iff storeFits).mpr (by omega)
      · intro later other further isLater writes
        exact laterClear later other further isLater ⟨_, writes, k, inside, rfl⟩
  | mismatch offset entry unsent before found decides passed part =>
      obtain ⟨u', recorded, _, records⟩ := recordStall_keeps inv loaded open' found before
      refine ⟨_, u', bind_eq_of_ok returned (bind_eq_of_ok recorded rfl), ?_, records⟩
      obtain ⟨candidate, laterClear, rightly⟩ :=
        decided_clear inv nonempty fits storesFit compared unsent before found decides passed
      have storeFits := storesFit offset entry candidate
      refine ⟨offset, entry, ⟨candidate, ?_, laterClear⟩, ?_⟩
      · exact (decides_iff decides.1 decides.2.1 fits storeFits nonempty rightly).mp decides
      · intro writesAll
        refine part ((covers_iff fits storeFits nonempty rightly).mpr ?_)
        -- the first and the last byte of the load decide
        have first := (within_iff storeFits).mp (writesAll 0 nonempty)
        have last := (within_iff storeFits).mp (writesAll (req.size - 1) (by omega))
        rw [toNat_add_of_fits fits nonempty] at first
        rw [toNat_add_of_fits fits (by omega)] at last
        omega

end Read

/-- In every state that an orderly run reaches, a load reads exactly where the search compares
each store that it reaches rightly. -/
theorem forwarding_exact_of_compared (maxLQEntries maxSQEntries depCheckShift : Nat)
    (checkLoads needsTSO : Bool) (insts : InstSeqNum → DynInst) (actions : List Action)
    (admissible : Admissible step Orderly actions
      (start maxLQEntries maxSQEntries depCheckShift checkLoads needsTSO insts))
    {m : Machine}
    (ran : run step actions
      (start maxLQEntries maxSQEntries depCheckShift checkLoads needsTSO insts) = some m)
    {load : InstSeqNum} {req : Request} {isAtCommit cacheBlocked : Bool}
    (orderly : Orderly m (.executeLoad load (.translated req isAtCommit cacheBlocked)))
    (cacheable : req.uncacheable = false) (notIpr : req.mmappedIpr = false) (nonempty : 0 < req.size)
    (fits : Fits req.vaddr req.size)
    (storesFit : ∀ offset entry, Candidate (m.lsq.setAddress load req) load offset entry →
      Fits ((m.lsq.setAddress load req).insts entry.seqNum).effAddr entry.size)
    (compared : RightlyCompared (m.lsq.setAddress load req) load req) :
    ReadsExactly (m.lsq.setAddress load req) load req isAtCommit cacheBlocked := by
  obtain ⟨loads, stores, sent, inv⟩ := reached_sound (start_sound _ _ _ _ _ _) admissible ran
  obtain ⟨member, open', _⟩ := orderly
  rw [loadSlots_eq inv] at member
  obtain ⟨load_offset, within, is⟩ := List.getElem_of_mem (by simpa using member : load ∈ loads)
  exact read_exact (setAddress_keeps inv load req) (List.getElem?_eq_some_iff.mpr ⟨within, is⟩) open'
    cacheable notIpr nonempty fits storesFit compared isAtCommit cacheBlocked

def storeFirst (vaddr : Addr) (size : Nat) : List Action :=
  -- a store executes, and a load enters behind it
  [.insertStore 1, .executeStore 1 (.written ⟨vaddr, size, false, false, false⟩ fun _ => 7), .insertLoad 2]

def afterStore (vaddr : Addr) (size : Nat) : Machine :=
  (run step (storeFirst vaddr size) (start 2 2 4 true false fun _ => dispatched)).getD
    (start 2 2 4 true false fun _ => dispatched)

theorem forwarding_exact_of_compared_inside :
    ReadsExactly ((afterStore 64 8).lsq.setAddress 2 ⟨68, 4, false, false, false⟩) 2
      ⟨68, 4, false, false, false⟩ true false := by
  have fit : ∀ entry ∈ ((afterStore 64 8).lsq.setAddress 2 ⟨68, 4, false, false, false⟩).storeSlots,
      Fits (((afterStore 64 8).lsq.setAddress 2 ⟨68, 4, false, false, false⟩).insts
        entry.seqNum).effAddr entry.size := by decide
  have compared : ∀ entry ∈ ((afterStore 64 8).lsq.setAddress 2 ⟨68, 4, false, false, false⟩).storeSlots,
      Compared ⟨68, 4, false, false, false⟩
        (((afterStore 64 8).lsq.setAddress 2 ⟨68, 4, false, false, false⟩).insts entry.seqNum).effAddr
        entry.size := by decide
  exact forwarding_exact_of_compared 2 2 4 true false (fun _ => dispatched) (storeFirst 64 8)
    (admissible_of_admits (by decide)) rfl (by decide) rfl rfl (by decide) (by decide)
    (fun _ entry candidate => fit entry (List.mem_of_getElem? candidate.found))
    (fun _ entry candidate _ => compared entry (List.mem_of_getElem? candidate.found))

/-- The last eight bytes of the address space are stored, and the first four of them are read
back from memory, since the end of the store compares as zero. -/
theorem store_at_the_top_is_passed :
    Admissible step Orderly (storeFirst (-8) 8) (start 2 2 4 true false fun _ => dispatched) ∧
    run step (storeFirst (-8) 8) (start 2 2 4 true false fun _ => dispatched) =
      some (afterStore (-8) 8) ∧
    Orderly (afterStore (-8) 8) (.executeLoad 2 (.translated ⟨-8, 4, false, false, false⟩ true false)) ∧
    Fits (-8 : Addr) 8 ∧ Fits (-8 : Addr) 4 ∧
    ¬ ReadsExactly ((afterStore (-8) 8).lsq.setAddress 2 ⟨-8, 4, false, false, false⟩) 2
      ⟨-8, 4, false, false, false⟩ true false := by
  refine ⟨admissible_of_admits (by decide), rfl, by decide, by decide, by decide, ?_⟩
  rintro ⟨result, u', returned, exact'⟩
  have toMemory : (((afterStore (-8) 8).lsq.setAddress 2 ⟨-8, 4, false, false, false⟩).read
      ⟨-8, 4, false, false, false⟩ 0 true false).toOption.map Prod.fst = some .memory := by decide
  have from0 : ((afterStore (-8) 8).lsq.setAddress 2 ⟨-8, 4, false, false, false⟩).read
      ⟨-8, 4, false, false, false⟩ 0 true false = .ok (result, u') := returned
  rw [from0] at toMemory
  obtain rfl := Option.some.inj toMemory
  have candidate : Candidate ((afterStore (-8) 8).lsq.setAddress 2 ⟨-8, 4, false, false, false⟩) 2 0
      (written (SQEntry.new (some 1)) ⟨-8, 8, false, false, false⟩ fun _ => 7) :=
    ⟨rfl, by decide, by decide, by decide, by decide⟩
  exact exact' 0 _ candidate ⟨-8, within_start (by decide), within_start (by decide)⟩

end GemFi.LsqForwarding
