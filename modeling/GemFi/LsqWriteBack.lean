import GemFi.LsqInvariant

/-!
Write-backs, answers and squashes keep the invariant of the load and store queues. A store
that needs no answer from memory is completed before the index moves past it; as
`completeStore` does not look at that index, the two may be exchanged.
-/

namespace GemFi.LsqWriteBack

open Rings Outcomes LsqUnit LsqUnit.LSQUnit LsqInvariant

section WriteBack

variable {spared : InstSeqNum → Prop} {u : LSQUnit} {doneSeqNum : InstSeqNum}
  {loads : List InstSeqNum} {stores rest : List SQEntry} {sent : Nat} {entry : SQEntry}

theorem block_keeps (inv : ConsistentFor spared u doneSeqNum loads stores sent)
    (found : stores[sent]? = some entry) (marked : entry.canWB = true) :
    ConsistentFor spared (u.setStoreBlocked true) doneSeqNum loads stores sent where
  loadRing := inv.loadRing
  storeRing := inv.storeRing
  sent_le := inv.sent_le
  storeWBIdx := inv.storeWBIdx
  loadsSorted := inv.loadsSorted
  storesSorted := inv.storesSorted
  entries := by
    intro offset value read
    have ok := inv.entries offset value read
    exact ⟨ok.named, ok.marked, ok.unanswered, fun after handed => ⟨(ok.unhanded after handed).1, rfl⟩,
      ok.noPrefetch, ok.small, ok.addressed, ok.requested, ok.own⟩
  markedFirst := inv.markedFirst
  counted := inv.counted
  blocked := fun _ => ⟨entry, found, marked⟩
  loadOwn := inv.loadOwn
  loadMarks := inv.loadMarks
  storeMarks := inv.storeMarks
  frontier := inv.frontier
  waiting := inv.waiting

theorem pass_keeps (inv : ConsistentFor spared u doneSeqNum loads stores sent)
    (found : stores[sent]? = some entry) (marked : entry.canWB = true) :
    ConsistentFor spared ((u.setStoreWBIdx (u.incrStIdx u.storeWBIdx)).setStoreBlocked false)
      doneSeqNum loads stores (sent + 1) where
  loadRing := inv.loadRing
  storeRing := inv.storeRing
  sent_le := by
    obtain ⟨within, _⟩ := List.getElem?_eq_some_iff.mp found
    exact within
  storeWBIdx := by
    simp only [setStoreBlocked, setStoreWBIdx, incrStIdx, inv.storeWBIdx]
    exact next_slot inv.storeRing.inside
  loadsSorted := inv.loadsSorted
  storesSorted := inv.storesSorted
  entries := by
    intro offset value read
    have ok := inv.entries offset value read
    refine ⟨ok.named, ?_, fun after => ok.unanswered (Nat.le_of_succ_le after), ?_, ok.noPrefetch, ok.small,
      ok.addressed, ok.requested, ok.own⟩
    · intro before
      rcases Nat.lt_succ_iff_lt_or_eq.mp before with earlier | rfl
      · exact ok.marked earlier
      · rw [found] at read
        cases read
        exact marked
    · intro after handed
      have at' := (ok.unhanded (Nat.le_of_succ_le after) handed).1
      omega
  markedFirst := inv.markedFirst
  counted := inv.counted
  blocked := by simp [setStoreBlocked]
  loadOwn := inv.loadOwn
  loadMarks := inv.loadMarks
  storeMarks := inv.storeMarks
  frontier := inv.frontier
  waiting := inv.waiting

theorem popStore_keeps (inv : ConsistentFor spared u doneSeqNum loads (entry :: rest) (sent + 1))
    (answered : entry.completed = true) :
    ConsistentFor spared u.popStore doneSeqNum loads rest sent where
  loadRing := inv.loadRing
  storeRing := inv.storeRing.pop
  sent_le := Nat.le_of_succ_le_succ inv.sent_le
  storeWBIdx := by
    simp only [popStore, incrStIdx, slot_next inv.storeRing.inside]
    exact inv.storeWBIdx
  loadsSorted := inv.loadsSorted
  storesSorted := List.Pairwise.of_cons inv.storesSorted
  entries := by
    intro offset value read
    have ok := inv.entries (offset + 1) value read
    refine ⟨ok.named, fun before => ok.marked (Nat.succ_lt_succ before),
      fun after => ok.unanswered (Nat.succ_le_succ after), ?_, ok.noPrefetch, ok.small, ok.addressed,
      ok.requested, ?_⟩
    · intro after handed
      obtain ⟨same, isBlocked⟩ := ok.unhanded (Nat.succ_le_succ after) handed
      exact ⟨Nat.succ.inj same, isBlocked⟩
    · simp only [popStore, incrStIdx, slot_next inv.storeRing.inside]
      exact ok.own
  markedFirst := fun first second older younger before foundOlder foundYounger =>
    inv.markedFirst (first + 1) (second + 1) older younger (Nat.succ_lt_succ before) foundOlder foundYounger
  counted := by
    have counted := inv.counted
    rwa [List.countP_cons_of_neg (by simp [SQEntry.pending, answered])] at counted
  blocked := inv.blocked
  loadOwn := inv.loadOwn
  loadMarks := by
    intro load member open'
    have mark := inv.loadMarks load member open'
    change StoreMark u.SQEntries (next u.SQEntries u.storeHead) rest load (u.insts load).sqIdx
    cases index : (u.insts load).sqIdx with
    | none =>
        rw [index] at mark
        exact fun value later => mark value (List.mem_cons_of_mem _ later)
    | some index' =>
        rw [index] at mark
        have marked := (inv.entries 0 entry rfl).marked (Nat.succ_pos _)
        have older := inv.frontier entry List.mem_cons_self marked load member open'
        exact (bookmark_cons_iff inv.storeRing.inside older).mp mark
  storeMarks := fun value member => inv.storeMarks value (List.mem_cons_of_mem _ member)
  frontier := fun value member => inv.frontier value (List.mem_cons_of_mem _ member)
  waiting := inv.waiting

theorem popCompleted_keeps (fuel : Nat)
    (inv : ConsistentFor spared u doneSeqNum loads (entry :: rest) (sent + 1))
    (answered : entry.completed = true) (enough : rest.length < fuel) :
    ∃ u' stores' sent', popCompleted fuel u = .ok u' ∧
      ConsistentFor spared u' doneSeqNum loads stores' sent' := by
  induction fuel generalizing u entry rest sent with
  | zero => exact absurd enough (Nat.not_lt_zero _)
  | succ fuel ih =>
      have kept := popStore_keeps inv answered
      rw [popCompleted]
      cases rest with
      | nil =>
          have atTail := kept.storeRing.tail_eq
          rw [List.length_nil, slot_zero kept.storeRing.inside] at atTail
          refine ⟨_, [], sent, if_neg ?_, kept⟩
          simp only [Bool.and_eq_true, decide_eq_true_eq]
          exact fun both => both.2 atTail.symm
      | cons next later =>
          have atHead : u.storeQueue u.popStore.storeHead = next := kept.storeRing.head_eq
          by_cases goOn : next.completed = true
          · -- an answered store has been written back, so the one behind it is the next to go
            cases sent with
            | zero =>
                rw [(kept.entries 0 next rfl).unanswered (Nat.le_refl _)] at goOn
                cases goOn
            | succ sent =>
                obtain ⟨u', stores', sent', returned, final⟩ :=
                  ih kept goOn (Nat.lt_of_succ_lt_succ enough)
                refine ⟨u', stores', sent', ?_, final⟩
                have apart := mt (kept.storeRing.slot_eq_tail_iff (Nat.zero_le _)).mp
                  (Nat.succ_ne_zero later.length).symm
                rw [slot_zero kept.storeRing.inside] at apart
                have notTail : u.popStore.storeHead ≠ u.storeTail := apart
                rw [← returned]
                exact if_pos (by rw [atHead, goOn]; simpa using notTail)
          · refine ⟨_, next :: later, sent, if_neg ?_, kept⟩
            rw [atHead]
            simp [goOn]

theorem settle_keeps (inv : ConsistentFor spared u doneSeqNum loads stores sent) (inst : InstSeqNum)
    (storeInFlight : Bool) :
    ConsistentFor spared ((u.unstall inst).setStoreInFlight storeInFlight) doneSeqNum loads stores sent := by
  have unstalled : ConsistentFor spared (u.unstall inst) doneSeqNum loads stores sent := by
    unfold unstall
    split
    · apply inv.frame
      · exact .beside fun inst => sameInst_refl _
      · intro stalls
        cases stalls
    · exact inv
  unfold setStoreInFlight
  split
  · apply unstalled.frame
    · exact .beside fun inst => sameInst_refl _
    · exact unstalled.waiting
  · exact unstalled

theorem completeStore_eq {store_idx : Nat} {inst : InstSeqNum}
    (named : (u.storeQueue store_idx).inst = some inst) :
    u.completeStore store_idx =
      (u.markCompleted store_idx).popFrom store_idx >>= fun popped =>
        .ok ((popped.unstall inst).setStoreInFlight false) := by
  unfold completeStore
  split
  · next absent =>
      rw [named] at absent
      cases absent
  · next present =>
      rw [named] at present
      cases present
      rfl

theorem completeStore_keeps {offset : Nat} (inv : ConsistentFor spared u doneSeqNum loads stores sent)
    (found : stores[offset]? = some entry) (wasSent : offset < sent)
    (unanswered : entry.completed = false) :
    ∃ u' stores' sent', u.completeStore (slot u.SQEntries u.storeHead offset) = .ok u' ∧
      ConsistentFor spared u' doneSeqNum loads stores' sent' := by
  have ok := inv.entries offset entry found
  have slotIs := inv.storeRing.getElem? found
  have marked := ok.marked wasSent
  have room := inv.storeRing.room
  obtain ⟨within, _⟩ := List.getElem?_eq_some_iff.mp found
  have kept : ConsistentFor spared (u.markCompleted (slot u.SQEntries u.storeHead offset)) doneSeqNum
      loads (stores.set offset { entry with completed := true }) sent := by
    rw [markCompleted, slotIs]
    refine setEntry_keeps inv found ?_ ?_ ?_ ?_ ?_
    · rfl
    · exact ⟨ok.named, ok.marked, fun after => absurd wasSent (Nat.not_lt.mpr after),
        fun after => absurd wasSent (Nat.not_lt.mpr after), ok.noPrefetch, ok.small, ok.addressed,
        ok.requested, ok.own⟩
    · exact id
    · intro unmarked
      rw [marked] at unmarked
      cases unmarked
    · rw [pending_set found, inv.counted]
      simp [SQEntry.pending, marked, unanswered]
  rw [completeStore_eq (by rw [slotIs]; exact ok.named), popFrom]
  by_cases atHead : offset = 0
  · subst offset
    rw [slot_zero inv.storeRing.inside] at kept ⊢
    cases stores with
    | nil => cases found
    | cons first rest =>
        cases sent with
        | zero => exact absurd wasSent (Nat.lt_irrefl _)
        | succ sent =>
            cases found
            obtain ⟨popped, stores', sent', returned, final⟩ := popCompleted_keeps u.SQEntries kept rfl
              (Nat.lt_of_succ_lt room)
            exact ⟨_, stores', sent', bind_eq_of_ok ((if_pos rfl).trans returned) rfl,
              settle_keeps final entry.seqNum _⟩
  · have notHead : slot u.SQEntries u.storeHead offset ≠ u.storeHead := by
      intro same
      exact atHead (slot_inj (Nat.lt_trans within room) (Nat.zero_lt_of_lt room)
        (same.trans (slot_zero inv.storeRing.inside).symm))
    exact ⟨_, _, _, bind_eq_of_ok (if_neg notHead) rfl, settle_keeps kept entry.seqNum _⟩

theorem popCompleted_setStoreWBIdx (fuel store_idx : Nat) (u : LSQUnit) :
    popCompleted fuel (u.setStoreWBIdx store_idx) =
      (popCompleted fuel u).map fun popped => popped.setStoreWBIdx store_idx := by
  induction fuel generalizing u with
  | zero => rfl
  | succ fuel ih =>
      by_cases goOn : ((u.storeQueue u.popStore.storeHead).completed &&
          decide (u.popStore.storeHead ≠ u.storeTail)) = true
      · rw [popCompleted, popCompleted, if_pos goOn]
        exact (if_pos goOn).trans (ih u.popStore)
      · rw [popCompleted, popCompleted, if_neg goOn]
        exact if_neg goOn

theorem popFrom_setStoreWBIdx (store_idx idx : Nat) (u : LSQUnit) :
    (u.setStoreWBIdx idx).popFrom store_idx =
      (u.popFrom store_idx).map fun popped => popped.setStoreWBIdx idx := by
  unfold popFrom
  by_cases atHead : store_idx = u.storeHead
  · rw [if_pos atHead]
    exact (if_pos atHead).trans (popCompleted_setStoreWBIdx u.SQEntries idx u)
  · rw [if_neg atHead]
    exact if_neg atHead

theorem settle_setStoreWBIdx (store_idx : Nat) (u : LSQUnit) (inst : InstSeqNum) (storeInFlight : Bool) :
    ((u.setStoreWBIdx store_idx).unstall inst).setStoreInFlight storeInFlight =
      ((u.unstall inst).setStoreInFlight storeInFlight).setStoreWBIdx store_idx := by
  unfold unstall setStoreInFlight setStoreWBIdx
  dsimp only
  split <;> split <;> rfl

theorem settle_setStoreBlocked (isStoreBlocked : Bool) (u : LSQUnit) (inst : InstSeqNum)
    (storeInFlight : Bool) :
    ((u.setStoreBlocked isStoreBlocked).unstall inst).setStoreInFlight storeInFlight =
      ((u.unstall inst).setStoreInFlight storeInFlight).setStoreBlocked isStoreBlocked := by
  unfold unstall setStoreInFlight setStoreBlocked
  dsimp only
  split <;> split <;> rfl

theorem completeStore_setStoreWBIdx (store_idx idx : Nat) (u : LSQUnit) :
    (u.setStoreWBIdx idx).completeStore store_idx =
      (u.completeStore store_idx).map fun done => done.setStoreWBIdx idx := by
  cases named : (u.storeQueue store_idx).inst with
  | none =>
      have absent : ((u.setStoreWBIdx idx).storeQueue store_idx).inst = none := named
      rw [completeStore, completeStore, named, absent]
      rfl
  | some inst =>
      have present : ((u.setStoreWBIdx idx).storeQueue store_idx).inst = some inst := named
      have pops : ((u.setStoreWBIdx idx).markCompleted store_idx).popFrom store_idx =
          ((u.markCompleted store_idx).popFrom store_idx).map fun popped => popped.setStoreWBIdx idx :=
        popFrom_setStoreWBIdx store_idx idx (u.markCompleted store_idx)
      rw [completeStore_eq named, completeStore_eq present, pops]
      cases (u.markCompleted store_idx).popFrom store_idx with
      | error stop => rfl
      | ok popped => exact congrArg Except.ok (settle_setStoreWBIdx idx popped inst false)

theorem completeAtOnce_keeps
    (inv : ConsistentFor spared (u.setStoreWBIdx (u.incrStIdx u.storeWBIdx)) doneSeqNum loads stores
      (sent + 1))
    (place : u.storeWBIdx = slot u.SQEntries u.storeHead sent) (found : stores[sent]? = some entry)
    (unanswered : entry.completed = false) :
    ∃ u' stores' sent', u.completeAtOnce = .ok u' ∧
      ConsistentFor spared u' doneSeqNum loads stores' sent' := by
  obtain ⟨after, stores', sent', returned, final⟩ :=
    completeStore_keeps inv found (Nat.lt_succ_self sent) unanswered
  have swapped := completeStore_setStoreWBIdx (slot u.SQEntries u.storeHead sent)
    (u.incrStIdx u.storeWBIdx) u
  rw [← place] at swapped
  have same : slot (u.setStoreWBIdx (u.incrStIdx u.storeWBIdx)).SQEntries
      (u.setStoreWBIdx (u.incrStIdx u.storeWBIdx)).storeHead sent = u.storeWBIdx := place.symm
  rw [same, swapped] at returned
  rw [completeAtOnce]
  cases completed : u.completeStore u.storeWBIdx with
  | error stop =>
      rw [completed] at returned
      cases returned
  | ok done =>
      rw [completed] at returned
      cases returned
      exact ⟨_, stores', sent', rfl, final⟩

theorem hand_keeps (inv : ConsistentFor spared u doneSeqNum loads stores sent)
    (found : stores[sent]? = some entry) (marked : entry.canWB = true) :
    ConsistentFor spared
      ((u.setEntry u.storeWBIdx { u.storeQueue u.storeWBIdx with committed := true }).setStoreBlocked true)
      doneSeqNum loads (stores.set sent { entry with committed := true }) sent := by
  have blocked := block_keeps inv found marked
  have ok := blocked.entries sent entry found
  rw [inv.storeWBIdx, inv.storeRing.getElem? found]
  refine setEntry_keeps blocked found ?_ ?_ ?_ ?_ ?_
  · rfl
  · exact ⟨ok.named, ok.marked, ok.unanswered, fun _ _ => ⟨rfl, rfl⟩, ok.noPrefetch, ok.small, ok.addressed,
      ok.requested, ok.own⟩
  · exact id
  · intro unmarked
    rw [marked] at unmarked
    cases unmarked
  · rw [pending_set found]
    exact inv.counted.trans (Int.sub_add_cancel _ _).symm

theorem setStoreBlocked_self {isStoreBlocked : Bool} (same : u.isStoreBlocked = isStoreBlocked) :
    u.setStoreBlocked isStoreBlocked = u := by
  subst same
  rfl

theorem unstall_isStoreBlocked (inst : InstSeqNum) (storeInFlight : Bool) :
    ((u.unstall inst).setStoreInFlight storeInFlight).isStoreBlocked = u.isStoreBlocked := by
  unfold unstall setStoreInFlight
  split <;> split <;> rfl

theorem storePostSend_keeps {isStoreBlocked : Bool}
    (inv : ConsistentFor spared (u.setStoreBlocked isStoreBlocked) doneSeqNum loads stores sent)
    (found : stores[sent]? = some entry) (marked : entry.canWB = true) :
    ∃ u', u.storePostSend = .ok u' ∧ u'.isStoreBlocked = u.isStoreBlocked ∧
      ConsistentFor spared (u'.setStoreBlocked false) doneSeqNum loads stores (sent + 1) := by
  have place : u.storeWBIdx = slot u.SQEntries u.storeHead sent := inv.storeWBIdx
  have slotIs : u.storeQueue (slot u.SQEntries u.storeHead sent) = entry := inv.storeRing.getElem? found
  have named : (u.storeQueue u.storeWBIdx).inst = some entry.seqNum := by
    rw [place, slotIs]
    exact (inv.entries sent entry found).named
  refine ⟨_, bind_eq_of_ok (by rw [named]; rfl) rfl, unstall_isStoreBlocked entry.seqNum true, ?_⟩
  have passed := pass_keeps inv found marked
  have plain : ConsistentFor spared ((u.setStoreWBIdx (u.incrStIdx u.storeWBIdx)).setStoreBlocked false)
      doneSeqNum loads stores (sent + 1) := passed
  have settled := settle_keeps plain entry.seqNum true
  rwa [settle_setStoreBlocked, settle_setStoreWBIdx] at settled

theorem sendToMemory_eq {req : Request} {inst : InstSeqNum} {attempt : SendAttempt}
    (request : (u.storeQueue u.storeWBIdx).req = some req) :
    u.sendToMemory inst attempt = (do
      assert (!(u.storeQueue u.storeWBIdx).committed)
      let handed := u.setEntry u.storeWBIdx { u.storeQueue u.storeWBIdx with committed := true }
      if (u.insts inst).isStoreConditional && !attempt.lockedWrite then handed.completeAtOnce
      else if req.mmappedIpr then do
        assert (!(u.insts inst).isStoreConditional)
        handed.completeAtOnce
      else if attempt.sent then handed.storePostSend
      else .ok (handed.setStoreBlocked true)) := by
  unfold sendToMemory
  split
  · next absent =>
      rw [request] at absent
      cases absent
  · next present =>
      rw [request] at present
      cases present
      rfl

theorem sendToMemory_keeps (inv : ConsistentFor spared u doneSeqNum loads stores sent)
    (found : stores[sent]? = some entry) (marked : entry.canWB = true) (executed : entry.size ≠ 0)
    (free : u.isStoreBlocked = false) (attempt : SendAttempt) :
    ∃ u' stores' sent', u.sendToMemory entry.seqNum attempt = .ok u' ∧
      ConsistentFor spared u' doneSeqNum loads stores' sent' := by
  have ok := inv.entries sent entry found
  have slotIs : u.storeQueue u.storeWBIdx = entry := by
    rw [inv.storeWBIdx]
    exact inv.storeRing.getElem? found
  have handed := hand_keeps inv found marked
  rw [slotIs] at handed
  obtain ⟨within, _⟩ := List.getElem?_eq_some_iff.mp found
  have refound : (stores.set sent { entry with committed := true })[sent]? =
      some { entry with committed := true } := List.getElem?_set_self within
  have passed := pass_keeps handed refound marked
  have unblocked : ((u.setEntry u.storeWBIdx { entry with committed := true }).setStoreWBIdx
      (u.incrStIdx u.storeWBIdx)).setStoreBlocked false =
        (u.setEntry u.storeWBIdx { entry with committed := true }).setStoreWBIdx
          (u.incrStIdx u.storeWBIdx) := setStoreBlocked_self free
  have atOnce := completeAtOnce_keeps (u := u.setEntry u.storeWBIdx { entry with committed := true })
    (unblocked ▸ passed) inv.storeWBIdx refound (ok.unanswered (Nat.le_refl _))
  obtain ⟨req, request, notIpr⟩ := ok.requested executed
  have fresh : (!entry.committed) = true := by
    cases committed : entry.committed with
    | false => rfl
    | true =>
        rw [(ok.unhanded (Nat.le_refl _) committed).2] at free
        cases free
  rw [sendToMemory_eq (by rw [slotIs]; exact request), slotIs, assert_bind fresh]
  by_cases fails : ((u.insts entry.seqNum).isStoreConditional && !attempt.lockedWrite) = true
  · rw [if_pos fails]
    exact atOnce
  rw [if_neg fails]
  by_cases ipr : req.mmappedIpr = true
  · have plain : (!(u.insts entry.seqNum).isStoreConditional) = true := by
      cases conditional : (u.insts entry.seqNum).isStoreConditional with
      | false => rfl
      | true =>
          rw [notIpr conditional] at ipr
          cases ipr
    rw [if_pos ipr, assert_bind plain]
    exact atOnce
  rw [if_neg ipr]
  by_cases goes : attempt.sent = true
  · rw [if_pos goes]
    obtain ⟨u', posted, same, final⟩ := storePostSend_keeps handed refound marked
    rw [setStoreBlocked_self (same.trans free)] at final
    exact ⟨u', _, _, posted, final⟩
  · rw [if_neg goes]
    exact ⟨_, _, _, rfl, handed⟩

theorem writebackStore_keeps (inv : ConsistentFor spared u doneSeqNum loads stores sent)
    (attempt : SendAttempt) :
    ∃ u' stores' sent', u.writebackStore attempt = .ok u' ∧
      ConsistentFor spared u' doneSeqNum loads stores' sent' := by
  by_cases stays : (!u.mayWriteBack || u.isStoreBlocked || attempt.cacheBlocked) = true
  · exact ⟨u, stores, sent, by rw [writebackStore, if_pos stays], inv⟩
  have goes := stays
  simp only [Bool.or_eq_true, Bool.not_eq_true', not_or, Bool.not_eq_true, Bool.not_eq_false] at goes
  obtain ⟨⟨may, free⟩, _⟩ := goes
  simp only [mayWriteBack, Bool.and_eq_true, decide_eq_true_eq] at may
  obtain ⟨⟨⟨⟨_, notTail⟩, _⟩, marked⟩, _⟩ := may
  -- the index stands before the tail, at the first store that is not written back
  rw [inv.storeWBIdx] at notTail
  have inside : sent < stores.length :=
    Nat.lt_of_le_of_ne inv.sent_le (mt (inv.storeRing.slot_eq_tail_iff inv.sent_le).mpr notTail)
  have found : stores[sent]? = some stores[sent] := List.getElem?_eq_getElem inside
  have slotIs : u.storeQueue u.storeWBIdx = stores[sent] := by
    rw [inv.storeWBIdx]
    exact inv.storeRing.getElem? found
  rw [slotIs] at marked
  have ok := inv.entries sent _ found
  have passed := pass_keeps inv found marked
  have unblocked : (u.setStoreWBIdx (u.incrStIdx u.storeWBIdx)).setStoreBlocked false =
      u.setStoreWBIdx (u.incrStIdx u.storeWBIdx) := setStoreBlocked_self free
  rw [writebackStore, if_neg stays, slotIs]
  by_cases empty : stores[sent].size = 0
  · rw [if_pos empty]
    exact completeAtOnce_keeps (unblocked ▸ passed) inv.storeWBIdx found (ok.unanswered (Nat.le_refl _))
  · rw [if_neg empty, ok.named]
    obtain ⟨u', stores', sent', returned, final⟩ :=
      sendToMemory_keeps inv found marked empty free attempt
    refine ⟨u', stores', sent', ?_, final⟩
    rw [← returned]
    exact if_neg (by rw [ok.noPrefetch]; exact Bool.false_ne_true)

theorem recvRetry_keeps (inv : ConsistentFor spared u doneSeqNum loads stores sent) (isSent : Bool) :
    ∃ u' sent', u.recvRetry isSent = .ok u' ∧
      ConsistentFor spared u' doneSeqNum loads stores sent' := by
  by_cases goes : (u.isStoreBlocked && isSent) = true
  · have blocked := (Bool.and_eq_true_iff.mp goes).1
    obtain ⟨entry, found, marked⟩ := inv.blocked blocked
    have held : ConsistentFor spared (u.setStoreBlocked u.isStoreBlocked) doneSeqNum loads stores sent := inv
    obtain ⟨u', posted, _, final⟩ := storePostSend_keeps held found marked
    refine ⟨_, sent + 1, ?_, final⟩
    rw [recvRetry, if_pos goes, posted]
    rfl
  · exact ⟨u, sent, by rw [recvRetry, if_neg goes], inv⟩

end WriteBack

section Squash

variable {spared : InstSeqNum → Prop} {u : LSQUnit} {doneSeqNum squashed_num load : InstSeqNum}
  {loads rest : List InstSeqNum} {stores older : List SQEntry} {sent : Nat} {entry : SQEntry}

theorem unstallAt_keeps (inv : ConsistentFor spared u doneSeqNum loads stores sent) (load_idx : Nat) :
    ConsistentFor spared (u.unstallAt load_idx) doneSeqNum loads stores sent ∧
      ((u.unstallAt load_idx).stalled = true → (u.unstallAt load_idx).stallingLoadIdx ≠ load_idx) := by
  unfold unstallAt
  split
  · constructor
    · apply inv.frame
      · exact .beside fun inst => sameInst_refl _
      · intro stalls
        cases stalls
    · intro stalls
      cases stalls
  · next apart =>
      refine ⟨inv, ?_⟩
      intro stalls same
      apply apart
      simp [stalls, same]

theorem removeLoad_keeps (inv : ConsistentFor spared u doneSeqNum (rest ++ [load]) stores sent)
    (spares : ∀ inst, spared inst → inst ≤ load)
    (apart : u.stalled = true → u.stallingLoadIdx ≠ slot u.LQEntries u.loadHead rest.length) :
    ConsistentFor spared (u.removeLoad load (slot u.LQEntries u.loadHead rest.length)) doneSeqNum rest
      stores sent := by
  have ring := inv.loadRing
  rw [List.map_append] at ring
  have left := ring.dropLast
  have free := left.last_free
  rw [List.length_map] at left free
  have sameInsts : ∀ inst, SameInst (u.insts inst)
      (Function.update u.insts load { u.insts load with squashed := true } inst) :=
    sameInst_update ⟨rfl, rfl, rfl, rfl, id⟩
  constructor
  case loadRing => exact left.write_free (by simpa using free)
  case storeRing => exact inv.storeRing
  case sent_le => exact inv.sent_le
  case storeWBIdx => exact inv.storeWBIdx
  case loadsSorted => exact (List.pairwise_append.mp inv.loadsSorted).1
  case storesSorted => exact inv.storesSorted
  case entries =>
    intro offset value read
    exact (inv.entries offset value read).of_sameInst (sameInsts value.seqNum)
  case markedFirst => exact inv.markedFirst
  case counted => exact inv.counted
  case blocked => exact inv.blocked
  case loadOwn =>
    intro offset other found
    exact (sameInsts other).1.trans (inv.loadOwn offset other (getElem?_concat_of_some found))
  case loadMarks =>
    intro other member open'
    have mark := inv.loadMarks other (List.mem_append_left _ member) open'
    rwa [← (sameInsts other).2.1] at mark
  case storeMarks =>
    intro value member isSpared open'
    have mark := inv.storeMarks value member isSpared open'
    rw [bookmark_append_iff (by simpa using spares value.seqNum isSpared)] at mark
    rwa [← (sameInsts value.seqNum).1] at mark
  case frontier =>
    exact fun value member marked other found =>
      inv.frontier value member marked other (List.mem_append_left _ found)
  case waiting =>
    intro stalls
    obtain ⟨offset, other, found, place, before, open'⟩ := inv.waiting stalls
    rcases getElem?_concat_cases found with stays | ⟨rfl, _⟩
    · exact ⟨offset, other, stays, place, before, open'⟩
    · exact absurd place (apart stalls)

theorem filter_append_last {α : Type} {keep : α → Bool} {items : List α} {a : α} :
    (items ++ [a]).filter keep = if keep a then items.filter keep ++ [a] else items.filter keep := by
  cases kept : keep a <;> simp [List.filter_append, kept]

theorem squashLoads_keeps (fuel : Nat) (inv : ConsistentFor spared u doneSeqNum loads stores sent)
    (spares : ∀ inst, spared inst → ∀ other ∈ loads, squashed_num < other → inst ≤ other)
    (enough : loads.length < fuel) :
    ∃ u', squashLoads squashed_num fuel (u.decrLdIdx u.loadTail) u = .ok u' ∧
      ConsistentFor spared u' doneSeqNum (loads.filter fun other => decide (other ≤ squashed_num))
        stores sent := by
  induction fuel generalizing u loads with
  | zero => exact absurd enough (Nat.not_lt_zero _)
  | succ fuel ih =>
      have counted := inv.loadRing.counted
      rw [List.length_map] at counted
      rcases List.eq_nil_or_concat loads with none' | ⟨rest, load, last⟩
      · subst none'
        exact ⟨u, by rw [squashLoads, if_pos (by simpa using counted)], inv⟩
      · rw [List.concat_eq_append] at last
        subst last
        rw [List.length_append, List.length_singleton] at enough counted
        have occupied : u.loads ≠ 0 := by omega
        have ring := inv.loadRing
        rw [List.map_append] at ring
        have place : u.decrLdIdx u.loadTail = slot u.LQEntries u.loadHead rest.length := by
          have before := ring.previous_tail
          rwa [List.length_map] at before
        have atSlot : u.loadQueue (slot u.LQEntries u.loadHead rest.length) = some load :=
          inv.loadRing.getElem? (by simp)
        rw [place, squashLoads, if_neg occupied, atSlot, filter_append_last]
        by_cases young : squashed_num < load
        · obtain ⟨unstalled, apart⟩ := unstallAt_keeps inv (slot u.LQEntries u.loadHead rest.length)
          have sizes : (u.unstallAt (slot u.LQEntries u.loadHead rest.length)).LQEntries = u.LQEntries ∧
              (u.unstallAt (slot u.LQEntries u.loadHead rest.length)).loadHead = u.loadHead := by
            unfold unstallAt
            split <;> exact ⟨rfl, rfl⟩
          have removed := removeLoad_keeps unstalled
            (fun inst isSpared => spares inst isSpared load (by simp) young)
            (by rw [sizes.1, sizes.2]; exact apart)
          rw [sizes.1, sizes.2] at removed
          obtain ⟨u', returned, final⟩ := ih removed
            (fun inst isSpared other member => spares inst isSpared other (List.mem_append_left _ member))
            (by omega)
          refine ⟨u', ?_, ?_⟩
          · rw [← returned]
            refine (if_pos young).trans ?_
            simp only [decrLdIdx, removeLoad, setInst, sizes.1]
          · rwa [if_neg (by simpa using young)]
        · refine ⟨u, if_neg young, ?_⟩
          -- the loads are sorted, so the rest stays as well
          have all : rest.filter (fun other => decide (other ≤ squashed_num)) = rest := by
            apply List.filter_eq_self.mpr
            intro other member
            have below := (List.pairwise_append.mp inv.loadsSorted).2.2 other member load (by simp)
            exact decide_eq_true (Nat.le_trans (Nat.le_of_lt below) (Nat.not_lt.mp young))
          rwa [if_pos (by simpa using young), all]

theorem removeStore_keeps (inv : ConsistentFor spared u doneSeqNum loads (older ++ [entry]) sent)
    (unmarked : entry.canWB = false) (above : ∀ other ∈ loads, other ≤ entry.seqNum) :
    ConsistentFor spared (u.removeStore entry.seqNum (slot u.SQEntries u.storeHead older.length))
      doneSeqNum loads older sent := by
  have sameInsts : ∀ inst, SameInst (u.insts inst)
      (Function.update u.insts entry.seqNum { u.insts entry.seqNum with squashed := true } inst) :=
    sameInst_update ⟨rfl, rfl, rfl, rfl, id⟩
  have atEnd : (older ++ [entry])[older.length]? = some entry := by simp
  -- a store that is written back is marked, so it is not this one
  have unsent : sent ≤ older.length := by
    by_contra beyond
    have marked := (inv.entries older.length entry atEnd).marked (Nat.lt_of_not_le beyond)
    rw [unmarked] at marked
    cases marked
  constructor
  case loadRing => exact inv.loadRing
  case storeRing => exact inv.storeRing.dropLast.write_free inv.storeRing.dropLast.last_free
  case sent_le => exact unsent
  case storeWBIdx => exact inv.storeWBIdx
  case loadsSorted => exact inv.loadsSorted
  case storesSorted =>
    have sorted := inv.storesSorted
    rw [List.map_append, List.pairwise_append] at sorted
    exact sorted.1
  case entries =>
    intro offset value read
    have ok := inv.entries offset value (getElem?_concat_of_some read)
    exact ok.of_sameInst (sameInsts value.seqNum)
  case markedFirst =>
    intro first second before after order foundBefore foundAfter
    exact inv.markedFirst first second before after order (getElem?_concat_of_some foundBefore)
      (getElem?_concat_of_some foundAfter)
  case counted =>
    have counted := inv.counted
    have none' : [entry].countP SQEntry.pending = 0 := by simp [SQEntry.pending, unmarked]
    rw [List.countP_append, none', Nat.add_zero] at counted
    exact counted
  case blocked =>
    intro isBlocked
    obtain ⟨value, read, marked⟩ := inv.blocked isBlocked
    rcases getElem?_concat_cases read with stays | ⟨_, rfl⟩
    · exact ⟨value, stays, marked⟩
    · rw [unmarked] at marked
      cases marked
  case loadOwn =>
    intro offset other found
    exact (sameInsts other).1.trans (inv.loadOwn offset other found)
  case loadMarks =>
    intro other member open'
    have mark := inv.loadMarks other member open'
    rw [← (sameInsts other).2.1] at mark
    exact (storeMark_concat_iff (above other member)).mp mark
  case storeMarks =>
    intro value member isSpared open'
    have mark := inv.storeMarks value (List.mem_append_left _ member) isSpared open'
    rwa [← (sameInsts value.seqNum).1] at mark
  case frontier => exact fun value member => inv.frontier value (List.mem_append_left _ member)
  case waiting => exact inv.waiting

theorem squashStores_keeps (fuel : Nat) (inv : ConsistentFor spared u doneSeqNum loads stores sent)
    (below : ∀ other ∈ loads, other ≤ squashed_num) (enough : stores.length < fuel) :
    ∃ u', squashStores squashed_num fuel (u.decrStIdx u.storeTail) u = .ok u' ∧
      ConsistentFor spared u' doneSeqNum loads
        (stores.filter fun value => value.canWB || decide (value.seqNum ≤ squashed_num)) sent := by
  induction fuel generalizing u stores with
  | zero => exact absurd enough (Nat.not_lt_zero _)
  | succ fuel ih =>
      have counted := inv.storeRing.counted
      rcases List.eq_nil_or_concat stores with none' | ⟨older, entry, last⟩
      · subst none'
        exact ⟨u, by rw [squashStores, if_pos (by simpa using counted)], inv⟩
      · rw [List.concat_eq_append] at last
        subst last
        rw [List.length_append, List.length_singleton] at enough counted
        have occupied : u.stores ≠ 0 := by omega
        have place : u.decrStIdx u.storeTail = slot u.SQEntries u.storeHead older.length :=
          inv.storeRing.previous_tail
        have atEnd : (older ++ [entry])[older.length]? = some entry := by simp
        have atSlot := inv.storeRing.getElem? atEnd
        have ok := inv.entries older.length entry atEnd
        rw [place, squashStores, if_neg occupied, atSlot, ok.named, filter_append_last]
        by_cases leaves : (decide (squashed_num < entry.seqNum) && !entry.canWB) = true
        · obtain ⟨young, unmarked⟩ := Bool.and_eq_true_iff.mp leaves
          rw [decide_eq_true_eq] at young
          rw [Bool.not_eq_true'] at unmarked
          have removed := removeStore_keeps inv unmarked
            (fun other member => Nat.le_trans (below other member) (Nat.le_of_lt young))
          obtain ⟨u', returned, final⟩ := ih removed (by omega)
          -- the load that waits was spared, and it is younger than its store
          have noPanic : ¬ (u.stalled && decide (entry.seqNum = u.stallingStoreIsn)) = true := by
            intro panics
            simp only [Bool.and_eq_true, decide_eq_true_eq] at panics
            obtain ⟨offset, load, found, _, before, _⟩ := inv.waiting panics.1
            have spare := below load (List.mem_of_getElem? found)
            exact Nat.lt_irrefl _ (Nat.lt_of_lt_of_le (panics.2 ▸ before)
              (Nat.le_trans spare (Nat.le_of_lt young)))
          refine ⟨u', ?_, ?_⟩
          · rw [← returned]
            exact (if_pos leaves).trans (if_neg noPanic)
          · have gone : ¬ (entry.canWB || decide (entry.seqNum ≤ squashed_num)) = true := by
              simp [unmarked, young]
            rwa [if_neg gone]
        · refine ⟨u, if_neg leaves, ?_⟩
          have stays : (entry.canWB || decide (entry.seqNum ≤ squashed_num)) = true := by
            cases marked : entry.canWB with
            | true => rfl
            | false => simpa [marked] using leaves
          -- the stores before a marked one are marked, those before an old one are older
          have all : older.filter (fun value => value.canWB || decide (value.seqNum ≤ squashed_num)) =
              older := by
            apply List.filter_eq_self.mpr
            intro value member
            obtain ⟨offset, within, is⟩ := List.getElem_of_mem member
            rcases Bool.or_eq_true_iff.mp stays with marked | old
            · have first := inv.markedFirst offset older.length value entry within
                (by rw [List.getElem?_append_left within, List.getElem?_eq_getElem within, is]) atEnd marked
              simp [first]
            · have sorted := inv.storesSorted
              rw [List.map_append, List.pairwise_append] at sorted
              have before := sorted.2.2 value.seqNum (List.mem_map_of_mem member) entry.seqNum (by simp)
              rw [decide_eq_true_eq] at old
              simp [Nat.le_trans (Nat.le_of_lt before) old]
          rwa [if_pos stays, all]

theorem clear_keeps (inv : ConsistentFor spared u doneSeqNum loads stores sent) :
    ConsistentFor spared ((u.clearBlocked squashed_num).clearViolator squashed_num) doneSeqNum loads
      stores sent := by
  unfold clearViolator clearBlocked
  split
  · apply inv.frame
    · exact .beside fun inst => sameInst_refl _
    · exact inv.waiting
  · apply inv.frame
    · exact .beside fun inst => sameInst_refl _
    · exact inv.waiting

theorem squash_keeps (inv : Consistent u doneSeqNum loads stores sent)
    (notBelow : doneSeqNum ≤ squashed_num) :
    ∃ u', u.squash squashed_num = .ok u' ∧
      Consistent u' doneSeqNum (loads.filter fun other => decide (other ≤ squashed_num))
        (stores.filter fun value => value.canWB || decide (value.seqNum ≤ squashed_num)) sent := by
  have room := inv.loadRing.room
  rw [List.length_map] at room
  let spare : InstSeqNum → Prop := fun inst => ∀ other ∈ loads, squashed_num < other → inst ≤ other
  have start : ConsistentFor spare u doneSeqNum loads stores sent := inv.respare fun _ _ _ => True.intro
  obtain ⟨loaded, returnedLoads, afterLoads⟩ :=
    squashLoads_keeps u.LQEntries start (fun _ isSpared => isSpared) room
  have cleared : ConsistentFor spare ((loaded.clearBlocked squashed_num).clearViolator squashed_num) _ _ _ _ :=
    clear_keeps afterLoads
  have below : ∀ other ∈ loads.filter fun other => decide (other ≤ squashed_num),
      other ≤ squashed_num := by simp
  obtain ⟨u', returnedStores, afterStores⟩ :=
    squashStores_keeps u.SQEntries cleared below inv.storeRing.room
  refine ⟨u', ?_, afterStores.respare ?_⟩
  · rw [squash, returnedLoads]
    exact returnedStores
  · intro value member _ other found young
    rcases Bool.or_eq_true_iff.mp (List.mem_filter.mp member).2 with marked | old
    · exact Nat.le_of_lt (inv.frontier value (List.mem_filter.mp member).1 marked other found
        (Nat.lt_of_le_of_lt notBelow young))
    · exact Nat.le_trans (of_decide_eq_true old) (Nat.le_of_lt young)

end Squash

end GemFi.LsqWriteBack
