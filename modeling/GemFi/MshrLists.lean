import GemFi.MshrQueue
import GemFi.Outcomes
import Mathlib.Data.List.TakeWhile

/-!
What the parts of the queue's operations do to its lists: the iterators that the registers keep
lead to their own nodes, and the search for a place in the ready list finds one.
-/

namespace GemFi.MshrLists

open MshrQueue NodeLists Outcomes

structure Links (registers : Nat → MSHR) (allocatedList readyList : NodeList Nat) (nextNode : Nat) :
    Prop where
  alloc : Linked allocatedList (fun r => (registers r).allocIter) nextNode
  ready : Linked readyList (fun r => (registers r).readyIter) nextNode

def SameIterators (mshr mshr' : MSHR) : Prop :=
  mshr'.allocIter = mshr.allocIter ∧ mshr'.readyIter = mshr.readyIter

section Links

variable {registers : Nat → MSHR} {allocatedList readyList before after : NodeList Nat} {nextNode r : Nat}

theorem links_new : Links (fun _ => MSHR.new) [] [] 0 where
  alloc := Linked.nil 0
  ready := Linked.nil 0

theorem allocIter_update (mshr : MSHR) (r : Nat) :
    (fun i => (Function.update registers r mshr i).allocIter) =
      Function.update (fun i => (registers i).allocIter) r mshr.allocIter :=
  funext fun i =>
    Function.apply_update (fun (_ : Nat) (kept : MSHR) => kept.allocIter) registers r mshr i

theorem readyIter_update (mshr : MSHR) (r : Nat) :
    (fun i => (Function.update registers r mshr i).readyIter) =
      Function.update (fun i => (registers i).readyIter) r mshr.readyIter :=
  funext fun i =>
    Function.apply_update (fun (_ : Nat) (kept : MSHR) => kept.readyIter) registers r mshr i

theorem Links.setMSHR (links : Links registers allocatedList readyList nextNode) {mshr : MSHR}
    (same : SameIterators (registers r) mshr) :
    Links (Function.update registers r mshr) allocatedList readyList nextNode where
  alloc := by
    rw [allocIter_update, same.1, Function.update_eq_self]
    exact links.alloc
  ready := by
    rw [readyIter_update, same.2, Function.update_eq_self]
    exact links.ready

theorem Links.insertAllocated (links : Links registers allocatedList readyList nextNode)
    (absent : r ∉ items allocatedList) :
    Links (Function.update registers r { registers r with allocIter := some nextNode })
      (allocatedList ++ [(nextNode, r)]) readyList (nextNode + 1) where
  alloc := by
    have whole : Linked (allocatedList ++ []) (fun i => (registers i).allocIter) nextNode := by
      rw [List.append_nil]
      exact links.alloc
    rw [allocIter_update]
    exact whole.insert (by rwa [List.append_nil])
  ready := by
    rw [readyIter_update, Function.update_eq_self]
    exact links.ready.congr (fun _ => rfl) (Nat.le_succ _)

theorem Links.insertReady (links : Links registers allocatedList (before ++ after) nextNode)
    (absent : r ∉ items (before ++ after)) :
    Links (Function.update registers r { registers r with readyIter := some nextNode })
      allocatedList (before ++ (nextNode, r) :: after) (nextNode + 1) where
  alloc := by
    rw [allocIter_update, Function.update_eq_self]
    exact links.alloc.congr (fun _ => rfl) (Nat.le_succ _)
  ready := by
    rw [readyIter_update]
    exact links.ready.insert absent

end Links

section Registers

variable {mshr : MSHR}

theorem assert_ends (condition : Bool) :
    Ends (fun stop => stop = Stop.assertion) (fun _ => condition = true) (assert condition) := by
  apply ends_check
  rfl

theorem allocate_ends (addr : Addr) (size : Int) (pkt : Packet) (whenReady : Tick) (order : Nat) :
    Ends (fun stop => stop = Stop.assertion)
      (fun mshr' => SameIterators mshr mshr' ∧ mshr'.inService = false)
      (mshr.allocate addr size pkt whenReady order) := by
  apply (assert_ends _).bind
  intro _ _
  apply (assert_ends _).bind
  intro _ _
  exact ⟨⟨rfl, rfl⟩, rfl⟩

theorem deallocate_ends :
    Ends (fun stop => stop = Stop.assertion)
      (fun mshr' => SameIterators mshr mshr' ∧ mshr'.inService = false) mshr.deallocate := by
  apply (assert_ends _).bind
  intro _ _
  apply (assert_ends _).bind
  intro _ _
  exact ⟨⟨rfl, rfl⟩, rfl⟩

theorem isForwardNoResponse_ends :
    Ends (fun stop => stop = Stop.noElement ∧ mshr.targets.targets = [])
      (fun isForward => isForward = true → mshr.targets.targets ≠ []) mshr.isForwardNoResponse := by
  unfold MSHR.isForwardNoResponse
  split
  · exact fun isForward => nomatch isForward
  · split
    next noTarget => exact ⟨rfl, noTarget⟩
    next isTarget =>
      intro _ noTarget
      rw [noTarget] at isTarget
      cases isTarget

theorem popTarget_ends (isTarget : mshr.targets.targets ≠ []) :
    Ends (fun _ => False)
      (fun mshr' => SameIterators mshr mshr' ∧ mshr'.inService = mshr.inService ∧
        mshr'.readyTime = mshr.readyTime) mshr.popTarget := by
  unfold MSHR.popTarget
  split
  next noTarget => exact absurd noTarget isTarget
  next => exact ⟨⟨rfl, rfl⟩, rfl, rfl⟩

theorem markInService_ends (pkt : Packet) :
    Ends (fun stop => stop = Stop.assertion ∨ stop = Stop.noElement ∧ mshr.targets.targets = [])
      (fun marked => mshr.inService = false ∧ SameIterators mshr marked.2 ∧
        marked.2.inService = !marked.1 ∧ marked.2.readyTime = mshr.readyTime)
      (mshr.markInService pkt) := by
  apply ((assert_ends _).allow fun _ => Or.inl).bind
  intro _ isPending
  have notYet : mshr.inService = false := by simpa using isPending
  apply (isForwardNoResponse_ends.allow fun _ => Or.inr).bind
  intro isForward hasTarget
  cases isForward with
  | false => exact ⟨notYet, ⟨rfl, rfl⟩, rfl, rfl⟩
  | true =>
      apply ((assert_ends _).allow fun _ => Or.inl).bind
      intro _ _
      apply ((popTarget_ends (hasTarget rfl)).allow fun _ => False.elim).bind
      rintro popped ⟨same, sameService, sameTime⟩
      exact ⟨notYet, same, sameService.trans notYet, sameTime⟩

theorem promoteDeferredTargets_ends (curTick : Tick) :
    Ends (fun stop => stop = Stop.assertion)
      (fun promoted => SameIterators mshr promoted.2 ∧ promoted.2.inService = mshr.inService ∧
        (promoted.1 = false → promoted.2.readyTime = mshr.readyTime))
      (mshr.promoteDeferredTargets curTick) := by
  apply (assert_ends _).bind
  intro _ _
  split
  next => exact ⟨⟨rfl, rfl⟩, rfl, fun _ => rfl⟩
  next => exact ⟨⟨rfl, rfl⟩, rfl, fun notPromoted => nomatch notPromoted⟩

end Registers

section Queue

variable {queue : MSHRQueue} {r : Nat}

/-- What is ready no later than another stands before it. -/
def Sorted (queue : MSHRQueue) : Prop :=
  (items queue.readyList).Pairwise fun i j => queue.readyTime i ≤ queue.readyTime j

theorem ready_of_goesLast (sorted : Sorted queue) (last : queue.goesLast r = true) {i : Nat}
    (listed : i ∈ items queue.readyList) : queue.readyTime i ≤ queue.readyTime r := by
  unfold MSHRQueue.goesLast at last
  cases ending : queue.readyList.getLast? with
  | none =>
      rw [List.getLast?_eq_none_iff.mp ending] at listed
      cases listed
  | some back =>
      obtain ⟨others, isList⟩ := List.getLast?_eq_some_iff.mp ending
      rw [ending] at last
      have backFirst : queue.readyTime back.2 ≤ queue.readyTime r := of_decide_eq_true last
      rw [Sorted, isList, items_append] at sorted
      rw [isList, items_append, List.mem_append] at listed
      rcases listed with earlier | isBack
      · have beforeBack := (List.pairwise_append.mp sorted).2.2 i earlier back.2 List.mem_cons_self
        exact Nat.le_trans beforeBack backFirst
      · rw [List.mem_singleton.mp isBack]
        exact backFirst

theorem later_ne_nil (notLast : queue.goesLast r = false) :
    queue.readyList.dropWhile (queue.isPassed r) ≠ [] := by
  intro allEarlier
  unfold MSHRQueue.goesLast at notLast
  split at notLast
  next => cases notLast
  next back ending =>
    have isPassed := List.dropWhile_eq_nil_iff.mp allEarlier back (List.mem_of_getLast? ending)
    rw [MSHRQueue.isPassed, notLast] at isPassed
    cases isPassed

theorem ready_of_passed {i : Nat}
    (passed : i ∈ items (queue.readyList.takeWhile (queue.isPassed r))) :
    queue.readyTime i ≤ queue.readyTime r := by
  obtain ⟨node, member⟩ := mem_items_iff.mp passed
  have isPassed := List.mem_takeWhile_imp member
  exact of_decide_eq_true isPassed

theorem ready_of_sorted (sorted : Sorted queue) {i : Nat}
    (left : i ∈ items (queue.readyList.dropWhile (queue.isPassed r))) :
    queue.readyTime r ≤ queue.readyTime i := by
  have rest : (items (queue.readyList.dropWhile (queue.isPassed r))).Pairwise fun i j =>
      queue.readyTime i ≤ queue.readyTime j :=
    sorted.sublist ((List.dropWhile_sublist _).map Prod.snd)
  cases later : queue.readyList.dropWhile (queue.isPassed r) with
  | nil =>
      rw [later] at left
      cases left
  | cons first others =>
      have stops := List.head?_dropWhile_not (queue.isPassed r) queue.readyList
      rw [later] at stops left rest
      have firstLater : queue.readyTime r < queue.readyTime first.2 := by
        simpa [MSHRQueue.isPassed] using stops
      rcases List.mem_cons.mp left with isFirst | isOther
      · rw [isFirst]
        exact Nat.le_of_lt firstLater
      · have afterFirst := (List.pairwise_cons.mp rest).1 i isOther
        exact Nat.le_trans (Nat.le_of_lt firstLater) afterFirst

theorem exists_addToReadyList (queue : MSHRQueue) (r : Nat) :
    ∃ before after, before ++ after = queue.readyList ∧
      queue.addToReadyList r = .ok (queue.insertReady before after r) ∧
      (Sorted queue → (∀ i ∈ items before, queue.readyTime i ≤ queue.readyTime r) ∧
        ∀ i ∈ items after, queue.readyTime r ≤ queue.readyTime i) := by
  cases last : queue.goesLast r with
  | true =>
      refine ⟨queue.readyList, [], List.append_nil _, if_pos last, ?_⟩
      intro sorted
      exact ⟨fun i listed => ready_of_goesLast sorted last listed, fun i listed => nomatch listed⟩
  | false =>
      refine ⟨queue.readyList.takeWhile (queue.isPassed r),
        queue.readyList.dropWhile (queue.isPassed r), List.takeWhile_append_dropWhile, ?_, ?_⟩
      · unfold MSHRQueue.addToReadyList
        rw [if_neg (by simp [last])]
        split
        next noPlace => exact absurd noPlace (later_ne_nil last)
        next => rfl
      · intro sorted
        exact ⟨fun i passed => ready_of_passed passed, fun i left => ready_of_sorted sorted left⟩

/-- What leaves the list, and what happens to registers that are not in it, keeps it sorted. -/
theorem Sorted.frame {queue' : MSHRQueue} (sorted : Sorted queue)
    (fewer : (items queue'.readyList).Sublist (items queue.readyList))
    (sameTime : ∀ i ∈ items queue'.readyList, queue'.readyTime i = queue.readyTime i) :
    Sorted queue' := by
  apply (sorted.sublist fewer).imp_of_mem
  intro i j isFirst isSecond ordered
  rw [sameTime i isFirst, sameTime j isSecond]
  exact ordered

theorem readyTime_setMSHR {i : Nat} (other : i ≠ r) (mshr : MSHR) :
    (queue.setMSHR r mshr).readyTime i = queue.readyTime i :=
  congrArg MSHR.readyTime (Function.update_of_ne other _ _)

theorem readyTime_setMSHR_of_eq (queue : MSHRQueue) (mshr : MSHR) (sameTime : mshr.readyTime = queue.readyTime r)
    (i : Nat) : (queue.setMSHR r mshr).readyTime i = queue.readyTime i := by
  by_cases same : i = r
  · subst same
    exact (congrArg MSHR.readyTime (Function.update_self i mshr queue.registers)).trans sameTime
  · exact readyTime_setMSHR same mshr

theorem readyTime_insertReady (queue : MSHRQueue) (before after : NodeList Nat) (r : Nat) :
    (queue.insertReady before after r).readyTime = queue.readyTime := by
  funext i
  exact readyTime_setMSHR_of_eq queue { queue.registers r with readyIter := some queue.nextNode }
    rfl i

theorem sorted_insertReady {before after : NodeList Nat} (split : before ++ after = queue.readyList)
    (places : Sorted queue → (∀ i ∈ items before, queue.readyTime i ≤ queue.readyTime r) ∧
      ∀ i ∈ items after, queue.readyTime r ≤ queue.readyTime i)
    (sorted : Sorted queue) : Sorted (queue.insertReady before after r) := by
  obtain ⟨earlier, later⟩ := places sorted
  unfold Sorted at sorted ⊢
  rw [← split, items_append, List.pairwise_append] at sorted
  obtain ⟨sortedBefore, sortedAfter, across⟩ := sorted
  rw [readyTime_insertReady]
  change (items (before ++ (queue.nextNode, r) :: after)).Pairwise _
  rw [items_append, items_cons, List.pairwise_append, List.pairwise_cons]
  refine ⟨sortedBefore, ⟨later, sortedAfter⟩, ?_⟩
  intro i isBefore j isAfter
  rcases List.mem_cons.mp isAfter with isNew | isAfter
  · rw [isNew]
    exact earlier i isBefore
  · exact across i isBefore j isAfter

theorem eraseReady_ends (queue : MSHRQueue) (r : Nat)
    (linked : Linked queue.readyList (fun i => (queue.registers i).readyIter) queue.nextNode) :
    Ends (fun stop => stop = Stop.noElement ∧ r ∉ items queue.readyList)
      (fun erased => ∃ readyList, erased = { queue with readyList := readyList } ∧
        r ∈ items queue.readyList ∧ items readyList = (items queue.readyList).erase r ∧
        readyList.Sublist queue.readyList)
      (queue.eraseReady r) := by
  unfold MSHRQueue.eraseReady
  rcases linked.erase_cases r with ⟨isNone, absent⟩ | ⟨readyList, isErased, listed, left⟩
  · rw [isNone]
    exact ⟨rfl, absent⟩
  · rw [isErased]
    exact ⟨readyList, rfl, listed, left⟩

theorem eraseAllocated_ends (queue : MSHRQueue) (r : Nat)
    (linked : Linked queue.allocatedList (fun i => (queue.registers i).allocIter) queue.nextNode) :
    Ends (fun stop => stop = Stop.noElement ∧ r ∉ items queue.allocatedList)
      (fun erased => ∃ allocatedList, erased = { queue with allocatedList := allocatedList } ∧
        r ∈ items queue.allocatedList ∧
        items allocatedList = (items queue.allocatedList).erase r ∧
        allocatedList.Sublist queue.allocatedList)
      (queue.eraseAllocated r) := by
  unfold MSHRQueue.eraseAllocated
  rcases linked.erase_cases r with ⟨isNone, absent⟩ | ⟨allocatedList, isErased, listed, left⟩
  · rw [isNone]
    exact ⟨rfl, absent⟩
  · rw [isErased]
    exact ⟨allocatedList, rfl, listed, left⟩

end Queue

end GemFi.MshrLists
