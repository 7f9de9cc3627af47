import GemFi.MshrLists
import GemFi.Transitions
import Mathlib.Data.List.Perm.Basic

/-!
The books of the queue: each register is either free or allocated, the ready list has the
allocated registers that are not in service, and the counters and iterators agree with the lists.
Every completed operation keeps them, and none stops for want of a place in the ready list.
-/

namespace GemFi.MshrBookkeeping

open MshrQueue MshrLists NodeLists Outcomes Transitions

def inService (queue : MSHRQueue) (r : Nat) : Bool := (queue.registers r).inService

structure Sound (size : Nat) (queue : MSHRQueue) : Prop where
  -- the lists, counters and iterators of a queue of `size` registers agree
  links : Links queue.registers queue.allocatedList queue.readyList queue.nextNode
  partition : (queue.freeList ++ items queue.allocatedList).Perm (List.range size)
  pending : ∀ r, r ∈ items queue.readyList ↔
    r ∈ items queue.allocatedList ∧ inService queue r = false
  served : ∀ r, inService queue r = true → r ∈ items queue.allocatedList
  allocated : queue.allocated = (items queue.allocatedList).length
  serving : queue.inServiceEntries = (items queue.allocatedList).countP (inService queue)

def Asked (queue : MSHRQueue) : Action → Prop
  | .deallocate r => r ∈ items queue.allocatedList
  | .moveToFront r => r ∈ items queue.allocatedList
  | .markInService r _ =>
      r ∈ items queue.allocatedList ∧ (queue.registers r).targets.targets ≠ []
  | .endResponse r _ => r ∈ items queue.allocatedList
  | _ => True

def Stops (asked : Prop) (stop : Stop) : Prop :=
  stop = .assertion ∨ stop = .noElement ∧ ¬asked

variable {size : Nat} {queue : MSHRQueue} {r : Nat} {mshr : MSHR}

theorem inService_setMSHR (queue : MSHRQueue) (r : Nat) (mshr : MSHR) :
    inService (queue.setMSHR r mshr) = Function.update (inService queue) r mshr.inService :=
  funext fun i =>
    Function.apply_update (fun (_ : Nat) (kept : MSHR) => kept.inService) queue.registers r mshr i

theorem inService_insertReady (queue : MSHRQueue) (before after : NodeList Nat) (r : Nat) :
    inService (queue.insertReady before after r) = inService queue :=
  (inService_setMSHR queue r _).trans (Function.update_eq_self r _)

theorem inService_insertAllocated (queue : MSHRQueue) (r : Nat) :
    inService (queue.insertAllocated r) = inService queue :=
  (inService_setMSHR queue r _).trans (Function.update_eq_self r _)

theorem Sound.init (num_entries reserve : Nat) :
    Sound (num_entries + reserve - 1) (MSHRQueue.init num_entries reserve) where
  links := links_new
  partition := by
    rw [show items (MSHRQueue.init num_entries reserve).allocatedList = [] from rfl, List.append_nil]
    exact List.Perm.refl _
  pending := fun r => by
    constructor
    · intro listed
      cases listed
    · rintro ⟨listed, _⟩
      cases listed
  served := fun r isServed => nomatch isServed
  allocated := rfl
  serving := rfl

namespace Sound

/-- A register whose state of service and iterators stay. -/
theorem setMSHR (sound : Sound size queue) (same : SameIterators (queue.registers r) mshr)
    (sameService : mshr.inService = inService queue r) : Sound size (queue.setMSHR r mshr) := by
  have unchanged : inService (queue.setMSHR r mshr) = inService queue := by
    rw [inService_setMSHR, sameService, Function.update_eq_self]
  constructor
  · exact sound.links.setMSHR same
  · exact sound.partition
  · rw [unchanged]
    exact sound.pending
  · rw [unchanged]
    exact sound.served
  · exact sound.allocated
  · rw [unchanged]
    exact sound.serving

theorem signalDrain (sound : Sound size queue) : Sound size queue.signalDrain := by
  unfold MSHRQueue.signalDrain
  split
  · exact ⟨sound.links, sound.partition, sound.pending, sound.served, sound.allocated, sound.serving⟩
  · exact sound

theorem drain (sound : Sound size queue) : Sound size queue.drain := by
  unfold MSHRQueue.drain
  split
  · exact sound
  · exact ⟨sound.links, sound.partition, sound.pending, sound.served, sound.allocated, sound.serving⟩

end Sound

theorem countP_update {list : List Nat} (absent : r ∉ list) (flags : Nat → Bool) (flag : Bool) :
    list.countP (Function.update flags r flag) = list.countP flags := by
  apply List.countP_congr
  intro i member
  have other : i ≠ r := fun same => absent (same ▸ member)
  rw [Function.update_of_ne other]

theorem countP_split {list : List Nat} (member : r ∈ list) (flags : Nat → Bool) :
    list.countP flags = (list.erase r).countP flags + if flags r then 1 else 0 := by
  rw [(List.perm_cons_erase member).countP_eq, List.countP_cons]

structure Books (size : Nat) (free allocated ready : List Nat) (serves : Nat → Bool)
    (count serving : Int) : Prop where
  partition : (free ++ allocated).Perm (List.range size)
  pending : ∀ r, r ∈ ready ↔ r ∈ allocated ∧ serves r = false
  served : ∀ r, serves r = true → r ∈ allocated
  counted : count = allocated.length
  serving : serving = allocated.countP serves

namespace Books

variable {free allocated ready ready' : List Nat} {serves : Nat → Bool} {count serving : Int}

theorem nodup (books : Books size free allocated ready serves count serving) :
    (free ++ allocated).Nodup :=
  books.partition.nodup_iff.mpr List.nodup_range

theorem countP_flag (books : Books size free allocated ready serves count serving)
    (listed : r ∈ allocated) (flag : Bool) :
    (allocated.countP (Function.update serves r flag) : Int) =
      serving - (if serves r then 1 else 0) + if flag then 1 else 0 := by
  have gone : r ∉ allocated.erase r := books.nodup.of_append_right.not_mem_erase
  rw [books.serving, countP_split listed serves, countP_split listed, countP_update gone,
    Function.update_self]
  split <;> split <;> omega

/-- The first free one is allocated, and is ready. -/
theorem take (books : Books size (r :: free) allocated ready serves count serving)
    (added : ∀ i, i ∈ ready' ↔ i = r ∨ i ∈ ready) :
    Books size free (allocated ++ [r]) ready' serves (count + 1) serving := by
  have notAllocated : r ∉ allocated := fun listed =>
    (List.nodup_cons.mp books.nodup).1 (List.mem_append_right _ listed)
  have idle : serves r = false :=
    Bool.eq_false_iff.mpr fun isServed => notAllocated (books.served r isServed)
  constructor
  · have moved : (free ++ (allocated ++ [r])).Perm (r :: free ++ allocated) := by
      rw [← List.append_assoc]
      exact List.perm_append_singleton r _
    exact moved.trans books.partition
  · intro i
    rw [added, List.mem_append, List.mem_singleton, books.pending i]
    constructor
    · rintro (rfl | ⟨listed, isIdle⟩)
      · exact ⟨Or.inr rfl, idle⟩
      · exact ⟨Or.inl listed, isIdle⟩
    · rintro ⟨listed | isNew, isIdle⟩
      · exact Or.inr ⟨listed, isIdle⟩
      · exact Or.inl isNew
  · exact fun i isServed => List.mem_append_left _ (books.served i isServed)
  · rw [List.length_append, books.counted]
    rfl
  · rw [List.countP_append, books.serving, List.countP_singleton, idle]
    rfl

/-- One that is allocated leaves its lists, and is the first free one. -/
theorem give (books : Books size free allocated ready serves count serving)
    (listed : r ∈ allocated) (distinct : ready.Nodup) :
    Books size (r :: free) (allocated.erase r) (ready.erase r) (Function.update serves r false)
      (count - 1) (serving - if serves r then 1 else 0) := by
  have distinct' : allocated.Nodup := books.nodup.of_append_right
  have gone : r ∉ allocated.erase r := distinct'.not_mem_erase
  constructor
  · have whole : (free ++ r :: allocated.erase r).Perm (free ++ allocated) :=
      (List.perm_cons_erase listed).symm.append_left _
    exact (List.perm_middle.symm.trans whole).trans books.partition
  · intro i
    rw [distinct.mem_erase_iff, distinct'.mem_erase_iff, books.pending i]
    by_cases isFreed : i = r
    · simp [isFreed]
    · rw [Function.update_of_ne isFreed, and_assoc]
  · intro i isServed
    by_cases isFreed : i = r
    · rw [isFreed, Function.update_self] at isServed
      cases isServed
    · rw [Function.update_of_ne isFreed] at isServed
      exact distinct'.mem_erase_iff.mpr ⟨isFreed, books.served i isServed⟩
  · have some := List.length_pos_of_mem listed
    rw [List.length_erase_of_mem listed, books.counted]
    omega
  · have kept := books.countP_flag listed false
    rw [countP_split listed, countP_update gone, Function.update_self] at kept
    rw [countP_update gone]
    simpa using kept.symm

/-- One that was ready goes to service. -/
theorem serve (books : Books size free allocated ready serves count serving) (isReady : r ∈ ready)
    (distinct : ready.Nodup) :
    Books size free allocated (ready.erase r) (Function.update serves r true) count (serving + 1) := by
  obtain ⟨listed, idle⟩ := (books.pending r).mp isReady
  refine ⟨books.partition, ?_, ?_, books.counted, ?_⟩
  · intro i
    rw [distinct.mem_erase_iff, books.pending i]
    by_cases isMarked : i = r
    · simp [isMarked]
    · rw [Function.update_of_ne isMarked]
      exact and_iff_right isMarked
  · intro i served
    by_cases isMarked : i = r
    · rw [isMarked]
      exact listed
    · rw [Function.update_of_ne isMarked] at served
      exact books.served i served
  · rw [books.countP_flag listed, idle]
    simp

/-- One that was in service is ready again. -/
theorem wait (books : Books size free allocated ready serves count serving)
    (served : serves r = true) (added : ∀ i, i ∈ ready' ↔ i = r ∨ i ∈ ready) :
    Books size free allocated ready' (Function.update serves r false) count (serving - 1) := by
  have listed := books.served r served
  refine ⟨books.partition, ?_, ?_, books.counted, ?_⟩
  · intro i
    rw [added, books.pending i]
    by_cases isMarked : i = r
    · simp [isMarked, listed]
    · rw [Function.update_of_ne isMarked]
      exact or_iff_right isMarked
  · intro i isServed
    by_cases isMarked : i = r
    · rw [isMarked, Function.update_self] at isServed
      cases isServed
    · rw [Function.update_of_ne isMarked] at isServed
      exact books.served i isServed
  · rw [books.countP_flag listed, served]
    simp

/-- Those that are ready are put in another order. -/
theorem reorder (books : Books size free allocated ready serves count serving)
    (same : ∀ i, i ∈ ready' ↔ i ∈ ready) : Books size free allocated ready' serves count serving :=
  ⟨books.partition, fun i => (same i).trans (books.pending i), books.served, books.counted,
    books.serving⟩

end Books

theorem Sound.books (sound : Sound size queue) :
    Books size queue.freeList (items queue.allocatedList) (items queue.readyList) (inService queue)
      queue.allocated queue.inServiceEntries :=
  ⟨sound.partition, sound.pending, sound.served, sound.allocated, sound.serving⟩

theorem Books.sound
    (books : Books size queue.freeList (items queue.allocatedList) (items queue.readyList)
      (inService queue) queue.allocated queue.inServiceEntries)
    (links : Links queue.registers queue.allocatedList queue.readyList queue.nextNode) :
    Sound size queue :=
  ⟨links, books.partition, books.pending, books.served, books.counted, books.serving⟩

theorem Sound.not_allocated_of_free (sound : Sound size queue) {freeList : List Nat}
    (isFree : queue.freeList = r :: freeList) : r ∉ items queue.allocatedList := by
  have distinct := sound.books.nodup
  rw [isFree, List.cons_append, List.nodup_cons, List.mem_append] at distinct
  exact fun listed => distinct.1 (Or.inr listed)

theorem mem_placed_iff {before after list : NodeList Nat} (split : before ++ after = list)
    (node i : Nat) : i ∈ items (before ++ (node, r) :: after) ↔ i = r ∨ i ∈ items list := by
  rw [← split, items_append, items_cons, items_append, List.mem_append, List.mem_append,
    List.mem_cons]
  exact or_left_comm

theorem Sound.allocated_of_free (sound : Sound size queue) {freeList : List Nat}
    (isFree : queue.freeList = r :: freeList) {before after : NodeList Nat}
    (split : before ++ after = queue.readyList) (same : SameIterators (queue.registers r) mshr)
    (notServed : mshr.inService = false) :
    Sound size { (({ queue with freeList := freeList }.setMSHR r mshr).insertAllocated r).insertReady
      before after r with allocated := queue.allocated + 1 } := by
  have notAllocated := sound.not_allocated_of_free isFree
  have notReady : r ∉ items queue.readyList := fun listed =>
    notAllocated ((sound.pending r).mp listed).1
  have wasIdle : inService queue r = false :=
    Bool.eq_false_iff.mpr fun isServed => notAllocated (sound.served r isServed)
  have unchanged : inService { (({ queue with freeList := freeList }.setMSHR r mshr).insertAllocated
      r).insertReady before after r with allocated := queue.allocated + 1 } = inService queue := by
    refine (inService_insertReady _ before after r).trans ?_
    refine (inService_insertAllocated _ r).trans ?_
    refine (inService_setMSHR _ r mshr).trans ?_
    rw [notServed, ← wasIdle]
    exact Function.update_eq_self r _
  apply Books.sound
  · have books := sound.books
    rw [isFree] at books
    have taken := books.take (mem_placed_iff split (queue.nextNode + 1))
    have allocatedItems : items (queue.allocatedList ++ [(queue.nextNode, r)]) =
        items queue.allocatedList ++ [r] := items_append
    rw [← allocatedItems, ← unchanged] at taken
    exact taken
  · have linked := (sound.links.setMSHR same).insertAllocated notAllocated
    rw [← split] at linked notReady
    exact linked.insertReady notReady

def Keeps (size : Nat) (queue queue' : MSHRQueue) : Prop :=
  Sound size queue' ∧ (Sorted queue → Sorted queue')

theorem Sound.allocate (sound : Sound size queue) (addr : Addr) (bytes : Int) (pkt : Packet)
    (whenReady : Tick) (order : Nat) :
    Ends (Stops True) (fun result => Keeps size queue result.2)
      (queue.allocate addr bytes pkt whenReady order) := by
  unfold MSHRQueue.allocate
  split
  next => exact Or.inl rfl
  next r freeList isFree =>
    apply ((assert_ends _).allow fun _ => Or.inl).bind
    intro _ _
    apply ((allocate_ends addr bytes pkt whenReady order).allow fun _ => Or.inl).bind
    rintro mshr ⟨same, notServed⟩
    obtain ⟨before, after, split, isPlaced, places⟩ := exists_addToReadyList
      (({ queue with freeList := freeList }.setMSHR r mshr).insertAllocated r) r
    rw [isPlaced]
    refine ⟨sound.allocated_of_free isFree split same notServed, ?_⟩
    intro sorted
    have notReady : r ∉ items queue.readyList := fun listed =>
      sound.not_allocated_of_free isFree ((sound.pending r).mp listed).1
    apply sorted_insertReady split places
    refine sorted.frame (List.Sublist.refl (items queue.readyList)) (fun i listed => ?_)
    have other : i ≠ r := fun isNew => notReady (isNew ▸ listed)
    exact (readyTime_setMSHR other _).trans (readyTime_setMSHR other _)

/-- What `release` takes out of the lists and counters. -/
def Released (queue released : MSHRQueue) (r : Nat) : Prop :=
  ∃ allocatedList readyList : NodeList Nat,
    released = { queue with
      allocatedList := allocatedList
      readyList := readyList
      freeList := r :: queue.freeList
      allocated := queue.allocated - 1
      inServiceEntries := queue.inServiceEntries - if inService queue r then 1 else 0 } ∧
    r ∈ items queue.allocatedList ∧
    items allocatedList = (items queue.allocatedList).erase r ∧
    allocatedList.Sublist queue.allocatedList ∧
    items readyList = (items queue.readyList).erase r ∧
    readyList.Sublist queue.readyList

theorem Sound.release (sound : Sound size queue) (r : Nat) :
    Ends (Stops (r ∈ items queue.allocatedList)) (fun released => Released queue released r)
      (queue.release r) := by
  apply ((eraseAllocated_ends queue r sound.links.alloc).allow fun _ => Or.inr).bind
  rintro erased ⟨allocatedList, rfl, listed, left, fewer⟩
  dsimp only
  split
  next isServed =>
    have served : inService queue r = true := isServed
    have notReady : r ∉ items queue.readyList := fun isReady => by
      rw [((sound.pending r).mp isReady).2] at served
      cases served
    refine ⟨allocatedList, queue.readyList, ?_, listed, left, fewer, ?_, List.Sublist.refl _⟩
    · rw [served]
      rfl
    · rw [List.erase_of_not_mem notReady]
  next isIdle =>
    have idle : inService queue r = false := Bool.eq_false_iff.mpr isIdle
    have isReady := (sound.pending r).mpr ⟨listed, idle⟩
    have ends := eraseReady_ends { queue with
      allocatedList := allocatedList
      freeList := r :: queue.freeList
      allocated := queue.allocated - 1 } r sound.links.ready
    refine (ends.allow fun _ stops => absurd isReady stops.2).mono ?_
    rintro released ⟨readyList, rfl, _, leftReady, fewerReady⟩
    refine ⟨allocatedList, readyList, ?_, listed, left, fewer, leftReady, fewerReady⟩
    rw [idle]
    simp

/-- A register that has left all lists is reset and free. -/
theorem Sound.freed (sound : Sound size queue) {released : MSHRQueue}
    (isReleased : Released queue released r) (same : SameIterators (queue.registers r) mshr)
    (notServed : mshr.inService = false) : Sound size (released.setMSHR r mshr) := by
  obtain ⟨allocatedList, readyList, rfl, listed, left, fewer, leftReady, fewerReady⟩ := isReleased
  apply Books.sound
  · have given := sound.books.give listed sound.links.ready.nodup
    rw [← left, ← leftReady, ← notServed] at given
    rw [inService_setMSHR]
    exact given
  · exact Links.setMSHR ⟨sound.links.alloc.sublist fewer, sound.links.ready.sublist fewerReady⟩ same

/-- A register that was ready is in service now. -/
theorem Sound.serviced (sound : Sound size queue) {readyList : NodeList Nat}
    (links : Links (Function.update queue.registers r mshr) queue.allocatedList readyList
      queue.nextNode)
    (ready : r ∈ items queue.readyList) (left : items readyList = (items queue.readyList).erase r)
    (isServed : mshr.inService = true) :
    Sound size { queue.setMSHR r mshr with
      readyList := readyList
      inServiceEntries := queue.inServiceEntries + 1 } := by
  have flags : inService { queue.setMSHR r mshr with
      readyList := readyList
      inServiceEntries := queue.inServiceEntries + 1 } =
      Function.update (inService queue) r true := by
    rw [← isServed]
    exact inService_setMSHR queue r mshr
  have served := sound.books.serve ready sound.links.ready.nodup
  rw [← left, ← flags] at served
  exact served.sound links

/-- A register that was in service waits in the ready list again. -/
theorem Sound.waiting (sound : Sound size queue) {before after : NodeList Nat}
    (split : before ++ after = queue.readyList) (served : inService queue r = true) :
    Sound size (MSHRQueue.insertReady
      { queue.setMSHR r { queue.registers r with inService := false } with
        inServiceEntries := queue.inServiceEntries - 1 } before after r) := by
  have notReady : r ∉ items queue.readyList := fun ready => by
    rw [((sound.pending r).mp ready).2] at served
    cases served
  have flags : inService (MSHRQueue.insertReady
      { queue.setMSHR r { queue.registers r with inService := false } with
        inServiceEntries := queue.inServiceEntries - 1 } before after r) =
      Function.update (inService queue) r false :=
    (inService_insertReady _ before after r).trans (inService_setMSHR queue r _)
  apply Books.sound
  · have waits := sound.books.wait served (mem_placed_iff split queue.nextNode)
    rw [← flags] at waits
    exact waits
  · have same : SameIterators (queue.registers r) { queue.registers r with inService := false } :=
      ⟨rfl, rfl⟩
    have links := sound.links.setMSHR same
    rw [← split] at links notReady
    exact links.insertReady notReady

theorem sorted_signalDrain (sorted : Sorted queue) : Sorted queue.signalDrain := by
  unfold MSHRQueue.signalDrain
  split
  · exact sorted
  · exact sorted

theorem sorted_of_released (sorted : Sorted queue) (distinct : (items queue.readyList).Nodup)
    {released : MSHRQueue} (isReleased : Released queue released r) :
    Sorted (released.setMSHR r mshr) := by
  obtain ⟨allocatedList, readyList, rfl, _, _, _, leftReady, fewerReady⟩ := isReleased
  refine sorted.frame (fewerReady.map Prod.snd) (fun i listed => ?_)
  have remains : i ∈ (items queue.readyList).erase r := leftReady ▸ listed
  exact readyTime_setMSHR (distinct.mem_erase_iff.mp remains).1 mshr

theorem Sound.deallocate (sound : Sound size queue) (r : Nat) :
    Ends (Stops (r ∈ items queue.allocatedList)) (Keeps size queue) (queue.deallocate r) := by
  apply (sound.release r).bind
  intro released isReleased
  have sameRegister : released.registers r = queue.registers r := by
    obtain ⟨_, _, rfl, _⟩ := isReleased
    rfl
  apply (deallocate_ends.allow fun _ => Or.inl).bind
  rintro mshr ⟨same, notServed⟩
  rw [sameRegister] at same
  refine ⟨(sound.freed isReleased same notServed).signalDrain, ?_⟩
  intro sorted
  apply sorted_signalDrain
  exact sorted_of_released sorted sound.links.ready.nodup isReleased

/-- Moving a register that is ready to the front changes the order of the list only. -/
theorem Sound.moveToFront (sound : Sound size queue) (r : Nat) :
    Ends (Stops (r ∈ items queue.allocatedList)) (Sound size) (queue.moveToFront r) := by
  unfold MSHRQueue.moveToFront
  split
  next notServed =>
    have notYet : (queue.registers r).inService = false := by simpa using notServed
    have idle : inService queue r = false := notYet
    have ready : r ∈ items queue.allocatedList → r ∈ items queue.readyList :=
      fun listed => (sound.pending r).mpr ⟨listed, idle⟩
    split
    next missing =>
      refine Or.inr ⟨rfl, fun listed => ?_⟩
      rw [sound.links.ready.deref_iter (ready listed)] at missing
      cases missing
    next found _ =>
      apply ((assert_ends _).allow fun _ => Or.inl).bind
      intro _ _
      have erases := eraseReady_ends queue r sound.links.ready
      apply (erases.allow fun _ stops => Or.inr ⟨stops.1, fun listed => stops.2 (ready listed)⟩).bind
      rintro erased ⟨readyList, rfl, listed, left, fewer⟩
      have others : r ∉ items readyList := by
        rw [left]
        exact sound.links.ready.nodup.not_mem_erase
      have unchanged : inService ({ queue with readyList := readyList }.insertReady [] readyList r) =
          inService queue := inService_insertReady _ _ _ r
      apply Books.sound
      · have same : ∀ i, i ∈ r :: items readyList ↔ i ∈ items queue.readyList := by
          intro i
          rw [left]
          exact (List.perm_cons_erase listed).symm.mem_iff
        rw [unchanged]
        exact sound.books.reorder same
      · have links : Links queue.registers queue.allocatedList ([] ++ readyList) queue.nextNode :=
          ⟨sound.links.alloc, sound.links.ready.sublist fewer⟩
        exact links.insertReady others
  next => exact sound

theorem Sound.markInService (sound : Sound size queue) (r : Nat) (pkt : Packet) :
    Ends (Stops (r ∈ items queue.allocatedList ∧ (queue.registers r).targets.targets ≠ []))
      (Keeps size queue) (queue.markInService r pkt) := by
  have stops : ∀ stop, stop = Stop.assertion ∨
      stop = Stop.noElement ∧ (queue.registers r).targets.targets = [] →
      Stops (r ∈ items queue.allocatedList ∧ (queue.registers r).targets.targets ≠ []) stop := by
    rintro stop (isAssertion | ⟨isDangling, noTarget⟩)
    · exact Or.inl isAssertion
    · exact Or.inr ⟨isDangling, fun asked => asked.2 noTarget⟩
  apply ((markInService_ends pkt).allow stops).bind
  rintro ⟨gone, mshr⟩ ⟨notYet, same, isServed, sameTime⟩
  have idle : inService queue r = false := notYet
  have orders : Sorted queue → Sorted (queue.setMSHR r mshr) := fun sorted =>
    sorted.frame (List.Sublist.refl _) (fun i _ => readyTime_setMSHR_of_eq queue _ sameTime i)
  cases gone with
  | true =>
      -- the request was forwarded, and no response will come
      have marked := sound.setMSHR same (isServed.trans idle.symm)
      refine ((marked.deallocate r).allow ?_).mono ?_
      · rintro stop (isAssertion | ⟨isDangling, unlisted⟩)
        · exact Or.inl isAssertion
        · exact Or.inr ⟨isDangling, fun asked => unlisted asked.1⟩
      · rintro queue' ⟨kept, keepsOrder⟩
        exact ⟨kept, fun sorted => keepsOrder (orders sorted)⟩
  | false =>
      have links := sound.links.setMSHR same
      have erases := eraseReady_ends (queue.setMSHR r mshr) r links.ready
      refine Ends.bind (erases.allow fun stop unlisted => Or.inr ⟨unlisted.1, fun asked =>
        unlisted.2 ((sound.pending r).mpr ⟨asked.1, idle⟩)⟩) ?_
      rintro erased ⟨readyList, rfl, listed, left, fewer⟩
      refine ⟨sound.serviced ⟨links.alloc, links.ready.sublist fewer⟩ listed left isServed, ?_⟩
      intro sorted
      exact (orders sorted).frame (fewer.map Prod.snd) (fun i _ => rfl)

theorem Sound.markPending (sound : Sound size queue) (r : Nat) :
    Ends (Stops True) (fun queue' => inService queue r = true ∧ Keeps size queue queue')
      (queue.markPending r) := by
  apply ((assert_ends _).allow fun _ => Or.inl).bind
  intro _ isServed
  have served : inService queue r = true := isServed
  obtain ⟨before, after, split, isPlaced, places⟩ := exists_addToReadyList
    { queue.setMSHR r { queue.registers r with inService := false } with
      inServiceEntries := queue.inServiceEntries - 1 } r
  dsimp only
  rw [isPlaced]
  refine ⟨served, sound.waiting split served, ?_⟩
  intro sorted
  apply sorted_insertReady split places
  exact sorted.frame (List.Sublist.refl (items queue.readyList))
    (fun i _ => readyTime_setMSHR_of_eq queue { queue.registers r with inService := false } rfl i)

theorem Sound.endResponse (sound : Sound size queue) (r : Nat) (curTick : Tick) :
    Ends (Stops (r ∈ items queue.allocatedList)) (Keeps size queue) (queue.endResponse r curTick) := by
  apply ((promoteDeferredTargets_ends curTick).allow fun _ => Or.inl).bind
  rintro ⟨promoted, mshr⟩ ⟨same, sameService, sameTime⟩
  have answered := sound.setMSHR same sameService
  cases promoted with
  | true =>
      refine ((answered.markPending r).allow ?_).mono ?_
      · rintro stop (isAssertion | ⟨_, notAsked⟩)
        · exact Or.inl isAssertion
        · exact absurd True.intro notAsked
      · rintro queue' ⟨served, kept, keepsOrder⟩
        refine ⟨kept, fun sorted => keepsOrder ?_⟩
        -- the ready time is another, but the register is not in the list
        refine sorted.frame (List.Sublist.refl _) (fun i ready => readyTime_setMSHR ?_ mshr)
        rintro rfl
        have idle := ((answered.pending i).mp ready).2
        rw [served] at idle
        cases idle
  | false =>
      refine (answered.deallocate r).mono ?_
      rintro queue' ⟨kept, keepsOrder⟩
      refine ⟨kept, fun sorted => keepsOrder ?_⟩
      exact sorted.frame (List.Sublist.refl _)
        (fun i _ => readyTime_setMSHR_of_eq queue mshr (sameTime rfl) i)

theorem Sound.perform (sound : Sound size queue) (action : Action) :
    Ends (Stops (Asked queue action))
      (fun queue' => Sound size queue' ∧ ((∀ r, action ≠ .moveToFront r) → Sorted queue → Sorted queue'))
      (perform queue action) := by
  have keeps : ∀ queue', Keeps size queue queue' →
      Sound size queue' ∧ ((∀ r, action ≠ .moveToFront r) → Sorted queue → Sorted queue') :=
    fun _ kept => ⟨kept.1, fun _ => kept.2⟩
  cases action with
  | allocate addr bytes pkt whenReady order =>
      exact Ends.map ((sound.allocate addr bytes pkt whenReady order).mono fun _ => keeps _)
  | deallocate r => exact (sound.deallocate r).mono keeps
  | moveToFront r =>
      refine (sound.moveToFront r).mono (fun _ kept => ⟨kept, fun notMoved => ?_⟩)
      exact absurd rfl (notMoved r)
  | markInService r pkt => exact (sound.markInService r pkt).mono keeps
  | markPending r => exact (sound.markPending r).mono fun _ kept => keeps _ kept.2
  | drain =>
      refine ⟨sound.drain, fun _ sorted => ?_⟩
      unfold MSHRQueue.drain
      split
      · exact sorted
      · exact sorted
  | retarget r targets deferredTargets postInvalidate postDowngrade =>
      refine ⟨sound.setMSHR ⟨rfl, rfl⟩ rfl, fun _ sorted => ?_⟩
      have sameTime : ((queue.registers r).retarget targets deferredTargets postInvalidate
          postDowngrade).readyTime = queue.readyTime r := rfl
      exact sorted.frame (List.Sublist.refl _) (fun i _ => readyTime_setMSHR_of_eq queue _ sameTime i)
  | endResponse r curTick => exact (sound.endResponse r curTick).mono keeps

theorem Sound.step (sound : Sound size queue) {action : Action} {queue' : MSHRQueue}
    (stepped : step queue action = some queue') :
    Sound size queue' ∧ ((∀ r, action ≠ .moveToFront r) → Sorted queue → Sorted queue') :=
  (sound.perform action).of_ok (eq_ok_of_toOption stepped)

/-- The search for a place never ends without one, and registers that are allocated are found
by their iterators. -/
def Safe (queue : MSHRQueue) : Prop :=
  ∀ action, perform queue action ≠ .error .unreachable ∧
    (Asked queue action → perform queue action ≠ .error .noElement)

theorem Sound.safe (sound : Sound size queue) : Safe queue := by
  intro action
  have ends := sound.perform action
  constructor
  · intro stopped
    rw [stopped] at ends
    rcases ends with isAssertion | ⟨isDangling, _⟩
    · cases isAssertion
    · cases isDangling
  · intro asked stopped
    rw [stopped] at ends
    rcases ends with isAssertion | ⟨_, notAsked⟩
    · cases isAssertion
    · exact notAsked asked

/-- The books of the queue are right in every state of every run, and the ready list is sorted as
long as nothing is moved to its front. -/
theorem books_stay_right (num_entries reserve : Nat) (actions : List Action) :
    Always step (fun queue => Sound (num_entries + reserve - 1) queue ∧ Safe queue) actions
      (MSHRQueue.init num_entries reserve) ∧
    ((∀ r, Action.moveToFront r ∉ actions) →
      Always step Sorted actions (MSHRQueue.init num_entries reserve)) := by
  have start := Sound.init num_entries reserve
  have preserves : ∀ queue action queue', Sound (num_entries + reserve - 1) queue ∧ Safe queue → True →
      step queue action = some queue' → Sound (num_entries + reserve - 1) queue' ∧ Safe queue' := by
    rintro queue action queue' ⟨sound, _⟩ _ stepped
    have kept := (sound.step stepped).1
    exact ⟨kept, kept.safe⟩
  have keepsOrder : ∀ queue action queue', Sound (num_entries + reserve - 1) queue ∧ Sorted queue →
      (∀ r, action ≠ .moveToFront r) → step queue action = some queue' →
      Sound (num_entries + reserve - 1) queue' ∧ Sorted queue' := by
    rintro queue action queue' ⟨sound, sorted⟩ noMove stepped
    obtain ⟨kept, orders⟩ := sound.step stepped
    exact ⟨kept, orders noMove sorted⟩
  constructor
  · exact always_of_preserved preserves actions _ ⟨start, start.safe⟩
      (fun _ _ _ _ _ _ _ _ => True.intro)
  · intro notMoved before after reached split ran
    have noMoves : EachStep step (fun _ action => ∀ r, action ≠ .moveToFront r) actions
        (MSHRQueue.init num_entries reserve) := by
      rintro first action rest _ _ isPart _ _ r rfl
      apply notMoved r
      rw [isPart]
      exact List.mem_append_right _ List.mem_cons_self
    exact (always_of_preserved keepsOrder actions _ ⟨start, List.Pairwise.nil⟩ noMoves before after
      reached split ran).2

/-- A read stays until its response; what needs none is gone once it is sent. -/
example :
    ((run step
      [.allocate 0 64 ⟨false, false, false, false, true, false, false, false, false⟩ 10 0,
        .allocate 64 64 ⟨false, false, false, false, false, false, false, false, false⟩ 5 1,
        .markInService 0 ⟨false, false, false, false, true, false, false, false, false⟩,
        .markInService 1 ⟨false, false, false, false, false, false, false, false, false⟩]
      (MSHRQueue.init 2 1)).map fun queue =>
        (items queue.allocatedList, queue.freeList, queue.inServiceEntries)) =
    some ([0], [1], 1) := by decide

end GemFi.MshrBookkeeping
