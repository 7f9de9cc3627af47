import Mathlib.Data.List.Sort
import Mathlib.Data.List.TakeWhile
import Mathlib.Logic.Function.Basic

/-!
The ready instructions of the issue queue (cpu/o3/inst_queue_impl.hh): one priority queue for each
op class, and the list of the classes in the order of their oldest instructions. Instructions
stand here as their sequence numbers; a new instruction changes one queue and moves one entry of
the list, and a pass of scheduleReadyInsts goes along the list while it moves the entries behind it.
-/

namespace GemFi.IssueOrder

structure ListOrderEntry (OpClass : Type) where
  node : ℕ
  queueType : OpClass
  oldestInst : ℕ
  deriving DecidableEq, Repr

/-- The top of a queue is its first element, and the end of the list the iterator `none`. -/
structure ReadyQueues (OpClass : Type) where
  readyInsts : OpClass → List ℕ
  queueOnList : OpClass → Bool
  listOrder : List (ListOrderEntry OpClass)
  readyIt : OpClass → Option ℕ
  nodes : ℕ

inductive Outcome where
  | squashed | issued | busy
  deriving DecidableEq, Repr

section Model

variable {OpClass σ : Type}

/-- `list::insert` in front of the first element that is not skipped. -/
def insertPast (skips : ListOrderEntry OpClass → Bool) (entry : ListOrderEntry OpClass)
    (list : List (ListOrderEntry OpClass)) : List (ListOrderEntry OpClass) :=
  list.takeWhile skips ++ entry :: list.dropWhile skips

variable [DecidableEq OpClass]

namespace ReadyQueues

/-- `resetState`. -/
def empty : ReadyQueues OpClass := ⟨fun _ => [], fun _ => false, [], fun _ => none, 0⟩

def addToOrderList (c : OpClass) (q : ReadyQueues OpClass) : Option (ReadyQueues OpClass) :=
  match q.readyInsts c with
  | [] => none
  | top :: _ =>
      some { q with
        listOrder := insertPast (fun entry => !decide (entry.oldestInst > top)) ⟨q.nodes, c, top⟩ q.listOrder
        readyIt := Function.update q.readyIt c (some q.nodes)
        queueOnList := Function.update q.queueOnList c true
        nodes := q.nodes + 1 }

def addReady (c : OpClass) (inst : ℕ) (q : ReadyQueues OpClass) : Option (ReadyQueues OpClass) :=
  let q := { q with readyInsts := Function.update q.readyInsts c ((q.readyInsts c).orderedInsert (· ≤ ·) inst) }
  if !q.queueOnList c then q.addToOrderList c
  else
    match q.readyInsts c, q.listOrder.find? fun entry => some entry.node = q.readyIt c with
    | top :: _, some entry =>
        if top < entry.oldestInst then
          { q with listOrder := q.listOrder.filter fun other => other.node ≠ entry.node }.addToOrderList c
        else some q
    | _, _ => none

/-- `moveToYoungerInst`, where `rest` is the list behind the entry that moves. -/
def moveToYoungerInst (c : OpClass) (top : ℕ) (rest : List (ListOrderEntry OpClass)) (q : ReadyQueues OpClass) :
    List (ListOrderEntry OpClass) × ReadyQueues OpClass :=
  (insertPast (fun entry => entry.oldestInst < top) ⟨q.nodes, c, top⟩ rest,
    { q with readyIt := Function.update q.readyIt c (some q.nodes), nodes := q.nodes + 1 })

def take (c : OpClass) (younger : List ℕ) (rest : List (ListOrderEntry OpClass)) (q : ReadyQueues OpClass) :
    List (ListOrderEntry OpClass) × ReadyQueues OpClass :=
  -- what scheduleReadyInsts does to the queues when it takes the top of a class. The entry of the
  -- class is erased.
  let q := { q with readyInsts := Function.update q.readyInsts c younger }
  match younger with
  | top :: _ => q.moveToYoungerInst c top rest
  | [] =>
      (rest, { q with
        readyIt := Function.update q.readyIt c none, queueOnList := Function.update q.queueOnList c false })

/-- The loop of scheduleReadyInsts, where order_it stands between `before` and `rest`. -/
def scheduleFrom (goesOn : σ → Bool) (examine : OpClass → ℕ → σ → Option (Outcome × σ)) :
    ℕ → List (ListOrderEntry OpClass) → List (ListOrderEntry OpClass) → ReadyQueues OpClass → σ →
      Option (ReadyQueues OpClass × σ)
  | 0, _, _, _, _ => none
  | fuel + 1, before, rest, q, s =>
      if goesOn s then
        match rest with
        | [] => some ({ q with listOrder := before }, s)
        | entry :: rest =>
            match q.readyInsts entry.queueType with
            | [] => none
            | top :: younger =>
                if top = entry.oldestInst then
                  match examine entry.queueType top s with
                  | none => none
                  | some (.busy, s) => scheduleFrom goesOn examine fuel (before ++ [entry]) rest q s
                  | some (.squashed, s) | some (.issued, s) =>
                      let (rest, q) := q.take entry.queueType younger rest
                      scheduleFrom goesOn examine fuel before rest q s
                else none
      else some ({ q with listOrder := before ++ rest }, s)

def rounds (q : ReadyQueues OpClass) : List (ListOrderEntry OpClass) → ℕ
  | [] => 0
  | entry :: rest => (q.readyInsts entry.queueType).length + 1 + q.rounds rest

def schedule (goesOn : σ → Bool) (examine : OpClass → ℕ → σ → Option (Outcome × σ)) (q : ReadyQueues OpClass)
    (s : σ) : Option (ReadyQueues OpClass × σ) :=
  scheduleFrom goesOn examine (q.rounds q.listOrder + 1) [] q.listOrder q s

end ReadyQueues

end Model

/-! ## The order of the list -/

section Order

variable {OpClass σ : Type} {off : Option OpClass} {c : OpClass} {q : ReadyQueues OpClass} {top : ℕ}
  {younger : List ℕ} {front back list : List (ListOrderEntry OpClass)} {entry : ListOrderEntry OpClass}

/-- The list holds the classes with ready instructions, once each and the oldest instruction first,
but for a class that is just off the list. -/
structure Ordered (off : Option OpClass) (q : ReadyQueues OpClass) : Prop where
  sorted : q.listOrder.Pairwise fun first second => first.oldestInst ≤ second.oldestInst
  classes : (q.listOrder.map (·.queueType)).Nodup
  nodes : (q.listOrder.map (·.node)).Nodup
  allocated : ∀ entry ∈ q.listOrder, entry.node < q.nodes
  current : ∀ entry ∈ q.listOrder, off ≠ some entry.queueType ∧
    q.readyIt entry.queueType = some entry.node ∧ (q.readyInsts entry.queueType).head? = some entry.oldestInst
  listed : ∀ c, off ≠ some c → (q.queueOnList c = true ↔ ∃ entry ∈ q.listOrder, entry.queueType = c)
  queued : ∀ c, off ≠ some c → q.readyInsts c ≠ [] → ∃ entry ∈ q.listOrder, entry.queueType = c
  increasing : ∀ c, (q.readyInsts c).Pairwise (· ≤ ·)

theorem Ordered.remove (ordered : Ordered none q) (split : q.listOrder = front ++ entry :: back) :
    Ordered (some entry.queueType) { q with listOrder := front ++ back } := by
  have shorter : (front ++ back).Sublist q.listOrder := by
    rw [split]
    exact (List.sublist_cons_self entry back).append_left front
  have others (other : ListOrderEntry OpClass) (member : other ∈ front ++ back) :
      entry.queueType ≠ other.queueType := by
    intro same
    have classes := ordered.classes
    rw [split, (List.perm_middle.map _).nodup_iff, List.map_cons, List.nodup_cons] at classes
    exact classes.1 (same ▸ List.mem_map_of_mem member)
  have still (c : OpClass) (differs : some entry.queueType ≠ some c) (listed : ∃ e ∈ q.listOrder, e.queueType = c) :
      ∃ e ∈ front ++ back, e.queueType = c := by
    obtain ⟨e, member, rfl⟩ := listed
    rw [split] at member
    refine ⟨e, ?_, rfl⟩
    obtain inFront | inBack := List.mem_append.mp member
    · exact List.mem_append_left back inFront
    · obtain rfl | inBack := List.mem_cons.mp inBack
      · exact absurd rfl differs
      · exact List.mem_append_right front inBack
  refine ⟨ordered.sorted.sublist shorter, ordered.classes.sublist (shorter.map _),
    ordered.nodes.sublist (shorter.map _), ?_, ?_, ?_, ?_, ordered.increasing⟩
  · exact fun e member => ordered.allocated e (shorter.subset member)
  · intro e member
    refine ⟨fun same => others e member (Option.some.inj same), ?_⟩
    exact (ordered.current e (shorter.subset member)).2
  · intro c differs
    refine (ordered.listed c nofun).trans ⟨still c differs, ?_⟩
    rintro ⟨e, member, same⟩
    exact ⟨e, shorter.subset member, same⟩
  · exact fun c differs some => still c differs (ordered.queued c nofun some)

variable [DecidableEq OpClass]

/-- What changes for the class that is off the list is its own. -/
theorem Ordered.change (ordered : Ordered (some c) q) {ready : List ℕ} (increasing : ready.Pairwise (· ≤ ·))
    (readyIt : OpClass → Option ℕ) (queueOnList : OpClass → Bool) (sameIt : ∀ d ≠ c, readyIt d = q.readyIt d)
    (sameOn : ∀ d ≠ c, queueOnList d = q.queueOnList d) :
    Ordered (some c) { q with
      readyInsts := Function.update q.readyInsts c ready, readyIt := readyIt, queueOnList := queueOnList } := by
  have apart (d : OpClass) (differs : some c ≠ some d) :
      d ≠ c := fun same => differs (congrArg some same.symm)
  refine ⟨ordered.sorted, ordered.classes, ordered.nodes, ordered.allocated, ?_, ?_, ?_, ?_⟩
  · intro e member
    obtain ⟨differs, it, head⟩ := ordered.current e member
    refine ⟨differs, (sameIt _ (apart _ differs)).trans it, ?_⟩
    simpa [apart _ differs] using head
  · intro d differs
    exact (sameOn d (apart d differs) ▸ ordered.listed d differs :)
  · intro d differs some
    exact ordered.queued d differs (by simpa [apart d differs] using some)
  · intro d
    by_cases same : d = c
    · subst same
      simpa using increasing
    · simpa [same] using ordered.increasing d

theorem Ordered.leave (ordered : Ordered (some c) q) (none : q.readyInsts c = [])
    (unlisted : q.queueOnList c = false) : Ordered Option.none q := by
  have away (e : ListOrderEntry OpClass) (member : e ∈ q.listOrder) : e.queueType ≠ c := fun same =>
    (ordered.current e member).1 (congrArg some same.symm)
  refine ⟨ordered.sorted, ordered.classes, ordered.nodes, ordered.allocated, ?_, ?_, ?_, ordered.increasing⟩
  · exact fun e member => ⟨nofun, (ordered.current e member).2⟩
  · intro d _
    by_cases same : d = c
    · subst same
      refine ⟨fun on => absurd (on.symm.trans unlisted) nofun, ?_⟩
      rintro ⟨e, member, same⟩
      exact absurd same (away e member)
    · exact ordered.listed d fun equal => same (Option.some.inj equal).symm
  · intro d _ some
    by_cases same : d = c
    · subst same
      exact absurd none some
    · exact ordered.queued d (fun equal => same (Option.some.inj equal).symm) some

theorem Ordered.enter (ordered : Ordered (some c) q) (ready : q.readyInsts c = top :: younger)
    (split : q.listOrder = front ++ back) (older : ∀ e ∈ front, e.oldestInst ≤ top)
    (newer : ∀ e ∈ back, top ≤ e.oldestInst) :
    Ordered none { q with
      listOrder := front ++ ⟨q.nodes, c, top⟩ :: back
      readyIt := Function.update q.readyIt c (some q.nodes)
      queueOnList := Function.update q.queueOnList c true
      nodes := q.nodes + 1 } := by
  have moved : (front ++ ⟨q.nodes, c, top⟩ :: back).Perm (⟨q.nodes, c, top⟩ :: q.listOrder) :=
    split ▸ List.perm_middle
  have away (e : ListOrderEntry OpClass) (member : e ∈ q.listOrder) :
      e.queueType ≠ c ∧ e.node ≠ q.nodes :=
    ⟨fun same => (ordered.current e member).1 (congrArg some same.symm), (ordered.allocated e member).ne⟩
  have cases_mem {e : ListOrderEntry OpClass} (member : e ∈ front ++ ⟨q.nodes, c, top⟩ :: back) :
      e = ⟨q.nodes, c, top⟩ ∨ e ∈ q.listOrder := List.mem_cons.mp (moved.mem_iff.mp member)
  refine ⟨?_, ?_, ?_, ?_, ?_, ?_, ?_, ordered.increasing⟩
  · have sorted := ordered.sorted
    rw [split] at sorted
    obtain ⟨inFront, inBack, across⟩ := List.pairwise_append.mp sorted
    refine List.pairwise_append.mpr ⟨inFront, List.pairwise_cons.mpr ⟨newer, inBack⟩, ?_⟩
    intro first isFirst second isSecond
    obtain rfl | isSecond := List.mem_cons.mp isSecond
    · exact older first isFirst
    · exact across first isFirst second isSecond
  · refine (moved.map _).nodup_iff.mpr (List.nodup_cons.mpr ⟨?_, ordered.classes⟩)
    rintro member
    obtain ⟨e, member, same⟩ := List.mem_map.mp member
    exact (away e member).1 same
  · refine (moved.map _).nodup_iff.mpr (List.nodup_cons.mpr ⟨?_, ordered.nodes⟩)
    rintro member
    obtain ⟨e, member, same⟩ := List.mem_map.mp member
    exact (away e member).2 same
  · intro e member
    obtain rfl | member := cases_mem member
    · exact Nat.lt_succ_self q.nodes
    · exact Nat.lt_succ_of_lt (ordered.allocated e member)
  · intro e member
    obtain rfl | member := cases_mem member
    · refine ⟨nofun, Function.update_self c _ _, ?_⟩
      change (q.readyInsts c).head? = some top
      rw [ready, List.head?_cons]
    · obtain ⟨_, it, head⟩ := ordered.current e member
      exact ⟨nofun, (Function.update_of_ne (away e member).1 _ _).trans it, head⟩
  · intro d _
    have inserted : (∃ e ∈ front ++ ⟨q.nodes, c, top⟩ :: back, e.queueType = d) ↔
        c = d ∨ ∃ e ∈ q.listOrder, e.queueType = d := by
      simp only [moved.mem_iff, List.mem_cons, exists_eq_or_imp]
    refine Iff.trans ?_ inserted.symm
    by_cases same : d = c
    · subst same
      simp
    · change Function.update q.queueOnList c true d = true ↔ _
      rw [Function.update_of_ne same]
      refine (ordered.listed d fun equal => same (Option.some.inj equal).symm).trans ⟨.inr, ?_⟩
      rintro (equal | listed)
      · exact absurd equal.symm same
      · exact listed
  · intro d _ some
    by_cases same : d = c
    · exact ⟨⟨q.nodes, c, top⟩, List.mem_append_right front List.mem_cons_self, same.symm⟩
    · obtain ⟨e, member, isClass⟩ := ordered.queued d (fun equal => same (Option.some.inj equal).symm) some
      exact ⟨e, moved.mem_iff.mpr (List.mem_cons_of_mem _ member), isClass⟩

omit [DecidableEq OpClass] in
theorem insertPast_split (skips : ListOrderEntry OpClass → Bool) (entry : ListOrderEntry OpClass)
    (sorted : list.Pairwise fun first second => first.oldestInst ≤ second.oldestInst) :
    ∃ front back, list = front ++ back ∧ insertPast skips entry list = front ++ entry :: back ∧
      (∀ e ∈ front, skips e = true) ∧ ∀ e ∈ back, ∃ next, skips next = false ∧ next.oldestInst ≤ e.oldestInst := by
  refine ⟨list.takeWhile skips, list.dropWhile skips, List.takeWhile_append_dropWhile.symm, rfl, ?_, ?_⟩
  · exact fun e => List.mem_takeWhile_imp
  · intro e member
    cases stopped : list.dropWhile skips with
    | nil => exact absurd (stopped ▸ member) List.not_mem_nil
    | cons next back =>
        have notSkipped : skips next = false := by
          have head := List.head_dropWhile_not skips (l := list) (by simp [stopped])
          simpa [stopped] using head
        refine ⟨next, notSkipped, ?_⟩
        have tail : (next :: back).Pairwise fun first second : ListOrderEntry OpClass =>
            first.oldestInst ≤ second.oldestInst := by
          rw [← stopped]
          exact sorted.sublist (List.dropWhile_sublist skips)
        obtain rfl | later := List.mem_cons.mp (stopped ▸ member)
        · exact le_rfl
        · exact List.rel_of_pairwise_cons tail later

theorem Ordered.addToOrderList (ordered : Ordered (some c) q) (ready : q.readyInsts c = top :: younger) :
    ∃ after, q.addToOrderList c = some after ∧ Ordered none after ∧ after.readyInsts = q.readyInsts := by
  obtain ⟨front, back, split, inserted, skipped, kept⟩ := insertPast_split
    (fun entry => !decide (entry.oldestInst > top)) ⟨q.nodes, c, top⟩ ordered.sorted
  have entered := ordered.enter ready split
    (fun e member => by simpa using skipped e member)
    (fun e member => by
      obtain ⟨next, notSkipped, le⟩ := kept e member
      have later : top < next.oldestInst := by simpa using notSkipped
      exact later.le.trans le)
  refine ⟨_, ?_, entered, rfl⟩
  simp only [ReadyQueues.addToOrderList, ready, inserted]

omit [DecidableEq OpClass] in
theorem Ordered.weaken (ordered : Ordered none q) (away : ∀ e ∈ q.listOrder, e.queueType ≠ c) :
    Ordered (some c) q := by
  refine ⟨ordered.sorted, ordered.classes, ordered.nodes, ordered.allocated, ?_, ?_, ?_, ordered.increasing⟩
  · intro e member
    exact ⟨fun same => away e member (Option.some.inj same).symm, (ordered.current e member).2⟩
  · exact fun d _ => ordered.listed d nofun
  · exact fun d _ => ordered.queued d nofun

theorem Ordered.grow (ordered : Ordered none q) {ready : List ℕ} (increasing : ready.Pairwise (· ≤ ·))
    (some : q.readyInsts c ≠ []) (head : ready.head? = (q.readyInsts c).head?) :
    Ordered none { q with readyInsts := Function.update q.readyInsts c ready } := by
  refine ⟨ordered.sorted, ordered.classes, ordered.nodes, ordered.allocated, ?_, ordered.listed, ?_, ?_⟩
  · intro e member
    obtain ⟨differs, it, first⟩ := ordered.current e member
    refine ⟨differs, it, ?_⟩
    by_cases same : e.queueType = c
    · rw [same] at first
      simpa [same, head] using first
    · simpa [same] using first
  · intro d _ still
    by_cases same : d = c
    · exact same ▸ ordered.queued c nofun some
    · exact ordered.queued d nofun (by simpa [same] using still)
  · intro d
    by_cases same : d = c
    · subst same
      simpa using increasing
    · simpa [same] using ordered.increasing d

/-- A new instruction never finds the list out of order, and leaves it in order. -/
theorem Ordered.addReady (ordered : Ordered none q) (c : OpClass) (inst : ℕ) :
    ∃ after, q.addReady c inst = some after ∧ Ordered none after ∧
      after.readyInsts = Function.update q.readyInsts c ((q.readyInsts c).orderedInsert (· ≤ ·) inst) := by
  have increasing : ((q.readyInsts c).orderedInsert (· ≤ ·) inst).Pairwise (· ≤ ·) :=
    (ordered.increasing c).orderedInsert inst _
  obtain ⟨top, younger, queue⟩ :
      ∃ top younger, (q.readyInsts c).orderedInsert (· ≤ ·) inst = top :: younger := by
    refine List.exists_cons_of_ne_nil fun none => ?_
    have member : inst ∈ (q.readyInsts c).orderedInsert (· ≤ ·) inst := (List.mem_orderedInsert _).mpr (.inl rfl)
    exact List.not_mem_nil (none ▸ member)
  have updated (off : Ordered (some c) q) : Ordered (some c) { q with
      readyInsts := Function.update q.readyInsts c ((q.readyInsts c).orderedInsert (· ≤ ·) inst) } :=
    off.change increasing q.readyIt q.queueOnList (fun _ _ => rfl) fun _ _ => rfl
  have ready : Function.update q.readyInsts c ((q.readyInsts c).orderedInsert (· ≤ ·) inst) c = top :: younger := by
    rw [Function.update_self, queue]
  unfold ReadyQueues.addReady
  cases onList : q.queueOnList c with
  | false =>
      have away : ∀ e ∈ q.listOrder, e.queueType ≠ c := by
        intro e member same
        have listed := (ordered.listed c nofun).mpr ⟨e, member, same⟩
        exact absurd (listed.symm.trans onList) nofun
      simp only [onList, Bool.not_false, if_true]
      exact (updated (ordered.weaken away)).addToOrderList ready
  | true =>
      obtain ⟨entry, member, rfl⟩ := (ordered.listed c nofun).mp onList
      obtain ⟨_, it, head⟩ := ordered.current entry member
      have found :
          (q.listOrder.find? fun e => some e.node = q.readyIt entry.queueType) = some entry := by
        obtain ⟨other, isFound⟩ :
            ∃ other, (q.listOrder.find? fun e => some e.node = q.readyIt entry.queueType) =
            some other := by
          refine Option.isSome_iff_exists.mp (List.find?_isSome.mpr ⟨entry, member, ?_⟩)
          simp [it]
        have sameNode : other.node = entry.node := by simpa [it] using List.find?_some isFound
        rw [isFound, List.inj_on_of_nodup_map ordered.nodes (List.mem_of_find?_eq_some isFound) member sameNode]
      simp only [onList, Bool.not_true, Bool.false_eq_true, if_false, ready, found]
      by_cases older : top < entry.oldestInst
      · obtain ⟨front, back, split⟩ := List.append_of_mem member
        have erased :
            (q.listOrder.filter fun other => other.node ≠ entry.node) = front ++ back := by
          have nodes := ordered.nodes
          rw [split, (List.perm_middle.map _).nodup_iff, List.map_cons, List.nodup_cons] at nodes
          have kept : ∀ other ∈ front ++ back, other.node ≠ entry.node := fun other inside same =>
            nodes.1 (same ▸ List.mem_map_of_mem inside)
          rw [split, List.filter_append, List.filter_cons_of_neg (by simp), ← List.filter_append]
          exact List.filter_eq_self.mpr fun other inside => decide_eq_true (kept other inside)
        rw [if_pos older, erased]
        have off := (ordered.remove split).change increasing q.readyIt q.queueOnList (fun _ _ => rfl) fun _ _ => rfl
        exact off.addToOrderList ready
      · rw [if_neg older]
        refine ⟨_, rfl, ordered.grow increasing (by simp [← List.head?_eq_none_iff, head]) ?_, rfl⟩
        obtain ⟨rest, isQueue⟩ : ∃ rest, q.readyInsts entry.queueType = entry.oldestInst :: rest :=
          ⟨_, (List.cons_head?_tail head).symm⟩
        have atMost : top ≤ entry.oldestInst := by
          have inside : entry.oldestInst ∈ top :: younger := by
            rw [← queue, isQueue]
            exact (List.mem_orderedInsert _).mpr (.inr List.mem_cons_self)
          obtain same | later := List.mem_cons.mp inside
          · exact same.ge
          · exact List.rel_of_pairwise_cons (queue ▸ increasing) later
        rw [queue, head, List.head?_cons, atMost.antisymm (Nat.le_of_not_lt older)]

end Order

/-! ## A pass over the list -/

section Pass

variable {OpClass σ : Type} [DecidableEq OpClass] {c : OpClass} {q : ReadyQueues OpClass} {younger : List ℕ}
  {before rest : List (ListOrderEntry OpClass)} {entry : ListOrderEntry OpClass}

omit [DecidableEq OpClass] in
theorem rounds_append (front back : List (ListOrderEntry OpClass)) :
    q.rounds (front ++ back) = q.rounds front + q.rounds back := by
  induction front with
  | nil => simp [ReadyQueues.rounds]
  | cons entry front ih =>
      simp only [List.cons_append, ReadyQueues.rounds, ih]
      omega

omit [DecidableEq OpClass] in
theorem rounds_congr (after q : ReadyQueues OpClass) (same : after.readyInsts = q.readyInsts)
    (list : List (ListOrderEntry OpClass)) : after.rounds list = q.rounds list := by
  induction list with
  | nil => rfl
  | cons entry list ih => simp only [ReadyQueues.rounds, ih, same]

theorem rounds_of_others {after : ReadyQueues OpClass} {list : List (ListOrderEntry OpClass)}
    (same : after.readyInsts = Function.update q.readyInsts c younger) (others : ∀ e ∈ list, e.queueType ≠ c) :
    after.rounds list = q.rounds list := by
  induction list with
  | nil => rfl
  | cons entry list ih =>
      obtain ⟨here, others⟩ := List.forall_mem_cons.mp others
      simp only [ReadyQueues.rounds, ih others, same, Function.update_of_ne here]

/-- What taking the top of a class does: the queues stay in order, and the entries behind are those
of younger instructions. -/
structure Taken (before : List (ListOrderEntry OpClass)) (entry : ListOrderEntry OpClass)
    (rest : List (ListOrderEntry OpClass)) (younger : List ℕ) (q : ReadyQueues OpClass)
    (moved : List (ListOrderEntry OpClass)) (after : ReadyQueues OpClass) : Prop where
  ordered : Ordered none { after with listOrder := before ++ moved }
  readyInsts : after.readyInsts = Function.update q.readyInsts entry.queueType younger
  later : ∀ e ∈ moved, entry.oldestInst ≤ e.oldestInst
  rounds : after.rounds moved < q.rounds (entry :: rest)

theorem take_taken (ordered : Ordered none { q with listOrder := before ++ entry :: rest })
    (ready : q.readyInsts entry.queueType = entry.oldestInst :: younger) :
    Taken before entry rest younger q (q.take entry.queueType younger rest).1
      (q.take entry.queueType younger rest).2 := by
  have increasing := ordered.increasing entry.queueType
  rw [show ({ q with listOrder := before ++ entry :: rest } : ReadyQueues OpClass).readyInsts = q.readyInsts from rfl,
    ready] at increasing
  obtain ⟨tail, increasing⟩ := List.pairwise_cons.mp increasing
  obtain ⟨_, sorted, _⟩ := List.pairwise_append.mp ordered.sorted
  obtain ⟨later, sorted⟩ := List.pairwise_cons.mp sorted
  have removed := ordered.remove rfl
  have others (e : ListOrderEntry OpClass) (member : e ∈ rest) :
      e.queueType ≠ entry.queueType := fun same =>
    (removed.current e (List.mem_append_right before member)).1 (congrArg some same.symm)
  cases younger with
  | nil =>
      have off := removed.change increasing (Function.update q.readyIt entry.queueType none)
        (Function.update q.queueOnList entry.queueType false) (fun d differs => Function.update_of_ne differs _ _)
        fun d differs => Function.update_of_ne differs _ _
      refine ⟨off.leave (Function.update_self _ _ _) (Function.update_self _ _ _), rfl, later, ?_⟩
      have same : (q.take entry.queueType [] rest).2.rounds rest = q.rounds rest := rounds_of_others rfl others
      rw [ReadyQueues.rounds, ← same]
      exact Nat.lt_add_of_pos_left (Nat.succ_pos _)
  | cons top younger =>
      have atLeast : entry.oldestInst ≤ top := tail top List.mem_cons_self
      obtain ⟨front, back, split, inserted, skipped, kept⟩ := insertPast_split
        (fun e => decide (e.oldestInst < top)) ⟨q.nodes, entry.queueType, top⟩ sorted
      have off := removed.change increasing q.readyIt (Function.update q.queueOnList entry.queueType true)
        (fun _ _ => rfl) fun d differs => Function.update_of_ne differs _ _
      have isOn : q.queueOnList entry.queueType = true :=
        (ordered.listed entry.queueType nofun).mpr ⟨entry, List.mem_append_right before List.mem_cons_self, rfl⟩
      have entered := off.enter (Function.update_self _ _ _)
        (by rw [split, List.append_assoc] : before ++ rest = (before ++ front) ++ back)
        (by
          intro e member
          obtain isBefore | isFront := List.mem_append.mp member
          · exact ((List.pairwise_append.mp ordered.sorted).2.2 e isBefore entry List.mem_cons_self).trans atLeast
          · exact le_of_lt (by simpa using skipped e isFront))
        (by
          intro e member
          obtain ⟨next, notSkipped, le⟩ := kept e member
          exact le_trans (by simpa using notSkipped) le)
      refine ⟨?_, rfl, ?_, ?_⟩
      · have same : Function.update q.queueOnList entry.queueType true = q.queueOnList := by
          rw [← isOn, Function.update_eq_self]
        simpa [ReadyQueues.take, ReadyQueues.moveToYoungerInst, inserted, same] using entered
      · intro e member
        change e ∈ insertPast _ _ rest at member
        rw [inserted, List.perm_middle.mem_iff, ← split] at member
        obtain rfl | member := List.mem_cons.mp member
        · exact atLeast
        · exact later e member
      · have same : (q.take entry.queueType (top :: younger) rest).2.rounds (front ++ back) = q.rounds rest :=
          split ▸ rounds_of_others rfl others
        have own : ((q.take entry.queueType (top :: younger) rest).2.readyInsts entry.queueType) = top :: younger :=
          Function.update_self _ _ _
        change (q.take entry.queueType (top :: younger) rest).2.rounds (insertPast _ _ rest) < _
        rw [rounds_append] at same
        rw [inserted, rounds_append, ReadyQueues.rounds, ReadyQueues.rounds, own, ready]
        simp only [List.length_cons]
        omega

theorem scheduleFrom_rule (goesOn : σ → Bool) (examine : OpClass → ℕ → σ → Option (Outcome × σ))
    (I : List (ListOrderEntry OpClass) → List (ListOrderEntry OpClass) → ReadyQueues OpClass → σ → Prop)
    (round : ∀ before entry rest q s younger, goesOn s = true →
      Ordered none { q with listOrder := before ++ entry :: rest } → I before (entry :: rest) q s →
      q.readyInsts entry.queueType = entry.oldestInst :: younger →
      ∃ outcome after, examine entry.queueType entry.oldestInst s = some (outcome, after) ∧
        (outcome = .busy → I (before ++ [entry]) rest q after) ∧
        (outcome ≠ .busy → ∀ moved taken, Taken before entry rest younger q moved taken → I before moved taken after))
    {fuel : ℕ} {s : σ} (enough : q.rounds rest < fuel)
    (ordered : Ordered none { q with listOrder := before ++ rest }) (holds : I before rest q s) :
    ∃ front back after s', ReadyQueues.scheduleFrom goesOn examine fuel before rest q s =
        some ({ after with listOrder := front ++ back }, s') ∧
      Ordered none { after with listOrder := front ++ back } ∧ I front back after s' ∧
      (back = [] ∨ goesOn s' = false) := by
  induction fuel generalizing before rest q s with
  | zero => exact absurd enough (Nat.not_lt_zero _)
  | succ fuel ih =>
      unfold ReadyQueues.scheduleFrom
      cases going : goesOn s with
      | false => exact ⟨before, rest, q, s, by simp, ordered, holds, .inr going⟩
      | true =>
          cases rest with
          | nil => exact ⟨before, [], q, s, by simp, ordered, holds, .inl rfl⟩
          | cons entry rest =>
              have head := (ordered.current entry (List.mem_append_right before List.mem_cons_self)).2.2
              obtain ⟨younger, ready⟩ :
                  ∃ younger, q.readyInsts entry.queueType = entry.oldestInst :: younger :=
                ⟨_, (List.cons_head?_tail head).symm⟩
              obtain ⟨outcome, after, examined, stays, goes⟩ :=
                round before entry rest q s younger going ordered holds ready
              have taken := take_taken ordered ready
              simp only [if_true, ready, examined]
              cases outcome with
              | busy =>
                  refine ih ?_ (by simpa using ordered) (stays rfl)
                  rw [ReadyQueues.rounds] at enough
                  omega
              | squashed | issued =>
                  exact ih (Nat.lt_of_lt_of_le taken.rounds (Nat.le_of_lt_succ enough)) taken.ordered
                    (goes nofun _ _ taken)

end Pass

end GemFi.IssueOrder
