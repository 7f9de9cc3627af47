import GemFi.FaultQueue
import Mathlib.Data.List.TakeWhile
import Mathlib.Logic.Function.Basic

/-!
What the operations on a fault queue do to the list it stands for. `Represents`
is the representation invariant of all five queues over the shared memory; it
survives a removal always, and an insertion when the link that `insert` does not
write is clear.
-/

namespace GemFi.QueueRepresentation

open LinkedLists ThreadInfo FaultQueue FaultQueue.FaultStore

/-- The faults of the list that `insert` walks past, and those it stops before. -/
def ahead (s : FaultStore) (f : FaultPtr) (nodes : List FaultPtr) : List FaultPtr :=
  nodes.takeWhile fun p => decide (s.timing p < s.timing f)

def behind (s : FaultStore) (f : FaultPtr) (nodes : List FaultPtr) : List FaultPtr :=
  nodes.dropWhile fun p => decide (s.timing p < s.timing f)

theorem ahead_append_behind (s : FaultStore) (f : FaultPtr) (nodes : List FaultPtr) :
    ahead s f nodes ++ behind s f nodes = nodes := List.takeWhile_append_dropWhile

theorem inserted_perm (s : FaultStore) (f : FaultPtr) (nodes : List FaultPtr) :
    (ahead s f nodes ++ f :: behind s f nodes).Perm (f :: nodes) := by
  refine List.perm_middle.trans (List.Perm.cons f ?_)
  rw [ahead_append_behind]

/-- The links that `insert` relies on finding clear: at the end of a non-empty
queue it does not write the fault's `nxt`, at the front it does not write its
`prv`. -/
structure LinksCleared (s : FaultStore) (q : StageQueue) (members : List FaultPtr)
    (f : FaultPtr) : Prop where
  atEnd : members ≠ [] → (∀ p ∈ members, s.timing p < s.timing f) → s.nxt f = none
  atFront : ∀ p, s.head q = some p → ¬ s.timing p < s.timing f → s.prv f = none

structure Inserted (s s' : FaultStore) (q : StageQueue) (f : FaultPtr)
    (first second : List FaultPtr) : Prop where
  -- what a completed insertion between `first` and `second` has written
  nxt : ∀ p, s'.nxt p =
    if p = f then second.head? else if first.getLast? = some p then some f else s.nxt p
  prv : ∀ p, s'.prv p =
    if p = f then first.getLast? else if second.head? = some p then some f else s.prv p
  head : ∀ r, s'.head r = if r = q then (first ++ f :: second).head? else s.head r
  tail : ∀ r, s'.tail r = if r = q then (first ++ f :: second).getLast? else s.tail r

variable {s s' : FaultStore} {q : StageQueue} {f : FaultPtr} {nodes : List FaultPtr} {fuel : Nat}

theorem empty_linked_iff (linked : Linked s.nxt s.prv (s.head q) (s.tail q) nodes) :
    s.empty q = true ↔ nodes = [] := by
  rw [empty_iff, linked.head_eq, linked.tail_eq]
  simp

theorem insert_search (linked : Linked s.nxt s.prv (s.head q) (s.tail q) nodes)
    (found : Option FaultPtr)
    (returned : walk s.nxt (fun p => !decide (s.timing p < s.timing f)) fuel (s.head q) =
      some found) : found = (behind s f nodes).head? := by
  rw [walk_eq_find _ nodes fuel found linked.forward returned, List.find?_eq_head?_dropWhile_not]
  simp [behind]

/-- Everything `insert` can do on a non-empty queue. -/
theorem insert_cases (linked : Linked s.nxt s.prv (s.head q) (s.tail q) nodes)
    (occupied : nodes ≠ []) (returned : s.insert fuel q f = some s') :
    (∃ last, behind s f nodes = [] ∧ nodes.getLast? = some last ∧
      s' = (s.setQueue f q).linkLast q f last) ∨
    (∃ p rest, ahead s f nodes = [] ∧ behind s f nodes = p :: rest ∧
      s' = (s.setQueue f q).linkFirst q f p) ∨
    (∃ before p rest, (ahead s f nodes).getLast? = some before ∧ behind s f nodes = p :: rest ∧
      s' = (s.setQueue f q).linkBetween f before p) := by
  have vacant : ¬ s.empty q = true := fun nothing => occupied ((empty_linked_iff linked).mp nothing)
  have split := ahead_append_behind s f nodes
  simp only [FaultStore.insert, setQueue_empty, vacant, setQueue_nxt, setQueue_timing,
    setQueue_head, setQueue_tail, setQueue_prv] at returned
  obtain ⟨found, searched, returned⟩ := Option.bind_eq_some_iff.mp returned
  have place := insert_search linked found searched
  cases back : behind s f nodes with
  | nil =>
      rw [place, back] at returned
      obtain ⟨last, atTail, result⟩ := Option.bind_eq_some_iff.mp returned
      cases result
      exact Or.inl ⟨last, rfl, linked.tail_eq.symm.trans atTail, rfl⟩
  | cons p rest =>
      rw [place, back] at returned
      rw [back] at split
      right
      rcases List.eq_nil_or_concat (ahead s f nodes) with none' | ⟨initial, before, front⟩
      · left
        have atHead : s.head q = some p := by rw [linked.head_eq, ← split, none']; rfl
        simp only [List.head?_cons, atHead, if_true, Option.some.injEq] at returned
        exact ⟨p, rest, none', rfl, returned.symm⟩
      · right
        rw [List.concat_eq_append] at front
        have last : (ahead s f nodes).getLast? = some before := by
          rw [front]
          exact List.getLast?_concat
        rw [← split] at linked
        have previous := (linked.neighbours _ rest p).2
        rw [last] at previous
        -- the head comes before `p`, so it is another fault
        have notHead : s.head q ≠ some p := by
          intro atHead
          have none' := linked.head_prv p atHead
          rw [previous] at none'
          cases none'
        simp only [List.head?_cons, notHead, if_false, previous] at returned
        cases returned
        exact ⟨before, p, rest, last, rfl, rfl⟩

theorem linkLast_inserted {last : FaultPtr}
    (linked : Linked s.nxt s.prv (s.head q) (s.tail q) nodes) (outside : f ∉ nodes)
    (lastIs : nodes.getLast? = some last) (clear : s.nxt f = none) :
    Inserted s ((s.setQueue f q).linkLast q f last) q f nodes [] := by
  have apart : f ≠ last := fun same => outside (same ▸ List.mem_of_getLast? lastIs)
  constructor
  · intro p
    by_cases same : p = f
    · subst p
      simp [linkLast, apart, clear]
    · simp [linkLast, same, lastIs, eq_comm]
  · intro p
    simp [linkLast, lastIs]
  · intro r
    obtain ⟨initial, rfl⟩ := List.getLast?_eq_some_iff.mp lastIs
    by_cases same : r = q
    · simp [linkLast, same, linked.head_eq]
    · simp [linkLast, same]
  · intro r
    simp [linkLast]

theorem linkFirst_inserted {next : FaultPtr} {rest : List FaultPtr}
    (linked : Linked s.nxt s.prv (s.head q) (s.tail q) (next :: rest))
    (outside : f ∉ next :: rest) (clear : s.prv f = none) :
    Inserted s ((s.setQueue f q).linkFirst q f next) q f [] (next :: rest) := by
  have apart : f ≠ next := fun same => outside (same ▸ List.mem_cons_self)
  constructor
  · intro p
    simp [linkFirst]
  · intro p
    by_cases same : p = f
    · subst p
      simp [linkFirst, apart, clear]
    · simp [linkFirst, same, eq_comm]
  · intro r
    simp [linkFirst]
  · intro r
    by_cases same : r = q <;> simp [linkFirst, same, linked.tail_eq, List.getLast?_cons_cons]

/-- Between two faults both links of the new one are written, so it does not
matter what they held. -/
theorem linkBetween_inserted {before next : FaultPtr} {first rest : List FaultPtr}
    (linked : Linked s.nxt s.prv (s.head q) (s.tail q) (first ++ next :: rest))
    (outside : f ∉ first ++ next :: rest) (front : first.getLast? = some before) :
    Inserted s ((s.setQueue f q).linkBetween f before next) q f first (next :: rest) := by
  have apart : f ≠ next := fun same => outside (by rw [same]; simp)
  have headKept : s.head q = (first ++ f :: next :: rest).head? := by
    rw [linked.head_eq]
    obtain ⟨initial, rfl⟩ := List.getLast?_eq_some_iff.mp front
    cases initial <;> rfl
  have tailKept : s.tail q = (first ++ f :: next :: rest).getLast? := by
    rw [linked.tail_eq, List.getLast?_append, List.getLast?_append, List.getLast?_cons_cons]
  constructor
  · intro p
    simp [linkBetween, front, eq_comm]
  · intro p
    by_cases same : p = f
    · subst p
      simp [linkBetween, apart, front]
    · simp [linkBetween, same, eq_comm]
  · intro r
    by_cases same : r = q
    · simp [linkBetween, same, headKept]
    · simp [linkBetween, same]
  · intro r
    by_cases same : r = q
    · simp [linkBetween, same, tailKept]
    · simp [linkBetween, same]

theorem insert_effect (linked : Linked s.nxt s.prv (s.head q) (s.tail q) nodes)
    (outside : f ∉ nodes) (cleared : LinksCleared s q nodes f)
    (returned : s.insert fuel q f = some s') :
    Inserted s s' q f (ahead s f nodes) (behind s f nodes) := by
  have split := ahead_append_behind s f nodes
  by_cases occupied : nodes = []
  · subst nodes
    have vacant := (empty_linked_iff linked).mpr rfl
    simp only [FaultStore.insert, setQueue_empty, vacant, if_true, Option.some.injEq] at returned
    subst returned
    constructor <;> intro p <;> simp [ahead, behind]
  · rcases insert_cases linked occupied returned with
      ⟨last, back, lastIs, rfl⟩ | ⟨next, rest, front, back, rfl⟩ |
      ⟨before, next, rest, front, back, rfl⟩
    -- at either end one link of the new fault is not written and has to be clear
    · have below : ∀ p ∈ nodes, s.timing p < s.timing f := by
        have all := List.dropWhile_eq_nil_iff.mp back
        intro p member
        simpa using all p member
      rw [back, List.append_nil] at split
      rw [back, split]
      exact linkLast_inserted linked outside lastIs (cleared.atEnd occupied below)
    · rw [front, back, List.nil_append] at split
      subst split
      have late : ¬ s.timing next < s.timing f := by
        intro early
        simp [ahead, early] at front
      rw [front, back]
      exact linkFirst_inserted linked outside (cleared.atFront next linked.head_eq late)
    · rw [back] at split ⊢
      generalize ahead s f nodes = first at front split ⊢
      subst split
      exact linkBetween_inserted linked outside front

theorem insert_returns (linked : Linked s.nxt s.prv (s.head q) (s.tail q) nodes)
    (enough : nodes.length < fuel) : ∃ s', s.insert fuel q f = some s' := by
  by_cases vacant : s.empty q = true
  · exact ⟨_, by simp [FaultStore.insert, vacant]; rfl⟩
  · simp only [FaultStore.insert, setQueue_empty, vacant, setQueue_nxt, setQueue_timing,
      setQueue_head, setQueue_tail, setQueue_prv, walk_chain _ nodes fuel linked.forward enough]
    cases found : nodes.find? fun p => !decide (s.timing p < s.timing f) with
    | none =>
        have occupied : nodes ≠ [] := fun nothing => vacant ((empty_linked_iff linked).mpr nothing)
        obtain ⟨last, lastIs⟩ := Option.ne_none_iff_exists'.mp
          (fun none' => occupied (List.getLast?_eq_none_iff.mp none'))
        exact ⟨_, by simp [linked.tail_eq, lastIs]; rfl⟩
    | some p =>
        by_cases atHead : s.head q = some p
        · exact ⟨_, by simp [atHead]; rfl⟩
        · obtain ⟨first, second, rfl⟩ := List.append_of_mem (List.mem_of_find?_eq_some found)
          have previous := (linked.neighbours first second p).2
          rcases List.eq_nil_or_concat first with rfl | ⟨initial, before, rfl⟩
          · exact absurd linked.head_eq atHead
          · rw [List.concat_eq_append, List.getLast?_concat] at previous
            exact ⟨_, by simp [atHead, previous]; rfl⟩

structure Removed (s s' : FaultStore) (q : StageQueue) (first second : List FaultPtr) : Prop where
  nxt : ∀ p, s'.nxt p = if first.getLast? = some p then second.head? else s.nxt p
  prv : ∀ p, s'.prv p = if second.head? = some p then first.getLast? else s.prv p
  head : ∀ r, s'.head r = if r = q then (first ++ second).head? else s.head r
  tail : ∀ r, s'.tail r = if r = q then (first ++ second).getLast? else s.tail r

theorem remove_effect (first second : List FaultPtr)
    (linked : Linked s.nxt s.prv (s.head q) (s.tail q) (first ++ f :: second))
    (returned : s.remove fuel q f = some s') : Removed s s' q first second := by
  have occupied : ¬ s.empty q = true := by
    rw [empty_linked_iff linked]
    simp
  obtain ⟨nextIs, previousIs⟩ := linked.neighbours first second f
  have notBefore : s.prv f ≠ some f := by
    intro loop
    rw [previousIs] at loop
    have twice := linked.nodup
    rw [List.nodup_append] at twice
    exact twice.2.2 f (List.mem_of_getLast? loop) f List.mem_cons_self rfl
  have nextKept : (s.skipForward q f).nxt f = s.nxt f := by
    rw [skipForward_nxt, if_neg notBefore]
  simp only [FaultStore.remove, occupied] at returned
  obtain ⟨found, _, returned⟩ := Option.bind_eq_some_iff.mp returned
  cases found with
  | none => cases returned
  | some p =>
      cases returned
      constructor
      · intro p
        rw [skipBackward_nxt, skipForward_nxt, previousIs, nextIs]
      · intro p
        rw [skipBackward_prv, skipForward_prv, skipForward_prv, nextKept, nextIs, previousIs]
      · intro r
        rw [skipBackward_head, skipForward_head, previousIs, nextIs]
        by_cases same : r = q
        · subst r
          cases first <;> simp [linked.head_eq]
        · simp [same]
      · intro r
        rw [skipBackward_tail, skipForward_prv, skipForward_tail, nextKept, nextIs, previousIs]
        by_cases same : r = q
        · subst r
          cases second <;> simp [linked.tail_eq, List.getLast?_append, List.getLast?_cons_cons]
        · simp [same]

theorem remove_returns (linked : Linked s.nxt s.prv (s.head q) (s.tail q) nodes)
    (member : f ∈ nodes) (enough : nodes.length < fuel) : ∃ s', s.remove fuel q f = some s' := by
  have occupied : ¬ s.empty q = true := by
    rw [empty_linked_iff linked]
    exact List.ne_nil_of_mem member
  simp only [FaultStore.remove, occupied, walk_chain _ nodes fuel linked.forward enough]
  cases found : nodes.find? fun p => decide (p = f) with
  | none =>
      have absent := List.find?_eq_none.mp found f member
      simp at absent
  | some p => exact ⟨_, rfl⟩

theorem Inserted.linked {first second : List FaultPtr} (done : Inserted s s' q f first second)
    (linked : Linked s.nxt s.prv (s.head q) (s.tail q) (first ++ second))
    (outside : f ∉ first ++ second) :
    Linked s'.nxt s'.prv (s'.head q) (s'.tail q) (first ++ f :: second) := by
  have other : ∀ p ∈ first ++ second, p ≠ f := fun p member same => outside (same ▸ member)
  rw [done.head, done.tail, if_pos rfl, if_pos rfl]
  apply linked.insert f
  · rw [done.nxt, if_pos rfl]
  · rw [done.prv, if_pos rfl]
  · intro last lastIs
    have member := List.mem_append_left second (List.mem_of_getLast? lastIs)
    rw [done.nxt, if_neg (other last member), if_pos lastIs]
  · intro next nextIs
    have member := List.mem_append_right first (List.mem_of_head? nextIs)
    rw [done.prv, if_neg (other next member), if_pos nextIs]
  · intro p member differs
    rw [done.nxt, if_neg (other p member), if_neg differs]
  · intro p member differs
    rw [done.prv, if_neg (other p member), if_neg differs]

theorem Removed.linked {first second : List FaultPtr} (done : Removed s s' q first second)
    (linked : Linked s.nxt s.prv (s.head q) (s.tail q) (first ++ f :: second)) :
    Linked s'.nxt s'.prv (s'.head q) (s'.tail q) (first ++ second) := by
  rw [done.head, done.tail, if_pos rfl, if_pos rfl]
  apply linked.remove
  · intro last lastIs
    rw [done.nxt, if_pos lastIs]
  · intro next nextIs
    rw [done.prv, if_pos nextIs]
  · intro p _ differs
    rw [done.nxt, if_neg differs]
  · intro p _ differs
    rw [done.prv, if_neg differs]

structure Represents (s : FaultStore) (lists : StageQueue → List FaultPtr) : Prop where
  -- the five queues hold the faults of `lists`, in this order, and share none
  linked : ∀ q, Linked s.nxt s.prv (s.head q) (s.tail q) (lists q)
  apart : ∀ q r p, p ∈ lists q → p ∈ lists r → q = r
  owned : ∀ q p, p ∈ lists q → s.owner p = some q

variable {lists : StageQueue → List FaultPtr}

/-- Only the links, owners and ends of the faults in the queues matter. -/
theorem Represents.congr (held : Represents s lists) (ends : s'.queues = s.queues)
    (links : ∀ q, ∀ p ∈ lists q,
      s'.nxt p = s.nxt p ∧ s'.prv p = s.prv p ∧ s'.owner p = s.owner p) :
    Represents s' lists := by
  constructor
  · intro q
    have sameHead : s'.head q = s.head q := by rw [head, head, ends]
    have sameTail : s'.tail q = s.tail q := by rw [tail, tail, ends]
    rw [sameHead, sameTail]
    exact (held.linked q).congr (fun p member => (links q p member).1)
      (fun p member => (links q p member).2.1)
  · exact held.apart
  · intro q p member
    rw [(links q p member).2.2]
    exact held.owned q p member

theorem Represents.write {f : FaultPtr} {change : InjectedFault → InjectedFault}
    (held : Represents s lists) (nxt : (change (s.mem f)).nxt = (s.mem f).nxt)
    (prv : (change (s.mem f)).prv = (s.mem f).prv)
    (queue : (change (s.mem f)).queue = (s.mem f).queue) :
    Represents (s.write f change) lists := by
  refine held.congr rfl (fun r p member => ?_)
  by_cases same : p = f <;>
    simp [FaultStore.nxt, FaultStore.prv, FaultStore.owner, FaultStore.write, same, nxt, prv, queue]

theorem insert_represents (held : Represents s lists) (outside : ∀ r, f ∉ lists r)
    (cleared : LinksCleared s q (lists q) f) (returned : s.insert fuel q f = some s') :
    Represents s'
      (Function.update lists q (ahead s f (lists q) ++ f :: behind s f (lists q))) := by
  have done := insert_effect (held.linked q) (outside q) cleared returned
  have split := ahead_append_behind s f (lists q)
  constructor
  · intro r
    by_cases same : r = q
    · subst r
      rw [Function.update_self]
      exact done.linked (split.symm ▸ held.linked q) (split.symm ▸ outside q)
    · -- only `f` and faults of queue `q` were written
      rw [Function.update_of_ne same, done.head, done.tail, if_neg same, if_neg same]
      apply (held.linked r).congr
      · intro p member
        have notNew : p ≠ f := fun equal => outside r (equal ▸ member)
        rw [done.nxt, if_neg notNew, if_neg]
        intro lastIs
        have inQ : p ∈ lists q := split ▸ List.mem_append_left _ (List.mem_of_getLast? lastIs)
        exact same (held.apart r q p member inQ)
      · intro p member
        have notNew : p ≠ f := fun equal => outside r (equal ▸ member)
        rw [done.prv, if_neg notNew, if_neg]
        intro nextIs
        have inQ : p ∈ lists q := split ▸ List.mem_append_right _ (List.mem_of_head? nextIs)
        exact same (held.apart r q p member inQ)
  · exact apart_update_added (inserted_perm s f (lists q)) outside held.apart
  · intro r p inR
    rw [(insert_frame returned).2.2 p]
    rcases mem_update_added (inserted_perm s f (lists q)) outside r p inR with
      ⟨isNew, rfl⟩ | ⟨old, inR⟩
    · rw [if_pos isNew]
    · rw [if_neg old]
      exact held.owned r p inR

theorem remove_represents (held : Represents s lists) (member : f ∈ lists q)
    (returned : s.remove fuel q f = some s') :
    Represents s' (Function.update lists q ((lists q).erase f)) := by
  have unique := (held.linked q).nodup
  obtain ⟨first, second, split⟩ := List.append_of_mem member
  have linkedQ : Linked s.nxt s.prv (s.head q) (s.tail q) (first ++ f :: second) :=
    split ▸ held.linked q
  have done := remove_effect first second linkedQ returned
  have erased : (lists q).erase f = first ++ second := by
    rw [split, List.nodup_append] at unique
    have notFirst : f ∉ first := fun inFirst => unique.2.2 f inFirst f List.mem_cons_self rfl
    rw [split, List.erase_append_right _ notFirst, List.erase_cons_head]
  have inQ : ∀ p ∈ first ++ second, p ∈ lists q := fun p inBoth =>
    List.mem_of_mem_erase (erased ▸ inBoth)
  constructor
  · intro r
    by_cases same : r = q
    · subst r
      rw [Function.update_self, erased]
      exact done.linked linkedQ
    · rw [Function.update_of_ne same, done.head, done.tail, if_neg same, if_neg same]
      apply (held.linked r).congr
      · intro p inR
        rw [done.nxt, if_neg]
        intro lastIs
        have shared := inQ p (List.mem_append_left _ (List.mem_of_getLast? lastIs))
        exact same (held.apart r q p inR shared)
      · intro p inR
        rw [done.prv, if_neg]
        intro nextIs
        have shared := inQ p (List.mem_append_right _ (List.mem_of_head? nextIs))
        exact same (held.apart r q p inR shared)
  · intro r r' p inR inR'
    exact held.apart r r' p (mem_update_erase r p inR) (mem_update_erase r' p inR')
  · intro r p inR
    rw [(remove_frame returned).2.2]
    exact held.owned r p (mem_update_erase r p inR)

end GemFi.QueueRepresentation
