import GemFi.QueueRepresentation
import GemFi.Transitions

/-!
Histories of insertions and removals. The history itself says which faults are
in which queue; the queues are faithful when their lists say the same.
-/

namespace GemFi.QueueHistory

open LinkedLists ThreadInfo Transitions FaultQueue FaultQueue.FaultStore QueueRepresentation

inductive QueueOp where
  | insert (q : StageQueue) (f : FaultPtr)
  | remove (q : StageQueue) (f : FaultPtr)

structure Tracked where
  -- a store together with the faults inserted into each queue and not removed from it since, in no
  -- particular order
  store : FaultStore
  inside : StageQueue → List FaultPtr

namespace QueueOp

def Callable (inside : StageQueue → List FaultPtr) : QueueOp → Prop
  -- a fault is inserted only while it is in no queue, and removed from the queue it is in
  | insert _ f => ∀ r, f ∉ inside r
  | remove q f => f ∈ inside q

instance (inside : StageQueue → List FaultPtr) : (op : QueueOp) → Decidable (op.Callable inside)
  | insert _ f => inferInstanceAs (Decidable (∀ r, f ∉ inside r))
  | remove q f => inferInstanceAs (Decidable (f ∈ inside q))

def track (inside : StageQueue → List FaultPtr) : QueueOp → StageQueue → List FaultPtr
  | insert q f => Function.update inside q (f :: inside q)
  | remove q f => Function.update inside q ((inside q).erase f)

def call (fuel : Nat) : QueueOp → FaultStore → Option FaultStore
  | insert q f => FaultStore.insert fuel q f
  | remove q f => FaultStore.remove fuel q f

end QueueOp

def queueStep (fuel : Nat) (t : Tracked) (op : QueueOp) : Option Tracked :=
  if op.Callable t.inside then
    (op.call fuel t.store).map fun store => ⟨store, op.track t.inside⟩
  else none

def CallableAll (inside : StageQueue → List FaultPtr) : List QueueOp → Prop
  | [] => True
  | op :: rest => op.Callable inside ∧ CallableAll (op.track inside) rest

/-- The list from `head` holds exactly `members`, each once, the list from
`tail` is its reverse, both ends are closed, and `empty` answers truly. -/
def Faithful (s : FaultStore) (q : StageQueue) (members : List FaultPtr) : Prop :=
  ∃ nodes, Chain s.nxt (s.head q) nodes none ∧ nodes.Nodup ∧ nodes.Perm members ∧
    Chain s.prv (s.tail q) nodes.reverse none ∧
    (∀ p, s.head q = some p → s.prv p = none) ∧ (∀ p, s.tail q = some p → s.nxt p = none) ∧
    (s.empty q = true ↔ members = [])

def QueuesFaithful (t : Tracked) : Prop := ∀ q, Faithful t.store q (t.inside q)

def FindsLinksCleared (t : Tracked) : QueueOp → Prop
  -- the state before the call has clear links where `insert` relies on it
  | .insert q f => LinksCleared t.store q (t.inside q) f
  | .remove _ _ => True

structure Disjoint (t : Tracked) : Prop where
  apart : ∀ q r p, p ∈ t.inside q → p ∈ t.inside r → q = r
  owned : ∀ q p, p ∈ t.inside q → t.store.owner p = some q

variable {fuel : Nat} {t next : Tracked} {op : QueueOp}

theorem faithful_iff (s : FaultStore) (q : StageQueue) (members : List FaultPtr) :
    Faithful s q members ↔
      ∃ nodes, Linked s.nxt s.prv (s.head q) (s.tail q) nodes ∧ nodes.Perm members := by
  constructor
  · rintro ⟨nodes, forward, _, same, backward, _⟩
    exact ⟨nodes, ⟨forward, backward⟩, same⟩
  · rintro ⟨nodes, linked, same⟩
    refine ⟨nodes, linked.forward, linked.nodup, same, linked.backward, linked.head_prv,
      linked.tail_nxt, ?_⟩
    rw [empty_linked_iff linked]
    constructor
    · rintro rfl
      exact same.nil_eq.symm
    · intro nothing
      exact (nothing ▸ same).eq_nil

theorem queuesFaithful_iff (disjoint : Disjoint t) :
    QueuesFaithful t ↔
      ∃ lists, Represents t.store lists ∧ ∀ q, (lists q).Perm (t.inside q) := by
  constructor
  · intro faithful
    choose lists linked same using fun q => (faithful_iff t.store q (t.inside q)).mp (faithful q)
    refine ⟨lists, ⟨linked, ?_, ?_⟩, same⟩
    · intro q r p inQ inR
      exact disjoint.apart q r p ((same q).mem_iff.mp inQ) ((same r).mem_iff.mp inR)
    · intro q p inQ
      exact disjoint.owned q p ((same q).mem_iff.mp inQ)
  · rintro ⟨lists, held, same⟩ q
    exact (faithful_iff t.store q (t.inside q)).mpr ⟨lists q, held.linked q, same q⟩

theorem queueStep_cases (stepped : queueStep fuel t op = some next) :
    (∃ q f, op = .insert q f ∧ (∀ r, f ∉ t.inside r) ∧
      t.store.insert fuel q f = some next.store ∧
      next.inside = Function.update t.inside q (f :: t.inside q)) ∨
    (∃ q f, op = .remove q f ∧ f ∈ t.inside q ∧
      t.store.remove fuel q f = some next.store ∧
      next.inside = Function.update t.inside q ((t.inside q).erase f)) := by
  unfold queueStep at stepped
  split at stepped
  · rename_i callable
    obtain ⟨store, called, rfl⟩ := Option.map_eq_some_iff.mp stepped
    cases op with
    | insert q f => exact Or.inl ⟨q, f, rfl, callable, called, rfl⟩
    | remove q f => exact Or.inr ⟨q, f, rfl, callable, called, rfl⟩
  · cases stepped

theorem queueStep_disjoint (disjoint : Disjoint t) (stepped : queueStep fuel t op = some next) :
    Disjoint next := by
  rcases queueStep_cases stepped with ⟨q, f, rfl, outside, called, inside⟩ |
    ⟨q, f, rfl, member, called, inside⟩
  · constructor
    · rw [inside]
      exact apart_update_added (List.Perm.refl _) outside disjoint.apart
    · intro r p inR
      rw [inside] at inR
      rw [(insert_frame called).2.2 p]
      rcases mem_update_added (List.Perm.refl _) outside r p inR with
        ⟨isNew, rfl⟩ | ⟨old, inR⟩
      · rw [if_pos isNew]
      · rw [if_neg old]
        exact disjoint.owned r p inR
  · constructor
    · rw [inside]
      intro r r' p inR inR'
      exact disjoint.apart r r' p (mem_update_erase r p inR) (mem_update_erase r' p inR')
    · rw [inside]
      intro r p inR
      rw [(remove_frame called).2.2]
      exact disjoint.owned r p (mem_update_erase r p inR)

theorem linksCleared_perm {s : FaultStore} {q : StageQueue} {f : FaultPtr}
    {nodes members : List FaultPtr} (same : nodes.Perm members) :
    LinksCleared s q nodes f ↔ LinksCleared s q members f := by
  have vacant : nodes = [] ↔ members = [] := by
    rw [← List.length_eq_zero_iff, ← List.length_eq_zero_iff, same.length_eq]
  constructor
  · rintro ⟨atEnd, atFront⟩
    refine ⟨fun occupied below => ?_, atFront⟩
    exact atEnd (fun nothing => occupied (vacant.mp nothing))
      (fun p member => below p (same.mem_iff.mp member))
  · rintro ⟨atEnd, atFront⟩
    refine ⟨fun occupied below => ?_, atFront⟩
    exact atEnd (fun nothing => occupied (vacant.mpr nothing))
      (fun p member => below p (same.mem_iff.mpr member))

/-- An insertion that leaves the ends of the queue closed found the links
clear: it did not write them itself. -/
theorem linksCleared_of_inserted {s s' : FaultStore} {q : StageQueue} {f : FaultPtr}
    {nodes after : List FaultPtr}
    (linked : Linked s.nxt s.prv (s.head q) (s.tail q) nodes) (outside : f ∉ nodes)
    (returned : s.insert fuel q f = some s')
    (closed : Linked s'.nxt s'.prv (s'.head q) (s'.tail q) after) :
    LinksCleared s q nodes f := by
  constructor
  · intro occupied below
    have nothingBehind : behind s f nodes = [] := by
      simpa [behind, List.dropWhile_eq_nil_iff] using below
    rcases insert_cases linked occupied returned with
      ⟨last, _, lastIs, rfl⟩ | ⟨p, rest, _, back, _⟩ | ⟨before, p, rest, _, back, _⟩
    · have apart : f ≠ last := fun same => outside (same ▸ List.mem_of_getLast? lastIs)
      simpa [linkLast, apart] using closed.tail_nxt f (by simp [linkLast])
    · simp [nothingBehind] at back
    · simp [nothingBehind] at back
  · intro p atHead late
    have front : nodes.head? = some p := linked.head_eq.symm.trans atHead
    obtain ⟨rest, rfl⟩ := List.head?_eq_some_iff.mp front
    have nothingAhead : ahead s f (p :: rest) = [] := by simp [ahead, late]
    rcases insert_cases linked (List.cons_ne_nil p rest) returned with
      ⟨last, back, _, _⟩ | ⟨p', rest', _, back, rfl⟩ | ⟨before, p', rest', lastIs, _, _⟩
    · simp [behind, late] at back
    · have isHead : p = p' := by
        simp [behind, late] at back
        exact back.1
      have apart : f ≠ p' := fun same => outside (by rw [same, isHead]; exact List.mem_cons_self)
      simpa [linkFirst, apart] using closed.head_prv f (by simp [linkFirst])
    · simp [nothingAhead] at lastIs

theorem queueStep_faithful_iff (disjoint : Disjoint t) (faithful : QueuesFaithful t)
    (stepped : queueStep fuel t op = some next) :
    QueuesFaithful next ↔ FindsLinksCleared t op := by
  obtain ⟨lists, held, same⟩ := (queuesFaithful_iff disjoint).mp faithful
  rw [queuesFaithful_iff (queueStep_disjoint disjoint stepped)]
  rcases queueStep_cases stepped with ⟨q, f, rfl, outside, called, inside⟩ |
    ⟨q, f, rfl, member, called, inside⟩
  · have notIn : ∀ r, f ∉ lists r := fun r inR => outside r ((same r).mem_iff.mp inR)
    constructor
    · rintro ⟨after, closed, _⟩
      exact (linksCleared_perm (same q)).mp
        (linksCleared_of_inserted (held.linked q) (notIn q) called (closed.linked q))
    · intro cleared
      refine ⟨_, insert_represents held notIn ((linksCleared_perm (same q)).mpr cleared) called, ?_⟩
      rw [inside]
      exact perm_update same ((inserted_perm t.store f (lists q)).trans ((same q).cons f))
  · refine iff_of_true ⟨_, remove_represents held ((same q).mem_iff.mpr member) called, ?_⟩ trivial
    rw [inside]
    exact perm_update same ((same q).erase f)

theorem queueStep_returns (disjoint : Disjoint t) (faithful : QueuesFaithful t)
    (callable : op.Callable t.inside) (enough : ∀ q, (t.inside q).length < fuel) :
    ∃ next, queueStep fuel t op = some next ∧ next.inside = op.track t.inside := by
  obtain ⟨lists, held, same⟩ := (queuesFaithful_iff disjoint).mp faithful
  have shorter : ∀ q, (lists q).length < fuel := fun q => (same q).length_eq ▸ enough q
  obtain ⟨store, called⟩ : ∃ store, op.call fuel t.store = some store := by
    cases op with
    | insert q f => exact insert_returns (held.linked q) (shorter q)
    | remove q f => exact remove_returns (held.linked q) ((same q).mem_iff.mpr callable) (shorter q)
  exact ⟨⟨store, op.track t.inside⟩, by simp [queueStep, callable, called], rfl⟩

theorem track_length (inside : StageQueue → List FaultPtr) (op : QueueOp) (q : StageQueue) :
    (op.track inside q).length ≤ (inside q).length + 1 := by
  cases op with
  | insert r f => by_cases same : q = r <;> simp [QueueOp.track, Function.update, same]
  | remove r f =>
      by_cases same : q = r
      · subst r
        have shorter := List.length_erase_le (a := f) (l := inside q)
        simp only [QueueOp.track, Function.update_self]
        omega
      · simp [QueueOp.track, same]

theorem history_completes (ops : List QueueOp) (t : Tracked) (disjoint : Disjoint t)
    (faithful : QueuesFaithful t) (callable : CallableAll t.inside ops)
    (enough : ∀ q, (t.inside q).length + ops.length ≤ fuel)
    (each : EachStep (queueStep fuel) FindsLinksCleared ops t) :
    ∃ reached, run (queueStep fuel) ops t = some reached := by
  induction ops generalizing t with
  | nil => exact ⟨t, rfl⟩
  | cons op rest ih =>
      obtain ⟨next, stepped, inside⟩ := queueStep_returns disjoint faithful callable.1
        (fun q => Nat.lt_of_lt_of_le (by simp) (enough q))
      obtain ⟨cleared, later⟩ := (eachStep_cons_iff _ _ _ _).mp each next stepped
      rw [run_cons, stepped]
      apply ih next (queueStep_disjoint disjoint stepped)
        ((queueStep_faithful_iff disjoint faithful stepped).mpr cleared)
        (inside ▸ callable.2) _ later
      intro q
      have grown := track_length t.inside op q
      have room := enough q
      rw [List.length_cons] at room
      rw [inside]
      omega

def Vacant (s : FaultStore) : Prop := ∀ q, s.head q = none ∧ s.tail q = none

theorem vacant_faithful (s : FaultStore) (vacant : Vacant s) :
    Disjoint ⟨s, fun _ => []⟩ ∧ QueuesFaithful ⟨s, fun _ => []⟩ := by
  constructor
  · constructor <;> intros <;> simp_all
  · intro q
    rw [faithful_iff]
    refine ⟨[], ?_, List.Perm.refl []⟩
    rw [(vacant q).1, (vacant q).2]
    exact Linked.nil

/-- From empty queues and any memory, a history of calls keeps every queue
faithful, and comes back from every call, exactly when each insertion finds
clear the link it leaves unwritten. -/
theorem queues_faithful_iff_links_cleared (fuel : Nat) (s : FaultStore) (ops : List QueueOp)
    (vacant : Vacant s) (callable : CallableAll (fun _ => []) ops) (enough : ops.length ≤ fuel) :
    (∃ reached, run (queueStep fuel) ops ⟨s, fun _ => []⟩ = some reached) ∧
        Always (queueStep fuel) QueuesFaithful ops ⟨s, fun _ => []⟩ ↔
      EachStep (queueStep fuel) FindsLinksCleared ops ⟨s, fun _ => []⟩ := by
  obtain ⟨disjoint, faithful⟩ := vacant_faithful s vacant
  have exactly : Always (queueStep fuel) QueuesFaithful ops ⟨s, fun _ => []⟩ ↔
      EachStep (queueStep fuel) FindsLinksCleared ops ⟨s, fun _ => []⟩ := by
    apply always_iff_eachStep Disjoint _ _ ops _ disjoint faithful
    · intro state action next apart stepped
      exact queueStep_disjoint apart stepped
    · intro state action next apart held stepped
      exact queueStep_faithful_iff apart held stepped
  constructor
  · rintro ⟨_, always⟩
    exact exactly.mp always
  · intro each
    refine ⟨?_, exactly.mpr each⟩
    exact history_completes ops _ disjoint faithful callable (fun _ => by simpa using enough) each

def clearMemory : FaultStore where
  -- memory whose links happen to be clear; the fault at address `p` has timing `p`
  mem p :=
    ⟨none, none, none, .register, .tick, .flipBit, p, 1, "all", "all", 1, false, 0, .src, 0, 0⟩
  queues _ := ⟨none, none⟩
  fresh := 0

theorem two_insertions_faithful :
    (∃ reached, run (queueStep 2) [.insert .main 1, .insert .main 2] ⟨clearMemory, fun _ => []⟩ =
        some reached) ∧
      Always (queueStep 2) QueuesFaithful [.insert .main 1, .insert .main 2]
        ⟨clearMemory, fun _ => []⟩ := by
  apply (queues_faithful_iff_links_cleared 2 clearMemory _ (fun _ => ⟨rfl, rfl⟩)
    (by simp [CallableAll, QueueOp.Callable, QueueOp.track, Function.update]) (by decide)).mpr
  rw [eachStep_cons_iff]
  intro next first
  cases first
  refine ⟨⟨fun occupied => absurd rfl occupied, fun p atHead => nomatch atHead⟩, ?_⟩
  rw [eachStep_cons_iff]
  intro last second
  exact ⟨⟨fun _ _ => rfl, fun _ _ _ => rfl⟩, eachStep_nil _ _⟩

/-- Three insertions, then the last two faults are taken out and the first of
them is put back: its stale `nxt` brings back the other one. -/
theorem reinserted_fault_brings_back_another :
    ¬ Always (queueStep 9) QueuesFaithful
      [.insert .main 1, .insert .main 2, .insert .main 3, .remove .main 2, .remove .main 3,
        .insert .main 2] ⟨clearMemory, fun _ => []⟩ := by
  intro always
  have faithful := always _ [] _ (List.append_nil _).symm rfl .main
  obtain ⟨nodes, _, _, _, _, _, tailClosed, _⟩ := faithful
  -- the tail is fault 2, which still points to fault 3
  have stale := tailClosed 2 rfl
  cases stale

end GemFi.QueueHistory
