import GemFi.FaultRuns

/-!
The ascending order of the queues, which `insert` establishes and the early exit
of `scan` relies on. Processing moves the timing of a fault while it stays at
its place in the list.
-/

namespace GemFi.FaultOrder

open LinkedLists ThreadInfo Transitions FaultQueue QueueRepresentation QueueHistory Corruption
open FaultScan FaultRuns

section Ordering

variable {α β : Type} [Preorder β] {key : α → β} {bound : β} {nodes : List α}

theorem all_below_of_last (ordered : nodes.Pairwise fun a b => key a ≤ key b)
    (fromLast : ∀ last, nodes.getLast? = some last → key last ≤ bound) :
    ∀ a ∈ nodes, key a ≤ bound := by
  intro a member
  rcases List.eq_nil_or_concat nodes with rfl | ⟨initial, last, rfl⟩
  · contradiction
  · rw [List.concat_eq_append] at *
    have lastBelow := fromLast last List.getLast?_concat
    rcases List.mem_append.mp member with earlier | isLast
    · exact le_trans ((List.pairwise_append.mp ordered).2.2 a earlier last (by simp)) lastBelow
    · rw [List.mem_singleton.mp isLast]
      exact lastBelow

theorem all_above_of_next (ordered : nodes.Pairwise fun a b => key a ≤ key b)
    (toNext : ∀ next, nodes.head? = some next → bound ≤ key next) :
    ∀ b ∈ nodes, bound ≤ key b := by
  intro b member
  cases nodes with
  | nil => contradiction
  | cons next rest =>
      have nextAbove := toNext next rfl
      rcases List.mem_cons.mp member with rfl | later
      · exact nextAbove
      · exact le_trans nextAbove ((List.pairwise_cons.mp ordered).1 b later)

/-- Changing the key of one element of an ordered list keeps the order exactly
when its two neighbours allow it. -/
theorem pairwise_moved_iff (key key' : α → β) {first second : List α}
    {x : α} (unique : (first ++ x :: second).Nodup)
    (ordered : (first ++ x :: second).Pairwise fun a b => key a ≤ key b)
    (others : ∀ a, a ≠ x → key' a = key a) :
    ((first ++ x :: second).Pairwise fun a b => key' a ≤ key' b) ↔
      (∀ a, first.getLast? = some a → key a ≤ key' x) ∧
        ∀ b, second.head? = some b → key' x ≤ key b := by
  rw [List.nodup_append, List.nodup_cons] at unique
  obtain ⟨_, ⟨notBehind, _⟩, apart⟩ := unique
  have inFirst : ∀ a ∈ first, key' a = key a := fun a member =>
    others a (apart a member x List.mem_cons_self)
  have inSecond : ∀ b ∈ second, key' b = key b := fun b member =>
    others b (fun same => notBehind (same ▸ member))
  rw [List.pairwise_append, List.pairwise_cons] at ordered ⊢
  obtain ⟨front, ⟨_, back⟩, across⟩ := ordered
  -- only the comparisons with `x` change, and the nearest two decide them
  constructor
  · rintro ⟨_, ⟨above, _⟩, below⟩
    constructor
    · intro a last
      have member := List.mem_of_getLast? last
      rw [← inFirst a member]
      exact below a member x List.mem_cons_self
    · intro b next
      have member := List.mem_of_head? next
      rw [← inSecond b member]
      exact above b member
  · rintro ⟨fromLast, toNext⟩
    have belowX := all_below_of_last front fromLast
    have aboveX := all_above_of_next back toNext
    refine ⟨?_, ⟨?_, ?_⟩, ?_⟩
    · exact front.imp_of_mem fun inA inB le => by rwa [inFirst _ inA, inFirst _ inB]
    · intro b member
      rw [inSecond b member]
      exact aboveX b member
    · exact back.imp_of_mem fun inA inB le => by rwa [inSecond _ inA, inSecond _ inB]
    · intro a inA b inB
      rw [inFirst a inA]
      rcases List.mem_cons.mp inB with rfl | later
      · exact belowX a inA
      · rw [inSecond b later]
        exact across a inA b inB

end Ordering

theorem inserted_ordered {s : FaultStore} {f : FaultPtr} {nodes : List FaultPtr}
    (ordered : nodes.Pairwise fun a b => s.timing a ≤ s.timing b) :
    (ahead s f nodes ++ f :: behind s f nodes).Pairwise fun a b => s.timing a ≤ s.timing b := by
  have split := ahead_append_behind s f nodes
  rw [← split, List.pairwise_append] at ordered
  obtain ⟨front, back, across⟩ := ordered
  have aheadBelow : ∀ a ∈ ahead s f nodes, s.timing a ≤ s.timing f := by
    intro a member
    have below := List.mem_takeWhile_imp member
    exact BitVec.le_of_lt (by simpa using below)
  have behindAbove : ∀ b ∈ behind s f nodes, s.timing f ≤ s.timing b := by
    intro b member
    cases rest : behind s f nodes with
    | nil => simp [rest] at member
    | cons next later =>
        have stopped : ¬ s.timing next < s.timing f := by
          have head := List.head?_dropWhile_not (fun p => decide (s.timing p < s.timing f)) nodes
          rw [show nodes.dropWhile _ = next :: later from rest] at head
          simpa using head
        rw [rest] at member back
        rcases List.mem_cons.mp member with rfl | inLater
        · exact BitVec.not_lt.mp stopped
        · exact BitVec.le_trans (BitVec.not_lt.mp stopped)
            ((List.pairwise_cons.mp back).1 b inLater)
  rw [List.pairwise_append, List.pairwise_cons]
  refine ⟨front, ⟨behindAbove, back⟩, ?_⟩
  intro a inA b inB
  rcases List.mem_cons.mp inB with rfl | later
  · exact aheadBelow a inA
  · exact across a inA b later

def QueuesOrdered (t : Tracked) : Prop :=
  ∀ q, ∃ nodes, Chain t.store.nxt (t.store.head q) nodes none ∧ nodes.Perm (t.inside q) ∧
    nodes.Pairwise fun a b => t.store.timing a ≤ t.store.timing b

def RescheduledInPlace (t : Tracked) : FaultAction → Prop
  -- a processed fault that stays in its queue gets a timing between those of its neighbours
  | .process _ _ f clockEdge _ =>
      (t.store.mem f).occurrence ≠ 1 →
        (∀ a, t.store.prv f = some a →
          t.store.timing a ≤ nextTiming clockEdge (t.store.mem f)) ∧
        ∀ b, t.store.nxt f = some b →
          nextTiming clockEdge (t.store.mem f) ≤ t.store.timing b
  | _ => True

variable {fuel : Nat} {t next : Tracked} {lists : StageQueue → List FaultPtr}

theorem queuesOrdered_iff (holds : Holds t lists) :
    QueuesOrdered t ↔
      ∀ q, (lists q).Pairwise fun a b => t.store.timing a ≤ t.store.timing b := by
  refine forall_congr' fun q => ?_
  constructor
  · rintro ⟨nodes, chain, _, ordered⟩
    rwa [chain_unique nodes (lists q) chain (holds.held.linked q).forward] at ordered
  · intro ordered
    exact ⟨lists q, (holds.held.linked q).forward, holds.same q, ordered⟩

theorem update_ordered {timing : FaultPtr → Word} {q : StageQueue} {nodes : List FaultPtr}
    (ordered : ∀ r, (lists r).Pairwise fun a b => timing a ≤ timing b)
    (changed : nodes.Pairwise fun a b => timing a ≤ timing b) (r : StageQueue) :
    (Function.update lists q nodes r).Pairwise fun a b => timing a ≤ timing b := by
  by_cases same : r = q
  · rw [same, Function.update_self]
    exact changed
  · rw [Function.update_of_ne same]
    exact ordered r

theorem load_ordered (record : FaultRecord) (holds : Holds t lists)
    (ordered : ∀ q, (lists q).Pairwise fun a b => t.store.timing a ≤ t.store.timing b) :
    ∀ q, (lists q).Pairwise fun a b =>
      (allocate record t.store).timing a ≤ (allocate record t.store).timing b := by
  intro q
  have same : ∀ p ∈ lists q, (allocate record t.store).timing p = t.store.timing p := by
    intro p member
    have other : p ≠ t.store.fresh := Nat.ne_of_lt (holds.older q p member)
    simp [allocate, FaultStore.timing, FaultStore.write, other]
  exact (ordered q).imp_of_mem fun inA inB le => by rwa [same _ inA, same _ inB]

theorem reschedule_ordered_iff {f : FaultPtr} {q : StageQueue} {timing : FaultPtr → Word}
    (holds : Holds t lists) (member : f ∈ lists q)
    (ordered : ∀ r, (lists r).Pairwise fun a b => t.store.timing a ≤ t.store.timing b)
    (others : ∀ p, p ≠ f → timing p = t.store.timing p) :
    (∀ r, (lists r).Pairwise fun a b => timing a ≤ timing b) ↔
      (∀ a, t.store.prv f = some a → t.store.timing a ≤ timing f) ∧
        ∀ b, t.store.nxt f = some b → timing f ≤ t.store.timing b := by
  have linked := holds.held.linked q
  have orderedQ := ordered q
  obtain ⟨first, second, split⟩ := List.append_of_mem member
  rw [split] at linked orderedQ
  obtain ⟨nextIs, previousIs⟩ := linked.neighbours first second f
  have moved := pairwise_moved_iff (fun p => (t.store.timing p).toNat)
    (fun p => (timing p).toNat) linked.nodup orderedQ
    (fun a other => congrArg BitVec.toNat (others a other))
  rw [nextIs, previousIs]
  refine Iff.trans ?_ moved
  constructor
  · intro all
    have inQ := all q
    rwa [split] at inQ
  · intro inQ r
    by_cases same : r = q
    · rw [same, split]
      exact inQ
    · refine (ordered r).imp_of_mem fun {a b} inA inB le => ?_
      have notA : a ≠ f := fun equal => same (holds.held.apart r q f (equal ▸ inA) member)
      have notB : b ≠ f := fun equal => same (holds.held.apart r q f (equal ▸ inB) member)
      rwa [others a notA, others b notB]

theorem faultStep_ordered_iff {action : FaultAction} (holds : ∃ lists, Holds t lists)
    (cleared : LoadsCleared t action) (ordered : QueuesOrdered t)
    (stepped : faultStep fuel t action = some next) :
    QueuesOrdered next ↔ RescheduledInPlace t action := by
  obtain ⟨lists, holds⟩ := holds
  rw [queuesOrdered_iff holds] at ordered
  rcases faultStep_cases holds cleared stepped with
    ⟨record, rfl, kept, timing⟩ | ⟨q, c, rfl, kept, timing⟩ |
    ⟨q, c, f, clockEdge, value, rfl, member, ⟨last, kept, timing⟩ | ⟨again, kept, timing⟩⟩
  · rw [queuesOrdered_iff kept, timing]
    refine iff_of_true ?_ trivial
    have before := load_ordered record holds ordered
    exact update_ordered before (inserted_ordered (before _))
  · rw [queuesOrdered_iff kept, timing]
    exact iff_of_true ordered trivial
  · rw [queuesOrdered_iff kept, timing]
    refine iff_of_true (update_ordered ordered ?_) (fun again => absurd last again)
    exact (ordered q).sublist List.erase_sublist
  · rw [queuesOrdered_iff kept]
    have others : ∀ p, p ≠ f → next.store.timing p = t.store.timing p := by
      intro p other
      rw [timing, if_neg other]
    rw [reschedule_ordered_iff holds member ordered others, timing f, if_pos rfl]
    exact ⟨fun inPlace _ => inPlace, fun inPlace => inPlace again⟩

/-- Well-formed queues stay in ascending order throughout a run exactly when
each rescheduled fault gets a timing that fits at the place it has. -/
theorem queues_ordered_iff_rescheduled_in_place (fuel : Nat) (s : FaultStore)
    (actions : List FaultAction) (vacant : Vacant s)
    (cleared : EachStep (faultStep fuel) LoadsCleared actions ⟨s, fun _ => []⟩) :
    Always (faultStep fuel) QueuesOrdered actions ⟨s, fun _ => []⟩ ↔
      EachStep (faultStep fuel) RescheduledInPlace actions ⟨s, fun _ => []⟩ := by
  have holds := vacant_holds s vacant
  apply always_iff_eachStep_of_allowed (fun t => ∃ lists, Holds t lists) _ _ actions _
    ⟨_, holds⟩ ((queuesOrdered_iff holds).mpr (fun _ => List.Pairwise.nil)) cleared
  · intro state action next kept met stepped
    exact faultStep_holds kept met stepped
  · intro state action next kept met ordered stepped
    exact faultStep_ordered_iff kept met ordered stepped

/-- An intermittent fault is moved to the sixth instruction and still has its place in front of one
at the eighth. -/
theorem rescheduled_fault_stays_ordered :
    Always (faultStep 3) QueuesOrdered
      [.load (fetchRecord .instruction 5 2), .load (fetchRecord .instruction 8 1),
        .process .fetchStage fiveFetched 0 1000 (0 : MachInst)]
      ⟨clearMemory, fun _ => []⟩ := by
  apply (queues_ordered_iff_rescheduled_in_place 3 clearMemory _ (fun _ => ⟨rfl, rfl⟩) _).mpr
  · rw [eachStep_cons_iff]
    intro next loaded
    cases loaded
    refine ⟨trivial, ?_⟩
    rw [eachStep_cons_iff]
    intro next loaded
    cases loaded
    refine ⟨trivial, ?_⟩
    rw [eachStep_cons_iff]
    intro last _
    refine ⟨fun _ => ⟨?_, ?_⟩, eachStep_nil _ _⟩
    · intro a before
      cases before
    · intro b after
      have second : some 1 = some b := after
      cases second
      decide
  · rw [eachStep_cons_iff]
    intro next loaded
    cases loaded
    refine ⟨⟨fun occupied => absurd rfl occupied, fun p atHead => nomatch atHead⟩, ?_⟩
    rw [eachStep_cons_iff]
    intro next _
    refine ⟨⟨fun _ _ => rfl, fun _ _ _ => rfl⟩, ?_⟩
    rw [eachStep_cons_iff]
    intro last _
    exact ⟨trivial, eachStep_nil _ _⟩

/-- Two intermittent faults at the fifth instruction: the first of them is moved
to the sixth and stays in front of the other. -/
theorem rescheduled_fault_stays_in_front :
    ¬ Always (faultStep 9) QueuesOrdered
      [.load (fetchRecord .instruction 5 2), .load (fetchRecord .instruction 5 2),
        .process .fetchStage fiveFetched 1 1000 (0 : MachInst)] ⟨clearMemory, fun _ => []⟩ := by
  intro always
  obtain ⟨nodes, chain, _, ordered⟩ := always _ [] _ (List.append_nil _).symm rfl .fetchStage
  have listed : nodes = [1, 0] := chain_unique nodes [1, 0] chain ⟨rfl, rfl, rfl⟩
  rw [listed] at ordered
  have sixBeforeFive := List.rel_of_pairwise_cons ordered (List.mem_singleton.mpr rfl)
  revert sixBeforeFive
  decide

end GemFi.FaultOrder
