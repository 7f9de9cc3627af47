import Mathlib.Data.Fintype.BigOperators
import GemFi.CoherenceProgress

/-!
The coherence protocol comes to rest. While no processor makes a request and no block is replaced,
the deliveries that change anything are bounded by the weight of what is under way; where none of
them is left, each request that a cache has taken is answered, and the directory and the caches
agree on who has the line.
-/

namespace GemFi.CoherenceRest

open CoherenceProtocol CoherenceRoles CoherenceMoves CoherenceOwnership CoherenceSteps
  CoherenceRuns CoherenceProgress Transitions

variable {Cache Device : Type} {size : ℕ} [DecidableEq Cache] [Fintype Cache]

/-! ## The weight of a system -/

def cachesWeight (nodes : Cache → L1Cache Cache size) : ℕ := ∑ cache, nodeWeight (nodes cache)

def weight (system : System Cache Device size) : ℕ :=
  cachesWeight system.nodes + dirWeight system.dir

section

variable {nodes nodes' : Cache → L1Cache Cache size}

theorem cachesWeight_change (self : Cache)
    (same : ∀ other, other ≠ self → nodes' other = nodes other) :
    cachesWeight nodes' + nodeWeight (nodes self) = cachesWeight nodes + nodeWeight (nodes' self) := by
  have rest : ∑ cache ∈ Finset.univ.erase self, nodeWeight (nodes' cache) =
      ∑ cache ∈ Finset.univ.erase self, nodeWeight (nodes cache) :=
    Finset.sum_congr rfl fun cache mem => by rw [same cache (Finset.ne_of_mem_erase mem)]
  have before := Finset.add_sum_erase Finset.univ (fun cache => nodeWeight (nodes cache))
    (Finset.mem_univ self)
  have after := Finset.add_sum_erase Finset.univ (fun cache => nodeWeight (nodes' cache))
    (Finset.mem_univ self)
  rw [cachesWeight, cachesWeight, ← before, ← after, rest]
  omega

theorem cachesWeight_sendResponse (out : Finset Cache × DataBlock size) :
    cachesWeight (sendResponse nodes out) = cachesWeight nodes + out.1.card := by
  have each (cache : Cache) : nodeWeight (sendResponse nodes out cache) =
      nodeWeight (nodes cache) + if cache ∈ out.1 then 1 else 0 := by
    rw [sendResponse]
    split
    · simp only [nodeWeight, Multiset.card_cons]
      omega
    · rfl
  simp only [cachesWeight, each, Finset.sum_add_distrib]
  simp

theorem cachesWeight_sendForward (out : Finset Cache × ForwardMsg Cache) :
    cachesWeight (sendForward nodes out) = cachesWeight nodes + 2 * out.1.card := by
  have each (cache : Cache) : nodeWeight (sendForward nodes out cache) =
      nodeWeight (nodes cache) + if cache ∈ out.1 then 2 else 0 := by
    rw [sendForward]
    split
    · simp only [nodeWeight, Multiset.card_cons]
      omega
    · rfl
  simp only [cachesWeight, each, Finset.sum_add_distrib]
  simp [mul_comm]

theorem cachesWeight_responses (out : List (Finset Cache × DataBlock size))
    (nodes : Cache → L1Cache Cache size) :
    cachesWeight (out.foldl sendResponse nodes) = cachesWeight nodes + recipients out := by
  induction out generalizing nodes with
  | nil => rfl
  | cons sent rest ih =>
      rw [List.foldl_cons, ih, cachesWeight_sendResponse, recipients_cons]
      omega

theorem cachesWeight_forwards (out : List (Finset Cache × ForwardMsg Cache))
    (nodes : Cache → L1Cache Cache size) :
    cachesWeight (out.foldl sendForward nodes) = cachesWeight nodes + 2 * recipients out := by
  induction out generalizing nodes with
  | nil => rfl
  | cons sent rest ih =>
      rw [List.foldl_cons, ih, cachesWeight_sendForward, recipients_cons]
      omega

theorem cachesWeight_popRequest {msg : RequestMsg Cache size}
    (sent : msg ∈ (nodes msg.requestor).requestFromCache) :
    cachesWeight (popRequest nodes msg) + 4 = cachesWeight nodes := by
  have change : cachesWeight (popRequest nodes msg) + nodeWeight (nodes msg.requestor) =
      cachesWeight nodes + nodeWeight (popRequest nodes msg msg.requestor) :=
    cachesWeight_change msg.requestor fun other different => popRequest_other msg different
  have count := Multiset.card_erase_add_one sent
  rw [popRequest_self] at change
  simp only [nodeWeight] at change
  omega

end

/-! ## Deliveries -/

def IsDelivery : Action Cache Device size → Prop
  | .cache _ input => Delivery input
  | .directory (.request _) | .directory (.memory _) => True
  | _ => False

variable {system next : System Cache Device size} {action : Action Cache Device size}
  {dataBlk first : DataBlock size}

theorem weight_afterCache {self : Cache} {work : L1Cache.Work Cache size}
    (lighter : Lighter (system.nodes self) work) : weight (system.afterCache self work) < weight system := by
  have change : cachesWeight (Function.update system.nodes self work.node) + nodeWeight (system.nodes self) =
      cachesWeight system.nodes + nodeWeight (Function.update system.nodes self work.node self) :=
    cachesWeight_change self fun other different => Function.update_of_ne different _ _
  rw [Function.update_self] at change
  have sent := cachesWeight_responses work.responses (Function.update system.nodes self work.node)
  rw [Lighter] at lighter
  have after : weight (system.afterCache self work) =
      cachesWeight (work.responses.foldl sendResponse (Function.update system.nodes self work.node)) +
        dirWeight system.dir := rfl
  rw [after, sent, weight]
  omega

theorem weight_afterDirectory (popped : Option (RequestMsg Cache size))
    {work : Directory.Work Cache Device size}
    (ready : ∀ msg ∈ popped, msg ∈ (system.nodes msg.requestor).requestFromCache)
    (takes : Takes system.dir popped (4 * popped.toList.length) work) :
    weight (system.afterDirectory work) < weight system := by
  obtain ⟨rfl, lower⟩ := takes
  have after : weight (system.afterDirectory work) =
      cachesWeight (work.responses.foldl sendResponse (work.forwards.foldl sendForward
        (work.popped.toList.foldl popRequest system.nodes))) + dirWeight work.dir := rfl
  have taken : cachesWeight (work.popped.toList.foldl popRequest system.nodes) +
      4 * work.popped.toList.length = cachesWeight system.nodes := by
    cases popped : work.popped with
    | none => rfl
    | some msg => exact cachesWeight_popRequest (ready msg popped)
  rw [after, cachesWeight_responses, cachesWeight_forwards, weight]
  omega

variable [DecidableEq Device]

theorem delivery_lighter {shape : Shape Cache} (placed : Placed system.nodes dataBlk shape)
    (agrees : Agrees system.dir dataBlk shape) (only : CachesOnly system)
    (delivery : IsDelivery action) (ready : system.Ready action) :
    ∃ next, system.step action = some next ∧ (next = system ∨ weight next < weight system) := by
  rw [System.step, if_pos ready]
  cases action with
  | makeRequest => exact delivery.elim
  | dmaRequest => exact delivery.elim
  | cache self input =>
      have atPort : AtPort (system.nodes self) input := by
        cases input <;> exact ready
      obtain waits | ⟨work, stepped, lighter⟩ := cache_progresses placed atPort delivery
      · refine ⟨system, ?_, .inl rfl⟩
        rw [System.trigger, waits]
        simp [System.afterCache]
      · refine ⟨_, ?_, .inr (weight_afterCache lighter)⟩
        rw [System.trigger, stepped]
        rfl
  | directory input =>
      cases input with
      | dma => exact delivery.elim
      | request msg =>
          obtain ⟨work, stepped, _, ⟨rfl, _⟩ | takes⟩ := request_progresses agrees only.state msg
          · refine ⟨system, ?_, .inl rfl⟩
            rw [System.trigger, stepped]
            simp [System.afterDirectory]
          · refine ⟨system.afterDirectory work, ?_, .inr (weight_afterDirectory (some msg) ?_ takes)⟩
            · rw [System.trigger, stepped]
              rfl
            · intro other same
              obtain rfl := Option.mem_some_iff.mp same
              exact ready
      | memory msg =>
          obtain ⟨work, stepped, _, takes⟩ := memory_progresses agrees only.state ready
          refine ⟨system.afterDirectory work, ?_, .inr (weight_afterDirectory none (fun _ mem => absurd mem (Option.not_mem_none _)) takes)⟩
          rw [System.trigger, stepped]
          rfl

/-! ## Rest -/

/-- Nothing is under way, what the caches have taken is answered, and the directory knows the owner
of the line. -/
structure AtRest (system : System Cache Device size) : Prop where
  memory : system.dir.memBuffer = 0
  messages : ∀ cache, (system.nodes cache).requestFromCache = 0 ∧
    (system.nodes cache).forwardToCache = 0 ∧ (system.nodes cache).responseToCache = 0
  answered : ∀ cache, (system.nodes cache).requestTable = (system.nodes cache).mandatoryQueue
  owner : (system.dir.getState = .I ∧ ∀ cache, (system.nodes cache).getState = .I) ∨
    ∃ owner, system.dir.getState = .M ∧ system.dir.entry.owner = {owner} ∧
      (system.nodes owner).getState = .M ∧
      ∀ other, other ≠ owner → (system.nodes other).getState = .I

/-- No delivery changes anything. -/
def Stuck (system : System Cache Device size) : Prop :=
  ∀ action, IsDelivery action → system.Ready action → system.step action = some system

theorem Stuck.no_delivery {self : Cache} {input : CacheInput Cache size} (stuck : Stuck system)
    (delivers : Delivers self (system.nodes self) input) (delivery : Delivery input)
    (ready : system.Ready (.cache self input)) : False := by
  obtain ⟨work, stepped, lighter⟩ := delivers
  have same := stuck (.cache self input) delivery ready
  rw [System.step, if_pos ready, System.trigger, stepped] at same
  have lower := weight_afterCache lighter
  rw [Option.some.inj same] at lower
  exact lt_irrefl _ lower

theorem Stuck.no_memory {shape : Shape Cache} (stuck : Stuck system)
    (agrees : Agrees system.dir dataBlk shape) (caching : Caching system.dir.getState) :
    system.dir.memBuffer = 0 := by
  refine Multiset.eq_zero_of_forall_notMem fun msg ready => ?_
  obtain ⟨work, stepped, _, takes⟩ := memory_progresses agrees caching ready
  have isReady : system.Ready (.directory (.memory msg)) := ready
  have same := stuck (.directory (.memory msg)) trivial isReady
  rw [System.step, if_pos isReady, System.trigger, stepped] at same
  have lower : weight (system.afterDirectory work) < weight system :=
    weight_afterDirectory none (fun _ mem => absurd mem (Option.not_mem_none _)) takes
  rw [Option.some.inj same] at lower
  exact lt_irrefl _ lower

theorem Stuck.no_request {shape : Shape Cache} (stuck : Stuck system)
    (agrees : Agrees system.dir dataBlk shape) (caching : Caching system.dir.getState)
    (msg : RequestMsg Cache size) : msg ∉ (system.nodes msg.requestor).requestFromCache := by
  intro ready
  obtain ⟨work, stepped, _, ⟨_, busy⟩ | takes⟩ := request_progresses agrees caching msg
  · exact busy (stuck.no_memory agrees caching)
  · have isReady : system.Ready (.directory (.request msg)) := ready
    have same := stuck (.directory (.request msg)) trivial isReady
    rw [System.step, if_pos isReady, System.trigger, stepped] at same
    have lower : weight (system.afterDirectory work) < weight system :=
      weight_afterDirectory (some msg) (by simpa using ready) takes
    rw [Option.some.inj same] at lower
    exact lt_irrefl _ lower

/-- Where nothing is left to deliver, a cache outside the arrangement does nothing. -/
theorem Stuck.outside {self : Cache} (stuck : Stuck system)
    (silent : ∀ msg : RequestMsg Cache size,
      msg ∉ (system.nodes msg.requestor).requestFromCache)
    (outside : Outside self (system.nodes self)) :
    Invalid (system.nodes self) ∧ Mail 0 0 0 (system.nodes self) := by
  cases outside with
  | idle invalid mail => exact ⟨invalid, mail⟩
  | requested request asks mail =>
      exact (silent (.GETX self) (request_of_mail mail (Multiset.mem_singleton_self _))).elim
  | gave dataBlk returns mail =>
      exact (silent (.PUTX self dataBlk) (request_of_mail mail (Multiset.mem_singleton_self _))).elim
  | refused dataBlk returns mail =>
      have ready := forward_of_mail mail (Multiset.mem_singleton_self _)
      exact (stuck.no_delivery (refused_delivers returns ready) nofun ready).elim
  | acknowledged dataBlk returns mail =>
      have ready := forward_of_mail mail (Multiset.mem_singleton_self _)
      exact (stuck.no_delivery (acknowledged_delivers returns ready) nofun ready).elim

/-- The head of the chain has the line, and is its last. -/
theorem Stuck.head {self : Cache} {rest : List Cache} (stuck : Stuck system)
    (silent : ∀ msg : RequestMsg Cache size,
      msg ∉ (system.nodes msg.requestor).requestFromCache)
    (head : Head self (follow rest) dataBlk (system.nodes self)) :
    rest = [] ∧ Holds dataBlk (system.nodes self) ∧ Mail 0 0 0 (system.nodes self) := by
  cases head with
  | arriving request asks mail =>
      have ready := response_of_mail mail (Multiset.mem_singleton_self dataBlk)
      exact (stuck.no_delivery (arriving_delivers asks mail) trivial ready).elim
  | owning holds mail =>
      cases rest with
      | nil => exact ⟨rfl, holds, mail⟩
      | cons next rest =>
          have ready := forward_of_mail mail (Multiset.mem_singleton_self (ForwardMsg.GETX next))
          exact (stuck.no_delivery (owning_delivers holds ready) nofun ready).elim
  | evicting returns mail =>
      exact (silent (.PUTX self dataBlk) (request_of_mail mail (Multiset.mem_singleton_self _))).elim
  | nacked _ returns mail =>
      have ready := forward_of_mail mail (Multiset.mem_cons_self _ _)
      exact (stuck.no_delivery (nacked_delivers returns ready) nofun ready).elim
  | spared owed returns mail =>
      cases rest with
      | nil => exact absurd rfl owed
      | cons next rest =>
          have ready := forward_of_mail mail (Multiset.mem_singleton_self (ForwardMsg.GETX next))
          exact (stuck.no_delivery (spared_delivers returns ready) nofun ready).elim

omit [Fintype Cache] in
theorem no_forwards {node : L1Cache Cache size} (mail : Mail 0 0 0 node)
    (none' : .INV ∉ node.forwardToCache) : node.forwardToCache = 0 := by
  refine Multiset.eq_zero_of_forall_notMem fun msg mem => ?_
  by_cases inv : msg = .INV
  · exact none' (inv ▸ mem)
  · have pending := mem_pending mem inv
    rw [mail.forwards] at pending
    exact Multiset.notMem_zero msg pending

theorem atRest_of_stuck (going : Going first system) (stuck : Stuck system) : AtRest system := by
  obtain ⟨⟨value, _, shape, placed, agrees, _⟩, only⟩ := going
  have silent := stuck.no_request agrees only.state
  have memory := stuck.no_memory agrees only.state
  have idle (cache : Cache) (apart : cache ∉ shape.members) :
      Invalid (system.nodes cache) ∧ Mail 0 0 0 (system.nodes cache) :=
    stuck.outside silent (placed.others cache apart)
  have quiet {cache : Cache} (mail : Mail 0 0 0 (system.nodes cache)) :
      (system.nodes cache).requestFromCache = 0 ∧ (system.nodes cache).forwardToCache = 0 ∧
        (system.nodes cache).responseToCache = 0 :=
    ⟨mail.requests, no_forwards mail (only.forwards cache), mail.responses⟩
  have plays := placed.members
  obtain ⟨nodes, dir, completed⟩ := system
  cases agrees with
  | idle dataBlk dma =>
      refine ⟨memory, fun cache => quiet (idle cache List.not_mem_nil).2, ?_, .inl ⟨rfl, ?_⟩⟩
      · exact fun cache => (idle cache List.not_mem_nil).1.quiet.symm
      · exact fun cache => (idle cache List.not_mem_nil).1.getState
  | owned dataBlk dma old head rest =>
      obtain ⟨rfl, holds, mail⟩ := stuck.head silent plays.2.1
      have apart {cache : Cache} (different : cache ≠ head) : cache ∉ [head] :=
        fun mem => different (List.mem_singleton.mp mem)
      refine ⟨memory, ?_, ?_, .inr ⟨head, rfl, rfl, holds.getState, ?_⟩⟩
      · intro cache
        by_cases same : cache = head
        · subst same
          exact quiet mail
        · exact quiet (idle cache (apart same)).2
      · intro cache
        by_cases same : cache = head
        · subst same
          exact holds.quiet.symm
        · exact (idle cache (apart same)).1.quiet.symm
      · exact fun cache different => (idle cache (apart different)).1.getState
  | fetching => exact absurd memory (Multiset.singleton_ne_zero _)
  | returned => exact absurd memory (Multiset.singleton_ne_zero _)
  | dmaRead => exact absurd memory (Multiset.singleton_ne_zero _)
  | dmaWrite => exact absurd memory (Multiset.singleton_ne_zero _)
  | returnedForRead => exact absurd memory (Multiset.singleton_ne_zero _)
  | returnedForWrite => exact absurd memory (Multiset.singleton_ne_zero _)
  | callsForRead => rcases only.state with state | state | state | state <;> cases state
  | callsForWrite => rcases only.state with state | state | state | state <;> cases state

omit [DecidableEq Cache] [Fintype Cache] [DecidableEq Device] in
theorem ofCaches_of_isDelivery (delivery : IsDelivery action) : OfCaches action := by
  cases action with
  | dmaRequest => exact delivery.elim
  | _ => trivial

/-- Without devices, the messages under way run out. However they are delivered, the deliveries
that change anything are no more than their weight; when none is left the system is at rest, and
there is always a way to deliver them that gets there. -/
theorem comes_to_rest {actions : List (Action Cache Device size)}
    (caches : ∀ action ∈ actions, OfCaches action)
    (ran : run System.step actions (.init first) = some system) :
    (∀ deliveries reached, (∀ action ∈ deliveries, IsDelivery action) →
      EachStep System.step (fun before action => before.step action ≠ some before) deliveries system →
      run System.step deliveries system = some reached →
      deliveries.length ≤ weight system ∧ (Stuck reached → AtRest reached)) ∧
    ∃ deliveries reached, (∀ action ∈ deliveries, IsDelivery action) ∧
      run System.step deliveries system = some reached ∧ AtRest reached := by
  have going := going_run caches ran
  have lower {before next : System Cache Device size} {action : Action Cache Device size}
      (going : Going first before) (delivery : IsDelivery action)
      (stepped : before.step action = some next) (changes : next ≠ before) :
      Going first next ∧ weight next < weight before := by
    refine ⟨going_step going (ofCaches_of_isDelivery delivery) stepped, ?_⟩
    obtain ⟨⟨value, _, shape, placed, agrees, _⟩, only⟩ := going
    obtain ⟨other, again, still | lighter⟩ :=
      delivery_lighter placed agrees only delivery (ready_of_step stepped)
    all_goals obtain rfl := Option.some.inj (stepped.symm.trans again)
    · exact absurd still changes
    · exact lighter
  constructor
  · intro deliveries reached allowed changing delivered
    have each : EachStep System.step
        (fun before action => IsDelivery action ∧ before.step action ≠ some before) deliveries system := by
      intro before action after middle next split led stepped
      refine ⟨allowed action (by simp [split]), ?_⟩
      exact changing before action after middle next split led stepped
    have bound := run_length_le weight (fun before action next going ⟨delivery, changes⟩ stepped =>
      lower going delivery stepped fun same => changes (same ▸ stepped))
      deliveries system reached going each delivered
    have still : ∀ action ∈ actions ++ deliveries, OfCaches action := by
      intro action mem
      obtain before | after := List.mem_append.mp mem
      · exact caches action before
      · exact ofCaches_of_isDelivery (allowed action after)
    have whole : run System.step (actions ++ deliveries) (.init first) = some reached := by
      rw [run_append, ran]
      exact delivered
    exact ⟨by omega, atRest_of_stuck (going_run still whole)⟩
  · have onward (before : System Cache Device size) (going : Going first before) :
        AtRest before ∨ ∃ action next, IsDelivery action ∧ before.step action = some next ∧
          Going first next ∧ weight next < weight before := by
      by_cases stuck : Stuck before
      · exact .inl (atRest_of_stuck going stuck)
      · simp only [Stuck, not_forall] at stuck
        obtain ⟨action, delivery, ready, changes⟩ := stuck
        obtain ⟨next, stepped⟩ := Option.isSome_iff_exists.mp
          (going_completes going (ofCaches_of_isDelivery delivery) ready)
        refine .inr ⟨action, next, delivery, stepped, lower going delivery stepped ?_⟩
        rintro rfl
        exact changes stepped
    obtain ⟨deliveries, reached, allowed, delivered, _, rests⟩ :=
      exists_run_to_rest weight onward system going
    exact ⟨deliveries, reached, allowed, delivered, rests⟩

theorem race_comes_to_rest :
    ∃ system, run System.step race (.init DataBlock.clear) = some system ∧ weight system = 4 ∧
      ∃ deliveries reached, (∀ action ∈ deliveries, IsDelivery action) ∧
        run System.step deliveries system = some reached ∧ AtRest reached := by
  have ran : run System.step race (.init DataBlock.clear) = some _ := rfl
  exact ⟨_, ran, rfl, (comes_to_rest ofCaches_race ran).2⟩

end GemFi.CoherenceRest
