import Mathlib.Algebra.BigOperators.Group.Finset.Basic
import Mathlib.Algebra.Order.BigOperators.Group.Finset
import Mathlib.Data.Fintype.BigOperators
import GemFi.CoherenceRuns

/-!
The coherence protocol without DMA does not stop and comes to rest. Each message that is under way
weighs what may still come of it; a delivery either leaves everything as it is, because the message
has to wait, or makes the whole lighter. Where no delivery changes anything, nothing is under way.
-/

namespace GemFi.CoherenceProgress

open CoherenceProtocol CoherenceRoles CoherenceMoves CoherenceOwnership CoherenceSteps
  CoherenceRuns Transitions

variable {Cache Device : Type} {size : ℕ}

/-! ## The weight of the messages -/

def nodeWeight (node : L1Cache Cache size) : ℕ :=
  4 * node.requestFromCache.card + 2 * node.forwardToCache.card + node.responseToCache.card

def recipients {Msg : Type} (out : List (Finset Cache × Msg)) : ℕ :=
  out.foldr (fun sent total => sent.1.card + total) 0

theorem recipients_cons {Msg : Type} (sent : Finset Cache × Msg) (rest : List (Finset Cache × Msg)) :
    recipients (sent :: rest) = sent.1.card + recipients rest := rfl

def Lighter (node : L1Cache Cache size) (work : L1Cache.Work Cache size) : Prop :=
  nodeWeight work.node + recipients work.responses < nodeWeight node

variable [DecidableEq Cache]

section

variable {self : Cache} {node : L1Cache Cache size} {dataBlk : DataBlock size}
  {requests : Multiset (RequestMsg Cache size)} {forwards : Multiset (ForwardMsg Cache)}
  {responses : Multiset (DataBlock size)} {input : CacheInput Cache size}

/-- Taking a forwarded message makes up for a response. -/
theorem lighter_of_forward {work : L1Cache.Work Cache size} {msg : ForwardMsg Cache}
    (ready : msg ∈ node.forwardToCache)
    (requestsKept : work.node.requestFromCache = node.requestFromCache)
    (popped : work.node.forwardToCache = node.forwardToCache.erase msg)
    (responsesKept : work.node.responseToCache = node.responseToCache)
    (few : recipients work.responses ≤ 1) : Lighter node work := by
  have count := Multiset.card_erase_add_one ready
  rw [Lighter, nodeWeight, nodeWeight, requestsKept, popped, responsesKept]
  omega

omit [DecidableEq Cache] in
theorem lighter_of_response {work : L1Cache.Work Cache size} (ready : dataBlk ∈ node.responseToCache)
    (requestsKept : work.node.requestFromCache = node.requestFromCache)
    (forwardsKept : work.node.forwardToCache = node.forwardToCache)
    (popped : work.node.responseToCache = node.responseToCache.erase dataBlk)
    (none' : recipients work.responses = 0) : Lighter node work := by
  have count := Multiset.card_erase_add_one ready
  rw [Lighter, nodeWeight, nodeWeight, requestsKept, forwardsKept, popped, none']
  omega

theorem forward_of_mail {msg : ForwardMsg Cache} (mail : Mail requests forwards responses node)
    (mem : msg ∈ forwards) : msg ∈ node.forwardToCache := by
  rw [← mail.forwards] at mem
  exact (Multiset.mem_filter.mp mem).1

theorem request_of_mail {msg : RequestMsg Cache size} (mail : Mail requests forwards responses node)
    (mem : msg ∈ requests) : msg ∈ node.requestFromCache := mail.requests ▸ mem

theorem response_of_mail (mail : Mail requests forwards responses node) (mem : dataBlk ∈ responses) :
    dataBlk ∈ node.responseToCache := mail.responses ▸ mem

def Delivers (self : Cache) (node : L1Cache Cache size) (input : CacheInput Cache size) : Prop :=
  ∃ work, L1Cache.doTransition self node input = some work ∧ Lighter node work

theorem arriving_delivers {request : RubyRequest} (asks : Asks request node)
    (mail : Mail 0 forwards {dataBlk} node) : Delivers self node (.response dataBlk) := by
  have ready := response_of_mail mail (Multiset.mem_singleton_self dataBlk)
  cases load : request.isLoad with
  | true =>
      refine ⟨_, asks.loads load, ?_⟩
      exact lighter_of_response ready rfl rfl rfl rfl
  | false =>
      refine ⟨_, asks.stores load, ?_⟩
      exact lighter_of_response ready rfl rfl rfl rfl

theorem refused_delivers (returns : Returns .II dataBlk node) (ready : .WB_NACK ∈ node.forwardToCache) :
    Delivers self node (.forward .WB_NACK) := by
  refine ⟨_, returns.refused_last, ?_⟩
  exact lighter_of_forward ready rfl rfl rfl (Nat.zero_le 1)

theorem acknowledged_delivers (returns : Returns .MI dataBlk node)
    (ready : .WB_ACK ∈ node.forwardToCache) : Delivers self node (.forward .WB_ACK) := by
  refine ⟨_, returns.acknowledged, ?_⟩
  exact lighter_of_forward ready rfl rfl rfl (Nat.zero_le 1)

theorem nacked_delivers (returns : Returns .MI dataBlk node) (ready : .WB_NACK ∈ node.forwardToCache) :
    Delivers self node (.forward .WB_NACK) := by
  refine ⟨_, returns.refused, ?_⟩
  exact lighter_of_forward ready rfl rfl rfl (Nat.zero_le 1)

theorem owning_delivers (holds : Holds dataBlk node) {requestor : Cache}
    (ready : .GETX requestor ∈ node.forwardToCache) :
    Delivers self node (.forward (.GETX requestor)) := by
  refine ⟨_, holds.forwards requestor, ?_⟩
  exact lighter_of_forward ready rfl rfl rfl le_rfl

theorem returning_delivers (returns : Returns .MI dataBlk node) {requestor : Cache}
    (ready : .GETX requestor ∈ node.forwardToCache) :
    Delivers self node (.forward (.GETX requestor)) := by
  refine ⟨_, returns.forwards requestor, ?_⟩
  exact lighter_of_forward ready rfl rfl rfl le_rfl

theorem spared_delivers (returns : Returns .MII dataBlk node) {requestor : Cache}
    (ready : .GETX requestor ∈ node.forwardToCache) :
    Delivers self node (.forward (.GETX requestor)) := by
  refine ⟨_, returns.forwards_last requestor, ?_⟩
  exact lighter_of_forward ready rfl rfl rfl le_rfl

theorem cache_completes {nodes : Cache → L1Cache Cache size} {shape : Shape Cache}
    (placed : Placed nodes dataBlk shape) (ready : AtPort (nodes self) input)
    (other : input ≠ .forward .INV) : (L1Cache.doTransition self (nodes self) input).isSome := by
  have waits {later : List Cache} (waiting : Waiting (follow later) (nodes self)) :
      (L1Cache.doTransition self (nodes self) input).isSome := by
    refine (waiting_step waiting ?_ ready).isSome other
    intro msg mem
    obtain ⟨requestor, _, _, rfl⟩ := mem_follow mem
    exact ⟨requestor, rfl⟩
  by_cases member : self ∈ shape.members
  · have plays := placed.members
    cases shape with
    | free => cases member
    | fetching cache =>
        obtain rfl := List.mem_singleton.mp member
        exact waits (show Waiting (follow []) _ from plays)
    | released cache =>
        obtain rfl := List.mem_singleton.mp member
        exact (released_step plays ready).isSome other
    | chain head rest =>
        obtain rfl | behind := List.mem_cons.mp member
        · exact (head_step plays.2.1 ready).isSome other
        · obtain ⟨later, waiting⟩ := plays.2.2.waits behind
          exact waits waiting
  · exact (outside_step (placed.others self member) ready).isSome other

def Delivery : CacheInput Cache size → Prop
  | .forward msg => msg ≠ .INV
  | .response _ => True
  | _ => False

def Progresses (self : Cache) (node : L1Cache Cache size) (input : CacheInput Cache size) : Prop :=
  L1Cache.doTransition self node input = some ⟨node, [], []⟩ ∨ Delivers self node input

theorem waiting_progresses {later : List Cache} (waiting : Waiting (follow later) node)
    (ready : AtPort node input) (delivery : Delivery input) : Progresses self node input := by
  obtain ⟨⟨request, asks⟩, mail⟩ := waiting
  cases input with
  | mandatory request => exact delivery.elim
  | victim => exact delivery.elim
  | response arrived => exact absurd ready (no_response mail)
  | forward msg =>
      obtain rfl | mem := mail_forward mail ready
      · exact absurd rfl delivery
      · obtain ⟨requestor, _, _, rfl⟩ := mem_follow mem
        exact .inl (asks.stalls (.inr (.inl rfl)))

theorem outside_progresses (outside : Outside self node) (ready : AtPort node input)
    (delivery : Delivery input) : Delivers self node input := by
  cases input with
  | mandatory request => exact delivery.elim
  | victim => exact delivery.elim
  | response arrived =>
      cases outside with
      | idle _ mail => exact absurd ready (no_response mail)
      | requested _ _ mail => exact absurd ready (no_response mail)
      | gave _ _ mail => exact absurd ready (no_response mail)
      | refused _ _ mail => exact absurd ready (no_response mail)
      | acknowledged _ _ mail => exact absurd ready (no_response mail)
  | forward msg =>
      have mem {forwards : Multiset (ForwardMsg Cache)} {requests : Multiset (RequestMsg Cache size)}
          (mail : Mail requests forwards 0 node) : msg ∈ forwards :=
        (mail_forward mail ready).resolve_left delivery
      cases outside with
      | idle _ mail => exact absurd (mem mail) (Multiset.notMem_zero msg)
      | requested _ _ mail => exact absurd (mem mail) (Multiset.notMem_zero msg)
      | gave _ _ mail => exact absurd (mem mail) (Multiset.notMem_zero msg)
      | refused _ returns mail =>
          obtain rfl := Multiset.mem_singleton.mp (mem mail)
          exact refused_delivers returns ready
      | acknowledged _ returns mail =>
          obtain rfl := Multiset.mem_singleton.mp (mem mail)
          exact acknowledged_delivers returns ready

theorem head_progresses {rest : List Cache} (head : Head self (follow rest) dataBlk node)
    (ready : AtPort node input) (delivery : Delivery input) : Progresses self node input := by
  cases input with
  | mandatory request => exact delivery.elim
  | victim => exact delivery.elim
  | response arrived =>
      cases head with
      | arriving request asks mail =>
          have same : arrived = dataBlk := by
            rw [AtPort, mail.responses] at ready
            exact Multiset.mem_singleton.mp ready
          exact .inr (same ▸ arriving_delivers asks mail)
      | owning _ mail => exact absurd ready (no_response mail)
      | evicting _ mail => exact absurd ready (no_response mail)
      | nacked _ _ mail => exact absurd ready (no_response mail)
      | spared _ _ mail => exact absurd ready (no_response mail)
  | forward msg =>
      have mem {forwards : Multiset (ForwardMsg Cache)} {requests : Multiset (RequestMsg Cache size)}
          {responses : Multiset (DataBlock size)} (mail : Mail requests forwards responses node) :
          msg ∈ forwards := (mail_forward mail ready).resolve_left delivery
      cases head with
      | arriving request asks mail =>
          obtain ⟨requestor, _, _, rfl⟩ := mem_follow (mem mail)
          exact .inl (asks.stalls (.inr (.inl rfl)))
      | owning holds mail =>
          obtain ⟨requestor, _, _, rfl⟩ := mem_follow (mem mail)
          exact .inr (owning_delivers holds ready)
      | evicting returns mail =>
          obtain ⟨requestor, _, _, rfl⟩ := mem_follow (mem mail)
          exact .inr (returning_delivers returns ready)
      | nacked _ returns mail =>
          obtain rfl | behind := Multiset.mem_cons.mp (mem mail)
          · exact .inr (nacked_delivers returns ready)
          · obtain ⟨requestor, _, _, rfl⟩ := mem_follow behind
            exact .inr (returning_delivers returns ready)
      | spared _ returns mail =>
          obtain ⟨requestor, _, _, rfl⟩ := mem_follow (mem mail)
          exact .inr (spared_delivers returns ready)

theorem cache_progresses {nodes : Cache → L1Cache Cache size} {shape : Shape Cache}
    (placed : Placed nodes dataBlk shape) (ready : AtPort (nodes self) input)
    (delivery : Delivery input) : Progresses self (nodes self) input := by
  by_cases member : self ∈ shape.members
  · have plays := placed.members
    cases shape with
    | free => cases member
    | fetching cache =>
        obtain rfl := List.mem_singleton.mp member
        exact waiting_progresses (show Waiting (follow []) _ from plays) ready delivery
    | released cache =>
        obtain rfl := List.mem_singleton.mp member
        obtain ⟨_, mail⟩ := plays
        cases input with
        | mandatory request => exact delivery.elim
        | victim => exact delivery.elim
        | response arrived => exact absurd ready (no_response mail)
        | forward msg =>
            obtain rfl | mem := mail_forward mail ready
            · exact absurd rfl delivery
            · exact absurd mem (Multiset.notMem_zero msg)
    | chain head rest =>
        obtain rfl | behind := List.mem_cons.mp member
        · exact head_progresses plays.2.1 ready delivery
        · obtain ⟨later, waiting⟩ := plays.2.2.waits behind
          exact waiting_progresses waiting ready delivery
  · exact .inr (outside_progresses (placed.others self member) ready delivery)

end

/-! ## The directory -/

def Caching (state : DirState) : Prop := state = .I ∨ state = .IM ∨ state = .M ∨ state = .MI

structure Plain (dir : Directory Cache Device size) (work : Directory.Work Cache Device size) :
    Prop where
  -- what a transition leaves of the work with devices: nothing, if there was none
  dmaRequests : work.dir.dmaRequestToDir = dir.dmaRequestToDir
  state : Caching work.dir.getState
  forwards : ∀ out ∈ work.forwards, out.2 ≠ .INV

omit [DecidableEq Cache] in
theorem silent_forwards (out : Finset Cache × ForwardMsg Cache) (mem : out ∈ []) : out.2 ≠ .INV :=
  absurd mem List.not_mem_nil

omit [DecidableEq Cache] in
theorem single_forward {destinations : Finset Cache} {msg : ForwardMsg Cache} (other : msg ≠ .INV)
    (out : Finset Cache × ForwardMsg Cache) (mem : out ∈ [(destinations, msg)]) : out.2 ≠ .INV := by
  obtain rfl := List.mem_singleton.mp mem
  exact other

def dirWeight (dir : Directory Cache Device size) : ℕ := 3 * dir.memBuffer.card

def Takes (dir : Directory Cache Device size) (popped : Option (RequestMsg Cache size)) (weight : ℕ)
    (work : Directory.Work Cache Device size) : Prop :=
  -- a message with the weight `weight` is taken
  work.popped = popped ∧
    dirWeight work.dir + 2 * recipients work.forwards + recipients work.responses <
      dirWeight dir + weight

variable [DecidableEq Device]

section

variable {dir : Directory Cache Device size} {dataBlk : DataBlock size} {shape : Shape Cache}

theorem request_progresses (agrees : Agrees dir dataBlk shape) (caching : Caching dir.getState)
    (msg : RequestMsg Cache size) :
    ∃ work, dir.doTransition (.request msg) = some work ∧ Plain dir work ∧
      (work = ⟨dir, none, [], [], []⟩ ∧ dir.memBuffer ≠ 0 ∨ Takes dir (some msg) 4 work) := by
  have waits (state : Caching dir.getState) (busy : dir.memBuffer ≠ 0)
      (recycled : dir.doTransition (.request msg) = some ⟨dir, none, [], [], []⟩) :
      ∃ work, dir.doTransition (.request msg) = some work ∧ Plain dir work ∧
        (work = ⟨dir, none, [], [], []⟩ ∧ dir.memBuffer ≠ 0 ∨ Takes dir (some msg) 4 work) :=
    ⟨_, recycled, ⟨rfl, state, silent_forwards⟩, .inl ⟨rfl, busy⟩⟩
  cases agrees with
  | idle dataBlk dma =>
      cases msg with
      | GETX cache =>
          refine ⟨_, rfl, ⟨rfl, .inr (.inl rfl), silent_forwards⟩, .inr ⟨rfl, ?_⟩⟩
          simp [dirWeight, recipients, Directory.Work.enqueueMemory, Directory.Work.setOwner]
      | PUTX cache written =>
          refine ⟨_, rfl, ⟨rfl, .inl rfl, single_forward (by simp)⟩, .inr ⟨rfl, ?_⟩⟩
          simp [dirWeight, recipients]
  | fetching dataBlk dma other =>
      cases msg with
      | GETX cache => exact waits caching (Multiset.singleton_ne_zero _) rfl
      | PUTX cache written =>
          refine waits caching (Multiset.singleton_ne_zero _) ?_
          by_cases owner : cache ∈ ({other} : Finset Cache)
          · rw [Directory.doTransition, event_owner owner]
            rfl
          · rw [Directory.doTransition, event_notOwner owner]
            rfl
  | returned dataBlk dma old other offset len device sent =>
      cases msg <;> exact waits caching (Multiset.singleton_ne_zero _) rfl
  | owned dataBlk dma old head rest =>
      cases msg with
      | GETX cache =>
          refine ⟨⟨⟨⟨.M, old, {cache}⟩, none, 0, dma⟩, some (.GETX cache),
            [({lastOf head rest}, .GETX cache)], [], []⟩, rfl, ⟨rfl, caching, single_forward (by simp)⟩,
            .inr ⟨rfl, ?_⟩⟩
          simp [dirWeight, recipients]
      | PUTX cache written =>
          by_cases owner : cache ∈ ({lastOf head rest} : Finset Cache)
          · refine ⟨⟨⟨⟨.MI, old, ∅⟩, some ⟨.MI, 0, written, 0, none⟩,
              {⟨.MEMORY_WB, some cache, written⟩}, dma⟩, some (.PUTX cache written), [], [], []⟩, ?_,
              ⟨rfl, .inr (.inr (.inr rfl)), silent_forwards⟩, .inr ⟨rfl, ?_⟩⟩
            · rw [Directory.doTransition, event_owner owner]
              rfl
            · simp [dirWeight, recipients]
          · refine ⟨⟨⟨⟨.M, old, {lastOf head rest}⟩, none, 0, dma⟩, some (.PUTX cache written),
              [({cache}, .WB_NACK)], [], []⟩, ?_, ⟨rfl, caching, single_forward (by simp)⟩,
              .inr ⟨rfl, ?_⟩⟩
            · rw [Directory.doTransition, event_notOwner owner]
              rfl
            · simp [dirWeight, recipients]
  | dmaRead => rcases caching with state | state | state | state <;> cases state
  | dmaWrite => rcases caching with state | state | state | state <;> cases state
  | callsForRead => rcases caching with state | state | state | state <;> cases state
  | callsForWrite => rcases caching with state | state | state | state <;> cases state
  | returnedForRead => rcases caching with state | state | state | state <;> cases state
  | returnedForWrite => rcases caching with state | state | state | state <;> cases state

theorem memory_progresses (agrees : Agrees dir dataBlk shape) (caching : Caching dir.getState)
    {msg : MemoryMsg Cache size} (ready : msg ∈ dir.memBuffer) :
    ∃ work, dir.doTransition (.memory msg) = some work ∧ Plain dir work ∧ Takes dir none 0 work := by
  cases agrees with
  | idle => exact absurd ready (Multiset.notMem_zero msg)
  | owned => exact absurd ready (Multiset.notMem_zero msg)
  | fetching dataBlk dma cache =>
      obtain rfl := Multiset.mem_singleton.mp ready
      refine ⟨⟨⟨⟨.M, dataBlk, {cache}⟩, none, Multiset.erase {_} _, dma⟩, none, [],
        [({cache}, dataBlk)], []⟩, rfl, ⟨rfl, .inr (.inr (.inl rfl)), silent_forwards⟩, rfl, ?_⟩
      simp [dirWeight, recipients]
  | returned dataBlk dma old cache offset len device sent =>
      obtain rfl := Multiset.mem_singleton.mp ready
      refine ⟨⟨⟨⟨.I, dataBlk, ∅⟩, none, Multiset.erase {_} _, dma⟩, none, [({cache}, .WB_ACK)], [],
        []⟩, rfl, ⟨rfl, .inl rfl, single_forward (by simp)⟩, rfl, ?_⟩
      simp [dirWeight, recipients]
  | dmaRead => rcases caching with state | state | state | state <;> cases state
  | dmaWrite => rcases caching with state | state | state | state <;> cases state
  | callsForRead => rcases caching with state | state | state | state <;> cases state
  | callsForWrite => rcases caching with state | state | state | state <;> cases state
  | returnedForRead => rcases caching with state | state | state | state <;> cases state
  | returnedForWrite => rcases caching with state | state | state | state <;> cases state

end

/-! ## The whole system -/

structure CachesOnly (system : System Cache Device size) : Prop where
  dmaRequests : system.dir.dmaRequestToDir = 0
  state : Caching system.dir.getState
  forwards : ∀ cache, .INV ∉ (system.nodes cache).forwardToCache

theorem act_forwards {self : Cache} {input : CacheInput Cache size} {action : CacheAction}
    {work work' : L1Cache.Work Cache size} (acted : L1Cache.act self input work action = some work') :
    work'.node.forwardToCache ≤ work.node.forwardToCache := by
  cases action <;>
    simp only [L1Cache.act, L1Cache.readCallback, L1Cache.writeCallback, Option.map_eq_some_iff] at acted <;>
    repeat' split at acted
  all_goals
    first
      | cases acted; exact le_rfl
      | cases acted; exact Multiset.erase_le _ _
      | obtain ⟨_, _, rfl⟩ := acted; exact le_rfl
      | cases acted

theorem doTransition_forwards {self : Cache} {node : L1Cache Cache size}
    {input : CacheInput Cache size} {work : L1Cache.Work Cache size}
    (stepped : L1Cache.doTransition self node input = some work) :
    work.node.forwardToCache ≤ node.forwardToCache := by
  have along (actions : List CacheAction) (before after : L1Cache.Work Cache size)
      (ran : actions.foldlM (L1Cache.act self input) before = some after) :
      after.node.forwardToCache ≤ before.node.forwardToCache := by
    induction actions generalizing before with
    | nil =>
        cases ran
        exact le_rfl
    | cons action rest ih =>
        rw [List.foldlM_cons] at ran
        obtain ⟨next, acted, ran⟩ := Option.bind_eq_some_iff.mp ran
        exact (ih next ran).trans (act_forwards acted)
  rw [L1Cache.doTransition] at stepped
  split at stepped
  · cases stepped
  · split at stepped
    · cases stepped
      exact le_rfl
    · obtain ⟨after, ran, rfl⟩ := Option.map_eq_some_iff.mp stepped
      exact along _ _ after ran

theorem sendResponse_forwards (out : List (Finset Cache × DataBlock size))
    (nodes : Cache → L1Cache Cache size) (cache : Cache) :
    (out.foldl sendResponse nodes cache).forwardToCache = (nodes cache).forwardToCache := by
  induction out generalizing nodes with
  | nil => rfl
  | cons sent rest ih =>
      rw [List.foldl_cons, ih, sendResponse]
      split <;> rfl

theorem sendForward_no_inv {out : List (Finset Cache × ForwardMsg Cache)}
    (others : ∀ sent ∈ out, sent.2 ≠ .INV) (nodes : Cache → L1Cache Cache size) (cache : Cache)
    (none' : .INV ∉ (nodes cache).forwardToCache) :
    .INV ∉ (out.foldl sendForward nodes cache).forwardToCache := by
  induction out generalizing nodes with
  | nil => exact none'
  | cons sent rest ih =>
      refine ih (fun later mem => others later (List.mem_cons_of_mem _ mem)) _ ?_
      rw [sendForward]
      split
      · rw [Multiset.mem_cons, not_or]
        exact ⟨(others sent List.mem_cons_self).symm, none'⟩
      · exact none'

theorem popRequest_forwards (nodes : Cache → L1Cache Cache size) (msg : RequestMsg Cache size)
    (cache : Cache) : (popRequest nodes msg cache).forwardToCache = (nodes cache).forwardToCache := by
  rw [popRequest]
  split <;> rfl

def OfCaches : Action Cache Device size → Prop
  | .dmaRequest _ => False
  | _ => True

variable {system next : System Cache Device size} {action : Action Cache Device size}
  {dataBlk : DataBlock size}

omit [DecidableEq Cache] [DecidableEq Device] in
theorem cachesOnly_init (dataBlk : DataBlock size) :
    CachesOnly (System.init dataBlk : System Cache Device size) :=
  ⟨rfl, .inl rfl, fun _ => Multiset.notMem_zero _⟩

omit [DecidableEq Device] in
theorem cachesOnly_afterDirectory {work : Directory.Work Cache Device size}
    (only : CachesOnly system) (plain : Plain system.dir work) :
    CachesOnly (system.afterDirectory work) := by
  refine ⟨plain.dmaRequests.trans only.dmaRequests, plain.state, ?_⟩
  intro cache
  have sent : ((system.afterDirectory work).nodes cache).forwardToCache =
      (work.forwards.foldl sendForward (work.popped.toList.foldl popRequest system.nodes)
        cache).forwardToCache := sendResponse_forwards work.responses _ cache
  rw [sent]
  refine sendForward_no_inv plain.forwards _ cache ?_
  cases work.popped with
  | none => exact only.forwards cache
  | some msg =>
      have kept : ((some msg).toList.foldl popRequest system.nodes cache).forwardToCache =
          (system.nodes cache).forwardToCache := popRequest_forwards system.nodes msg cache
      rw [kept]
      exact only.forwards cache

theorem step_of_caches {shape : Shape Cache} (placed : Placed system.nodes dataBlk shape)
    (agrees : Agrees system.dir dataBlk shape) (only : CachesOnly system) (caches : OfCaches action)
    (ready : system.Ready action) : ∃ next, system.step action = some next ∧ CachesOnly next := by
  rw [System.step, if_pos ready]
  cases action with
  | dmaRequest msg => exact caches.elim
  | makeRequest cache request =>
      refine ⟨_, rfl, only.dmaRequests, only.state, ?_⟩
      intro other mem
      by_cases same : other = cache
      · subst same
        simp only [Function.update_self, L1Cache.makeRequest] at mem
        split at mem <;> exact only.forwards other mem
      · simp only [Function.update_of_ne same] at mem
        exact only.forwards other mem
  | cache self input =>
      have atPort : AtPort (system.nodes self) input := by
        cases input <;> exact ready
      have other : input ≠ .forward .INV := by
        rintro rfl
        exact only.forwards self ready
      obtain ⟨work, stepped⟩ := Option.isSome_iff_exists.mp (cache_completes placed atPort other)
      refine ⟨system.afterCache self work, ?_, only.dmaRequests, only.state, ?_⟩
      · rw [System.trigger, stepped]
        rfl
      intro cache mem
      have sent : ((system.afterCache self work).nodes cache).forwardToCache =
          (Function.update system.nodes self work.node cache).forwardToCache :=
        sendResponse_forwards work.responses _ cache
      rw [sent] at mem
      by_cases same : cache = self
      · subst same
        rw [Function.update_self] at mem
        exact only.forwards cache (Multiset.mem_of_le (doTransition_forwards stepped) mem)
      · rw [Function.update_of_ne same] at mem
        exact only.forwards cache mem
  | directory input =>
      have moves {work : Directory.Work Cache Device size}
          (stepped : system.dir.doTransition input = some work) (plain : Plain system.dir work) :
          ∃ next, system.trigger (.directory input) = some next ∧ CachesOnly next := by
        refine ⟨system.afterDirectory work, ?_, cachesOnly_afterDirectory only plain⟩
        rw [System.trigger, stepped]
        rfl
      cases input with
      | request msg =>
          obtain ⟨work, stepped, plain, _⟩ := request_progresses agrees only.state msg
          exact moves stepped plain
      | memory msg =>
          obtain ⟨work, stepped, plain, _⟩ := memory_progresses agrees only.state ready
          exact moves stepped plain
      | dma msg =>
          have mem : msg ∈ system.dir.dmaRequestToDir := ready
          rw [only.dmaRequests] at mem
          exact absurd mem (Multiset.notMem_zero msg)

theorem ready_of_step (stepped : system.step action = some next) : system.Ready action := by
  by_contra not
  rw [System.step, if_neg not] at stepped
  cases stepped

def Going (first : DataBlock size) (system : System Cache Device size) : Prop :=
  Serves first system ∧ CachesOnly system

theorem going_step {first : DataBlock size} (going : Going first system) (caches : OfCaches action)
    (stepped : system.step action = some next) : Going first next := by
  obtain ⟨serves, only⟩ := going
  have whole : WholeLine action := by
    cases action with
    | dmaRequest msg => exact caches.elim
    | _ => trivial
  refine ⟨serves_step serves whole stepped, ?_⟩
  obtain ⟨value, _, shape, placed, agrees, _⟩ := serves
  obtain ⟨other, again, only⟩ := step_of_caches placed agrees only caches (ready_of_step stepped)
  obtain rfl := Option.some.inj (stepped.symm.trans again)
  exact only

theorem going_run {first : DataBlock size} {actions : List (Action Cache Device size)}
    (caches : ∀ action ∈ actions, OfCaches action)
    (ran : run System.step actions (.init first) = some system) : Going first system := by
  have preserves (system : System Cache Device size) (action : Action Cache Device size)
      (next : System Cache Device size) (going : Going first system) (caches : OfCaches action)
      (stepped : system.step action = some next) : Going first next :=
    going_step going caches stepped
  refine run_preserves preserves actions _ _ ⟨serves_init first, cachesOnly_init first⟩ ?_ ran
  intro before action after _ _ split _ _
  exact caches action (by simp [split])

theorem going_completes {first : DataBlock size} (going : Going first system)
    (caches : OfCaches action) (ready : system.Ready action) : (system.step action).isSome := by
  obtain ⟨⟨value, _, shape, placed, agrees, _⟩, only⟩ := going
  obtain ⟨next, stepped, _⟩ := step_of_caches placed agrees only caches ready
  rw [stepped]
  rfl

def race : List (Action Bool Unit 2) :=
  [.makeRequest false ⟨.ST, 1, [9]⟩,
    .cache false (.mandatory ⟨.ST, 1, [9]⟩),
    .directory (.request (.GETX false)),
    .directory (.memory ⟨.MEMORY_READ, some false, DataBlock.clear⟩),
    .cache false (.response DataBlock.clear),
    .makeRequest true ⟨.LD, 0, []⟩,
    .cache true (.mandatory ⟨.LD, 0, []⟩),
    .directory (.request (.GETX true)),
    .cache false .victim,
    .directory (.request (.PUTX false (DataBlock.clear.setData [9] 1)))]

theorem ofCaches_race : ∀ action ∈ race, OfCaches action := by
  simp [race, OfCaches]

end GemFi.CoherenceProgress
