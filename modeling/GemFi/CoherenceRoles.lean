import GemFi.CoherenceProtocol

/-!
What one L1 cache may be doing with a line while the protocol runs: the roles of a cache, each with
its entry, its TBE, its request and the messages to and from it that are under way. One lemma for
each role says what any of its transitions does. Invalidations for a DMA access may come to a
cache at any time, so no role counts them.
-/

namespace GemFi.CoherenceRoles

open CoherenceProtocol

variable {Cache Device : Type} {size : ℕ} [DecidableEq Cache]

/-! ## A block that is accessed in one piece -/

def serve (dataBlk : DataBlock size) : Callback size → Option (DataBlock size)
  -- what an access does to the block; `none` where it has seen another value
  | .read seen => if seen = dataBlk then some dataBlk else none
  | .write offset data => some (dataBlk.setData data offset)

def serveAny (dataBlk : DataBlock size) : Completion Cache Device size → Option (DataBlock size)
  | .cache _ callback => serve dataBlk callback
  | .dmaData _ seen => if seen = dataBlk then some dataBlk else none
  | .dmaAck _ offset len written => some (dataBlk.copyPartial written offset len)

/-! ## Roles -/

def pending (node : L1Cache Cache size) : Multiset (ForwardMsg Cache) :=
  node.forwardToCache.filter (· ≠ .INV)

structure Mail (requests : Multiset (RequestMsg Cache size)) (forwards : Multiset (ForwardMsg Cache))
    (responses : Multiset (DataBlock size)) (node : L1Cache Cache size) : Prop where
  requests : node.requestFromCache = requests
  forwards : pending node = forwards
  responses : node.responseToCache = responses

def Quiet (node : L1Cache Cache size) : Prop := node.mandatoryQueue = node.requestTable

structure Invalid (node : L1Cache Cache size) : Prop where
  tbe : node.tbe = none
  entry : ∀ entry, node.cacheEntry = some entry → entry.cacheState = .I
  quiet : Quiet node

structure Holds (dataBlk : DataBlock size) (node : L1Cache Cache size) : Prop where
  entry : node.cacheEntry = some ⟨.M, dataBlk⟩
  tbe : node.tbe = none
  quiet : Quiet node

structure Returns (state : CacheState) (dataBlk : DataBlock size) (node : L1Cache Cache size) :
    Prop where
  entry : node.cacheEntry = none
  tbe : node.tbe = some ⟨state, dataBlk⟩
  quiet : Quiet node

def asked (request : RubyRequest) : CacheState := if request.isLoad then .IS else .IM

structure Asks (request : RubyRequest) (node : L1Cache Cache size) : Prop where
  entry : node.cacheEntry.isSome
  tbe : ∃ dataBlk, node.tbe = some ⟨asked request, dataBlk⟩
  table : node.requestTable = some request
  popped : node.mandatoryQueue = none

inductive Outside (self : Cache) (node : L1Cache Cache size) : Prop where
  -- a cache that the line does not depend on
  | idle : Invalid node → Mail 0 0 0 node → Outside self node
  | requested (request : RubyRequest) :
      Asks request node → Mail {.GETX self} 0 0 node → Outside self node
  /-- The data went to another cache while the write back was under way. -/
  | gave (dataBlk : DataBlock size) :
      Returns .II dataBlk node → Mail {.PUTX self dataBlk} 0 0 node → Outside self node
  | refused (dataBlk : DataBlock size) :
      Returns .II dataBlk node → Mail 0 {.WB_NACK} 0 node → Outside self node
  | acknowledged (dataBlk : DataBlock size) :
      Returns .MI dataBlk node → Mail 0 {.WB_ACK} 0 node → Outside self node

def Waiting (next : Multiset (ForwardMsg Cache)) (node : L1Cache Cache size) : Prop :=
  -- a cache that will have the data after another one; `next` is the request it passes it on to
  (∃ request, Asks request node) ∧ Mail 0 next 0 node

/-- The forwarded request for a cache whose data goes to the first of `rest`. -/
def follow : List Cache → Multiset (ForwardMsg Cache)
  | [] => 0
  | cache :: _ => {.GETX cache}

inductive Head (self : Cache) (next : Multiset (ForwardMsg Cache)) (dataBlk : DataBlock size)
    (node : L1Cache Cache size) : Prop where
  | arriving (request : RubyRequest) : Asks request node → Mail 0 next {dataBlk} node →
      Head self next dataBlk node
  | owning : Holds dataBlk node → Mail 0 next 0 node → Head self next dataBlk node
  | evicting : Returns .MI dataBlk node → Mail {.PUTX self dataBlk} next 0 node →
      Head self next dataBlk node
  | nacked : next ≠ 0 → Returns .MI dataBlk node → Mail 0 (.WB_NACK ::ₘ next) 0 node →
      Head self next dataBlk node
  | spared : next ≠ 0 → Returns .MII dataBlk node → Mail 0 next 0 node → Head self next dataBlk node

def Released (node : L1Cache Cache size) : Prop :=
  (∃ dataBlk, Returns .MI dataBlk node) ∧ Mail 0 0 0 node

/-! ## Messages -/

theorem pending_erase_inv (node node' : L1Cache Cache size)
    (popped : node'.forwardToCache = node.forwardToCache.erase .INV) : pending node' = pending node := by
  rw [pending, pending, popped]
  ext msg
  rw [Multiset.count_filter, Multiset.count_filter]
  split
  · rename_i other
    rw [Multiset.count_erase_of_ne other]
  · rfl

theorem pending_erase (node node' : L1Cache Cache size) (msg : ForwardMsg Cache) (other : msg ≠ .INV)
    (popped : node'.forwardToCache = node.forwardToCache.erase msg) :
    pending node' = (pending node).erase msg := by
  rw [pending, pending, popped]
  ext seen
  rw [Multiset.count_filter]
  by_cases same : seen = msg
  · subst same
    rw [if_pos other, Multiset.count_erase_self, Multiset.count_erase_self, Multiset.count_filter,
      if_pos other]
  · rw [Multiset.count_erase_of_ne same, Multiset.count_erase_of_ne same, Multiset.count_filter]

theorem pending_cons (node node' : L1Cache Cache size) (msg : ForwardMsg Cache) (other : msg ≠ .INV)
    (sent : node'.forwardToCache = msg ::ₘ node.forwardToCache) :
    pending node' = msg ::ₘ pending node := by
  rw [pending, pending, sent]
  exact Multiset.filter_cons_of_pos _ other

theorem pending_cons_inv (node node' : L1Cache Cache size)
    (sent : node'.forwardToCache = .INV ::ₘ node.forwardToCache) : pending node' = pending node := by
  rw [pending, pending, sent, Multiset.filter_cons_of_neg _ (by simp)]

theorem mem_pending {node : L1Cache Cache size} {msg : ForwardMsg Cache}
    (mem : msg ∈ node.forwardToCache) (other : msg ≠ .INV) : msg ∈ pending node :=
  Multiset.mem_filter.mpr ⟨mem, other⟩

theorem Mail.sent {requests : Multiset (RequestMsg Cache size)} {forwards : Multiset (ForwardMsg Cache)}
    {responses : Multiset (DataBlock size)} {node : L1Cache Cache size} {msg : ForwardMsg Cache}
    (mail : Mail requests forwards responses node) (other : msg ≠ .INV) :
    Mail requests (msg ::ₘ forwards) responses
      { node with forwardToCache := msg ::ₘ node.forwardToCache } := by
  refine ⟨mail.requests, ?_, mail.responses⟩
  rw [pending_cons node _ msg other rfl, mail.forwards]

/-- Who does not pass the data on so far can be asked to. -/
theorem Head.linked {self : Cache} {dataBlk : DataBlock size} {node : L1Cache Cache size}
    (head : Head self 0 dataBlk node) (cache : Cache) :
    Head self {.GETX cache} dataBlk
      { node with forwardToCache := .GETX cache ::ₘ node.forwardToCache } := by
  cases head with
  | arriving request asks mail =>
      exact .arriving request ⟨asks.entry, asks.tbe, asks.table, asks.popped⟩ (mail.sent nofun)
  | owning holds mail => exact .owning ⟨holds.entry, holds.tbe, holds.quiet⟩ (mail.sent nofun)
  | evicting returns mail =>
      exact .evicting ⟨returns.entry, returns.tbe, returns.quiet⟩ (mail.sent nofun)
  | nacked owed => exact absurd rfl owed
  | spared owed => exact absurd rfl owed

/-! ## Changes that no role sees -/

structure Alike (before after : L1Cache Cache size) : Prop where
  invalid : Invalid before → Invalid after
  holds : ∀ dataBlk, Holds dataBlk before → Holds dataBlk after
  returns : ∀ state dataBlk, Returns state dataBlk before → Returns state dataBlk after
  asks : ∀ request, Asks request before → Asks request after
  mail : ∀ requests forwards responses,
    Mail requests forwards responses before → Mail requests forwards responses after

section

variable {self : Cache} {before after : L1Cache Cache size} {next : Multiset (ForwardMsg Cache)}
  {dataBlk : DataBlock size}

theorem Alike.refl (node : L1Cache Cache size) : Alike node node :=
  ⟨id, fun _ => id, fun _ _ => id, fun _ => id, fun _ _ _ => id⟩

theorem Alike.outside (alike : Alike before after) (outside : Outside self before) :
    Outside self after := by
  cases outside with
  | idle invalid mail => exact .idle (alike.invalid invalid) (alike.mail _ _ _ mail)
  | requested request asks mail =>
      exact .requested request (alike.asks _ asks) (alike.mail _ _ _ mail)
  | gave dataBlk returns mail => exact .gave dataBlk (alike.returns _ _ returns) (alike.mail _ _ _ mail)
  | refused dataBlk returns mail =>
      exact .refused dataBlk (alike.returns _ _ returns) (alike.mail _ _ _ mail)
  | acknowledged dataBlk returns mail =>
      exact .acknowledged dataBlk (alike.returns _ _ returns) (alike.mail _ _ _ mail)

theorem Alike.waiting (alike : Alike before after) (waiting : Waiting next before) :
    Waiting next after := by
  obtain ⟨⟨request, asks⟩, mail⟩ := waiting
  exact ⟨⟨request, alike.asks _ asks⟩, alike.mail _ _ _ mail⟩

theorem Alike.released (alike : Alike before after) (released : Released before) : Released after := by
  obtain ⟨⟨dataBlk, returns⟩, mail⟩ := released
  exact ⟨⟨dataBlk, alike.returns _ _ returns⟩, alike.mail _ _ _ mail⟩

theorem Alike.head (alike : Alike before after) (head : Head self next dataBlk before) :
    Head self next dataBlk after := by
  cases head with
  | arriving request asks mail => exact .arriving request (alike.asks _ asks) (alike.mail _ _ _ mail)
  | owning holds mail => exact .owning (alike.holds _ holds) (alike.mail _ _ _ mail)
  | evicting returns mail => exact .evicting (alike.returns _ _ returns) (alike.mail _ _ _ mail)
  | nacked owed returns mail => exact .nacked owed (alike.returns _ _ returns) (alike.mail _ _ _ mail)
  | spared owed returns mail => exact .spared owed (alike.returns _ _ returns) (alike.mail _ _ _ mail)

theorem alike_inv (node : L1Cache Cache size) :
    Alike node { node with forwardToCache := .INV ::ₘ node.forwardToCache } where
  invalid invalid := ⟨invalid.tbe, invalid.entry, invalid.quiet⟩
  holds _ holds := ⟨holds.entry, holds.tbe, holds.quiet⟩
  returns _ _ returns := ⟨returns.entry, returns.tbe, returns.quiet⟩
  asks _ asks := ⟨asks.entry, asks.tbe, asks.table, asks.popped⟩
  mail _ _ _ mail := ⟨mail.requests, (pending_cons_inv node _ rfl).trans mail.forwards, mail.responses⟩

theorem alike_makeRequest (node : L1Cache Cache size) (request : RubyRequest) :
    Alike node (node.makeRequest request) := by
  rw [L1Cache.makeRequest]
  split
  · exact .refl node
  · rename_i empty
    refine ⟨?_, ?_, ?_, ?_, ?_⟩
    · exact fun invalid => ⟨invalid.tbe, invalid.entry, rfl⟩
    · exact fun _ holds => ⟨holds.entry, holds.tbe, rfl⟩
    · exact fun _ _ returns => ⟨returns.entry, returns.tbe, rfl⟩
    · intro asked asks
      rw [asks.table] at empty
      exact absurd rfl empty
    · exact fun _ _ _ mail => ⟨mail.requests, mail.forwards, mail.responses⟩

end

/-! ## Transitions, from each state of a cache -/

open L1Cache

section

omit [DecidableEq Cache]

variable {node : L1Cache Cache size} {dataBlk : DataBlock size} {request : RubyRequest}

theorem Invalid.getState (invalid : Invalid node) : node.getState = .I := by
  obtain ⟨tbe, entry, _⟩ := invalid
  rw [L1Cache.getState, tbe]
  cases held : node.cacheEntry with
  | none => rfl
  | some block => exact entry block held

theorem Holds.getState (holds : Holds dataBlk node) : node.getState = .M := by
  rw [L1Cache.getState, holds.tbe, holds.entry]

theorem Returns.getState {state : CacheState} (returns : Returns state dataBlk node) :
    node.getState = state := by
  rw [L1Cache.getState, returns.tbe]

theorem Asks.getState (asks : Asks request node) : node.getState = asked request := by
  obtain ⟨dataBlk, tbe⟩ := asks.tbe
  rw [L1Cache.getState, tbe]

end

variable {self : Cache} {node : L1Cache Cache size} {dataBlk : DataBlock size}
  {request : RubyRequest}

theorem Invalid.asks (invalid : Invalid node) (ready : node.mandatoryQueue = some request) :
    doTransition self node (.mandatory request) =
      some ⟨{ node with
        cacheEntry := some ⟨asked request, (node.cacheEntry.map Entry.dataBlk).getD DataBlock.clear⟩
        tbe := some ⟨asked request, DataBlock.clear⟩
        mandatoryQueue := none
        requestFromCache := .GETX self ::ₘ node.requestFromCache }, [], []⟩ := by
  rw [doTransition, invalid.getState]
  rcases node with ⟨entry, tbe, table, queue, requests, forwards, responses⟩
  obtain rfl : tbe = none := invalid.tbe
  obtain ⟨type, offset, data⟩ := request
  cases type <;> cases entry <;> rfl

theorem Invalid.evicts (invalid : Invalid node) :
    doTransition self node .victim = some ⟨{ node with cacheEntry := none }, [], []⟩ := by
  rw [doTransition, invalid.getState]
  rcases node with ⟨entry, tbe, table, queue, requests, forwards, responses⟩
  obtain rfl : tbe = none := invalid.tbe
  rfl

theorem Invalid.invalidated (invalid : Invalid node) :
    doTransition self node (.forward .INV) =
      some ⟨{ node with forwardToCache := node.forwardToCache.erase .INV }, [], []⟩ := by
  rw [doTransition, invalid.getState]
  rcases node with ⟨entry, tbe, table, queue, requests, forwards, responses⟩
  obtain rfl : tbe = none := invalid.tbe
  cases entry with
  | none => rfl
  | some block =>
      obtain ⟨state, bytes⟩ := block
      obtain rfl : state = .I := invalid.entry _ rfl
      rfl

/-- A cache that has asked for the line lets everything but the data wait. -/
theorem Asks.stalls (asks : Asks request node) {input : CacheInput Cache size}
    (waits : input.event = .Replacement ∨ input.event = .Fwd_GETX ∨ input.event = .Inv) :
    doTransition self node input = some ⟨node, [], []⟩ := by
  rw [doTransition, asks.getState, asked]
  rcases waits with event | event | event <;> rw [event] <;>
    cases request.isLoad <;> rfl

theorem Asks.loads (asks : Asks request node) (load : request.isLoad = true) :
    doTransition self node (.response dataBlk) =
      some ⟨{ node with
        cacheEntry := some ⟨.M, dataBlk⟩
        tbe := none
        requestTable := none
        responseToCache := node.responseToCache.erase dataBlk }, [], [.read dataBlk]⟩ := by
  rw [doTransition, asks.getState, asked, if_pos load]
  obtain ⟨entry, ⟨old, tbe⟩, table, _⟩ := asks
  obtain ⟨block, held⟩ := Option.isSome_iff_exists.mp entry
  simp [CacheInput.event, cacheTransition, act, held, readCallback, table, load, tbe, setState]

theorem Asks.stores (asks : Asks request node) (store : request.isLoad = false) :
    doTransition self node (.response dataBlk) =
      some ⟨{ node with
        cacheEntry := some ⟨.M, dataBlk.setData request.data request.offset⟩
        tbe := none
        requestTable := none
        responseToCache := node.responseToCache.erase dataBlk }, [],
        [.write request.offset request.data]⟩ := by
  rw [doTransition, asks.getState, asked, if_neg (by simp [store])]
  obtain ⟨entry, ⟨old, tbe⟩, table, _⟩ := asks
  obtain ⟨block, held⟩ := Option.isSome_iff_exists.mp entry
  simp [CacheInput.event, cacheTransition, act, held, writeCallback, table, store, tbe, setState]

theorem Holds.loads (holds : Holds dataBlk node) (ready : node.mandatoryQueue = some request)
    (load : request.isLoad = true) :
    doTransition self node (.mandatory request) =
      some ⟨{ node with requestTable := none, mandatoryQueue := none }, [], [.read dataBlk]⟩ := by
  have table : node.requestTable = some request := holds.quiet.symm.trans ready
  rw [doTransition, holds.getState]
  rcases node with ⟨entry, tbe, _, queue, requests, forwards, responses⟩
  obtain rfl : entry = some ⟨.M, dataBlk⟩ := holds.entry
  obtain rfl : tbe = none := holds.tbe
  cases table
  obtain ⟨type, offset, data⟩ := request
  cases type <;> first | rfl | cases load

theorem Holds.stores (holds : Holds dataBlk node) (ready : node.mandatoryQueue = some request)
    (store : request.isLoad = false) :
    doTransition self node (.mandatory request) =
      some ⟨{ node with
        cacheEntry := some ⟨.M, dataBlk.setData request.data request.offset⟩
        requestTable := none
        mandatoryQueue := none }, [], [.write request.offset request.data]⟩ := by
  have table : node.requestTable = some request := holds.quiet.symm.trans ready
  rw [doTransition, holds.getState]
  rcases node with ⟨entry, tbe, _, queue, requests, forwards, responses⟩
  obtain rfl : entry = some ⟨.M, dataBlk⟩ := holds.entry
  obtain rfl : tbe = none := holds.tbe
  cases table
  obtain ⟨type, offset, data⟩ := request
  cases type <;> first | rfl | cases store

/-- An invalidation has the block written back just as a replacement has; the message itself stays
at the head until the write back is under way. -/
theorem Holds.evicts (holds : Holds dataBlk node) {input : CacheInput Cache size}
    (evicted : input.event = .Replacement ∨ input.event = .Inv) :
    doTransition self node input =
      some ⟨{ node with
        cacheEntry := none
        tbe := some ⟨.MI, dataBlk⟩
        requestFromCache := .PUTX self dataBlk ::ₘ node.requestFromCache }, [], []⟩ := by
  rw [doTransition, holds.getState]
  rcases node with ⟨entry, tbe, table, queue, requests, forwards, responses⟩
  obtain rfl : entry = some ⟨.M, dataBlk⟩ := holds.entry
  obtain rfl : tbe = none := holds.tbe
  rcases evicted with event | event <;> rw [event] <;> rfl

theorem Holds.forwards (holds : Holds dataBlk node) (requestor : Cache) :
    doTransition self node (.forward (.GETX requestor)) =
      some ⟨{ node with
        cacheEntry := some ⟨.I, dataBlk⟩
        forwardToCache := node.forwardToCache.erase (.GETX requestor) },
        [({requestor}, dataBlk)], []⟩ := by
  rw [doTransition, holds.getState]
  rcases node with ⟨entry, tbe, table, queue, requests, forwards, responses⟩
  obtain rfl : entry = some ⟨.M, dataBlk⟩ := holds.entry
  obtain rfl : tbe = none := holds.tbe
  rfl

theorem Returns.stalls {state : CacheState} (returns : Returns state dataBlk node)
    (busy : state = .MI ∨ state = .II ∨ state = .MII) :
    doTransition self node (.mandatory request) = some ⟨node, [], []⟩ := by
  rw [doTransition, returns.getState]
  obtain ⟨type, offset, data⟩ := request
  rcases busy with rfl | rfl | rfl <;> cases type <;> rfl

theorem Returns.invalidated (returns : Returns .MI dataBlk node) :
    doTransition self node (.forward .INV) =
      some ⟨{ node with forwardToCache := node.forwardToCache.erase .INV }, [], []⟩ := by
  rw [doTransition, returns.getState]
  rcases node with ⟨entry, tbe, table, queue, requests, forwards, responses⟩
  obtain rfl : entry = none := returns.entry
  obtain rfl : tbe = some ⟨.MI, dataBlk⟩ := returns.tbe
  rfl

theorem Returns.not_invalidated {state : CacheState} (returns : Returns state dataBlk node)
    (gone : state = .II ∨ state = .MII) :
    doTransition self node (.forward .INV) = none := by
  rw [doTransition, returns.getState]
  rcases gone with rfl | rfl <;> rfl

theorem Returns.forwards (returns : Returns .MI dataBlk node) (requestor : Cache) :
    doTransition self node (.forward (.GETX requestor)) =
      some ⟨{ node with
        tbe := some ⟨.II, dataBlk⟩
        forwardToCache := node.forwardToCache.erase (.GETX requestor) },
        [({requestor}, dataBlk)], []⟩ := by
  rw [doTransition, returns.getState]
  rcases node with ⟨entry, tbe, table, queue, requests, forwards, responses⟩
  obtain rfl : entry = none := returns.entry
  obtain rfl : tbe = some ⟨.MI, dataBlk⟩ := returns.tbe
  rfl

theorem Returns.forwards_last (returns : Returns .MII dataBlk node) (requestor : Cache) :
    doTransition self node (.forward (.GETX requestor)) =
      some ⟨{ node with
        tbe := none
        forwardToCache := node.forwardToCache.erase (.GETX requestor) },
        [({requestor}, dataBlk)], []⟩ := by
  rw [doTransition, returns.getState]
  rcases node with ⟨entry, tbe, table, queue, requests, forwards, responses⟩
  obtain rfl : entry = none := returns.entry
  obtain rfl : tbe = some ⟨.MII, dataBlk⟩ := returns.tbe
  rfl

theorem Returns.acknowledged (returns : Returns .MI dataBlk node) :
    doTransition self node (.forward .WB_ACK) =
      some ⟨{ node with
        tbe := none, forwardToCache := node.forwardToCache.erase .WB_ACK }, [], []⟩ := by
  rw [doTransition, returns.getState]
  rcases node with ⟨entry, tbe, table, queue, requests, forwards, responses⟩
  obtain rfl : entry = none := returns.entry
  obtain rfl : tbe = some ⟨.MI, dataBlk⟩ := returns.tbe
  rfl

theorem Returns.refused (returns : Returns .MI dataBlk node) :
    doTransition self node (.forward .WB_NACK) =
      some ⟨{ node with
        tbe := some ⟨.MII, dataBlk⟩
        forwardToCache := node.forwardToCache.erase .WB_NACK }, [], []⟩ := by
  rw [doTransition, returns.getState]
  rcases node with ⟨entry, tbe, table, queue, requests, forwards, responses⟩
  obtain rfl : entry = none := returns.entry
  obtain rfl : tbe = some ⟨.MI, dataBlk⟩ := returns.tbe
  rfl

theorem Returns.refused_last (returns : Returns .II dataBlk node) :
    doTransition self node (.forward .WB_NACK) =
      some ⟨{ node with
        tbe := none, forwardToCache := node.forwardToCache.erase .WB_NACK }, [], []⟩ := by
  rw [doTransition, returns.getState]
  rcases node with ⟨entry, tbe, table, queue, requests, forwards, responses⟩
  obtain rfl : entry = none := returns.entry
  obtain rfl : tbe = some ⟨.II, dataBlk⟩ := returns.tbe
  rfl

end GemFi.CoherenceRoles
