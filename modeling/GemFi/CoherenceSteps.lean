import GemFi.CoherenceOwnership

/-!
Every step of the coherence protocol keeps the line in one place. For each in-port, from an
arrangement of the caches that the directory agrees with, a transition that the tables allow leads
to another one, and the accesses that it completes have the effect of accesses to one block.
-/

namespace GemFi.CoherenceSteps

open CoherenceProtocol CoherenceRoles CoherenceMoves CoherenceOwnership Transitions

variable {Cache Device : Type} {size : ℕ} [DecidableEq Cache]
  {nodes : Cache → L1Cache Cache size} {dataBlk dataBlk' : DataBlock size}

/-! ## Messages -/

theorem sendForward_self (cache : Cache) (msg : ForwardMsg Cache) :
    sendForward nodes ({cache}, msg) cache =
      { nodes cache with forwardToCache := msg ::ₘ (nodes cache).forwardToCache } :=
  if_pos (Finset.mem_singleton_self cache)

theorem sendForward_other {cache other : Cache} (msg : ForwardMsg Cache) (apart : other ≠ cache) :
    sendForward nodes ({cache}, msg) other = nodes other :=
  if_neg (by simpa using apart)

theorem sendResponse_self (cache : Cache) :
    sendResponse nodes ({cache}, dataBlk) cache =
      { nodes cache with responseToCache := dataBlk ::ₘ (nodes cache).responseToCache } :=
  if_pos (Finset.mem_singleton_self cache)

theorem sendResponse_other {cache other : Cache} (apart : other ≠ cache) :
    sendResponse nodes ({cache}, dataBlk) other = nodes other :=
  if_neg (by simpa using apart)

theorem popRequest_self (msg : RequestMsg Cache size) :
    popRequest nodes msg msg.requestor = { nodes msg.requestor with
      requestFromCache := (nodes msg.requestor).requestFromCache.erase msg } :=
  if_pos rfl

theorem popRequest_other {other : Cache} (msg : RequestMsg Cache size) (apart : other ≠ msg.requestor) :
    popRequest nodes msg other = nodes other :=
  if_neg apart

/-! ## Steps of a cache -/

theorem cache_step {system : System Cache Device size} {self : Cache} {input : CacheInput Cache size}
    {work : L1Cache.Work Cache size} (coherent : Coherent system dataBlk)
    (ready : AtPort (system.nodes self) input)
    (stepped : L1Cache.doTransition self (system.nodes self) input = some work) :
    ∃ after, run serve work.completed dataBlk = some after ∧
      Coherent (system.afterCache self work) after := by
  obtain ⟨shape, placed, agrees, covers⟩ := coherent
  have apart {node : L1Cache Cache size} (other : Cache) (different : other ≠ self) :
      Function.update system.nodes self node other = system.nodes other :=
    Function.update_of_ne different _ _
  -- a step that changes only this cache, and not the value
  have alone {node : L1Cache Cache size} (emits : work = ⟨node, [], []⟩)
      (placed : Placed (Function.update system.nodes self node) dataBlk shape) :
      ∃ after, run serve work.completed dataBlk = some after ∧
        Coherent (system.afterCache self work) after := by
    subst emits
    exact ⟨dataBlk, rfl, shape, placed, agrees, covers⟩
  have waits (later : List Cache) (waiting : Waiting (follow later) (system.nodes self)) :
      work = ⟨system.nodes self, [], []⟩ := by
    refine (waiting_step waiting ?_ ready).of_some stepped
    intro msg mem
    obtain ⟨requestor, _, _, rfl⟩ := mem_follow mem
    exact ⟨requestor, rfl⟩
  by_cases member : self ∈ shape.members
  · cases shape with
    | free => cases member
    | fetching cache =>
        obtain rfl := List.mem_singleton.mp member
        exact alone (waits [] placed.members) (by rwa [Function.update_eq_self])
    | released cache =>
        obtain rfl := List.mem_singleton.mp member
        obtain ⟨node, responses, completed⟩ := work
        obtain ⟨rfl, rfl, released⟩ := (released_step placed.members ready).of_some stepped
        refine alone rfl (placed.single self ?_ apart rfl ?_)
        · exact fun other different mem => different (List.mem_singleton.mp mem)
        · simpa [Plays] using released
    | chain head rest =>
        obtain rfl | behind := List.mem_cons.mp member
        · obtain ⟨node, responses, completed⟩ := work
          obtain ⟨after, served, rfl, plays⟩ | ⟨next, later, rfl, rfl, rfl, outside⟩ :=
            (head_step placed.members.2.1 ready).of_some stepped
          · refine ⟨after, served, .chain self rest, placed.stays apart ?_, agrees.chain rfl, covers⟩
            rw [System.afterCache]
            simpa using plays
          · have nodup := (List.nodup_cons.mp placed.members.1).1
            have different : next ≠ self := by
              rintro rfl
              exact nodup List.mem_cons_self
            refine ⟨dataBlk, rfl, .chain next later, placed.pass ?_ ?_ ?_, agrees.chain rfl, covers⟩
            · intro other fromHead fromNext
              exact (sendResponse_other fromNext).trans (apart other fromHead)
            · rw [System.afterCache]
              simpa [sendResponse_other different.symm] using outside
            · rw [System.afterCache]
              simp [sendResponse_self, different]
        · obtain ⟨later, waiting⟩ := placed.members.2.2.waits behind
          exact alone (waits later waiting) (by rwa [Function.update_eq_self])
  · obtain ⟨node, responses, completed⟩ := work
    obtain ⟨rfl, rfl, outside⟩ := (outside_step (placed.others self member) ready).of_some stepped
    exact alone rfl (placed.outside member apart (by simpa using outside))

theorem placed_asked {shape : Shape Cache} (placed : Placed nodes dataBlk shape) (self : Cache)
    (request : RubyRequest) :
    Placed (Function.update nodes self ((nodes self).makeRequest request)) dataBlk shape := by
  refine placed.alike fun other => ?_
  by_cases same : other = self
  · subst same
    rw [Function.update_self]
    exact alike_makeRequest _ request
  · rw [Function.update_of_ne same]
    exact .refl _

/-! ## Steps of the directory -/

section

variable {system : System Cache Device size} {work : Directory.Work Cache Device size}

/-- A request that is recycled. -/
theorem coherent_unchanged (coherent : Coherent system dataBlk)
    (recycled : work = ⟨system.dir, none, [], [], []⟩) :
    ∃ after, run serveAny work.completed dataBlk = some after ∧
      Coherent (system.afterDirectory work) after := by
  subst recycled
  exact ⟨dataBlk, rfl, coherent⟩

theorem erased {node : L1Cache Cache size} {msg : RequestMsg Cache size}
    (requests : node.requestFromCache = {msg}) : node.requestFromCache.erase msg = 0 := by
  rw [requests, Multiset.erase_singleton]

theorem requests_of_member {shape : Shape Cache} {cache : Cache} (placed : Placed nodes dataBlk shape)
    (member : cache ∈ shape.members) :
    (nodes cache).requestFromCache = 0 ∨ ∃ rest, shape = .chain cache rest ∧
      Returns .MI dataBlk (nodes cache) ∧
      Mail {.PUTX cache dataBlk} (follow rest) 0 (nodes cache) := by
  obtain ⟨plays, _⟩ := placed
  cases shape with
  | free => cases member
  | fetching other =>
      obtain rfl := List.mem_singleton.mp member
      exact .inl plays.2.requests
  | released other =>
      obtain rfl := List.mem_singleton.mp member
      exact .inl plays.2.requests
  | chain head rest =>
      obtain rfl | behind := List.mem_cons.mp member
      · cases plays.2.1 with
        | evicting returns mail => exact .inr ⟨rest, rfl, returns, mail⟩
        | arriving _ _ mail => exact .inl mail.requests
        | owning _ mail => exact .inl mail.requests
        | nacked _ _ mail => exact .inl mail.requests
        | spared _ _ mail => exact .inl mail.requests
      · obtain ⟨later, waiting⟩ := plays.2.2.waits behind
        exact .inl waiting.2.requests

theorem getx_outside {shape : Shape Cache} {cache : Cache} (placed : Placed nodes dataBlk shape)
    (sent : .GETX cache ∈ (nodes cache).requestFromCache) :
    cache ∉ shape.members ∧ Waiting 0 (popRequest nodes (.GETX cache) cache) := by
  have apart : cache ∉ shape.members := by
    intro member
    obtain silent | ⟨rest, _, _, mail⟩ := requests_of_member placed member
    · rw [silent] at sent
      exact Multiset.notMem_zero _ sent
    · rw [mail.requests, Multiset.mem_singleton] at sent
      cases sent
  refine ⟨apart, ?_⟩
  rw [show popRequest nodes (.GETX cache) cache = _ from popRequest_self (.GETX cache)]
  cases placed.others cache apart with
  | requested request asks mail =>
      exact ⟨⟨request, asks.entry, asks.tbe, asks.table, asks.popped⟩, erased mail.requests,
        mail.forwards, mail.responses⟩
  | idle _ mail =>
      rw [mail.requests] at sent
      exact absurd sent (Multiset.notMem_zero _)
  | refused _ _ mail =>
      rw [mail.requests] at sent
      exact absurd sent (Multiset.notMem_zero _)
  | acknowledged _ _ mail =>
      rw [mail.requests] at sent
      exact absurd sent (Multiset.notMem_zero _)
  | gave _ _ mail =>
      rw [mail.requests, Multiset.mem_singleton] at sent
      cases sent

theorem placed_joined {head cache : Cache} {rest : List Cache}
    (placed : Placed nodes dataBlk (.chain head rest)) (apart : cache ∉ head :: rest)
    (waits : Waiting 0 (popRequest nodes (.GETX cache) cache)) :
    Placed (sendForward (popRequest nodes (.GETX cache)) ({lastOf head rest}, .GETX cache)) dataBlk
      (.chain head (rest ++ [cache])) := by
  have different : lastOf head rest ≠ cache := fun eq => apart (eq ▸ lastOf_mem head rest)
  refine placed.join apart ?_ ?_ ?_
  · intro other fromCache fromLast
    rw [sendForward_other _ fromLast]
    exact popRequest_other _ fromCache
  · rw [sendForward_self, show popRequest nodes (.GETX cache) (lastOf head rest) = _ from
      popRequest_other _ different]
  · rwa [sendForward_other _ different.symm]

theorem placed_refused {shape : Shape Cache} {cache : Cache} {written : DataBlock size}
    (placed : Placed nodes dataBlk shape)
    (sent : .PUTX cache written ∈ (nodes cache).requestFromCache)
    (passes : shape ≠ .chain cache []) :
    Placed (sendForward (popRequest nodes (.PUTX cache written)) ({cache}, .WB_NACK)) dataBlk shape := by
  have other (node : Cache) (different : node ≠ cache) :
      sendForward (popRequest nodes (.PUTX cache written)) ({cache}, .WB_NACK) node = nodes node := by
    rw [sendForward_other _ different]
    exact popRequest_other _ different
  have here : sendForward (popRequest nodes (.PUTX cache written)) ({cache}, .WB_NACK) cache =
      { nodes cache with
        requestFromCache := (nodes cache).requestFromCache.erase (.PUTX cache written)
        forwardToCache := .WB_NACK ::ₘ (nodes cache).forwardToCache } := by
    rw [sendForward_self]
    rw [show popRequest nodes (.PUTX cache written) cache = _ from popRequest_self (.PUTX cache written)]
    rfl
  have nack : ForwardMsg.WB_NACK ≠ (.INV : ForwardMsg Cache) := nofun
  by_cases member : cache ∈ shape.members
  · obtain silent | ⟨rest, rfl, returns, mail⟩ := requests_of_member placed member
    · rw [silent] at sent
      exact absurd sent (Multiset.notMem_zero _)
    · rw [mail.requests, Multiset.mem_singleton] at sent
      cases sent
      refine placed.stays other ?_
      rw [here]
      refine .nacked ?_ ⟨returns.entry, returns.tbe, returns.quiet⟩
        ⟨erased mail.requests, (mail.sent nack).forwards, mail.responses⟩
      cases rest with
      | nil => exact absurd rfl passes
      | cons next rest => exact Multiset.singleton_ne_zero _
  · refine placed.outside member other ?_
    rw [here]
    cases placed.others cache member with
    | gave dataBlk returns mail =>
        rw [mail.requests, Multiset.mem_singleton] at sent
        cases sent
        exact .refused _ ⟨returns.entry, returns.tbe, returns.quiet⟩
          ⟨erased mail.requests, (mail.sent nack).forwards, mail.responses⟩
    | idle _ mail =>
        rw [mail.requests] at sent
        exact absurd sent (Multiset.notMem_zero _)
    | refused _ _ mail =>
        rw [mail.requests] at sent
        exact absurd sent (Multiset.notMem_zero _)
    | acknowledged _ _ mail =>
        rw [mail.requests] at sent
        exact absurd sent (Multiset.notMem_zero _)
    | requested _ _ mail =>
        rw [mail.requests, Multiset.mem_singleton] at sent
        cases sent

theorem placed_returned {head cache : Cache} {rest : List Cache} {written : DataBlock size}
    (placed : Placed nodes dataBlk (.chain head rest))
    (sent : .PUTX cache written ∈ (nodes cache).requestFromCache) (owner : cache = lastOf head rest) :
    written = dataBlk ∧ Placed (popRequest nodes (.PUTX cache written)) dataBlk (.released cache) := by
  have member : cache ∈ (Shape.chain head rest).members := owner ▸ lastOf_mem head rest
  obtain silent | ⟨later, same, returns, mail⟩ := requests_of_member placed member
  · rw [silent] at sent
    exact absurd sent (Multiset.notMem_zero _)
  · cases same
    rw [mail.requests, Multiset.mem_singleton] at sent
    cases sent
    have alone : rest = [] := by
      by_contra longer
      exact lastOf_ne placed.members.1 longer owner.symm
    subst alone
    refine ⟨rfl, placed.single head ?_ ?_ rfl ?_⟩
    · exact fun other different mem => different (List.mem_singleton.mp mem)
    · exact fun other different => popRequest_other _ different
    · rw [Plays, show popRequest nodes (.PUTX head dataBlk) head = _ from popRequest_self _]
      exact ⟨⟨dataBlk, returns.entry, returns.tbe, returns.quiet⟩, erased mail.requests, mail.forwards,
        mail.responses⟩

omit [DecidableEq Cache] in
theorem copyPartial_line (block written : DataBlock size) :
    block.copyPartial written 0 size = written := by
  funext k
  simp [DataBlock.copyPartial]

theorem released_acknowledged {node : L1Cache Cache size} (released : Released node) (cache : Cache) :
    Outside cache { node with forwardToCache := .WB_ACK ::ₘ node.forwardToCache } := by
  obtain ⟨⟨dataBlk, returns⟩, mail⟩ := released
  exact .acknowledged dataBlk ⟨returns.entry, returns.tbe, returns.quiet⟩ (mail.sent nofun)

theorem placed_acknowledged {cache : Cache} (placed : Placed nodes dataBlk (.released cache)) :
    Placed (sendForward nodes ({cache}, .WB_ACK)) dataBlk' .free := by
  refine placed.free cache ?_ ?_ ?_
  · exact fun other different mem => different (List.mem_singleton.mp mem)
  · exact fun other different => sendForward_other _ different
  · rw [sendForward_self]
    exact released_acknowledged placed.members cache

theorem placed_fetched {cache : Cache} (placed : Placed nodes dataBlk (.fetching cache)) :
    Placed (sendResponse nodes ({cache}, dataBlk)) dataBlk (.chain cache []) := by
  obtain ⟨⟨request, asks⟩, mail⟩ := placed.members
  refine placed.single cache ?_ ?_ rfl ⟨List.nodup_singleton cache, ?_, trivial⟩
  · exact fun other different mem => different (List.mem_singleton.mp mem)
  · exact fun other different => sendResponse_other different
  · rw [sendResponse_self]
    refine .arriving request ⟨asks.entry, asks.tbe, asks.table, asks.popped⟩
      ⟨mail.requests, mail.forwards, ?_⟩
    exact congrArg _ mail.responses

variable [DecidableEq Device]

theorem memory_step {msg : MemoryMsg Cache size} (coherent : Coherent system dataBlk)
    (ready : msg ∈ system.dir.memBuffer)
    (stepped : system.dir.doTransition (.memory msg) = some work) :
    ∃ after, run serveAny work.completed dataBlk = some after ∧
      Coherent (system.afterDirectory work) after := by
  obtain ⟨nodes, dir, completed⟩ := system
  obtain ⟨shape, placed, agrees, covers⟩ := coherent
  cases agrees with
  | idle => exact absurd ready (Multiset.notMem_zero msg)
  | owned => exact absurd ready (Multiset.notMem_zero msg)
  | callsForRead => exact absurd ready (Multiset.notMem_zero msg)
  | callsForWrite => exact absurd ready (Multiset.notMem_zero msg)
  | dmaRead dataBlk dma offset old len device =>
      obtain rfl := Multiset.mem_singleton.mp ready
      obtain rfl : work = ⟨⟨⟨.I, dataBlk, ∅⟩, none, Multiset.erase {_} _, dma⟩, none, [], [],
        [.dmaData device dataBlk]⟩ := Option.some.inj stepped.symm
      refine ⟨dataBlk, ?_, .free, placed, ?_, covers⟩
      · simp [run_cons, serveAny]
      · rw [System.afterDirectory, Multiset.erase_singleton]
        exact .idle dataBlk dma
  | dmaWrite dataBlk dma offset written len device sent =>
      obtain rfl := Multiset.mem_singleton.mp ready
      obtain rfl : work = ⟨⟨⟨.I, dataBlk.copyPartial written offset len, ∅⟩, none,
        Multiset.erase {_} _, dma⟩, none, [], [], [.dmaAck device offset len written]⟩ :=
        Option.some.inj stepped.symm
      refine ⟨_, rfl, .free, ⟨trivial, placed.others⟩, ?_, covers⟩
      rw [System.afterDirectory, Multiset.erase_singleton]
      exact .idle _ dma
  | fetching dataBlk dma cache =>
      obtain rfl := Multiset.mem_singleton.mp ready
      obtain rfl : work = ⟨⟨⟨.M, dataBlk, {cache}⟩, none, Multiset.erase {_} _, dma⟩, none, [],
        [({cache}, dataBlk)], []⟩ := Option.some.inj stepped.symm
      refine ⟨dataBlk, rfl, .chain cache [], placed_fetched placed, ?_, covers⟩
      rw [System.afterDirectory, Multiset.erase_singleton]
      exact .owned dataBlk dma dataBlk cache []
  | returned dataBlk dma old cache offset len device sent =>
      obtain rfl := Multiset.mem_singleton.mp ready
      obtain rfl : work = ⟨⟨⟨.I, dataBlk, ∅⟩, none, Multiset.erase {_} _, dma⟩, none,
        [({cache}, .WB_ACK)], [], []⟩ := Option.some.inj stepped.symm
      refine ⟨dataBlk, rfl, .free, placed_acknowledged placed, ?_, covers⟩
      rw [System.afterDirectory, Multiset.erase_singleton]
      exact .idle dataBlk dma
  | returnedForRead dataBlk dma cache offset stored len device sent =>
      obtain rfl := Multiset.mem_singleton.mp ready
      obtain rfl : work = ⟨⟨⟨.I, dataBlk, ∅⟩, none, Multiset.erase {_} _, dma⟩, none,
        [({cache}, .WB_ACK)], [], []⟩ := Option.some.inj stepped.symm
      refine ⟨dataBlk, rfl, .free, placed_acknowledged placed, ?_, covers⟩
      rw [System.afterDirectory, Multiset.erase_singleton]
      exact .idle dataBlk dma
  | returnedForWrite dataBlk dma cache written device sent =>
      obtain rfl := Multiset.mem_singleton.mp ready
      obtain rfl : work = ⟨⟨⟨.I, written, ∅⟩, none, Multiset.erase {_} _, dma⟩, none,
        [({cache}, .WB_ACK)], [], [.dmaAck device 0 size written]⟩ := Option.some.inj stepped.symm
      refine ⟨written, ?_, .free, placed_acknowledged placed, ?_, covers⟩
      · exact congrArg some (copyPartial_line dataBlk written)
      · rw [System.afterDirectory, Multiset.erase_singleton]
        exact .idle written dma

theorem dma_step {msg : DMARequestMsg Device size} (coherent : Coherent system dataBlk)
    (ready : msg ∈ system.dir.dmaRequestToDir)
    (stepped : system.dir.doTransition (.dma msg) = some work) :
    ∃ after, run serveAny work.completed dataBlk = some after ∧
      Coherent (system.afterDirectory work) after := by
  obtain ⟨nodes, dir, completed⟩ := system
  have whole := coherent
  obtain ⟨shape, placed, agrees, covers⟩ := coherent
  have covers' : ∀ other ∈ dir.dmaRequestToDir.erase msg, Covers other :=
    fun other mem => covers other (Multiset.mem_of_mem_erase mem)
  have fits := covers msg ready
  obtain ⟨type, offset, len, requestor, blk⟩ := msg
  cases agrees with
  | idle dataBlk dma =>
      cases type with
      | READ =>
          obtain rfl : work = ⟨⟨⟨.ID, dataBlk, ∅⟩, some ⟨.ID, 0, DataBlock.clear, 0, some requestor⟩,
            {⟨.MEMORY_READ, none, dataBlk⟩}, dma.erase _⟩, none, [], [], []⟩ :=
            Option.some.inj stepped.symm
          exact ⟨dataBlk, rfl, .free, placed, .dmaRead _ _ _ _ _ _, covers'⟩
      | WRITE =>
          obtain rfl : work = ⟨⟨⟨.ID_W, dataBlk, ∅⟩, some ⟨.ID_W, offset, blk, len, some requestor⟩,
            {⟨.MEMORY_WB, none, Directory.partialBlock blk offset len⟩}, dma.erase _⟩, none, [], [],
            []⟩ := Option.some.inj stepped.symm
          exact ⟨dataBlk, rfl, .free, placed, .dmaWrite _ _ _ _ _ _ _, covers'⟩
  | dmaRead => cases type <;> cases stepped <;> exact coherent_unchanged whole rfl
  | dmaWrite => cases type <;> cases stepped <;> exact coherent_unchanged whole rfl
  | fetching => cases type <;> cases stepped <;> exact coherent_unchanged whole rfl
  | returned => cases type <;> cases stepped <;> exact coherent_unchanged whole rfl
  | callsForRead => cases type <;> cases stepped
  | callsForWrite => cases type <;> cases stepped
  | returnedForRead => cases type <;> cases stepped
  | returnedForWrite => cases type <;> cases stepped
  | owned dataBlk dma old head rest =>
      have told : Placed (sendForward nodes ({lastOf head rest}, .INV)) dataBlk (.chain head rest) := by
        refine placed.alike fun cache => ?_
        rw [sendForward]
        split
        · exact alike_inv (nodes cache)
        · exact .refl (nodes cache)
      cases type with
      | READ =>
          obtain rfl : work = ⟨⟨⟨.M_DRD, old, {lastOf head rest}⟩,
            some ⟨.M_DRD, offset, blk, len, some requestor⟩, 0, dma.erase _⟩, none,
            [({lastOf head rest}, .INV)], [], []⟩ := Option.some.inj stepped.symm
          exact ⟨dataBlk, rfl, .chain head rest, told, .callsForRead _ _ _ _ _ _ _ _ _, covers'⟩
      | WRITE =>
          obtain rfl : work = ⟨⟨⟨.M_DWR, old, {lastOf head rest}⟩,
            some ⟨.M_DWR, offset, blk, len, some requestor⟩, 0, dma.erase _⟩, none,
            [({lastOf head rest}, .INV)], [], []⟩ := Option.some.inj stepped.symm
          obtain ⟨rfl, rfl⟩ : offset = 0 ∧ len = size := fits rfl
          exact ⟨dataBlk, rfl, .chain head rest, told, .callsForWrite _ _ _ _ _ _ _, covers'⟩

theorem getx_step {cache : Cache} (coherent : Coherent system dataBlk)
    (ready : .GETX cache ∈ (system.nodes cache).requestFromCache)
    (stepped : system.dir.doTransition (.request (.GETX cache)) = some work) :
    ∃ after, run serveAny work.completed dataBlk = some after ∧
      Coherent (system.afterDirectory work) after := by
  obtain ⟨nodes, dir, completed⟩ := system
  have whole := coherent
  obtain ⟨shape, placed, agrees, covers⟩ := coherent
  obtain ⟨apart, waits⟩ := getx_outside placed ready
  cases agrees with
  | idle dataBlk dma =>
      obtain rfl : work = ⟨⟨⟨.IM, dataBlk, {cache}⟩, none, {⟨.MEMORY_READ, some cache, dataBlk⟩}, dma⟩,
        some (.GETX cache), [], [], []⟩ := Option.some.inj stepped.symm
      refine ⟨dataBlk, rfl, .fetching cache, placed.single cache ?_ ?_ rfl waits, .fetching _ _ _, covers⟩
      · exact fun other _ mem => List.not_mem_nil mem
      · exact fun other different => popRequest_other _ different
  | owned dataBlk dma old head rest =>
      obtain rfl : work = ⟨⟨⟨.M, old, {cache}⟩, none, 0, dma⟩, some (.GETX cache),
        [({lastOf head rest}, .GETX cache)], [], []⟩ := Option.some.inj stepped.symm
      refine ⟨dataBlk, rfl, .chain head (rest ++ [cache]), placed_joined placed apart waits, ?_, covers⟩
      have agrees : Agrees (⟨_, _, _, dma⟩ : Directory Cache Device size) _ _ :=
        .owned dataBlk dma old head (rest ++ [cache])
      rwa [lastOf_append] at agrees
  | _ => exact coherent_unchanged whole (Option.some.inj stepped.symm)

omit [DecidableEq Device] in
theorem event_owner {dir : Directory Cache Device size} {cache : Cache} {written : DataBlock size}
    (owner : cache ∈ dir.entry.owner) : dir.event (.request (.PUTX cache written)) = .PUTX :=
  if_pos owner

omit [DecidableEq Device] in
theorem event_notOwner {dir : Directory Cache Device size} {cache : Cache} {written : DataBlock size}
    (owner : cache ∉ dir.entry.owner) :
    dir.event (.request (.PUTX cache written)) = .PUTX_NotOwner :=
  if_neg owner

theorem putx_step {cache : Cache} {written : DataBlock size} (coherent : Coherent system dataBlk)
    (ready : .PUTX cache written ∈ (system.nodes cache).requestFromCache)
    (stepped : system.dir.doTransition (.request (.PUTX cache written)) = some work) :
    ∃ after, run serveAny work.completed dataBlk = some after ∧
      Coherent (system.afterDirectory work) after := by
  obtain ⟨nodes, dir, completed⟩ := system
  have whole := coherent
  obtain ⟨shape, placed, agrees, covers⟩ := coherent
  cases agrees with
  | idle dataBlk dma =>
      obtain rfl : work = ⟨⟨⟨.I, dataBlk, ∅⟩, none, 0, dma⟩, some (.PUTX cache written),
        [({cache}, .WB_NACK)], [], []⟩ := Option.some.inj stepped.symm
      exact ⟨dataBlk, rfl, .free, placed_refused placed ready nofun, .idle dataBlk dma, covers⟩
  | dmaRead => exact coherent_unchanged whole (Option.some.inj stepped.symm)
  | dmaWrite => exact coherent_unchanged whole (Option.some.inj stepped.symm)
  | returned => exact coherent_unchanged whole (Option.some.inj stepped.symm)
  | returnedForRead => cases stepped
  | returnedForWrite => cases stepped
  | fetching dataBlk dma other =>
      by_cases owner : cache ∈ ({other} : Finset Cache)
      · rw [Directory.doTransition, event_owner owner] at stepped
        exact coherent_unchanged whole (Option.some.inj stepped.symm)
      · rw [Directory.doTransition, event_notOwner owner] at stepped
        exact coherent_unchanged whole (Option.some.inj stepped.symm)
  | owned dataBlk dma old head rest =>
      by_cases owner : cache ∈ ({lastOf head rest} : Finset Cache)
      · rw [Directory.doTransition, event_owner owner] at stepped
        obtain ⟨rfl, placed⟩ := placed_returned placed ready (Finset.mem_singleton.mp owner)
        obtain rfl : work = ⟨⟨⟨.MI, old, ∅⟩, some ⟨.MI, 0, written, 0, none⟩,
          {⟨.MEMORY_WB, some cache, written⟩}, dma⟩, some (.PUTX cache written), [], [], []⟩ :=
          Option.some.inj stepped.symm
        exact ⟨written, rfl, .released cache, placed, .returned _ _ _ _ _ _ _ _, covers⟩
      · rw [Directory.doTransition, event_notOwner owner] at stepped
        obtain rfl : work = ⟨⟨⟨.M, old, {lastOf head rest}⟩, none, 0, dma⟩,
          some (.PUTX cache written), [({cache}, .WB_NACK)], [], []⟩ := Option.some.inj stepped.symm
        refine ⟨dataBlk, rfl, .chain head rest, placed_refused placed ready ?_, .owned _ _ _ _ _, covers⟩
        rintro ⟨⟩
        exact owner (Finset.mem_singleton_self cache)
  | callsForRead dataBlk dma old head rest offset stored len device =>
      by_cases owner : cache ∈ ({lastOf head rest} : Finset Cache)
      · rw [Directory.doTransition, event_owner owner] at stepped
        obtain ⟨rfl, placed⟩ := placed_returned placed ready (Finset.mem_singleton.mp owner)
        obtain rfl : work = ⟨⟨⟨.M_DRDI, written, ∅⟩, some ⟨.M_DRDI, offset, stored, len, some device⟩,
          {⟨.MEMORY_WB, some cache, written⟩}, dma⟩, some (.PUTX cache written), [], [],
          [.dmaData device written]⟩ := Option.some.inj stepped.symm
        refine ⟨written, ?_, .released cache, placed, .returnedForRead _ _ _ _ _ _ _ _, covers⟩
        simp [run_cons, serveAny]
      · rw [Directory.doTransition, event_notOwner owner] at stepped
        cases stepped
  | callsForWrite dataBlk dma old head rest stored device =>
      by_cases owner : cache ∈ ({lastOf head rest} : Finset Cache)
      · rw [Directory.doTransition, event_owner owner] at stepped
        obtain ⟨rfl, placed⟩ := placed_returned placed ready (Finset.mem_singleton.mp owner)
        obtain rfl : work = ⟨⟨⟨.M_DWRI, written, ∅⟩, some ⟨.M_DWRI, 0, stored, size, some device⟩,
          {⟨.MEMORY_WB, some cache, Directory.partialBlock stored 0 size⟩}, dma⟩,
          some (.PUTX cache written), [], [], []⟩ := Option.some.inj stepped.symm
        exact ⟨written, rfl, .released cache, placed, .returnedForWrite _ _ _ _ _ _, covers⟩
      · rw [Directory.doTransition, event_notOwner owner] at stepped
        cases stepped

end

end GemFi.CoherenceSteps
