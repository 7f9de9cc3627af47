import GemFi.CoherenceRoles

/-!
What a transition of an L1 cache does, from each of its roles. An invalidation may come to a cache
that has no transition for it; any other message does not.
-/

namespace GemFi.CoherenceMoves

open CoherenceProtocol CoherenceRoles L1Cache

variable {Cache : Type} {size : ℕ} [DecidableEq Cache] {self : Cache} {node : L1Cache Cache size}
  {dataBlk : DataBlock size} {request : RubyRequest}

def AtPort (node : L1Cache Cache size) : CacheInput Cache size → Prop
  | .mandatory request => node.mandatoryQueue = some request
  | .victim => node.cacheEntry.isSome
  | .forward msg => msg ∈ node.forwardToCache
  | .response dataBlk => dataBlk ∈ node.responseToCache

omit [DecidableEq Cache] in
theorem no_mandatory (asks : Asks request node) {other : RubyRequest} :
    ¬ AtPort node (.mandatory other) := by
  intro ready
  rw [AtPort, asks.popped] at ready
  cases ready

omit [DecidableEq Cache] in
theorem no_victim {state : CacheState} (returns : Returns state dataBlk node) :
    ¬ AtPort node .victim := by
  intro ready
  rw [AtPort, returns.entry] at ready
  cases ready

section

variable {requests : Multiset (RequestMsg Cache size)} {forwards : Multiset (ForwardMsg Cache)}
  {responses : Multiset (DataBlock size)} {msg : ForwardMsg Cache} {input : CacheInput Cache size}
  {work : Work Cache size}

theorem mail_forward (mail : Mail requests forwards responses node)
    (ready : AtPort node (.forward msg)) : msg = .INV ∨ msg ∈ forwards := by
  rw [or_iff_not_imp_left]
  intro other
  rw [← mail.forwards]
  exact mem_pending ready other

theorem no_response (mail : Mail requests forwards 0 node) :
    ¬ AtPort node (.response dataBlk) := by
  intro ready
  rw [AtPort, mail.responses] at ready
  exact Multiset.notMem_zero _ ready

theorem popped_inv (mail : Mail requests forwards responses node) :
    Mail requests forwards responses
      { node with forwardToCache := node.forwardToCache.erase .INV } :=
  ⟨mail.requests, (pending_erase_inv node _ rfl).trans mail.forwards, mail.responses⟩

theorem mail_popped (mail : Mail requests (msg ::ₘ forwards) responses node) (other : msg ≠ .INV)
    {node' : L1Cache Cache size} (requestsKept : node'.requestFromCache = node.requestFromCache)
    (popped : node'.forwardToCache = node.forwardToCache.erase msg)
    (responsesKept : node'.responseToCache = node.responseToCache) :
    Mail requests forwards responses node' := by
  refine ⟨requestsKept.trans mail.requests, ?_, responsesKept.trans mail.responses⟩
  rw [pending_erase node _ msg other popped, mail.forwards, Multiset.erase_cons_head]

def StepsTo (self : Cache) (node : L1Cache Cache size) (input : CacheInput Cache size)
    (after : Work Cache size → Prop) : Prop :=
  -- the transition ends with `after`, or there is none for an invalidation
  match doTransition self node input with
  | some work => after work
  | none => input = .forward .INV

theorem StepsTo.of_eq {after : Work Cache size → Prop} {work : Work Cache size}
    (stepped : doTransition self node input = some work) (holds : after work) :
    StepsTo self node input after := by
  rw [StepsTo, stepped]
  exact holds

theorem StepsTo.mono {after later : Work Cache size → Prop} (steps : StepsTo self node input after)
    (weaker : ∀ work, after work → later work) : StepsTo self node input later := by
  rw [StepsTo] at steps ⊢
  split at steps
  · exact weaker _ steps
  · exact steps

theorem StepsTo.of_some {after : Work Cache size → Prop} {work : Work Cache size}
    (steps : StepsTo self node input after) (stepped : doTransition self node input = some work) :
    after work := by
  rw [StepsTo, stepped] at steps
  exact steps

theorem StepsTo.isSome {after : Work Cache size → Prop} (steps : StepsTo self node input after)
    (other : input ≠ .forward .INV) : (doTransition self node input).isSome := by
  rw [StepsTo] at steps
  split at steps
  · rename_i stepped
    rw [stepped]
    rfl
  · exact absurd steps other

theorem returns_stop {state : CacheState} (returns : Returns state dataBlk node)
    (gone : state = .II ∨ state = .MII) {after : Work Cache size → Prop} :
    StepsTo self node (.forward .INV) after := by
  rw [StepsTo, returns.not_invalidated gone]

theorem asks_step (asks : Asks request node) {next : Multiset (ForwardMsg Cache)}
    (onward : ∀ msg ∈ next, ∃ requestor, msg = .GETX requestor)
    (mail : Mail requests next 0 node) (ready : AtPort node input) :
    StepsTo self node input (· = ⟨node, [], []⟩) := by
  refine .of_eq (asks.stalls ?_) rfl
  cases input with
  | mandatory other => exact absurd ready (no_mandatory asks)
  | victim => exact .inl rfl
  | response dataBlk => exact absurd ready (no_response mail)
  | forward msg =>
      obtain rfl | mem := mail_forward mail ready
      · exact .inr (.inr rfl)
      · obtain ⟨requestor, rfl⟩ := onward msg mem
        exact .inr (.inl rfl)

theorem waiting_step {next : Multiset (ForwardMsg Cache)} (waiting : Waiting next node)
    (onward : ∀ msg ∈ next, ∃ requestor, msg = .GETX requestor) (ready : AtPort node input) :
    StepsTo self node input (· = ⟨node, [], []⟩) := by
  obtain ⟨⟨request, asks⟩, mail⟩ := waiting
  exact asks_step asks onward mail ready

theorem released_step (released : Released node) (ready : AtPort node input) :
    StepsTo self node input fun work =>
      work.responses = [] ∧ work.completed = [] ∧ Released work.node := by
  obtain ⟨⟨dataBlk, returns⟩, mail⟩ := released
  cases input with
  | mandatory request =>
      refine .of_eq (returns.stalls (.inl rfl)) ?_
      exact ⟨rfl, rfl, ⟨dataBlk, returns⟩, mail⟩
  | victim => exact absurd ready (no_victim returns)
  | response dataBlk => exact absurd ready (no_response mail)
  | forward msg =>
      obtain rfl | mem := mail_forward mail ready
      · refine .of_eq returns.invalidated ?_
        exact ⟨rfl, rfl, ⟨dataBlk, returns.entry, returns.tbe, returns.quiet⟩, (popped_inv mail)⟩
      · exact absurd mem (Multiset.notMem_zero msg)

theorem outside_step (outside : Outside self node) (ready : AtPort node input) :
    StepsTo self node input fun work =>
      work.responses = [] ∧ work.completed = [] ∧ Outside self work.node := by
  cases outside with
  | idle invalid mail =>
      cases input with
      | mandatory request =>
          refine .of_eq (invalid.asks ready) ?_
          have table : node.requestTable = some request := invalid.quiet.symm.trans ready
          refine ⟨rfl, rfl, .requested request ⟨rfl, ⟨_, rfl⟩, table, rfl⟩
            ⟨?_, mail.forwards, mail.responses⟩⟩
          exact congrArg _ mail.requests
      | victim =>
          refine .of_eq invalid.evicts ?_
          exact ⟨rfl, rfl, .idle ⟨invalid.tbe, nofun, invalid.quiet⟩
            ⟨mail.requests, mail.forwards, mail.responses⟩⟩
      | response dataBlk => exact absurd ready (no_response mail)
      | forward msg =>
          obtain rfl | mem := mail_forward mail ready
          · refine .of_eq invalid.invalidated ?_
            exact ⟨rfl, rfl, .idle ⟨invalid.tbe, invalid.entry, invalid.quiet⟩ (popped_inv mail)⟩
          · exact absurd mem (Multiset.notMem_zero msg)
  | requested request asks mail =>
      refine (asks_step asks (fun msg mem => absurd mem (Multiset.notMem_zero msg)) mail ready).mono ?_
      rintro _ rfl
      exact ⟨rfl, rfl, .requested request asks mail⟩
  | gave dataBlk returns mail =>
      cases input with
      | mandatory request =>
          refine .of_eq (returns.stalls (.inr (.inl rfl))) ?_
          exact ⟨rfl, rfl, .gave dataBlk returns mail⟩
      | victim => exact absurd ready (no_victim returns)
      | response dataBlk => exact absurd ready (no_response mail)
      | forward msg =>
          obtain rfl | mem := mail_forward mail ready
          · exact returns_stop returns (.inl rfl)
          · exact absurd mem (Multiset.notMem_zero msg)
  | refused dataBlk returns mail =>
      cases input with
      | mandatory request =>
          refine .of_eq (returns.stalls (.inr (.inl rfl))) ?_
          exact ⟨rfl, rfl, .refused dataBlk returns mail⟩
      | victim => exact absurd ready (no_victim returns)
      | response dataBlk => exact absurd ready (no_response mail)
      | forward msg =>
          obtain rfl | mem := mail_forward mail ready
          · exact returns_stop returns (.inl rfl)
          · obtain rfl := Multiset.mem_singleton.mp mem
            refine .of_eq returns.refused_last ?_
            exact ⟨rfl, rfl, .idle ⟨rfl, by simp [returns.entry], returns.quiet⟩
              (mail_popped mail nofun rfl rfl rfl)⟩
  | acknowledged dataBlk returns mail =>
      cases input with
      | mandatory request =>
          refine .of_eq (returns.stalls (.inl rfl)) ?_
          exact ⟨rfl, rfl, .acknowledged dataBlk returns mail⟩
      | victim => exact absurd ready (no_victim returns)
      | response dataBlk => exact absurd ready (no_response mail)
      | forward msg =>
          obtain rfl | mem := mail_forward mail ready
          · refine .of_eq returns.invalidated ?_
            exact ⟨rfl, rfl, .acknowledged dataBlk ⟨returns.entry, returns.tbe, returns.quiet⟩
              (popped_inv mail)⟩
          · obtain rfl := Multiset.mem_singleton.mp mem
            refine .of_eq returns.acknowledged ?_
            exact ⟨rfl, rfl, .idle ⟨rfl, by simp [returns.entry], returns.quiet⟩
              (mail_popped mail nofun rfl rfl rfl)⟩

omit [DecidableEq Cache] in
theorem mem_follow {rest : List Cache} (mem : msg ∈ follow rest) :
    ∃ requestor later, rest = requestor :: later ∧ msg = .GETX requestor := by
  cases rest with
  | nil => exact absurd mem (Multiset.notMem_zero msg)
  | cons requestor later => exact ⟨requestor, later, rfl, Multiset.mem_singleton.mp mem⟩

theorem mail_passed {requestor : Cache} {later : List Cache}
    (mail : Mail requests (follow (requestor :: later)) responses node)
    {node' : L1Cache Cache size}
    (requestsKept : node'.requestFromCache = node.requestFromCache)
    (popped : node'.forwardToCache = node.forwardToCache.erase (.GETX requestor))
    (responsesKept : node'.responseToCache = node.responseToCache) : Mail requests 0 responses node' := by
  have mail : Mail requests (.GETX requestor ::ₘ 0) responses node := mail
  exact mail_popped mail nofun requestsKept popped responsesKept

/-- What a transition of the head does: it serves its processor and stays the head, or it passes
the data on. -/
def Moves (self : Cache) (rest : List Cache) (dataBlk : DataBlock size) (work : Work Cache size) : Prop :=
  (∃ after, Transitions.run serve work.completed dataBlk = some after ∧ work.responses = [] ∧
    Head self (follow rest) after work.node) ∨
  ∃ requestor later, rest = requestor :: later ∧ work.responses = [({requestor}, dataBlk)] ∧
    work.completed = [] ∧ Outside self work.node

theorem Moves.stays {rest : List Cache} (head : Head self (follow rest) dataBlk node) :
    Moves self rest dataBlk ⟨node, [], []⟩ :=
  .inl ⟨dataBlk, rfl, rfl, head⟩

variable {rest : List Cache}

theorem asks_move (asks : Asks request node) (mail : Mail 0 (follow rest) {dataBlk} node)
    (ready : AtPort node input) : StepsTo self node input (Moves self rest dataBlk) := by
  have waits (event : input.event = .Replacement ∨ input.event = .Fwd_GETX ∨ input.event = .Inv) :
      StepsTo self node input (Moves self rest dataBlk) :=
    .of_eq (asks.stalls event) (.stays (.arriving request asks mail))
  cases input with
  | mandatory other => exact absurd ready (no_mandatory asks)
  | victim => exact waits (.inl rfl)
  | forward msg =>
      obtain rfl | mem := mail_forward mail ready
      · exact waits (.inr (.inr rfl))
      · obtain ⟨requestor, _, _, rfl⟩ := mem_follow mem
        exact waits (.inr (.inl rfl))
  | response arrived =>
      rw [AtPort, mail.responses, Multiset.mem_singleton] at ready
      subst ready
      have emptied : node.responseToCache.erase arrived = 0 := by
        rw [mail.responses]
        exact Multiset.erase_cons_head arrived 0
      have quiet : node.mandatoryQueue = none := asks.popped
      cases load : request.isLoad with
      | true =>
          refine .of_eq (asks.loads load) ?_
          refine .inl ⟨arrived, ?_, rfl, .owning ⟨rfl, rfl, quiet⟩ ⟨mail.requests, mail.forwards, emptied⟩⟩
          simp [Transitions.run_cons, serve]
      | false =>
          refine .of_eq (asks.stores load) ?_
          exact .inl ⟨_, rfl, rfl, .owning ⟨rfl, rfl, quiet⟩ ⟨mail.requests, mail.forwards, emptied⟩⟩

theorem holds_move (holds : Holds dataBlk node) (mail : Mail 0 (follow rest) 0 node)
    (ready : AtPort node input) : StepsTo self node input (Moves self rest dataBlk) := by
  have leaves (event : input.event = .Replacement ∨ input.event = .Inv) :
      StepsTo self node input (Moves self rest dataBlk) := by
    refine .of_eq (holds.evicts event) ?_
    refine .stays (.evicting ⟨rfl, rfl, holds.quiet⟩ ⟨?_, mail.forwards, mail.responses⟩)
    exact congrArg _ mail.requests
  cases input with
  | mandatory request =>
      cases load : request.isLoad with
      | true =>
          refine .of_eq (holds.loads ready load) ?_
          refine .inl ⟨dataBlk, ?_, rfl, .owning ⟨holds.entry, holds.tbe, rfl⟩
            ⟨mail.requests, mail.forwards, mail.responses⟩⟩
          simp [Transitions.run_cons, serve]
      | false =>
          refine .of_eq (holds.stores ready load) ?_
          exact .inl ⟨_, rfl, rfl, .owning ⟨rfl, holds.tbe, rfl⟩
            ⟨mail.requests, mail.forwards, mail.responses⟩⟩
  | victim => exact leaves (.inl rfl)
  | response arrived => exact absurd ready (no_response mail)
  | forward msg =>
      obtain rfl | mem := mail_forward mail ready
      · exact leaves (.inr rfl)
      · obtain ⟨requestor, later, rfl, rfl⟩ := mem_follow mem
        refine .of_eq (holds.forwards requestor) ?_
        refine .inr ⟨requestor, later, rfl, rfl, rfl, .idle ⟨holds.tbe, ?_, holds.quiet⟩
          (mail_passed mail rfl rfl rfl)⟩
        intro entry given
        cases given
        rfl

theorem head_step (head : Head self (follow rest) dataBlk node) (ready : AtPort node input) :
    StepsTo self node input (Moves self rest dataBlk) := by
  cases head with
  | arriving request asks mail => exact asks_move asks mail ready
  | owning holds mail => exact holds_move holds mail ready
  | evicting returns mail =>
      cases input with
      | mandatory request =>
          refine .of_eq (returns.stalls (.inl rfl)) ?_
          exact .stays (.evicting returns mail)
      | victim => exact absurd ready (no_victim returns)
      | response arrived => exact absurd ready (no_response mail)
      | forward msg =>
          obtain rfl | mem := mail_forward mail ready
          · refine .of_eq returns.invalidated ?_
            exact .stays (.evicting ⟨returns.entry, returns.tbe, returns.quiet⟩ (popped_inv mail))
          · obtain ⟨requestor, later, rfl, rfl⟩ := mem_follow mem
            refine .of_eq (returns.forwards requestor) ?_
            exact .inr ⟨requestor, later, rfl, rfl, rfl, .gave dataBlk ⟨returns.entry, rfl, returns.quiet⟩
              (mail_passed mail rfl rfl rfl)⟩
  | nacked owed returns mail =>
      cases input with
      | mandatory request =>
          refine .of_eq (returns.stalls (.inl rfl)) ?_
          exact .stays (.nacked owed returns mail)
      | victim => exact absurd ready (no_victim returns)
      | response arrived => exact absurd ready (no_response mail)
      | forward msg =>
          obtain rfl | mem := mail_forward mail ready
          · refine .of_eq returns.invalidated ?_
            exact .stays (.nacked owed ⟨returns.entry, returns.tbe, returns.quiet⟩ (popped_inv mail))
          · obtain rfl | mem := Multiset.mem_cons.mp mem
            · refine .of_eq returns.refused ?_
              exact .stays (.spared owed ⟨returns.entry, rfl, returns.quiet⟩
                (mail_popped mail nofun rfl rfl rfl))
            · obtain ⟨requestor, later, rfl, rfl⟩ := mem_follow mem
              refine .of_eq (returns.forwards requestor) ?_
              have swapped : Mail 0 (.GETX requestor ::ₘ {.WB_NACK}) 0 node :=
                (Multiset.cons_swap _ _ 0) ▸ mail
              exact .inr ⟨requestor, later, rfl, rfl, rfl, .refused dataBlk
                ⟨returns.entry, rfl, returns.quiet⟩ (mail_popped swapped nofun rfl rfl rfl)⟩
  | spared owed returns mail =>
      cases input with
      | mandatory request =>
          refine .of_eq (returns.stalls (.inr (.inr rfl))) ?_
          exact .stays (.spared owed returns mail)
      | victim => exact absurd ready (no_victim returns)
      | response arrived => exact absurd ready (no_response mail)
      | forward msg =>
          obtain rfl | mem := mail_forward mail ready
          · exact returns_stop returns (.inr rfl)
          · obtain ⟨requestor, later, rfl, rfl⟩ := mem_follow mem
            refine .of_eq (returns.forwards_last requestor) ?_
            refine .inr ⟨requestor, later, rfl, rfl, rfl, .idle ⟨rfl, ?_, returns.quiet⟩
              (mail_passed mail rfl rfl rfl)⟩
            simp [returns.entry]

end

end GemFi.CoherenceMoves
