import GemFi.CoherenceMoves

/-!
Who has the line. The data passes from one cache to the next along a chain: its head has the data
or will be the next to get it, each cache behind it has asked for the line, and the request of the
next one is forwarded to it. The directory knows the last of the chain only. Each step of the
protocol leaves the caches in such an arrangement that agrees with the directory, and what it
reports is what a block accessed in one piece would report.
-/

namespace GemFi.CoherenceOwnership

open CoherenceProtocol CoherenceRoles CoherenceMoves

variable {Cache Device : Type} {size : ℕ}

/-! ## Arrangements of the caches -/

inductive Shape (Cache : Type) where
  | free
  | fetching (cache : Cache)
  | chain (head : Cache) (rest : List Cache)
  | released (cache : Cache)

namespace Shape

def members : Shape Cache → List Cache
  | .free => []
  | .fetching cache | .released cache => [cache]
  | .chain head rest => head :: rest

end Shape

def lastOf : Cache → List Cache → Cache
  | head, [] => head
  | _, next :: rest => lastOf next rest

@[simp] theorem lastOf_append (head : Cache) (rest : List Cache) (cache : Cache) :
    lastOf head (rest ++ [cache]) = cache := by
  induction rest generalizing head with
  | nil => rfl
  | cons next rest ih => exact ih next

theorem lastOf_mem (head : Cache) (rest : List Cache) : lastOf head rest ∈ head :: rest := by
  induction rest generalizing head with
  | nil => exact List.mem_singleton_self head
  | cons next rest ih => exact List.mem_cons_of_mem head (ih next)

theorem lastOf_ne {head : Cache} {rest : List Cache} (nodup : (head :: rest).Nodup)
    (longer : rest ≠ []) : lastOf head rest ≠ head := by
  cases rest with
  | nil => exact absurd rfl longer
  | cons next rest =>
      intro same
      exact (List.nodup_cons.mp nodup).1 (same ▸ lastOf_mem next rest)

variable [DecidableEq Cache]

def Queue (nodes : Cache → L1Cache Cache size) : List Cache → Prop
  | [] => True
  | cache :: rest => Waiting (follow rest) (nodes cache) ∧ Queue nodes rest

def Plays (nodes : Cache → L1Cache Cache size) (dataBlk : DataBlock size) : Shape Cache → Prop
  | .free => True
  | .fetching cache => Waiting 0 (nodes cache)
  | .chain head rest =>
      (head :: rest).Nodup ∧ Head head (follow rest) dataBlk (nodes head) ∧ Queue nodes rest
  | .released cache => Released (nodes cache)

structure Placed (nodes : Cache → L1Cache Cache size) (dataBlk : DataBlock size)
    (shape : Shape Cache) : Prop where
  members : Plays nodes dataBlk shape
  others : ∀ cache, cache ∉ shape.members → Outside cache (nodes cache)

def Covers (msg : DMARequestMsg Device size) : Prop :=
  msg.type = .WRITE → msg.offset = 0 ∧ msg.len = size

/-- What the directory knows of an arrangement, in each of its states, when the line has the value
`dataBlk`. -/
inductive Agrees : Directory Cache Device size → DataBlock size → Shape Cache → Prop
  | idle (dataBlk dma) : Agrees ⟨⟨.I, dataBlk, ∅⟩, none, 0, dma⟩ dataBlk .free
  | dmaRead (dataBlk dma offset old len device) :
      Agrees ⟨⟨.ID, dataBlk, ∅⟩, some ⟨.ID, offset, old, len, some device⟩,
        {⟨.MEMORY_READ, none, dataBlk⟩}, dma⟩ dataBlk .free
  | dmaWrite (dataBlk dma offset written len device sent) :
      Agrees ⟨⟨.ID_W, dataBlk, ∅⟩, some ⟨.ID_W, offset, written, len, some device⟩,
        {⟨.MEMORY_WB, none, sent⟩}, dma⟩ dataBlk .free
  | fetching (dataBlk dma cache) :
      Agrees ⟨⟨.IM, dataBlk, {cache}⟩, none, {⟨.MEMORY_READ, some cache, dataBlk⟩}, dma⟩ dataBlk
        (.fetching cache)
  | owned (dataBlk dma old head rest) :
      Agrees ⟨⟨.M, old, {lastOf head rest}⟩, none, 0, dma⟩ dataBlk (.chain head rest)
  | callsForRead (dataBlk dma old head rest offset stored len device) :
      Agrees ⟨⟨.M_DRD, old, {lastOf head rest}⟩, some ⟨.M_DRD, offset, stored, len, some device⟩,
        0, dma⟩ dataBlk (.chain head rest)
  | callsForWrite (dataBlk dma old head rest written device) :
      Agrees ⟨⟨.M_DWR, old, {lastOf head rest}⟩, some ⟨.M_DWR, 0, written, size, some device⟩,
        0, dma⟩ dataBlk (.chain head rest)
  | returned (dataBlk dma old cache offset len device sent) :
      Agrees ⟨⟨.MI, old, ∅⟩, some ⟨.MI, offset, dataBlk, len, device⟩,
        {⟨.MEMORY_WB, some cache, sent⟩}, dma⟩ dataBlk (.released cache)
  | returnedForRead (dataBlk dma cache offset stored len device sent) :
      Agrees ⟨⟨.M_DRDI, dataBlk, ∅⟩, some ⟨.M_DRDI, offset, stored, len, device⟩,
        {⟨.MEMORY_WB, some cache, sent⟩}, dma⟩ dataBlk (.released cache)
  | returnedForWrite (dataBlk dma cache written device sent) :
      Agrees ⟨⟨.M_DWRI, dataBlk, ∅⟩, some ⟨.M_DWRI, 0, written, size, some device⟩,
        {⟨.MEMORY_WB, some cache, sent⟩}, dma⟩ dataBlk (.released cache)

omit [DecidableEq Cache] in
/-- Of a chain, the directory knows its last only. -/
theorem Agrees.chain {dir : Directory Cache Device size} {dataBlk dataBlk' : DataBlock size}
    {head head' : Cache} {rest rest' : List Cache}
    (agrees : Agrees dir dataBlk (.chain head rest)) (same : lastOf head' rest' = lastOf head rest) :
    Agrees dir dataBlk' (.chain head' rest') := by
  cases agrees with
  | owned _ dma old => rw [← same]; exact .owned _ dma old head' rest'
  | callsForRead _ dma old _ _ offset stored len device =>
      rw [← same]; exact .callsForRead _ dma old head' rest' offset stored len device
  | callsForWrite _ dma old _ _ written device =>
      rw [← same]; exact .callsForWrite _ dma old head' rest' written device

def Coherent (system : System Cache Device size) (dataBlk : DataBlock size) : Prop :=
  -- the line has the value `dataBlk`
  ∃ shape, Placed system.nodes dataBlk shape ∧ Agrees system.dir dataBlk shape ∧
    ∀ msg ∈ system.dir.dmaRequestToDir, Covers msg

theorem coherent_init (dataBlk : DataBlock size) :
    Coherent (System.init dataBlk : System Cache Device size) dataBlk := by
  refine ⟨.free, ⟨trivial, ?_⟩, .idle dataBlk 0, fun msg mem => absurd mem (Multiset.notMem_zero msg)⟩
  intro cache _
  exact .idle ⟨rfl, nofun, rfl⟩ ⟨rfl, rfl, rfl⟩

/-! ## From one arrangement to another -/

section

variable {nodes nodes' : Cache → L1Cache Cache size} {dataBlk dataBlk' : DataBlock size}
  {shape : Shape Cache} {cache head next : Cache} {rest : List Cache}

theorem Queue.congr (queue : Queue nodes rest) (same : ∀ cache ∈ rest, nodes' cache = nodes cache) :
    Queue nodes' rest := by
  induction rest with
  | nil => trivial
  | cons cache rest ih =>
      refine ⟨?_, ih queue.2 fun cache mem => same cache (List.mem_cons_of_mem _ mem)⟩
      rw [same cache List.mem_cons_self]
      exact queue.1

theorem Queue.waits (queue : Queue nodes rest) (mem : cache ∈ rest) :
    ∃ later, Waiting (follow later) (nodes cache) := by
  induction rest with
  | nil => cases mem
  | cons first rest ih =>
      obtain rfl | mem := List.mem_cons.mp mem
      · exact ⟨rest, queue.1⟩
      · exact ih queue.2 mem

theorem Plays.congr (plays : Plays nodes dataBlk shape)
    (same : ∀ cache ∈ shape.members, nodes' cache = nodes cache) : Plays nodes' dataBlk shape := by
  cases shape with
  | free => trivial
  | fetching cache =>
      rw [Plays, same cache List.mem_cons_self]
      exact plays
  | released cache =>
      rw [Plays, same cache List.mem_cons_self]
      exact plays
  | chain head rest =>
      obtain ⟨nodup, plays, queue⟩ := plays
      refine ⟨nodup, ?_, queue.congr fun cache mem => same cache (List.mem_cons_of_mem _ mem)⟩
      rw [same head List.mem_cons_self]
      exact plays

/-- One cache outside changes and stays outside. -/
theorem Placed.outside (placed : Placed nodes dataBlk shape) (apart : cache ∉ shape.members)
    (same : ∀ other, other ≠ cache → nodes' other = nodes other)
    (outside : Outside cache (nodes' cache)) : Placed nodes' dataBlk shape := by
  refine ⟨placed.members.congr fun other mem => same other ?_, ?_⟩
  · rintro rfl
    exact apart mem
  · intro other away
    by_cases here : other = cache
    · exact here ▸ outside
    · rw [same other here]
      exact placed.others other away

/-- The arrangement of a single cache changes to another one of that cache. -/
theorem Placed.single {before after : Shape Cache} (placed : Placed nodes dataBlk before)
    (cache : Cache)
    (only : ∀ other, other ≠ cache → other ∉ before.members)
    (same : ∀ other, other ≠ cache → nodes' other = nodes other)
    (members : after.members = [cache]) (plays : Plays nodes' dataBlk' after) :
    Placed nodes' dataBlk' after := by
  refine ⟨plays, ?_⟩
  intro other away
  have different : other ≠ cache := by
    rintro rfl
    exact away (members ▸ List.mem_singleton_self other)
  rw [same other different]
  exact placed.others other (only other different)

/-- The data comes back, and the cache it came from is let go. -/
theorem Placed.free {before : Shape Cache} (placed : Placed nodes dataBlk before) (cache : Cache)
    (only : ∀ other, other ≠ cache → other ∉ before.members)
    (same : ∀ other, other ≠ cache → nodes' other = nodes other)
    (outside : Outside cache (nodes' cache)) : Placed nodes' dataBlk' .free := by
  refine ⟨trivial, ?_⟩
  intro other _
  by_cases here : other = cache
  · exact here ▸ outside
  · rw [same other here]
    exact placed.others other (only other here)

/-- The head changes and stays the head. -/
theorem Placed.stays (placed : Placed nodes dataBlk (.chain head rest))
    (same : ∀ other, other ≠ head → nodes' other = nodes other)
    (plays : Head head (follow rest) dataBlk' (nodes' head)) :
    Placed nodes' dataBlk' (.chain head rest) := by
  obtain ⟨nodup, _, queue⟩ := placed.members
  have fresh := (List.nodup_cons.mp nodup).1
  refine ⟨⟨nodup, plays, queue.congr fun other mem => same other fun eq => fresh (eq ▸ mem)⟩, ?_⟩
  intro other away
  rw [same other fun eq => away (eq ▸ List.mem_cons_self)]
  exact placed.others other away

/-- The head passes the data on to the next of the chain. -/
theorem Placed.pass (placed : Placed nodes dataBlk (.chain head (next :: rest)))
    (same : ∀ other, other ≠ head → other ≠ next → nodes' other = nodes other)
    (outside : Outside head (nodes' head))
    (sent : nodes' next =
      { nodes next with responseToCache := dataBlk ::ₘ (nodes next).responseToCache }) :
    Placed nodes' dataBlk (.chain next rest) := by
  obtain ⟨nodup, _, ⟨⟨request, asks⟩, mail⟩, queue⟩ := placed.members
  obtain ⟨headFresh, tailNodup⟩ := List.nodup_cons.mp nodup
  have nextFresh := (List.nodup_cons.mp tailNodup).1
  refine ⟨⟨tailNodup, ?_, queue.congr ?_⟩, ?_⟩
  · rw [sent]
    refine .arriving request ⟨asks.entry, asks.tbe, asks.table, asks.popped⟩
      ⟨mail.requests, mail.forwards, ?_⟩
    exact congrArg _ mail.responses
  · intro other mem
    exact same other (fun eq => headFresh (eq ▸ List.mem_cons_of_mem _ mem)) fun eq =>
      nextFresh (eq ▸ mem)
  · intro other away
    by_cases here : other = head
    · exact here ▸ outside
    · rw [same other here fun eq => away (eq ▸ List.mem_cons_self)]
      exact placed.others other fun mem => (List.mem_cons.mp mem).elim here away

/-- A request of the last cache of a list goes to the cache that joins it. -/
theorem Queue.join (queue : Queue nodes (head :: rest)) (nodup : (head :: rest).Nodup)
    (fresh : cache ∉ head :: rest)
    (same : ∀ other, other ≠ cache → other ≠ lastOf head rest → nodes' other = nodes other)
    (linked : nodes' (lastOf head rest) = { nodes (lastOf head rest) with
      forwardToCache := .GETX cache ::ₘ (nodes (lastOf head rest)).forwardToCache })
    (waits : Waiting 0 (nodes' cache)) : Queue nodes' (head :: rest ++ [cache]) := by
  induction rest generalizing head with
  | nil =>
      obtain ⟨⟨⟨request, asks⟩, mail⟩, _⟩ := queue
      refine ⟨?_, waits, trivial⟩
      rw [lastOf] at linked
      rw [linked]
      exact ⟨⟨request, asks.entry, asks.tbe, asks.table, asks.popped⟩, mail.sent nofun⟩
  | cons next rest ih =>
      obtain ⟨first, later⟩ := queue
      have apart : lastOf head (next :: rest) ≠ head := lastOf_ne nodup (by simp)
      refine ⟨?_, ih later nodup.of_cons (fun mem => fresh (List.mem_cons_of_mem _ mem)) same linked⟩
      rw [same head (fun eq => fresh (eq ▸ List.mem_cons_self)) apart.symm]
      exact first

/-- A cache that has asked for the line joins the chain. -/
theorem Placed.join (placed : Placed nodes dataBlk (.chain head rest)) (fresh : cache ∉ head :: rest)
    (same : ∀ other, other ≠ cache → other ≠ lastOf head rest → nodes' other = nodes other)
    (linked : nodes' (lastOf head rest) = { nodes (lastOf head rest) with
      forwardToCache := .GETX cache ::ₘ (nodes (lastOf head rest)).forwardToCache })
    (waits : Waiting 0 (nodes' cache)) : Placed nodes' dataBlk (.chain head (rest ++ [cache])) := by
  obtain ⟨nodup, plays, queue⟩ := placed.members
  have joined : (head :: (rest ++ [cache])).Nodup := by
    rw [← List.cons_append]
    exact nodup.append (List.nodup_singleton cache) (by simpa using fresh)
  refine ⟨⟨joined, ?_, ?_⟩, ?_⟩
  · cases rest with
    | nil =>
        rw [lastOf] at linked
        rw [linked]
        exact plays.linked cache
    | cons next rest =>
        have apart : lastOf head (next :: rest) ≠ head := lastOf_ne nodup (by simp)
        rw [same head (fun eq => fresh (eq ▸ List.mem_cons_self)) apart.symm]
        exact plays
  · cases rest with
    | nil => exact ⟨waits, trivial⟩
    | cons next rest =>
        exact queue.join nodup.of_cons (fun mem => fresh (List.mem_cons_of_mem _ mem)) same linked waits
  · intro other away
    rw [Shape.members, ← List.cons_append, List.mem_append, not_or, List.mem_singleton] at away
    rw [same other away.2 fun eq => away.1 (eq ▸ lastOf_mem head rest)]
    exact placed.others other away.1

/-- Every cache goes on as it was. -/
theorem Placed.alike (placed : Placed nodes dataBlk shape)
    (alike : ∀ cache, Alike (nodes cache) (nodes' cache)) : Placed nodes' dataBlk shape := by
  refine ⟨?_, fun cache away => (alike cache).outside (placed.others cache away)⟩
  have members := placed.members
  cases shape with
  | free => trivial
  | fetching cache => exact (alike cache).waiting members
  | released cache => exact (alike cache).released members
  | chain head rest =>
      obtain ⟨nodup, plays, queue⟩ := members
      refine ⟨nodup, (alike head).head plays, ?_⟩
      clear nodup plays placed
      induction rest with
      | nil => trivial
      | cons cache rest ih => exact ⟨(alike cache).waiting queue.1, ih queue.2⟩

end

end GemFi.CoherenceOwnership
