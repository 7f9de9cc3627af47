import GemFi.CoherenceSteps

/-!
Runs of the coherence protocol, with any interleaving of the caches, the directory and the DMA
devices and any delays in the networks. The accesses that complete are those of one block that is
accessed in one piece; at most one controller may write the line, and a functional access
(mem/ruby/system/System.cc) reads what was written last. Without DMA no message ever comes to a
controller that has no transition for it.
-/

namespace GemFi.CoherenceRuns

open CoherenceProtocol CoherenceRoles CoherenceMoves CoherenceOwnership CoherenceSteps Transitions

variable {Cache Device : Type} {size : ℕ} [DecidableEq Cache]

/-! ## The history of a run -/

def Serves (first : DataBlock size) (system : System Cache Device size) : Prop :=
  -- the accesses so far have led from `first` to the value that the line has now
  ∃ value, run serveAny system.completed first = some value ∧ Coherent system value

def WholeLine : Action Cache Device size → Prop
  | .dmaRequest msg => Covers msg
  | _ => True

omit [DecidableEq Cache] in
theorem run_callbacks (self : Cache) (callbacks : List (Callback size)) (dataBlk : DataBlock size) :
    run (fun dataBlk (completion : Completion Cache Device size) => serveAny dataBlk completion)
      (callbacks.map (.cache self)) dataBlk = run serve callbacks dataBlk := by
  induction callbacks generalizing dataBlk with
  | nil => rfl
  | cons callback rest ih =>
      rw [List.map_cons, run_cons, run_cons]
      exact congrArg _ (funext ih)

theorem Serves.onward {first value : DataBlock size} {system next : System Cache Device size}
    {new : List (Completion Cache Device size)}
    (served : run serveAny system.completed first = some value)
    (reports : next.completed = system.completed ++ new)
    (later : ∃ after, run serveAny new value = some after ∧ Coherent next after) :
    Serves first next := by
  obtain ⟨after, ran, coherent⟩ := later
  refine ⟨after, ?_, coherent⟩
  rw [reports, run_append, served]
  exact ran

theorem serves_init (first : DataBlock size) :
    Serves first (System.init first : System Cache Device size) :=
  ⟨first, rfl, coherent_init first⟩

variable [DecidableEq Device]

theorem serves_step {first : DataBlock size} {system next : System Cache Device size}
    {action : Action Cache Device size} (serves : Serves first system) (whole : WholeLine action)
    (stepped : system.step action = some next) : Serves first next := by
  obtain ⟨value, served, coherent⟩ := serves
  rw [System.step] at stepped
  split at stepped
  case isFalse => cases stepped
  case isTrue ready =>
    cases action with
    | makeRequest cache request =>
        cases stepped
        obtain ⟨shape, placed, agrees, covers⟩ := coherent
        exact ⟨value, served, shape, placed_asked placed cache request, agrees, covers⟩
    | dmaRequest msg =>
        cases stepped
        obtain ⟨shape, placed, agrees, covers⟩ := coherent
        refine ⟨value, served, shape, placed, ?_, ?_⟩
        · obtain ⟨nodes, dir, completed⟩ := system
          cases agrees <;> constructor
        · intro other mem
          obtain rfl | mem := Multiset.mem_cons.mp mem
          · exact whole
          · exact covers other mem
    | cache self input =>
        obtain ⟨work, moved, rfl⟩ := Option.map_eq_some_iff.mp stepped
        have atPort : AtPort (system.nodes self) input := by
          cases input <;> exact ready
        obtain ⟨after, ran, coherent⟩ := cache_step coherent atPort moved
        refine .onward served rfl ⟨after, ?_, coherent⟩
        rw [run_callbacks]
        exact ran
    | directory input =>
        obtain ⟨work, moved, rfl⟩ := Option.map_eq_some_iff.mp stepped
        refine .onward served rfl ?_
        cases input with
        | request msg =>
            cases msg with
            | GETX cache => exact getx_step coherent ready moved
            | PUTX cache written => exact putx_step coherent ready moved
        | dma msg => exact dma_step coherent ready moved
        | memory msg => exact memory_step coherent ready moved

theorem serves_run {first : DataBlock size} {actions : List (Action Cache Device size)}
    {system : System Cache Device size} (whole : ∀ action ∈ actions, WholeLine action)
    (ran : run System.step actions (.init first) = some system) : Serves first system := by
  have preserves (system : System Cache Device size) (action : Action Cache Device size)
      (next : System Cache Device size) (serves : Serves first system) (whole : WholeLine action)
      (stepped : system.step action = some next) : Serves first next :=
    serves_step serves whole stepped
  refine run_preserves preserves actions _ _ (serves_init first) ?_ ran
  intro before action after _ _ split _ _
  exact whole action (by simp [split])

/-- Whatever the caches, the directory and the devices do, and however long their messages take:
the accesses to a line that complete, each at its callback or its answer, are accesses to one block
one after the other. -/
theorem accesses_of_one_block {first : DataBlock size} {actions : List (Action Cache Device size)}
    {system : System Cache Device size} (whole : ∀ action ∈ actions, WholeLine action)
    (ran : run System.step actions (.init first) = some system) :
    ∃ value, run serveAny system.completed first = some value := by
  obtain ⟨value, served, _⟩ := serves_run whole ran
  exact ⟨value, served⟩

def sevens : DataBlock 2 := fun _ => 7

def stored : DataBlock 2 := DataBlock.clear.copyPartial sevens 0 2

def exchange : List (Action Bool Unit 2) :=
  -- a device writes the line, one cache stores into it and another one loads it, which it asks for
  -- before the first one has the line
  [.dmaRequest ⟨.WRITE, 0, 2, (), sevens⟩,
    .directory (.dma ⟨.WRITE, 0, 2, (), sevens⟩),
    .directory (.memory ⟨.MEMORY_WB, none, Directory.partialBlock sevens 0 2⟩),
    .makeRequest false ⟨.ST, 1, [9]⟩,
    .cache false (.mandatory ⟨.ST, 1, [9]⟩),
    .directory (.request (.GETX false)),
    .directory (.memory ⟨.MEMORY_READ, some false, stored⟩),
    .makeRequest true ⟨.LD, 0, []⟩,
    .cache true (.mandatory ⟨.LD, 0, []⟩),
    .directory (.request (.GETX true)),
    .cache false (.forward (.GETX true)),
    .cache false (.response stored),
    .cache false (.forward (.GETX true)),
    .cache true (.response (stored.setData [9] 1))]

theorem wholeLine_exchange : ∀ action ∈ exchange, WholeLine action := by
  simp [exchange, WholeLine, Covers]

theorem accesses_of_exchange :
    ∃ system, run System.step exchange (.init DataBlock.clear) = some system ∧
      (∃ value, run serveAny system.completed DataBlock.clear = some value) ∧
      system.completed.length = 3 := by
  refine ⟨_, rfl, ?_⟩
  exact ⟨accesses_of_one_block wholeLine_exchange rfl, rfl⟩

/-! ## Functional reads -/

def controllers (caches : List Cache) (system : System Cache Device size) :
    List (AccessPermission × Option (DataBlock size)) :=
  -- the permissions and the blocks of the controllers, of which those of the DMA devices have none
  caches.map (fun cache =>
    ((system.nodes cache).getAccessPermission, (system.nodes cache).getDataBlock)) ++
  [(system.dir.getAccessPermission, some system.dir.getDataBlock)]

/-- `RubySystem::functionalRead`, in a protocol that has no controller that reads only and no
backing store: the outer `none` is the failed assertion `num_rw <= 1`. -/
def functionalRead (caches : List Cache) (system : System Cache Device size) :
    Option (Option (DataBlock size)) :=
  let writable := (controllers caches system).filter (·.1 = .Read_Write)
  if writable.length ≤ 1 then some (writable.head?.bind Prod.snd) else none

section

variable {self : Cache} {node : L1Cache Cache size} {dataBlk : DataBlock size}

omit [DecidableEq Cache] in
theorem permission_of_asks {request : RubyRequest} (asks : Asks request node) :
    node.getAccessPermission = .Busy := by
  obtain ⟨old, tbe⟩ := asks.tbe
  rw [L1Cache.getAccessPermission, tbe]
  cases load : request.isLoad <;> simp [asked, load, CacheState.permission]

omit [DecidableEq Cache] in
theorem permission_of_returns {state : CacheState} (returns : Returns state dataBlk node)
    (busy : state ≠ .I ∧ state ≠ .M) : node.getAccessPermission = .Busy := by
  rw [L1Cache.getAccessPermission, returns.tbe]
  cases state <;> first | rfl | simp at busy

theorem permission_of_outside (outside : Outside self node) :
    node.getAccessPermission ≠ .Read_Write := by
  cases outside with
  | idle invalid _ =>
      rw [L1Cache.getAccessPermission, invalid.tbe]
      cases held : node.cacheEntry with
      | none => nofun
      | some entry =>
          simp [invalid.entry entry held, CacheState.permission]
  | requested request asks _ => rw [permission_of_asks asks]; nofun
  | gave _ returns _ => rw [permission_of_returns returns (by decide)]; nofun
  | refused _ returns _ => rw [permission_of_returns returns (by decide)]; nofun
  | acknowledged _ returns _ => rw [permission_of_returns returns (by decide)]; nofun

theorem writer_is_head {nodes : Cache → L1Cache Cache size} {shape : Shape Cache}
    (placed : Placed nodes dataBlk shape) (writes : (nodes self).getAccessPermission = .Read_Write) :
    (∃ rest, shape = .chain self rest) ∧ (nodes self).getDataBlock = some dataBlk := by
  by_cases member : self ∈ shape.members
  · have busy {state : AccessPermission} (is : (nodes self).getAccessPermission = state)
        (other : state ≠ .Read_Write) : False := other (is.symm.trans writes)
    have plays := placed.members
    cases shape with
    | free => cases member
    | fetching cache =>
        obtain rfl := List.mem_singleton.mp member
        obtain ⟨⟨request, asks⟩, _⟩ := plays
        exact (busy (permission_of_asks asks) nofun).elim
    | released cache =>
        obtain rfl := List.mem_singleton.mp member
        obtain ⟨⟨dataBlk, returns⟩, _⟩ := plays
        exact (busy (permission_of_returns returns (by decide)) nofun).elim
    | chain head rest =>
        obtain ⟨_, head, queue⟩ := plays
        obtain rfl | behind := List.mem_cons.mp member
        · cases head with
          | owning holds _ =>
              refine ⟨⟨rest, rfl⟩, ?_⟩
              rw [L1Cache.getDataBlock, holds.tbe, holds.entry]
              rfl
          | arriving request asks _ => exact (busy (permission_of_asks asks) nofun).elim
          | evicting returns _ =>
              exact (busy (permission_of_returns returns (by decide)) nofun).elim
          | nacked _ returns _ => exact (busy (permission_of_returns returns (by decide)) nofun).elim
          | spared _ returns _ => exact (busy (permission_of_returns returns (by decide)) nofun).elim
        · obtain ⟨later, ⟨request, asks⟩, _⟩ := queue.waits behind
          exact (busy (permission_of_asks asks) nofun).elim
  · exact absurd writes (permission_of_outside (placed.others self member))

omit [DecidableEq Cache] [DecidableEq Device] in
theorem directory_writes {dir : Directory Cache Device size} {shape : Shape Cache}
    (agrees : Agrees dir dataBlk shape) (writes : dir.getAccessPermission = .Read_Write) :
    shape = .free ∧ dir.getDataBlock = dataBlk := by
  cases agrees with
  | idle => exact ⟨rfl, rfl⟩
  | _ => cases writes

omit [DecidableEq Cache] in
theorem writers_of_nodup {caches : List Cache} (nodup : caches.Nodup) {writes : Cache → Bool}
    (only : ∀ cache, writes cache = true → cache = self) :
    caches.filter writes = [] ∨ (caches.filter writes = [self] ∧ writes self = true) := by
  have kept := nodup.filter writes
  cases found : caches.filter writes with
  | nil => exact .inl rfl
  | cons first rest =>
      have all : ∀ cache ∈ first :: rest, writes cache = true := by
        intro cache mem
        rw [← found] at mem
        exact (List.mem_filter.mp mem).2
      obtain rfl := only first (all first List.mem_cons_self)
      rw [found] at kept
      cases rest with
      | nil => exact .inr ⟨rfl, all _ List.mem_cons_self⟩
      | cons second rest =>
          obtain rfl := only second (all second (by simp))
          exact absurd List.mem_cons_self (List.nodup_cons.mp kept).1

/-- At most one controller may write the line at any time, so a functional read passes its
assertion; when it finds the controller, it reads what the accesses so far have left. -/
theorem functional_read_is_current {caches : List Cache} (nodup : caches.Nodup)
    {first : DataBlock size} {actions : List (Action Cache Device size)}
    {system : System Cache Device size} (whole : ∀ action ∈ actions, WholeLine action)
    (ran : run System.step actions (.init first) = some system) :
    ∃ value, run serveAny system.completed first = some value ∧
      (functionalRead caches system = some none ∨ functionalRead caches system = some (some value)) := by
  obtain ⟨value, served, shape, placed, agrees, _⟩ := serves_run whole ran
  refine ⟨value, served, ?_⟩
  have split : (controllers caches system).filter (·.1 = .Read_Write) =
      (caches.filter fun cache => (system.nodes cache).getAccessPermission = .Read_Write).map
        (fun cache => ((system.nodes cache).getAccessPermission, (system.nodes cache).getDataBlock)) ++
      [(system.dir.getAccessPermission, some system.dir.getDataBlock)].filter
        (·.1 = .Read_Write) := by
    rw [controllers, List.filter_append, List.filter_map]
    rfl
  rw [functionalRead, split]
  by_cases held : ∃ cache, (system.nodes cache).getAccessPermission = .Read_Write
  · obtain ⟨cache, writes⟩ := held
    obtain ⟨⟨rest, rfl⟩, block⟩ := writer_is_head placed writes
    have only (other : Cache)
        (also : decide ((system.nodes other).getAccessPermission = .Read_Write) = true) :
        other = cache := by
      obtain ⟨⟨_, same⟩, _⟩ := writer_is_head placed (of_decide_eq_true also)
      cases same
      rfl
    have dirNot : system.dir.getAccessPermission ≠ .Read_Write := by
      intro dirWrites
      cases (directory_writes agrees dirWrites).1
    obtain none' | ⟨one, _⟩ := writers_of_nodup nodup only
    · left
      simp [none', dirNot]
    · right
      simp [one, dirNot, block]
  · have none' : (caches.filter fun cache =>
        (system.nodes cache).getAccessPermission = .Read_Write) = [] := by
      rw [List.filter_eq_nil_iff]
      intro cache _ writes
      exact held ⟨cache, of_decide_eq_true writes⟩
    by_cases dirWrites : system.dir.getAccessPermission = .Read_Write
    · right
      simp [none', dirWrites, (directory_writes agrees dirWrites).2]
    · left
      simp [none', dirWrites]

theorem functional_read_of_exchange :
    ∃ system, run System.step exchange (.init DataBlock.clear) = some system ∧
      (∃ value, run serveAny system.completed DataBlock.clear = some value ∧
        (functionalRead [false, true] system = some none ∨
          functionalRead [false, true] system = some (some value))) ∧
      (functionalRead [false, true] system).isSome := by
  refine ⟨_, rfl, ?_⟩
  exact ⟨functional_read_is_current (by decide) wholeLine_exchange rfl, rfl⟩

end

end GemFi.CoherenceRuns
