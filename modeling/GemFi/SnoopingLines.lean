import GemFi.SnoopingCaches

/-!
One line in the caches on a coherent bus: what the snoops of a request leave of its copies, and
what the bus brings back. The copies of a line are coherent when they hold one value, at most one
of them is dirty, a writable one is alone, and the memory has the value where none is dirty.
-/

namespace GemFi.SnoopingLines

open SnoopingCaches

variable {Line : Type} {blkSize n : ℕ}

/-! ## Bytes of a block -/

@[simp] theorem read_length (data : Data blkSize) (offset size : ℕ) :
    (data.read offset size).length = size := by
  simp [Data.read]

theorem write_read (data value : Data blkSize) : data.write 0 (value.read 0 blkSize) = value := by
  funext k
  simp [Data.write, Data.read, k.isLt]

/-! ## Snoops -/

def left (cmd : MemCmd) (blk : Option (CacheBlk blkSize)) : Option (CacheBlk blkSize) :=
  if cmd.isInvalidate then none else blk.map fun blk => { blk with isWritable := false }

structure Query (blkSize : ℕ) (pkt : Packet Line) : Prop where
  cmd : pkt.cmd = .ReadReq ∨ pkt.cmd = .ReadExReq ∨ pkt.cmd = .UpgradeReq ∨ pkt.cmd = .SCUpgradeReq
  offset : pkt.offset = 0
  size : pkt.size = blkSize

def shares (cmd : MemCmd) : Bool := cmd.isRead && !cmd.isInvalidate

section

variable {pkt : Packet Line} {blk : CacheBlk blkSize}

theorem handleSnoop_clean (query : Query blkSize pkt) (clean : blk.isDirty = false) :
    handleSnoop pkt (some blk) =
      some ({ pkt with shared := pkt.shared || shares pkt.cmd }, left pkt.cmd (some blk)) := by
  obtain ⟨_, _, dirty, _, _⟩ := blk
  obtain rfl : dirty = false := clean
  rw [handleSnoop, left, shares]
  rcases query.cmd with cmd | cmd | cmd | cmd <;> rw [cmd] <;> rfl

theorem handleSnoop_dirty (query : Query blkSize pkt) (dirty : blk.isDirty = true)
    (first : pkt.memInhibit = false) :
    handleSnoop pkt (some blk) =
      some ({ pkt with
          cmd := pkt.cmd.responseCommand
          shared := pkt.shared || shares pkt.cmd
          memInhibit := true
          supplyExclusive := pkt.supplyExclusive || blk.isWritable
          data := blk.data.read 0 blkSize }, left pkt.cmd (some blk)) := by
  obtain ⟨_, _, isDirty, _, _⟩ := blk
  obtain rfl : isDirty = true := dirty
  rw [handleSnoop, left, shares]
  rcases query.cmd with cmd | cmd | cmd | cmd <;>
    simp [cmd, first, Packet.makeAtomicResponse, Packet.setDataFromBlock, query.offset, query.size,
      MemCmd.isRead, MemCmd.isInvalidate, MemCmd.needsExclusive, MemCmd.needsResponse,
      MemCmd.isRequest, MemCmd.isResponse]

end

namespace Query

variable {pkt : Packet Line}

theorem request (query : Query blkSize pkt) : pkt.cmd.isResponse = false := by
  rcases query.cmd with cmd | cmd | cmd | cmd <;> rw [cmd] <;> rfl

theorem response (query : Query blkSize pkt) : pkt.cmd.responseCommand.isResponse = true := by
  rcases query.cmd with cmd | cmd | cmd | cmd <;> rw [cmd] <;> rfl

theorem response_ne (query : Query blkSize pkt) : pkt.cmd.responseCommand ≠ pkt.cmd := by
  rcases query.cmd with cmd | cmd | cmd | cmd <;> rw [cmd] <;> decide

end Query

variable [DecidableEq Line]

def dirtyAt (source : Fin n) (caches : Fin n → Cache Line blkSize) (line : Line) (port : Fin n) :
    Bool :=
  port ≠ source && (caches port line).any fun blk => blk.isDirty

def heldAt (source : Fin n) (caches : Fin n → Cache Line blkSize) (line : Line) (port : Fin n) :
    Bool :=
  port ≠ source && (caches port line).isSome

structure Snooped (source : Fin n) (value : Data blkSize) (ports : List (Fin n))
    (before after : Snoop Line blkSize n) : Prop where
  -- what the snoops at `ports` do
  caches : after.caches = fun port =>
    if port ∈ ports ∧ port ≠ source then
      Function.update (before.caches port) before.pkt.line
        (left before.pkt.cmd (before.caches port before.pkt.line))
    else before.caches port
  cmd : after.pkt.cmd = before.pkt.cmd
  line : after.pkt.line = before.pkt.line
  query : Query blkSize after.pkt
  shared : after.pkt.shared = (before.pkt.shared ||
    (shares before.pkt.cmd && ports.any (heldAt source before.caches before.pkt.line)))
  memInhibit : after.pkt.memInhibit =
    (before.pkt.memInhibit || ports.any (dirtyAt source before.caches before.pkt.line))
  response : after.response = if ports.any (dirtyAt source before.caches before.pkt.line) then
    some before.pkt.cmd.responseCommand else before.response
  data : after.pkt.data = if ports.any (dirtyAt source before.caches before.pkt.line) then
    value.read 0 blkSize else before.pkt.data

section

variable {source port : Fin n} {value : Data blkSize} {ports : List (Fin n)}
  {snoop middle after : Snoop Line blkSize n}

theorem recvAtomicSnoop_query {pkt : Packet Line} (query : Query blkSize pkt)
    (cache : Cache Line blkSize) :
    recvAtomicSnoop cache pkt = (handleSnoop pkt (cache pkt.line)).map
      fun (snooped, blk) => (snooped, Function.update cache pkt.line blk) := by
  rw [recvAtomicSnoop, if_neg]
  rcases query.cmd with cmd | cmd | cmd | cmd <;> simp [cmd]

theorem caches_single (caches : Fin n → Cache Line blkSize) (line : Line) (different : port ≠ source)
    (blk : Cache Line blkSize → Option (CacheBlk blkSize)) :
    Function.update caches port (Function.update (caches port) line (blk (caches port))) = fun other =>
      if other ∈ [port] ∧ other ≠ source then Function.update (caches other) line (blk (caches other))
      else caches other := by
  funext other
  by_cases same : other = port
  · subst same
    simp [different]
  · simp [same]

theorem snooped_own (query : Query blkSize snoop.pkt) :
    Snooped source value [source] snoop snoop where
  caches := by
    funext port
    rw [if_neg]
    rintro ⟨mem, different⟩
    exact different (List.mem_singleton.mp mem)
  cmd := rfl
  line := rfl
  query := query
  shared := by simp [heldAt]
  memInhibit := by simp [dirtyAt]
  response := by simp [dirtyAt]
  data := by simp [dirtyAt]

theorem next_clean (query : Query blkSize snoop.pkt) (different : port ≠ source)
    (clean : dirtyAt source snoop.caches snoop.pkt.line port = false) :
    ∃ after, Snoop.next (some source) snoop port = some after ∧ Snooped source value [port] snoop after := by
  have apart : some source ≠ some port := fun same => different (Option.some.inj same).symm
  have snooped : handleSnoop snoop.pkt (snoop.caches port snoop.pkt.line) =
      some ({ snoop.pkt with
          shared := snoop.pkt.shared || (shares snoop.pkt.cmd && heldAt source snoop.caches snoop.pkt.line port) },
        left snoop.pkt.cmd (snoop.caches port snoop.pkt.line)) := by
    rw [heldAt]
    cases held : snoop.caches port snoop.pkt.line with
    | none => simp [handleSnoop, left]
    | some blk =>
        rw [dirtyAt, held] at clean
        rw [handleSnoop_clean query (by simpa [different] using clean)]
        simp [different]
  refine ⟨⟨Function.update snoop.caches port (Function.update (snoop.caches port) snoop.pkt.line
      (left snoop.pkt.cmd (snoop.caches port snoop.pkt.line))), { snoop.pkt with
        shared := snoop.pkt.shared || (shares snoop.pkt.cmd && heldAt source snoop.caches snoop.pkt.line port) },
      snoop.response⟩, ?_, ?_⟩
  · rw [Snoop.next, if_neg apart, recvAtomicSnoop_query query, snooped]
    simp [query.request]
  · exact {
      caches := caches_single snoop.caches snoop.pkt.line different
        fun cache => left snoop.pkt.cmd (cache snoop.pkt.line)
      cmd := rfl
      line := rfl
      query := ⟨query.cmd, query.offset, query.size⟩
      shared := by simp
      memInhibit := by simp [clean]
      response := by simp [clean]
      data := by simp [clean] }

theorem next_dirty (query : Query blkSize snoop.pkt)
    (current : ∀ blk, snoop.caches port snoop.pkt.line = some blk → blk.data = value)
    (first : snoop.pkt.memInhibit = false ∧ snoop.response = none)
    (dirty : dirtyAt source snoop.caches snoop.pkt.line port = true) :
    ∃ after, Snoop.next (some source) snoop port = some after ∧ Snooped source value [port] snoop after := by
  obtain ⟨different, blk, held, isDirty⟩ : port ≠ source ∧
      ∃ blk, snoop.caches port snoop.pkt.line = some blk ∧ blk.isDirty = true := by
    simpa [dirtyAt, Option.any_eq_true] using dirty
  have apart : some source ≠ some port := fun same => different (Option.some.inj same).symm
  have heldHere : heldAt source snoop.caches snoop.pkt.line port = true := by
    simp [heldAt, held, different]
  refine ⟨⟨Function.update snoop.caches port (Function.update (snoop.caches port) snoop.pkt.line
      (left snoop.pkt.cmd (snoop.caches port snoop.pkt.line))), { snoop.pkt with
        shared := snoop.pkt.shared || shares snoop.pkt.cmd
        memInhibit := true
        supplyExclusive := snoop.pkt.supplyExclusive || blk.isWritable
        data := blk.data.read 0 blkSize }, some snoop.pkt.cmd.responseCommand⟩, ?_, ?_⟩
  · rw [Snoop.next, if_neg apart, recvAtomicSnoop_query query, held,
      handleSnoop_dirty query isDirty first.1]
    simp [query.response, query.response_ne, first.2]
  · exact {
      caches := caches_single snoop.caches snoop.pkt.line different
        fun cache => left snoop.pkt.cmd (cache snoop.pkt.line)
      cmd := rfl
      line := rfl
      query := ⟨query.cmd, query.offset, query.size⟩
      shared := by simp [heldHere]
      memInhibit := by simp [dirty]
      response := by simp [dirty]
      data := by simp [dirty, current blk held] }

omit [DecidableEq Line] in
theorem any_congr_mem {α : Type} {p q : α → Bool} {items : List α} (same : ∀ item ∈ items, p item = q item) :
    items.any p = items.any q := by
  induction items with
  | nil => rfl
  | cons item rest ih =>
      rw [List.any_cons, List.any_cons, same item List.mem_cons_self,
        ih fun other mem => same other (List.mem_cons_of_mem _ mem)]

theorem Snooped.cons (fresh : port ∉ ports) (here : Snooped source value [port] snoop middle)
    (rest : Snooped source value ports middle after) :
    Snooped source value (port :: ports) snoop after := by
  have same (other : Fin n) (mem : other ∈ ports) : middle.caches other = snoop.caches other := by
    rw [here.caches]
    refine if_neg fun ⟨single, _⟩ => fresh ?_
    rwa [← List.mem_singleton.mp single]
  have held : ports.any (heldAt source middle.caches middle.pkt.line) =
      ports.any (heldAt source snoop.caches snoop.pkt.line) := by
    refine any_congr_mem fun other mem => ?_
    rw [heldAt, heldAt, same other mem, here.line]
  have dirty : ports.any (dirtyAt source middle.caches middle.pkt.line) =
      ports.any (dirtyAt source snoop.caches snoop.pkt.line) := by
    refine any_congr_mem fun other mem => ?_
    rw [dirtyAt, dirtyAt, same other mem, here.line]
  constructor
  · funext other
    rw [rest.caches]
    by_cases mem : other ∈ ports
    · simp only [same other mem, here.line, here.cmd, mem, List.mem_cons, or_true]
    · simp only [here.caches, List.mem_cons, mem, List.not_mem_nil, or_false, false_and, if_false]
  · exact rest.cmd.trans here.cmd
  · exact rest.line.trans here.line
  · exact rest.query
  · rw [rest.shared, here.shared, held, here.cmd, List.any_cons]
    simp [Bool.and_or_distrib_left, Bool.or_assoc]
  · rw [rest.memInhibit, here.memInhibit, dirty, List.any_cons]
    simp [Bool.or_assoc]
  · rw [rest.response, here.response, dirty, here.cmd, List.any_cons, List.any_cons, List.any_nil]
    cases ports.any (dirtyAt source snoop.caches snoop.pkt.line) <;>
      cases dirtyAt source snoop.caches snoop.pkt.line port <;> rfl
  · rw [rest.data, here.data, dirty, List.any_cons, List.any_cons, List.any_nil]
    cases ports.any (dirtyAt source snoop.caches snoop.pkt.line) <;>
      cases dirtyAt source snoop.caches snoop.pkt.line port <;> rfl

/-- The snoops of a request, where the copies agree and at most one of them is dirty. -/
theorem snoops (nodup : ports.Nodup) (query : Query blkSize snoop.pkt)
    (current : ∀ port ∈ ports, ∀ blk, snoop.caches port snoop.pkt.line = some blk → blk.data = value)
    (single : ∀ port ∈ ports, ∀ other ∈ ports, dirtyAt source snoop.caches snoop.pkt.line port = true →
      dirtyAt source snoop.caches snoop.pkt.line other = true → port = other)
    (first : snoop.pkt.memInhibit = false ∧ snoop.response = none ∨
      ∀ port ∈ ports, dirtyAt source snoop.caches snoop.pkt.line port = false) :
    ∃ after, ports.foldlM (Snoop.next (some source)) snoop = some after ∧
      Snooped source value ports snoop after := by
  induction ports generalizing snoop with
  | nil => exact ⟨snoop, rfl, by constructor <;> simp [query]⟩
  | cons port ports ih =>
      obtain ⟨fresh, nodup⟩ := List.nodup_cons.mp nodup
      obtain ⟨middle, moved, here⟩ : ∃ middle, Snoop.next (some source) snoop port = some middle ∧
          Snooped source value [port] snoop middle := by
        by_cases same : port = source
        · subst same
          exact ⟨snoop, by simp [Snoop.next], snooped_own query⟩
        cases dirty : dirtyAt source snoop.caches snoop.pkt.line port with
        | false => exact next_clean query same dirty
        | true =>
            refine next_dirty query (current port List.mem_cons_self) (first.resolve_right fun none' => ?_) dirty
            rw [none' port List.mem_cons_self] at dirty
            cases dirty
      have same (other : Fin n) (mem : other ∈ ports) :
          middle.caches other = snoop.caches other := by
        rw [here.caches]
        refine if_neg fun ⟨single, _⟩ => fresh ?_
        rwa [← List.mem_singleton.mp single]
      have dirty (other : Fin n) (mem : other ∈ ports) :
          dirtyAt source middle.caches middle.pkt.line other =
            dirtyAt source snoop.caches snoop.pkt.line other := by
        rw [dirtyAt, dirtyAt, same other mem, here.line]
      have later : middle.pkt.memInhibit = false ∧ middle.response = none ∨
          ∀ other ∈ ports, dirtyAt source middle.caches middle.pkt.line other = false := by
        cases found : dirtyAt source snoop.caches snoop.pkt.line port with
        | false =>
            obtain ⟨inhibit, response⟩ | none' := first
            · refine .inl ⟨?_, ?_⟩
              · simp [here.memInhibit, inhibit, found]
              · simp [here.response, response, found]
            · exact .inr fun other mem => (dirty other mem).trans (none' other (List.mem_cons_of_mem _ mem))
        | true =>
            refine .inr fun other mem => ?_
            by_contra not
            rw [Bool.not_eq_false, dirty other mem] at not
            exact fresh (single port List.mem_cons_self other (List.mem_cons_of_mem _ mem) found not ▸ mem)
      obtain ⟨after, ran, rest⟩ := ih nodup here.query
        (fun other mem blk held => current other (List.mem_cons_of_mem _ mem) blk
          (by rwa [← same other mem, ← here.line]))
        (fun one memOne other mem dirtyOne dirtyOther => single one (List.mem_cons_of_mem _ memOne) other
          (List.mem_cons_of_mem _ mem) (dirty one memOne ▸ dirtyOne) (dirty other mem ▸ dirtyOther))
        later
      refine ⟨after, ?_, here.cons fresh rest⟩
      rw [List.foldlM_cons, moved]
      exact ran

end

/-! ## Coherence of a line -/

structure LineCoherent (copies : Fin n → Option (CacheBlk blkSize)) (mem value : Data blkSize) :
    Prop where
  current : ∀ port blk, copies port = some blk → blk.data = value
  readable : ∀ port blk, copies port = some blk → blk.isReadable = true
  single : ∀ port other blk blk', copies port = some blk → copies other = some blk' →
    blk.isDirty = true → blk'.isDirty = true → port = other
  exclusive : ∀ port other blk, copies port = some blk → blk.isWritable = true → other ≠ port →
    copies other = none
  clean : (∀ port blk, copies port = some blk → blk.isDirty = false) → mem = value

section

variable {copies : Fin n → Option (CacheBlk blkSize)} {mem value value' : Data blkSize} {source : Fin n}
  {blk : CacheBlk blkSize}

omit [DecidableEq Line]

theorem lineCoherent_none (value : Data blkSize) :
    LineCoherent (fun _ : Fin n => none) value value where
  current := nofun
  readable := nofun
  single := nofun
  exclusive := nofun
  clean := fun _ => rfl

theorem lineCoherent_alone (current : blk.data = value) (readable : blk.isReadable = true)
    (clean : blk.isDirty = false → mem = value) :
    LineCoherent (Function.update (fun _ => none) source (some blk)) mem value := by
  have here {port : Fin n} {other : CacheBlk blkSize}
      (held : Function.update (fun _ => none) source (some blk) port = some other) :
      port = source ∧ other = blk := by
    by_cases same : port = source
    · subst same
      rw [Function.update_self] at held
      exact ⟨rfl, (Option.some.inj held).symm⟩
    · rw [Function.update_of_ne same] at held
      cases held
  constructor
  · intro port other held
    obtain ⟨rfl, rfl⟩ := here held
    exact current
  · intro port other held
    obtain ⟨rfl, rfl⟩ := here held
    exact readable
  · intro port other _ _ held held' _ _
    rw [(here held).1, (here held').1]
  · intro port other _ held _ different
    rw [(here held).1] at different
    exact Function.update_of_ne different _ _
  · intro all
    exact clean (all source blk (Function.update_self _ _ _))

/-- A reader joins the copies, of which none stays writable. -/
theorem LineCoherent.shares (coherent : LineCoherent copies mem value) (current : blk.data = value)
    (readable : blk.isReadable = true) (clean : blk.isDirty = false)
    (alone : blk.isWritable = true → ∀ port, port ≠ source → copies port = none)
    (absent : copies source = none) :
    LineCoherent (Function.update (fun port => left .ReadReq (copies port)) source (some blk)) mem value := by
  have here {port : Fin n} {other : CacheBlk blkSize}
      (held : Function.update (fun port => left .ReadReq (copies port)) source (some blk) port = some other) :
      port = source ∧ other = blk ∨ port ≠ source ∧
        ∃ before, copies port = some before ∧ other = { before with isWritable := false } := by
    by_cases same : port = source
    · subst same
      rw [Function.update_self] at held
      exact .inl ⟨rfl, (Option.some.inj held).symm⟩
    · rw [Function.update_of_ne same] at held
      obtain ⟨before, was, rfl⟩ := Option.map_eq_some_iff.mp held
      exact .inr ⟨same, before, was, rfl⟩
  constructor
  · intro port other held
    obtain ⟨rfl, rfl⟩ | ⟨_, before, was, rfl⟩ := here held
    · exact current
    · exact coherent.current port before was
  · intro port other held
    obtain ⟨rfl, rfl⟩ | ⟨_, before, was, rfl⟩ := here held
    · exact readable
    · exact coherent.readable port before was
  · intro port port' other other' held held' dirty dirty'
    obtain ⟨rfl, rfl⟩ | ⟨_, before, was, rfl⟩ := here held
    · rw [clean] at dirty
      cases dirty
    · obtain ⟨rfl, rfl⟩ | ⟨_, before', was', rfl⟩ := here held'
      · rw [clean] at dirty'
        cases dirty'
      · exact coherent.single port port' before before' was was' dirty dirty'
  · intro port port' other held writable different
    obtain ⟨rfl, rfl⟩ | ⟨_, before, was, rfl⟩ := here held
    · rw [Function.update_of_ne different, alone writable port' different]
      rfl
    · cases writable
  · intro all
    refine coherent.clean fun port before was => ?_
    have different : port ≠ source := by
      rintro rfl
      rw [absent] at was
      cases was
    refine all port { before with isWritable := false } ?_
    rw [Function.update_of_ne different, was]
    rfl

/-- A copy that may be written has no others beside it. -/
theorem LineCoherent.alone (coherent : LineCoherent copies mem value) (held : copies source = some blk)
    (writable : blk.isWritable = true) :
    copies = Function.update (fun _ => none) source (some blk) := by
  funext port
  by_cases same : port = source
  · subst same
    rw [held, Function.update_self]
  · rw [Function.update_of_ne same]
    exact coherent.exclusive source port blk held writable same

/-- Copies that were there before and have gained nothing. -/
theorem LineCoherent.weaken {copies' : Fin n → Option (CacheBlk blkSize)} {mem' : Data blkSize}
    (coherent : LineCoherent copies mem value)
    (before : ∀ port blk', copies' port = some blk' → ∃ blk, copies port = some blk ∧
      blk'.data = blk.data ∧ blk'.isReadable = blk.isReadable ∧
      (blk'.isDirty = true → blk.isDirty = true) ∧ (blk'.isWritable = true → blk.isWritable = true))
    (clean : (∀ port blk', copies' port = some blk' → blk'.isDirty = false) → mem' = value) :
    LineCoherent copies' mem' value := by
  constructor
  · intro port blk' held
    obtain ⟨blk, was, data, _⟩ := before port blk' held
    exact data.trans (coherent.current port blk was)
  · intro port blk' held
    obtain ⟨blk, was, _, readable, _⟩ := before port blk' held
    exact readable.trans (coherent.readable port blk was)
  · intro port other blk' other' held held' dirty dirty'
    obtain ⟨blk, was, _, _, dirt, _⟩ := before port blk' held
    obtain ⟨blk₂, was₂, _, _, dirt₂, _⟩ := before other other' held'
    exact coherent.single port other blk blk₂ was was₂ (dirt dirty) (dirt₂ dirty')
  · intro port other blk' held writable different
    obtain ⟨blk, was, _, _, _, write⟩ := before port blk' held
    have none' := coherent.exclusive port other blk was (write writable) different
    cases now : copies' other with
    | none => rfl
    | some other' =>
        obtain ⟨_, had, _⟩ := before other other' now
        rw [none'] at had
        cases had
  · exact clean

theorem LineCoherent.relock (coherent : LineCoherent copies mem value) (held : copies source = some blk)
    (locks : List Lock) :
    LineCoherent (Function.update copies source (some { blk with lockList := locks })) mem value := by
  refine coherent.weaken ?_ fun all => coherent.clean fun port before was => ?_
  · intro port blk' now
    by_cases same : port = source
    · subst same
      rw [Function.update_self] at now
      obtain rfl := Option.some.inj now
      exact ⟨blk, held, rfl, rfl, id, id⟩
    · rw [Function.update_of_ne same] at now
      exact ⟨blk', now, rfl, rfl, id, id⟩
  · by_cases same : port = source
    · subst same
      obtain rfl := Option.some.inj (held.symm.trans was)
      exact all port { blk with lockList := locks } (Function.update_self _ _ _)
    · exact all port before (by rw [Function.update_of_ne same, was])

/-- A copy goes, after its bytes went to the memory if it was dirty. -/
theorem LineCoherent.drop {mem' : Data blkSize} (coherent : LineCoherent copies mem value)
    (held : copies source = some blk) (written : blk.isDirty = true → mem' = value)
    (kept : blk.isDirty = false → mem' = mem) :
    LineCoherent (Function.update copies source none) mem' value := by
  have others {port : Fin n} {other : CacheBlk blkSize}
      (now : Function.update copies source none port = some other) :
      port ≠ source ∧ copies port = some other := by
    by_cases same : port = source
    · subst same
      rw [Function.update_self] at now
      cases now
    · rw [Function.update_of_ne same] at now
      exact ⟨same, now⟩
  refine coherent.weaken (fun port other now => ⟨other, (others now).2, rfl, rfl, id, id⟩) ?_
  intro all
  cases dirty : blk.isDirty with
  | true => exact written dirty
  | false =>
      rw [kept dirty]
      refine coherent.clean fun port before was => ?_
      by_cases same : port = source
      · subst same
        rwa [← Option.some.inj (held.symm.trans was)]
      · exact all port before (by rw [Function.update_of_ne same, was])

/-- All copies and the memory are written at once. -/
theorem LineCoherent.rewrite (coherent : LineCoherent copies mem value)
    (write : Data blkSize → Data blkSize) :
    LineCoherent (fun port => (copies port).map fun blk => { blk with data := write blk.data }) (write mem)
      (write value) := by
  constructor
  · intro port blk held
    obtain ⟨before, was, rfl⟩ := Option.map_eq_some_iff.mp held
    exact congrArg write (coherent.current port before was)
  · intro port blk held
    obtain ⟨before, was, rfl⟩ := Option.map_eq_some_iff.mp held
    exact coherent.readable port before was
  · intro port other blk blk' held held' dirty dirty'
    obtain ⟨before, was, rfl⟩ := Option.map_eq_some_iff.mp held
    obtain ⟨before', was', rfl⟩ := Option.map_eq_some_iff.mp held'
    exact coherent.single port other before before' was was' dirty dirty'
  · intro port other blk held writable different
    obtain ⟨before, was, rfl⟩ := Option.map_eq_some_iff.mp held
    rw [coherent.exclusive port other before was writable different]
    rfl
  · intro all
    refine congrArg write (coherent.clean fun port blk held => ?_)
    exact all port { blk with data := write blk.data } (by rw [held]; rfl)

end

end GemFi.SnoopingLines
