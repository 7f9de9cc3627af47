import GemFi.SnoopingLines

/-!
What an access does to a coherent line: the bus answers a miss with the current bytes and takes the
copies of the others as the request asks, the fill makes a copy of them that is good for the access,
and the access leaves the line coherent with the value that it stands for.
-/

namespace GemFi.SnoopingAccess

open SnoopingCaches SnoopingLines

variable {Line : Type} {blkSize n : ℕ} [DecidableEq Line]

/-! ## The bus -/

def snooped (caches : Fin n → Cache Line blkSize) (source : Fin n) (cmd : MemCmd) (line : Line) :
    Fin n → Cache Line blkSize :=
  -- the caches after the snoops of a request
  fun port => if port ≠ source then Function.update (caches port) line (left cmd (caches port line))
    else caches port

def queried (system : System Line blkSize n) (source : Fin n) (cmd : MemCmd) (line : Line) :
    System Line blkSize n := { system with caches := snooped system.caches source cmd line }

def othersHold (caches : Fin n → Cache Line blkSize) (source : Fin n) (line : Line) : Bool :=
  (List.finRange n).any (heldAt source caches line)

def othersOwn (caches : Fin n → Cache Line blkSize) (source : Fin n) (line : Line) : Bool :=
  (List.finRange n).any (dirtyAt source caches line)

structure Answer (system : System Line blkSize n) (source : Fin n) (value : Data blkSize)
    (pkt response : Packet Line) : Prop where
  cmd : response.cmd = pkt.cmd.responseCommand
  line : response.line = pkt.line
  offset : response.offset = 0
  data : pkt.cmd.isRead = true → response.data = value.read 0 blkSize
  shared : response.shared = (shares pkt.cmd && othersHold system.caches source pkt.line)
  memInhibit : response.memInhibit = othersOwn system.caches source pkt.line

section

variable {system : System Line blkSize n} {source : Fin n} {value : Data blkSize} {pkt : Packet Line}

theorem memoryAccess_inhibited (memory : Line → Data blkSize) (inhibited : pkt.memInhibit = true) :
    memoryAccess memory pkt = some (pkt, memory) := by
  rw [memoryAccess, if_pos inhibited]

theorem memoryAccess_query (memory : Line → Data blkSize) (query : Query blkSize pkt)
    (answers : pkt.memInhibit = false) :
    memoryAccess memory pkt = some ({ pkt with
      cmd := pkt.cmd.responseCommand
      data := if pkt.cmd.isRead then (memory pkt.line).read 0 blkSize else pkt.data }, memory) := by
  rw [memoryAccess, if_neg (by simp [answers])]
  rcases query.cmd with cmd | cmd | cmd | cmd <;>
    simp [cmd, Packet.makeAtomicResponse, Packet.setDataFromBlock, query.offset, query.size, MemCmd.isRead,
      MemCmd.isWrite, MemCmd.isInvalidate, MemCmd.needsResponse, MemCmd.isRequest, MemCmd.isResponse]

omit [DecidableEq Line] in
theorem othersOwn_iff {caches : Fin n → Cache Line blkSize} {line : Line} :
    othersOwn caches source line = true ↔
      ∃ port blk, port ≠ source ∧ caches port line = some blk ∧ blk.isDirty = true := by
  simp [othersOwn, dirtyAt, List.any_eq_true, Option.any_eq_true, List.mem_finRange]

omit [DecidableEq Line] in
theorem othersHold_iff {caches : Fin n → Cache Line blkSize} {line : Line} :
    othersHold caches source line = true ↔
      ∃ port blk, port ≠ source ∧ caches port line = some blk := by
  simp [othersHold, heldAt, List.any_eq_true, Option.isSome_iff_exists, List.mem_finRange]

theorem busAtomic_query
    (coherent : LineCoherent (fun port => system.caches port pkt.line) (system.memory pkt.line) value)
    (query : Query blkSize pkt) (inhibit : pkt.memInhibit = false) (shared : pkt.shared = false)
    (absent : pkt.cmd.isRead = true → system.caches source pkt.line = none) :
    ∃ response, system.busAtomic pkt source = some (response, queried system source pkt.cmd pkt.line) ∧
      Answer system source value pkt response := by
  have single (port : Fin n) (_ : port ∈ List.finRange n) (other : Fin n) (_ : other ∈ List.finRange n)
      (dirty : dirtyAt source system.caches pkt.line port = true)
      (dirty' : dirtyAt source system.caches pkt.line other = true) : port = other := by
    simp only [dirtyAt, Bool.and_eq_true, Option.any_eq_true] at dirty dirty'
    obtain ⟨_, blk, held, isDirty⟩ := dirty
    obtain ⟨_, blk', held', isDirty'⟩ := dirty'
    exact coherent.single port other blk blk' held held' isDirty isDirty'
  obtain ⟨after, ran, moved⟩ : ∃ after,
      (List.finRange n).foldlM (Snoop.next (some source)) ⟨system.caches, pkt, none⟩ = some after ∧
        Snooped source value (List.finRange n) ⟨system.caches, pkt, none⟩ after :=
    snoops (List.nodup_finRange n) query (fun port _ blk held => coherent.current port blk held) single
      (.inl ⟨inhibit, rfl⟩)
  have caches : after.caches = snooped system.caches source pkt.cmd pkt.line := by
    rw [moved.caches]
    funext port
    simp [snooped, List.mem_finRange]
  have line : after.pkt.line = pkt.line := moved.line
  have cmd : after.pkt.cmd = pkt.cmd := moved.cmd
  have owned : after.pkt.memInhibit = othersOwn system.caches source pkt.line := by
    rw [moved.memInhibit, inhibit]
    rfl
  have held : after.pkt.shared = (shares pkt.cmd && othersHold system.caches source pkt.line) := by
    rw [moved.shared, shared]
    rfl
  have response : after.response =
      if othersOwn system.caches source pkt.line then some pkt.cmd.responseCommand else none := moved.response
  rw [System.busAtomic, forwardAtomic, ran, Option.bind_some, caches]
  cases owns : othersOwn system.caches source pkt.line with
  | true =>
      rw [owns] at owned response
      rw [memoryAccess_inhibited _ owned, response]
      refine ⟨{ after.pkt with cmd := pkt.cmd.responseCommand }, ?_, ?_⟩
      · simp [moved.query.request, queried]
      · exact {
          cmd := rfl
          line := line
          offset := moved.query.offset
          data := fun _ => moved.data.trans (if_pos owns)
          shared := held
          memInhibit := owned.trans owns.symm }
  | false =>
      rw [owns] at owned response
      rw [memoryAccess_query _ moved.query owned, response]
      refine ⟨_, rfl, ?_⟩
      exact {
        cmd := by rw [cmd]
        line := line
        offset := moved.query.offset
        data := by
          intro reads
          have clean : system.memory pkt.line = value := by
            refine coherent.clean fun port blk here => ?_
            by_contra dirty
            have different : port ≠ source := by
              rintro rfl
              rw [absent reads] at here
              cases here
            have owner := othersOwn_iff.mpr ⟨port, blk, different, here, Bool.of_not_eq_false dirty⟩
            rw [owns] at owner
            cases owner
          simp [cmd, reads, line, clean]
        shared := held
        memInhibit := owned.trans owns.symm }

theorem busAtomic_writeback (system : System Line blkSize n) (source : Fin n) (line : Line)
    (blk : CacheBlk blkSize) :
    system.busAtomic (writebackBlk line blk) source = some (writebackBlk line blk,
      { system with memory := Function.update system.memory line blk.data }) := by
  have passes (ports : List (Fin n)) :
      ports.foldlM (Snoop.next (some source)) ⟨system.caches, writebackBlk line blk, none⟩ =
        some ⟨system.caches, writebackBlk line blk, none⟩ := by
    induction ports with
    | nil => rfl
    | cons port rest ih =>
        rw [List.foldlM_cons]
        have stays : Snoop.next (some source) ⟨system.caches, writebackBlk line blk, none⟩ port =
            some ⟨system.caches, writebackBlk line blk, none⟩ := by
          rw [Snoop.next]
          split
          · rfl
          · simp [recvAtomicSnoop, writebackBlk, MemCmd.isResponse]
        rw [stays]
        exact ih
  rw [System.busAtomic, forwardAtomic, passes]
  simp [memoryAccess, writebackBlk, MemCmd.isRead, MemCmd.isWrite, MemCmd.isLLSC, MemCmd.needsResponse,
    Packet.writeDataToBlock, write_read]

end

/-! ## A fill -/

section

variable {system : System Line blkSize n} {source : Fin n} {value : Data blkSize}
  {pkt response : Packet Line} {blk : CacheBlk blkSize}

theorem snooped_source (caches : Fin n → Cache Line blkSize) (cmd : MemCmd) (line : Line) :
    snooped caches source cmd line source = caches source := by
  simp [snooped]

theorem snooped_line (caches : Fin n → Cache Line blkSize) (cmd : MemCmd) (line : Line) {port : Fin n}
    (different : port ≠ source) :
    snooped caches source cmd line port line = left cmd (caches port line) := by
  simp [snooped, different]

theorem snooped_other (caches : Fin n → Cache Line blkSize) (cmd : MemCmd) {line other : Line}
    (different : other ≠ line) (port : Fin n) :
    snooped caches source cmd line port other = caches port other := by
  rw [snooped]
  split
  · exact Function.update_of_ne different _ _
  · rfl

/-- A request that takes the copies of the others leaves its own. -/
theorem taken (takes : pkt.cmd.isInvalidate = true) (copy : Option (CacheBlk blkSize)) :
    Function.update (fun port => snooped system.caches source pkt.cmd pkt.line port pkt.line) source copy =
      Function.update (fun _ => none) source copy := by
  funext port
  by_cases same : port = source
  · subst same
    rw [Function.update_self, Function.update_self]
  · rw [Function.update_of_ne same, Function.update_of_ne same, snooped_line _ _ _ same, left, if_pos takes]

def Sufficient (pkt : Packet Line) (blk : CacheBlk blkSize) : Prop :=
  pkt.cmd.needsExclusive = true → blk.isWritable = true

theorem filled_shared (answer : Answer system source value pkt response)
    (coherent : LineCoherent (fun port => system.caches port pkt.line) (system.memory pkt.line) value)
    (reads : pkt.cmd = .ReadReq) (absent : system.caches source pkt.line = none) :
    LineCoherent (Function.update (fun port => snooped system.caches source pkt.cmd pkt.line port pkt.line)
      source (some (fillBlk response CacheBlk.empty))) (system.memory pkt.line)
      value := by
  have cmd : response.cmd = .ReadResp := by
    rw [answer.cmd, reads]
    rfl
  have data : response.data = value.read 0 blkSize := answer.data (by rw [reads]; rfl)
  have shared : response.shared = othersHold system.caches source pkt.line := by
    rw [answer.shared, reads]
    rfl
  have copies : Function.update
      (fun port => snooped system.caches source pkt.cmd pkt.line port pkt.line) source
        (some (fillBlk response CacheBlk.empty)) =
      Function.update (fun port => left .ReadReq (system.caches port pkt.line)) source
        (some (fillBlk response CacheBlk.empty)) := by
    funext port
    by_cases same : port = source
    · subst same
      rw [Function.update_self, Function.update_self]
    · rw [Function.update_of_ne same, Function.update_of_ne same, snooped_line _ _ _ same, reads]
  rw [copies]
  refine coherent.shares ?_ rfl ?_ ?_ absent
  · simp [fillBlk, cmd, MemCmd.isRead, Packet.writeDataToBlock, data, answer.offset, write_read]
  · -- who owns the line holds it
    have owned := answer.memInhibit
    cases owns : othersOwn system.caches source pkt.line with
    | false => simp [fillBlk, CacheBlk.empty, owned, owns]
    | true =>
        obtain ⟨port, blk, different, held, _⟩ := othersOwn_iff.mp owns
        have holds := othersHold_iff.mpr ⟨port, blk, different, held⟩
        simp [fillBlk, CacheBlk.empty, shared, holds]
  · intro writable port different
    cases held : system.caches port pkt.line with
    | none => rfl
    | some blk =>
        have holds := othersHold_iff.mpr ⟨port, blk, different, held⟩
        simp [fillBlk, CacheBlk.empty, shared, holds] at writable

theorem filled_alone (answer : Answer system source value pkt response)
    (coherent : LineCoherent (fun port => system.caches port pkt.line) (system.memory pkt.line) value)
    (takes : pkt.cmd.isInvalidate = true)
    (before : CacheBlk blkSize) (current : pkt.cmd.isRead = false → before.data = value)
    (here : ∀ blk, system.caches source pkt.line = some blk → blk.isDirty = true → before.isDirty = true)
    (resp : response.cmd.isRead = pkt.cmd.isRead) :
    LineCoherent (Function.update (fun port => snooped system.caches source pkt.cmd pkt.line port pkt.line)
      source (some (fillBlk response before))) (system.memory pkt.line) value := by
  have shared : response.shared = false := by
    rw [answer.shared, shares, takes]
    simp
  rw [taken takes]
  refine lineCoherent_alone ?_ rfl ?_
  · cases reads : pkt.cmd.isRead with
    | false => simp [fillBlk, resp, reads, current reads]
    | true =>
        simp [fillBlk, resp, reads, Packet.writeDataToBlock, answer.data reads, answer.offset, write_read]
  · intro clean
    simp only [fillBlk, shared, Bool.not_false, Bool.true_and, Bool.or_eq_false_iff] at clean
    refine coherent.clean fun port blk held => ?_
    by_contra dirty
    have dirty : blk.isDirty = true := Bool.of_not_eq_false dirty
    by_cases same : port = source
    · subst same
      rw [here blk held dirty] at clean
      cases clean.1
    · have owns := othersOwn_iff.mpr ⟨port, blk, same, held, dirty⟩
      rw [answer.memInhibit, owns] at clean
      cases clean.2

end

/-! ## The access itself -/

def serveLine (value : Data blkSize) (pkt response : Packet Line) : Option (Data blkSize) :=
  match pkt.cmd with
  | .ReadReq | .LoadLockedReq =>
      if response.data = value.read pkt.offset pkt.size then some value else none
  | .WriteReq => some (value.write pkt.offset pkt.data)
  | .StoreCondReq =>
      some (if response.req.extraData = 1 then value.write pkt.offset pkt.data else value)
  | .SwapReq =>
      if response.data = value.read pkt.offset pkt.size then
        (pkt.overwrite response.data).map fun overwrite_mem =>
          if overwrite_mem then value.write pkt.offset pkt.data else value
      else none
  | _ => none

def Writes (pkt response : Packet Line) : Prop :=
  pkt.cmd = .WriteReq ∨ pkt.cmd = .SwapReq ∨ pkt.cmd = .StoreCondReq ∧ response.req.extraData = 1

structure Relocked (pkt response : Packet Line) (before after : List Lock) : Prop where
  comes : ∀ lock ∈ after, lock ∈ before ∨ pkt.cmd = .LoadLockedReq ∧ lock = Lock.ofPacket pkt
  goes : Writes pkt response → pkt.cmd ≠ .SwapReq → ∀ lock ∈ after, lock.overlapping pkt = false
  cond : pkt.cmd = .StoreCondReq → response.req.extraData = 1 →
    ∃ lock ∈ before, lock.matchesContext pkt = true

section

variable {source : Fin n} {value mem : Data blkSize} {copies : Fin n → Option (CacheBlk blkSize)}
  {pkt : Packet Line} {blk : CacheBlk blkSize}

omit [DecidableEq Line]

theorem overwrite_isSome (made : FromCpu blkSize pkt) (swap : pkt.cmd = .SwapReq) (bytes : List UInt8) :
    ∃ overwrite_mem, pkt.overwrite bytes = some overwrite_mem := by
  rw [Packet.overwrite]
  by_cases cond : pkt.req.isCondSwap = true
  · rw [if_pos cond, if_pos (made.condSwap swap cond)]
    exact ⟨_, rfl⟩
  · rw [if_neg cond]
    exact ⟨_, rfl⟩

theorem written_coherent (coherent : LineCoherent copies mem value) (held : copies source = some blk)
    (writable : blk.isWritable = true) (value' : Data blkSize) (locks : List Lock) :
    LineCoherent (Function.update copies source
      (some { blk with data := value', isDirty := true, lockList := locks })) mem value' := by
  rw [coherent.alone held writable, Function.update_idem]
  exact lineCoherent_alone rfl (coherent.readable source blk held) nofun

theorem relocked_reader {response : Packet Line} {before after : List Lock}
    (reads : pkt.cmd = .ReadReq ∨ pkt.cmd = .LoadLockedReq)
    (comes : ∀ lock ∈ after, lock ∈ before ∨ pkt.cmd = .LoadLockedReq ∧ lock = Lock.ofPacket pkt) :
    Relocked pkt response before after := by
  refine ⟨comes, fun writes => absurd writes ?_, fun cond => absurd cond ?_⟩
  all_goals rcases reads with cmd | cmd <;> simp [Writes, cmd]

theorem relocked_writer {response : Packet Line} (blk : CacheBlk blkSize)
    (cond : pkt.cmd = .StoreCondReq → response.req.extraData = 1 →
      ∃ lock ∈ blk.lockList, lock.matchesContext pkt = true) :
    Relocked pkt response blk.lockList (blk.clearLoadLocks pkt).lockList := by
  refine ⟨fun lock mem => .inl (List.mem_filter.mp mem).1, fun _ _ lock mem => ?_, cond⟩
  simpa using (List.mem_filter.mp mem).2

theorem read_satisfied (blk : CacheBlk blkSize) (inside : pkt.offset + pkt.size ≤ blkSize)
    (reads : pkt.cmd = .ReadReq ∨ pkt.cmd = .LoadLockedReq) :
    ∃ response, satisfyCpuSideRequest true pkt blk =
        some (response, some (if pkt.cmd.isLLSC then blk.trackLoadLocked pkt else blk)) ∧
      response.cmd = pkt.cmd ∧ response.data = blk.data.read pkt.offset pkt.size := by
  have notSwap : pkt.cmd ≠ .SwapReq := by
    rcases reads with cmd | cmd <;> rw [cmd] <;> decide
  have notWrite : pkt.cmd.isWrite = false := by
    rcases reads with cmd | cmd <;> rw [cmd] <;> rfl
  have isRead : pkt.cmd.isRead = true := by
    rcases reads with cmd | cmd <;> rw [cmd] <;> rfl
  have shares : pkt.cmd.needsExclusive = false := by
    rcases reads with cmd | cmd <;> rw [cmd] <;> rfl
  have data : (if pkt.cmd.isLLSC then blk.trackLoadLocked pkt else blk).data = blk.data := by
    split <;> rfl
  rw [satisfyCpuSideRequest, if_pos inside, if_neg notSwap, notWrite, isRead]
  simp only [Packet.setDataFromBlock, shares, if_true, if_false, Bool.false_eq_true]
  generalize (if pkt.cmd.isLLSC then blk.trackLoadLocked pkt else blk) = tracked at data ⊢
  rw [data]
  by_cases whole : pkt.size = blkSize
  · rw [if_pos whole]
    split
    · split <;> refine ⟨_, rfl, ?_⟩ <;> exact ⟨rfl, rfl⟩
    · refine ⟨_, rfl, ?_⟩
      exact ⟨rfl, rfl⟩
  · rw [if_neg whole]
    refine ⟨_, rfl, ?_⟩
    exact ⟨rfl, rfl⟩

/-- A copy that is sufficient for the access satisfies it. -/
theorem satisfied (coherent : LineCoherent copies mem value) (held : copies source = some blk)
    (made : FromCpu blkSize pkt) (sufficient : Sufficient pkt blk) :
    ∃ response blk' value', satisfyCpuSideRequest true pkt blk = some (response, some blk') ∧
      response.cmd = pkt.cmd ∧ serveLine value pkt response = some value' ∧
      LineCoherent (Function.update copies source (some blk')) mem value' ∧
      Relocked pkt response blk.lockList blk'.lockList := by
  have current := coherent.current source blk held
  have kept : LineCoherent (Function.update copies source (some blk)) mem value :=
    coherent.relock held blk.lockList
  rcases made.cmd with cmd | cmd | cmd | cmd | cmd
  · obtain ⟨response, ran, sameCmd, data⟩ := read_satisfied blk made.inside (.inl cmd)
    refine ⟨response, blk, value, ?_, sameCmd, ?_, kept, relocked_reader (.inl cmd) fun _ mem => .inl mem⟩
    · rw [ran, cmd]
      rfl
    · simp [serveLine, cmd, data, current]
  · obtain ⟨response, ran, sameCmd, data⟩ := read_satisfied blk made.inside (.inr cmd)
    refine ⟨response, blk.trackLoadLocked pkt, value, ?_, sameCmd, ?_, coherent.relock held _,
      relocked_reader (.inr cmd) fun lock mem => ?_⟩
    · rw [ran, cmd]
      rfl
    · simp [serveLine, cmd, data, current]
    · obtain rfl | mem := List.mem_cons.mp mem
      · exact .inr ⟨cmd, rfl⟩
      · exact .inl mem
  · have writable : blk.isWritable = true := sufficient (by rw [cmd]; rfl)
    refine ⟨pkt, { blk.clearLoadLocks pkt with data := pkt.writeDataToBlock blk.data, isDirty := true },
      value.write pkt.offset pkt.data, ?_, rfl, ?_, ?_, relocked_writer blk (by simp [cmd])⟩
    · simp [satisfyCpuSideRequest, made.inside, cmd, MemCmd.isWrite, CacheBlk.checkWrite, MemCmd.isLLSC,
        CacheBlk.clearLoadLocks]
    · simp [serveLine, cmd]
    · rw [← current]
      exact written_coherent coherent held writable _ _
  · have writable : blk.isWritable = true := sufficient (by rw [cmd]; rfl)
    cases success : blk.lockList.any fun lock => lock.matchesContext pkt with
    | true =>
        refine ⟨{ pkt with req := { pkt.req with extraData := 1 } },
          { blk.clearLoadLocks pkt with data := pkt.writeDataToBlock blk.data, isDirty := true },
          value.write pkt.offset pkt.data, ?_, rfl, ?_, ?_,
          relocked_writer blk fun _ _ => List.any_eq_true.mp success⟩
        · simp [satisfyCpuSideRequest, made.inside, cmd, MemCmd.isWrite, CacheBlk.checkWrite, MemCmd.isLLSC,
            CacheBlk.clearLoadLocks, success, Packet.writeDataToBlock]
        · simp [serveLine, cmd]
        · rw [← current]
          exact written_coherent coherent held writable _ _
    | false =>
        refine ⟨{ pkt with req := { pkt.req with extraData := 0 } }, blk.clearLoadLocks pkt, value, ?_, rfl,
          ?_, coherent.relock held _, relocked_writer blk (by simp)⟩
        · simp [satisfyCpuSideRequest, made.inside, cmd, MemCmd.isWrite, CacheBlk.checkWrite, MemCmd.isLLSC,
            success]
        · simp [serveLine, cmd]
  · have writable : blk.isWritable = true := sufficient (by rw [cmd]; rfl)
    obtain ⟨overwrite_mem, overwrites⟩ :=
      overwrite_isSome made cmd (blk.data.read pkt.offset pkt.size)
    have ran : satisfyCpuSideRequest true pkt blk =
        some ({ pkt with data := blk.data.read pkt.offset pkt.size }, some (if overwrite_mem then
          { blk with data := pkt.writeDataToBlock blk.data, isDirty := true } else blk)) := by
      simp [satisfyCpuSideRequest, made.inside, cmd, cmpAndSwap, made.swap cmd, overwrites]
    have overwrites' : pkt.overwrite (value.read pkt.offset pkt.size) = some overwrite_mem := by
      rw [← current, overwrites]
    refine ⟨_, _, if overwrite_mem then value.write pkt.offset pkt.data else value, ran, rfl, ?_, ?_, ?_⟩
    · simp [serveLine, cmd, current, overwrites']
    · cases overwrite_mem with
      | true =>
          rw [← current]
          exact written_coherent coherent held writable _ _
      | false => exact kept
    · refine ⟨fun lock mem => .inl ?_, fun _ other => absurd cmd other, by simp [cmd]⟩
      cases overwrite_mem <;> exact mem

end

end GemFi.SnoopingAccess
