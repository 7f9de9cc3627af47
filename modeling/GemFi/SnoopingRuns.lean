import GemFi.SnoopingAccess

/-!
Runs of caches on a coherent bus in atomic mode. The lines of the caches and of the memory stay
coherent with one flat memory, whatever the processors ask for and whatever blocks the tag stores
give up, so that each access finds what the accesses before it have left.
-/

namespace GemFi.SnoopingRuns

open SnoopingCaches SnoopingLines SnoopingAccess Transitions

variable {Line : Type} {blkSize n : ℕ} [DecidableEq Line]

def Coherent (system : System Line blkSize n) (value : Line → Data blkSize) : Prop :=
  -- the caches and the memory stand for the memory `value`
  ∀ line, LineCoherent (fun port => system.caches port line) (system.memory line) (value line)

section

variable {system : System Line blkSize n} {source : Fin n} {value : Line → Data blkSize}
  {pkt : Packet Line} {blk : CacheBlk blkSize} {victim : Option Line}

/-! ## Eviction -/

theorem allocateBlock_cases (cache : Cache Line blkSize) (victim : Option Line) :
    allocateBlock cache victim = (cache, []) ∨
      ∃ line blk, cache line = some blk ∧ allocateBlock cache victim =
        (Function.update cache line none, if blk.isDirty then [writebackBlk line blk] else []) := by
  cases victim with
  | none => exact .inl rfl
  | some line =>
      cases held : cache line with
      | none => exact .inl (by simp [allocateBlock, held])
      | some blk => exact .inr ⟨line, blk, held, by simp [allocateBlock, held]⟩

def writtenBack (memory : Line → Data blkSize) (line : Line) (blk : CacheBlk blkSize) :
    Line → Data blkSize :=
  -- the memory after the writeback of a victim
  if blk.isDirty then Function.update memory line blk.data else memory

theorem writtenBack_other (memory : Line → Data blkSize) {line other : Line} (blk : CacheBlk blkSize)
    (different : line ≠ other) : writtenBack memory other blk line = memory line := by
  rw [writtenBack]
  split
  · exact Function.update_of_ne different _ _
  · rfl

theorem coherent_evicted (coherent : Coherent system value) {line : Line}
    (held : system.caches source line = some blk) (other : Line) :
    LineCoherent (Function.update (fun port => system.caches port other) source
      (Function.update (system.caches source) line none other)) (writtenBack system.memory line blk other)
      (value other) := by
  by_cases same : other = line
  · subst same
    rw [Function.update_self]
    refine (coherent other).drop held ?_ ?_
    · intro dirty
      simp [writtenBack, dirty, (coherent other).current source blk held]
    · intro clean
      simp [writtenBack, clean]
  · rw [Function.update_of_ne same, Function.update_eq_self, writtenBack_other _ _ same]
    exact coherent other

theorem busWritebacks_victim (system : System Line blkSize n) (source : Fin n) (line : Line)
    (blk : CacheBlk blkSize) :
    system.busWritebacks source (if blk.isDirty then [writebackBlk line blk] else []) =
      some { system with memory := writtenBack system.memory line blk } := by
  cases dirty : blk.isDirty with
  | true => simp [System.busWritebacks, busAtomic_writeback, writtenBack, dirty]
  | false => simp [System.busWritebacks, writtenBack, dirty]

/-! ## One access -/

omit [DecidableEq Line] in
theorem withCache_copies (system : System Line blkSize n) (source : Fin n) (cache : Cache Line blkSize)
    (line : Line) : (fun port => (system.withCache source cache).caches port line) =
      Function.update (fun port => system.caches port line) source (cache line) := by
  funext port
  by_cases same : port = source
  · subst same
    simp [System.withCache]
  · simp [System.withCache, same]

omit [DecidableEq Line] in
theorem fromCpu_responds (made : FromCpu blkSize pkt) {response : Packet Line}
    (same : response.cmd = pkt.cmd) :
    response.cmd.needsResponse = true ∧
      response.makeAtomicResponse = some { response with cmd := response.cmd.responseCommand } := by
  rw [same]
  rcases made.cmd with cmd | cmd | cmd | cmd | cmd <;>
    simp [cmd, same, MemCmd.needsResponse, MemCmd.isRequest, MemCmd.isResponse, Packet.makeAtomicResponse]

theorem finish_eq (made : FromCpu blkSize pkt) {response : Packet Line} (same : response.cmd = pkt.cmd)
    {moved after : System Line blkSize n} {writebacks : List (Packet Line)}
    (written : moved.busWritebacks source writebacks = some after) :
    System.finish source (response, moved, writebacks) =
      some ({ response with cmd := response.cmd.responseCommand }, after) := by
  obtain ⟨needs, responds⟩ := fromCpu_responds made same
  simp [System.finish, written, needs, responds]

theorem recvAtomic_hit (made : FromCpu blkSize pkt) {response : Packet Line} {cache : Cache Line blkSize}
    (accessed : access true (system.caches source) victim pkt = some (true, response, cache, []))
    (same : response.cmd = pkt.cmd) :
    system.recvAtomic source victim pkt =
      some ({ response with cmd := response.cmd.responseCommand }, system.withCache source cache) := by
  have nothing (system : System Line blkSize n) :
      system.busWritebacks source [] = some system := rfl
  rw [System.recvAtomic, made.memInhibit, accessed]
  exact finish_eq made same (nothing _)

theorem recvAtomic_miss (made : FromCpu blkSize pkt) {response : Packet Line}
    {moved after : System Line blkSize n} {writebacks : List (Packet Line)}
    (accessed : access true (system.caches source) victim pkt = some (false, pkt, system.caches source, []))
    (missed : system.miss source victim pkt [] = some (response, moved, writebacks))
    (same : response.cmd = pkt.cmd) (written : moved.busWritebacks source writebacks = some after) :
    system.recvAtomic source victim pkt =
      some ({ response with cmd := response.cmd.responseCommand }, after) := by
  have unchanged : system.withCache source (system.caches source) = system := by
    simp [System.withCache]
  rw [System.recvAtomic, made.memInhibit, accessed]
  simp only [Bool.false_eq_true, if_false, Option.bind_some, unchanged, missed]
  exact finish_eq made same written

omit [DecidableEq Line] in
theorem fromCpu_not_writeback (made : FromCpu blkSize pkt) : pkt.cmd ≠ .Writeback := by
  rcases made.cmd with cmd | cmd | cmd | cmd | cmd <;> rw [cmd] <;> decide

omit [DecidableEq Line] in
theorem fromCpu_not_upgrade (made : FromCpu blkSize pkt) : pkt.cmd.isUpgrade = false := by
  rcases made.cmd with cmd | cmd | cmd | cmd | cmd <;> rw [cmd] <;> rfl

omit [DecidableEq Line] in
theorem query_ofBlock {cmd : MemCmd} (req : Request) (line : Line)
    (asks : cmd = .ReadReq ∨ cmd = .ReadExReq ∨ cmd = .UpgradeReq ∨ cmd = .SCUpgradeReq) :
    Query blkSize (Packet.ofBlock blkSize req cmd line) := ⟨asks, rfl, rfl⟩

/-- What an access does to the system. The locks of a block stay with it, but for those of the access,
and an access that writes takes the copies of the others. -/
structure Accessed (system after : System Line blkSize n) (source : Fin n) (pkt response : Packet Line)
    (value : Line → Data blkSize) : Prop where
  completed : after.completed = system.completed
  coherent : ∃ line', serveLine (value pkt.line) pkt response = some line' ∧
    Coherent after (Function.update value pkt.line line')
  own : ∀ blk', after.caches source pkt.line = some blk' → ∃ before,
    Relocked pkt response before blk'.lockList ∧
      (before = [] ∨ ∃ blk, system.caches source pkt.line = some blk ∧ blk.lockList = before)
  others : ∀ port line blk', port ≠ source ∨ line ≠ pkt.line → after.caches port line = some blk' →
    (∃ blk, system.caches port line = some blk ∧ blk.lockList = blk'.lockList) ∧
      (line = pkt.line → ¬ Writes pkt response)
  cond : pkt.cmd = .StoreCondReq → response.req.extraData = 1 →
    ∃ blk lock, system.caches source pkt.line = some blk ∧ lock ∈ blk.lockList ∧
      lock.matchesContext pkt = true

theorem access_hit (coherent : Coherent system value) (made : FromCpu blkSize pkt)
    (held : system.caches source pkt.line = some blk) (sufficient : Sufficient pkt blk) :
    ∃ response after, system.recvAtomic source victim pkt = some (response, after) ∧
      Accessed system after source pkt response value := by
  obtain ⟨response, blk', line', ran, same, served, kept, relocked⟩ :=
    satisfied (coherent pkt.line) held made sufficient
  have readable := (coherent pkt.line).readable source blk held
  have accessed : access true (system.caches source) victim pkt =
      some (true, response, Function.update (system.caches source) pkt.line (some blk'), []) := by
    have good : (if pkt.cmd.needsExclusive then blk.isWritable else blk.isReadable) = true := by
      split
      · exact sufficient ‹_›
      · exact readable
    rw [access, held, Option.filter_some, if_pos good]
    simp [ran]
  refine ⟨_, _, recvAtomic_hit made accessed same, rfl, ⟨line', served, ?_⟩, ?_, ?_, ?_⟩
  · intro line
    rw [withCache_copies]
    by_cases here : line = pkt.line
    · subst here
      rw [Function.update_self, Function.update_self]
      exact kept
    · rw [Function.update_of_ne here, Function.update_of_ne here, Function.update_eq_self]
      exact coherent line
  · intro now after
    simp only [System.withCache, Function.update_self] at after
    obtain rfl := Option.some.inj after
    exact ⟨blk.lockList, ⟨relocked.comes, relocked.goes, relocked.cond⟩, .inr ⟨blk, held, rfl⟩⟩
  · intro port line now elsewhere after
    have was : system.caches port line = some now := by
      by_cases own : port = source
      · subst own
        have apart := elsewhere.resolve_left fun different => different rfl
        simpa [System.withCache, apart] using after
      · simpa [System.withCache, own] using after
    refine ⟨⟨now, was, rfl⟩, ?_⟩
    rintro rfl writes
    have different : port ≠ source := elsewhere.resolve_right fun apart => apart rfl
    have writable : blk.isWritable = true := by
      refine sufficient ?_
      rcases writes with cmd | cmd | ⟨cmd, _⟩ <;> rw [cmd] <;> rfl
    rw [(coherent pkt.line).exclusive source port blk held writable different] at was
    cases was
  · intro cmd success
    obtain ⟨lock, mem, found⟩ := relocked.cond cmd success
    exact ⟨blk, lock, held, mem, found⟩

theorem fill_done {busPkt response : Packet Line} {filled : CacheBlk blkSize} {cache : Cache Line blkSize}
    {writebacks : List (Packet Line)} {line' : Data blkSize} (made : FromCpu blkSize pkt)
    (line : busPkt.line = pkt.line) (query : Query blkSize busPkt)
    (answer : Answer system source line' busPkt response)
    (fills : handleFill (system.caches source) victim response = some (filled, cache, writebacks))
    (coherent : LineCoherent (Function.update
      (fun port => snooped system.caches source busPkt.cmd busPkt.line port busPkt.line) source (some filled))
      (system.memory busPkt.line) line')
    (sufficient : Sufficient pkt filled) :
    ∃ final blk' line'', (queried system source busPkt.cmd busPkt.line).fill source victim pkt response =
      some (final, (queried system source busPkt.cmd busPkt.line).withCache source
        (Function.update cache pkt.line (some blk')), writebacks) ∧
      final.cmd = pkt.cmd ∧ serveLine line' pkt final = some line'' ∧
      LineCoherent (Function.update
        (fun port => snooped system.caches source busPkt.cmd busPkt.line port busPkt.line) source (some blk'))
        (system.memory busPkt.line) line'' ∧ Relocked pkt final filled.lockList blk'.lockList := by
  obtain ⟨final, blk', line'', ran, same, served, kept, relocked⟩ :=
    satisfied coherent (Function.update_self _ _ _) made sufficient
  rw [Function.update_idem] at kept
  refine ⟨final, blk', line'', ?_, same, served, kept, relocked⟩
  have needs : pkt.cmd.needsResponse = true := (fromCpu_responds made rfl).1
  have responds : response.cmd.isResponse = true := answer.cmd ▸ query.response
  have fits : response.cmd.isRead = true ∨ response.cmd = .UpgradeResp := by
    rw [answer.cmd]
    rcases query.cmd with cmd | cmd | cmd | cmd <;> rw [cmd] <;> decide
  have own : (queried system source busPkt.cmd busPkt.line).caches source = system.caches source :=
    snooped_source _ _ _
  rw [System.fill, if_pos needs, if_pos responds, if_pos fits, own, fills]
  simp [ran, answer.line, line]

theorem coherent_filled {after : System Line blkSize n} {cmd : MemCmd} {line : Line}
    {line' : Data blkSize} {cache : Cache Line blkSize} {copy : Option (CacheBlk blkSize)}
    (caches : after.caches = Function.update (snooped system.caches source cmd line) source
      (Function.update cache line copy))
    (here : LineCoherent (Function.update (fun port => snooped system.caches source cmd line port line) source
      copy) (after.memory line) line')
    (others : ∀ other, other ≠ line → LineCoherent
      (Function.update (fun port => system.caches port other) source (cache other)) (after.memory other)
      (value other)) :
    Coherent after (Function.update value line line') := by
  intro other
  have copies : (fun port => after.caches port other) =
      Function.update (fun port => snooped system.caches source cmd line port other) source
        (Function.update cache line copy other) := by
    rw [caches]
    exact withCache_copies { system with caches := snooped system.caches source cmd line } source _ other
  rw [copies]
  by_cases same : other = line
  · subst same
    rw [Function.update_self, Function.update_self]
    exact here
  · rw [Function.update_of_ne same, Function.update_of_ne same]
    simp only [snooped_other _ _ same]
    exact others other same

theorem accessed_filled {after : System Line blkSize n} {response : Packet Line} {cmd : MemCmd}
    {line' : Data blkSize} {cache : Cache Line blkSize} {blk' : CacheBlk blkSize} {before : List Lock}
    (caches : after.caches = Function.update (snooped system.caches source cmd pkt.line) source
      (Function.update cache pkt.line (some blk')))
    (completed : after.completed = system.completed)
    (served : serveLine (value pkt.line) pkt response = some line')
    (coherent : Coherent after (Function.update value pkt.line line'))
    (takes : Writes pkt response → cmd.isInvalidate = true)
    (kept : ∀ line blk, cache line = some blk → system.caches source line = some blk)
    (relocked : Relocked pkt response before blk'.lockList)
    (was : before = [] ∨ ∃ blk, system.caches source pkt.line = some blk ∧ blk.lockList = before) :
    Accessed system after source pkt response value := by
  refine ⟨completed, ⟨line', served, coherent⟩, ?_, ?_, ?_⟩
  · intro now held
    rw [caches, Function.update_self, Function.update_self] at held
    obtain rfl := Option.some.inj held
    exact ⟨before, relocked, was⟩
  · intro port line now elsewhere held
    rw [caches] at held
    by_cases own : port = source
    · subst own
      have apart := elsewhere.resolve_left fun different => different rfl
      rw [Function.update_self, Function.update_of_ne apart] at held
      exact ⟨⟨now, kept line now held, rfl⟩, fun same => absurd same apart⟩
    · rw [Function.update_of_ne own] at held
      by_cases here : line = pkt.line
      · subst here
        rw [snooped_line _ _ _ own] at held
        by_cases invalidates : cmd.isInvalidate = true
        · rw [left, if_pos invalidates] at held
          cases held
        · rw [left, if_neg invalidates] at held
          obtain ⟨blk, had, rfl⟩ := Option.map_eq_some_iff.mp held
          exact ⟨⟨blk, had, rfl⟩, fun _ writes => invalidates (takes writes)⟩
      · rw [snooped_other _ _ here] at held
        exact ⟨⟨now, held, rfl⟩, fun same => absurd same here⟩
  · intro cond success
    obtain ⟨lock, mem, found⟩ := relocked.cond cond success
    obtain rfl | ⟨blk, held, rfl⟩ := was
    · cases mem
    · exact ⟨blk, lock, held, mem, found⟩

theorem access_upgrade (coherent : Coherent system value) (made : FromCpu blkSize pkt)
    (held : system.caches source pkt.line = some blk) (exclusive : pkt.cmd.needsExclusive = true)
    (readOnly : blk.isWritable = false) :
    ∃ response after, system.recvAtomic source victim pkt = some (response, after) ∧
      Accessed system after source pkt response value := by
  have accessed : access true (system.caches source) victim pkt =
      some (false, pkt, system.caches source, []) := by
    simp [access, held, Option.filter, exclusive, readOnly, fromCpu_not_writeback made]
  have needs : pkt.cmd.needsResponse = true := (fromCpu_responds made rfl).1
  obtain ⟨cmd, asks, sends⟩ : ∃ cmd, (cmd = .UpgradeReq ∨ cmd = .SCUpgradeReq) ∧
      getBusPacket pkt (some blk) = some (some (.ofBlock blkSize pkt.req cmd pkt.line)) := by
    cases llsc : pkt.cmd.isLLSC with
    | true => exact ⟨.SCUpgradeReq, .inr rfl, by simp [getBusPacket, needs, exclusive, readOnly, llsc]⟩
    | false => exact ⟨.UpgradeReq, .inl rfl, by simp [getBusPacket, needs, exclusive, readOnly, llsc]⟩
  generalize request : Packet.ofBlock blkSize pkt.req cmd pkt.line = busPkt at sends
  have query : Query blkSize busPkt := request ▸ query_ofBlock pkt.req pkt.line (.inr (.inr asks))
  have line : busPkt.line = pkt.line := by rw [← request]; rfl
  have sameCmd : busPkt.cmd = cmd := by rw [← request]; rfl
  have silent : busPkt.cmd.isRead = false := by
    rcases asks with rfl | rfl <;> rw [sameCmd] <;> rfl
  have takes : busPkt.cmd.isInvalidate = true := by
    rcases asks with rfl | rfl <;> rw [sameCmd] <;> rfl
  obtain ⟨response, answered, answer⟩ : ∃ response, system.busAtomic busPkt source =
      some (response, queried system source busPkt.cmd busPkt.line) ∧
        Answer system source (value busPkt.line) busPkt response :=
    busAtomic_query (coherent busPkt.line) query (by rw [← request]; rfl) (by rw [← request]; rfl)
      fun reads => absurd (silent.symm.trans reads) Bool.false_ne_true
  have here : system.caches source response.line = some blk := by
    rw [answer.line, line, held]
  have filled := filled_alone answer (coherent busPkt.line) takes blk
    (fun _ => (coherent busPkt.line).current source blk (by rw [line, held]))
    (fun other was dirty => by
      rw [line, held] at was
      exact Option.some.inj was ▸ dirty)
    (by
      rw [answer.cmd, sameCmd]
      rcases asks with rfl | rfl <;> rfl)
  have fills : handleFill (system.caches source) victim response =
      some (fillBlk response blk, system.caches source, []) := by
    rw [handleFill, here]
  have sufficient : Sufficient pkt (fillBlk response blk) := by
    intro _
    simp [fillBlk, answer.shared, shares, takes]
  obtain ⟨final, blk', line', moved, same, served, kept, relocked⟩ :=
    fill_done made line query answer fills filled sufficient
  have missed : system.miss source victim pkt [] = some (final,
      (queried system source busPkt.cmd busPkt.line).withCache source
        (Function.update (system.caches source) pkt.line (some blk')), []) := by
    rw [System.miss, held, sends]
    simp [answered, moved]
  rw [line] at served kept missed
  have whole : Coherent ((queried system source busPkt.cmd pkt.line).withCache source
      (Function.update (system.caches source) pkt.line (some blk'))) (Function.update value pkt.line line') := by
    refine coherent_filled rfl kept fun other _ => ?_
    rw [Function.update_eq_self]
    exact coherent other
  refine ⟨_, _, recvAtomic_miss made accessed missed same rfl, ?_⟩
  exact accessed_filled rfl rfl served whole (fun _ => takes) (fun _ _ => id)
    ⟨relocked.comes, relocked.goes, relocked.cond⟩ (.inr ⟨blk, held, rfl⟩)

theorem filled_miss {busPkt response : Packet Line} {line' : Data blkSize}
    (answer : Answer system source line' busPkt response)
    (coherent : LineCoherent (fun port => system.caches port busPkt.line) (system.memory busPkt.line) line')
    (absent : system.caches source busPkt.line = none)
    (asks : busPkt.cmd = .ReadReq ∧ pkt.cmd.needsExclusive = false ∨ busPkt.cmd = .ReadExReq) :
    LineCoherent (Function.update
        (fun port => snooped system.caches source busPkt.cmd busPkt.line port busPkt.line) source
        (some (fillBlk response CacheBlk.empty))) (system.memory busPkt.line) line' ∧
      Sufficient pkt (fillBlk response (CacheBlk.empty : CacheBlk blkSize)) := by
  obtain ⟨reads, shared⟩ | takes := asks
  · refine ⟨filled_shared answer coherent reads absent, ?_⟩
    intro exclusive
    rw [shared] at exclusive
    cases exclusive
  · have invalidates : busPkt.cmd.isInvalidate = true := by rw [takes]; rfl
    refine ⟨filled_alone answer coherent invalidates _ ?_ ?_ ?_, ?_⟩
    · rw [takes]
      nofun
    · rw [absent]
      nofun
    · rw [answer.cmd, takes]
      rfl
    · intro _
      simp [fillBlk, answer.shared, shares, invalidates]

theorem access_miss (coherent : Coherent system value) (made : FromCpu blkSize pkt)
    (absent : system.caches source pkt.line = none) (notCond : pkt.cmd ≠ .StoreCondReq) :
    ∃ response after, system.recvAtomic source victim pkt = some (response, after) ∧
      Accessed system after source pkt response value := by
  have goesOn : (pkt.cmd.isLLSC && pkt.cmd.isWrite) = false := by
    rcases made.cmd with cmd | cmd | cmd | cmd | cmd
    · rw [cmd]; rfl
    · rw [cmd]; rfl
    · rw [cmd]; rfl
    · exact absurd cmd notCond
    · rw [cmd]; rfl
  have accessed : access true (system.caches source) victim pkt =
      some (false, pkt, system.caches source, []) := by
    simp only [access, absent, Option.filter_none, if_neg (fromCpu_not_writeback made), Option.isNone_none,
      Bool.true_and, goesOn]
    rfl
  have needs : pkt.cmd.needsResponse = true := (fromCpu_responds made rfl).1
  have sends :
      getBusPacket pkt (none : Option (CacheBlk blkSize)) = some (some (.ofBlock blkSize pkt.req
      (if pkt.cmd.needsExclusive then .ReadExReq else .ReadReq) pkt.line)) := by
    simp [getBusPacket, fromCpu_not_writeback made, fromCpu_not_upgrade made, needs]
  have asks : (if pkt.cmd.needsExclusive then MemCmd.ReadExReq else .ReadReq) = .ReadReq ∧
      pkt.cmd.needsExclusive = false ∨
      (if pkt.cmd.needsExclusive then MemCmd.ReadExReq else .ReadReq) = .ReadExReq := by
    cases pkt.cmd.needsExclusive <;> simp
  generalize (if pkt.cmd.needsExclusive then MemCmd.ReadExReq else .ReadReq) = cmd at sends asks
  generalize request : Packet.ofBlock blkSize pkt.req cmd pkt.line = busPkt at sends
  have query : Query blkSize busPkt := request ▸ query_ofBlock pkt.req pkt.line
    (asks.elim (fun both => .inl both.1) fun reads => .inr (.inl reads))
  have line : busPkt.line = pkt.line := by rw [← request]; rfl
  have sameCmd : busPkt.cmd = cmd := by rw [← request]; rfl
  have none' : system.caches source busPkt.line = none := by rw [line, absent]
  obtain ⟨response, answered, answer⟩ : ∃ response, system.busAtomic busPkt source =
      some (response, queried system source busPkt.cmd busPkt.line) ∧
        Answer system source (value busPkt.line) busPkt response :=
    busAtomic_query (coherent busPkt.line) query (by rw [← request]; rfl) (by rw [← request]; rfl)
      fun _ => none'
  have filled := filled_miss answer (coherent busPkt.line) none' (sameCmd ▸ asks)
  have hasData : response.cmd.hasData = true := by
    rw [answer.cmd, sameCmd]
    rcases asks with ⟨rfl, _⟩ | rfl <;> rfl
  have fills : handleFill (system.caches source) victim response =
      some (fillBlk response CacheBlk.empty,
        (allocateBlock (system.caches source) victim).1, (allocateBlock (system.caches source) victim).2) := by
    rw [handleFill, answer.line, none', if_pos hasData]
  obtain ⟨final, blk', line', moved, same, served, kept, relocked⟩ :=
    fill_done made line query answer fills filled.1 filled.2
  have missed : system.miss source victim pkt [] = some (final,
      (queried system source busPkt.cmd busPkt.line).withCache source
        (Function.update (allocateBlock (system.caches source) victim).1 pkt.line (some blk')),
      (allocateBlock (system.caches source) victim).2) := by
    rw [System.miss, absent, sends]
    simp [answered, moved]
  rw [line] at served kept missed
  have takes (writes : Writes pkt final) : busPkt.cmd.isInvalidate = true := by
    obtain ⟨_, shared⟩ | takes := asks
    · rcases writes with cmd | cmd | ⟨cmd, _⟩ <;> rw [cmd] at shared <;> cases shared
    · rw [sameCmd, takes]
      rfl
  have locks : Relocked pkt final [] blk'.lockList := relocked
  obtain nothing | ⟨other, gone, held, gives⟩ := allocateBlock_cases (system.caches source) victim
  · rw [nothing] at missed
    refine ⟨_, _, recvAtomic_miss made accessed missed same rfl, ?_⟩
    refine accessed_filled rfl rfl served ?_ takes (fun _ _ => id)
      ⟨locks.comes, locks.goes, locks.cond⟩ (.inl rfl)
    refine coherent_filled rfl kept fun other _ => ?_
    rw [Function.update_eq_self]
    exact coherent other
  · rw [gives] at missed
    have written := busWritebacks_victim ((queried system source busPkt.cmd pkt.line).withCache source
      (Function.update (Function.update (system.caches source) other none) pkt.line (some blk'))) source
      other gone
    have apart : pkt.line ≠ other := by
      intro equal
      rw [← equal, absent] at held
      cases held
    refine ⟨_, _, recvAtomic_miss made accessed missed same written, ?_⟩
    refine accessed_filled rfl rfl served ?_ takes (fun line blk here => ?_)
      ⟨locks.comes, locks.goes, locks.cond⟩ (.inl rfl)
    · refine coherent_filled rfl ?_ fun another _ => ?_
      · change LineCoherent _ (writtenBack system.memory other gone pkt.line) line'
        rw [writtenBack_other system.memory gone apart]
        exact kept
      · exact coherent_evicted coherent held another
    · by_cases here' : line = other
      · rw [here', Function.update_self] at here
        cases here
      · rwa [Function.update_of_ne here'] at here

theorem access_gaveUp (coherent : Coherent system value) (made : FromCpu blkSize pkt)
    (absent : system.caches source pkt.line = none) (cond : pkt.cmd = .StoreCondReq) :
    ∃ response after, system.recvAtomic source victim pkt = some (response, after) ∧
      Accessed system after source pkt response value := by
  have accessed : access true (system.caches source) victim pkt =
      some (true, { pkt with req := { pkt.req with extraData := 0 } }, system.caches source, []) := by
    simp [access, absent, cond, MemCmd.isLLSC, MemCmd.isWrite]
  have unchanged : system.withCache source (system.caches source) = system := by
    simp [System.withCache]
  have failed : ¬ Writes pkt { pkt with
      cmd := pkt.cmd.responseCommand, req := { pkt.req with extraData := 0 } } := by
    simp [Writes, cond]
  refine ⟨_, _, recvAtomic_hit made accessed rfl, rfl, ⟨value pkt.line, ?_, ?_⟩, ?_, ?_, ?_⟩
  · simp [serveLine, cond]
  · rw [unchanged, Function.update_eq_self]
    exact coherent
  · intro blk' held
    rw [unchanged, absent] at held
    cases held
  · intro port line blk' _ held
    rw [unchanged] at held
    exact ⟨⟨blk', held, rfl⟩, fun _ => failed⟩
  · intro _ success
    cases success

theorem access_coherent (source : Fin n) (victim : Option Line) (coherent : Coherent system value) (made : FromCpu blkSize pkt) :
    ∃ response after, system.recvAtomic source victim pkt = some (response, after) ∧
      Accessed system after source pkt response value := by
  cases held : system.caches source pkt.line with
  | none =>
      by_cases cond : pkt.cmd = .StoreCondReq
      · exact access_gaveUp coherent made held cond
      · exact access_miss coherent made held cond
  | some blk =>
      by_cases sufficient : Sufficient pkt blk
      · exact access_hit coherent made held sufficient
      · simp only [Sufficient, Classical.not_imp, Bool.not_eq_true] at sufficient
        exact access_upgrade coherent made held sufficient.1 sufficient.2

/-! ## Functional accesses and flushes -/

structure Carried (pkt after : Packet Line) (bytes : List UInt8) (unowned : Prop) : Prop where
  line : after.line = pkt.line
  offset : after.offset = pkt.offset
  size : after.size = pkt.size
  answer : after.cmd = .ReadResp ∧ after.data = bytes ∨ after.cmd = .ReadReq ∧ unowned

section

variable {before : Packet Line} {line' : Data blkSize} {unowned : Prop} {caches : Fin n → Cache Line blkSize}

theorem functionalAccess_read {cache : Cache Line blkSize}
    (carried : Carried pkt before (line'.read pkt.offset pkt.size) unowned)
    (request : before.cmd = .ReadReq) (current : ∀ blk, cache pkt.line = some blk → blk.data = line') :
    ∃ after, functionalAccess cache before = some (after, cache) ∧
      Carried pkt after (line'.read pkt.offset pkt.size)
        (unowned ∧ ∀ blk, cache pkt.line = some blk → blk.isDirty = false) := by
  have met : unowned := by
    obtain ⟨done, _⟩ | ⟨_, met⟩ := carried.answer
    · rw [done] at request
      cases request
    · exact met
  rw [functionalAccess, carried.line]
  cases held : cache pkt.line with
  | none =>
      exact ⟨before, rfl, carried.line, carried.offset, carried.size, .inr ⟨request, met, nofun⟩⟩
  | some blk =>
      have isRead : before.cmd.isRead = true := by rw [request]; rfl
      have data : (before.setDataFromBlock blk.data).data = line'.read pkt.offset pkt.size := by
        rw [Packet.setDataFromBlock, current blk held, carried.offset, carried.size]
      simp only [isRead, if_true]
      cases dirty : blk.isDirty with
      | true =>
          refine ⟨{ before.setDataFromBlock blk.data with cmd := .ReadResp }, ?_, carried.line,
            carried.offset, carried.size, .inl ⟨rfl, data⟩⟩
          simp [Packet.makeAtomicResponse, Packet.setDataFromBlock, request, MemCmd.needsResponse,
            MemCmd.isRequest, MemCmd.isResponse, MemCmd.responseCommand]
      | false =>
          refine ⟨before.setDataFromBlock blk.data, rfl, carried.line, carried.offset, carried.size,
            .inr ⟨request, met, ?_⟩⟩
          intro other same
          exact Option.some.inj same ▸ dirty

theorem forwardFunctional_read (source : Fin n) (carried : Carried pkt before (line'.read pkt.offset pkt.size) unowned)
    (current : ∀ port blk, caches port pkt.line = some blk → blk.data = line') (port : Fin n) :
    ∃ after, forwardFunctional source (before, caches) port = some (after, caches) ∧
      Carried pkt after (line'.read pkt.offset pkt.size)
        (unowned ∧ (port ≠ source → ∀ blk, caches port pkt.line = some blk → blk.isDirty = false)) := by
  obtain ⟨done, data⟩ | ⟨request, met⟩ := carried.answer
  · refine ⟨before, ?_, carried.line, carried.offset, carried.size, .inl ⟨done, data⟩⟩
    simp [forwardFunctional, done, MemCmd.isResponse]
  · by_cases own : port = source
    · refine ⟨before, ?_, carried.line, carried.offset, carried.size,
        .inr ⟨request, met, fun different => absurd own different⟩⟩
      simp [forwardFunctional, own]
    · obtain ⟨after, ran, line, offset, size, answer⟩ := functionalAccess_read carried request (current port)
      refine ⟨after, ?_, line, offset, size, ?_⟩
      · simp [forwardFunctional, request, MemCmd.isResponse, own, ran]
      · obtain answered | ⟨still, met, clean⟩ := answer
        · exact .inl answered
        · exact .inr ⟨still, met, fun _ => clean⟩

theorem forwardFunctional_reads (source : Fin n) (ports : List (Fin n))
    (carried : Carried pkt before (line'.read pkt.offset pkt.size) unowned)
    (current : ∀ port blk, caches port pkt.line = some blk → blk.data = line') :
    ∃ after, ports.foldlM (forwardFunctional source) (before, caches) = some (after, caches) ∧
      Carried pkt after (line'.read pkt.offset pkt.size) (unowned ∧ ∀ port ∈ ports, port ≠ source →
        ∀ blk, caches port pkt.line = some blk → blk.isDirty = false) := by
  induction ports generalizing before unowned with
  | nil =>
      exact ⟨before, rfl, carried.line, carried.offset, carried.size,
        carried.answer.imp_right fun ⟨request, met⟩ => ⟨request, met, nofun⟩⟩
  | cons port rest ih =>
      obtain ⟨middle, moved, carried⟩ := forwardFunctional_read source carried current port
      obtain ⟨after, ran, line, offset, size, answer⟩ := ih carried
      refine ⟨after, ?_, line, offset, size, answer.imp_right fun ⟨request, ⟨met, here⟩, later⟩ => ⟨request, met, ?_⟩⟩
      · rw [List.foldlM_cons, moved]
        exact ran
      · intro other mem different
        obtain rfl | mem := List.mem_cons.mp mem
        · exact here different
        · exact later other mem different

end

theorem functional_reads (source : Fin n) (coherent : Coherent system value) (reads : pkt.cmd = .ReadReq) :
    ∃ response, system.functional source pkt = some (response, system) ∧
      response.data = (value pkt.line).read pkt.offset pkt.size := by
  have current (port : Fin n) (blk : CacheBlk blkSize) (held : system.caches port pkt.line = some blk) :
      blk.data = value pkt.line := (coherent pkt.line).current port blk held
  have start : Carried pkt pkt ((value pkt.line).read pkt.offset pkt.size) True :=
    ⟨rfl, rfl, rfl, .inr ⟨reads, trivial⟩⟩
  have unchanged : system.withCache source (system.caches source) = system := by
    simp [System.withCache]
  obtain ⟨own, ran, carried⟩ := functionalAccess_read start reads (current source)
  simp only [System.functional, ran, Option.bind_some, unchanged]
  obtain ⟨done, data⟩ | ⟨request, _, clean⟩ := carried.answer
  · refine ⟨own, ?_, data⟩
    simp [done, MemCmd.isResponse]
  · have goesOn : own.cmd.isResponse = false := by rw [request]; rfl
    obtain ⟨after, forwarded, carried⟩ :=
      forwardFunctional_reads source (List.finRange n) carried current
    simp only [goesOn, System.busFunctional, forwarded, Option.bind_some]
    obtain ⟨done, data⟩ | ⟨request, _, others⟩ := carried.answer
    · refine ⟨after, ?_, data⟩
      simp [done, MemCmd.isResponse]
    · have memory : system.memory pkt.line = value pkt.line := by
        refine (coherent pkt.line).clean fun port blk held => ?_
        by_cases same : port = source
        · subst same
          exact clean blk held
        · exact others port (List.mem_finRange port) same blk held
      refine ⟨{ after.setDataFromBlock (system.memory after.line) with cmd := .ReadResp }, ?_, ?_⟩
      · simp [request, MemCmd.isResponse, memoryFunctional, MemCmd.isRead, Packet.makeAtomicResponse,
          Packet.setDataFromBlock, MemCmd.needsResponse, MemCmd.isRequest, MemCmd.responseCommand]
      · rw [Packet.setDataFromBlock, carried.line, carried.offset, carried.size, memory]

def rewritten (pkt : Packet Line) (cache : Cache Line blkSize) : Cache Line blkSize :=
  Function.update cache pkt.line
    ((cache pkt.line).map fun blk => { blk with data := pkt.writeDataToBlock blk.data })

theorem functionalAccess_write (writes : pkt.cmd = .WriteReq) (cache : Cache Line blkSize) :
    functionalAccess cache pkt = some (pkt, rewritten pkt cache) := by
  cases held : cache pkt.line with
  | none =>
      have stays :
          Function.update cache pkt.line none = cache := by rw [← held, Function.update_eq_self]
      simp [functionalAccess, rewritten, held, stays]
  | some blk => simp [functionalAccess, rewritten, held, writes, MemCmd.isRead, MemCmd.isWrite]

theorem forwardFunctional_writes (source : Fin n) (writes : pkt.cmd = .WriteReq) {ports : List (Fin n)}
    (nodup : ports.Nodup) (caches : Fin n → Cache Line blkSize) :
    ports.foldlM (forwardFunctional source) (pkt, caches) = some (pkt, fun port =>
      if port ∈ ports ∧ port ≠ source then rewritten pkt (caches port) else caches port) := by
  induction ports generalizing caches with
  | nil => simp
  | cons port rest ih =>
      obtain ⟨fresh, nodup⟩ := List.nodup_cons.mp nodup
      have request : pkt.cmd.isResponse = false := by rw [writes]; rfl
      rw [List.foldlM_cons]
      by_cases own : port = source
      · have stays : forwardFunctional source (pkt, caches) port = some (pkt, caches) := by
          simp [forwardFunctional, own]
        rw [stays]
        refine (ih nodup caches).trans ?_
        congr 2
        funext other
        by_cases same : other = port
        · subst same
          simp [own]
        · simp [same]
      · have steps : forwardFunctional source (pkt, caches) port =
            some (pkt, Function.update caches port (rewritten pkt (caches port))) := by
          simp [forwardFunctional, request, own, functionalAccess_write writes]
        rw [steps]
        refine (ih nodup _).trans ?_
        congr 2
        funext other
        by_cases same : other = port
        · subst same
          simp [fresh, own]
        · simp [same]

def written (system : System Line blkSize n) (source : Fin n) (pkt : Packet Line) :
    System Line blkSize n :=
  -- what the bus makes of the system when it takes a functional write to the other copies and to
  -- the memory
  { system with
    caches := fun port => if port ≠ source then rewritten pkt (system.caches port) else system.caches port
    memory := Function.update system.memory pkt.line (pkt.writeDataToBlock (system.memory pkt.line)) }

theorem busFunctional_write (system : System Line blkSize n) (source : Fin n)
    (writes : pkt.cmd = .WriteReq) :
    ∃ response, system.busFunctional pkt source = some (response, written system source pkt) := by
  refine ⟨{ pkt with cmd := .WriteResp }, ?_⟩
  rw [System.busFunctional, forwardFunctional_writes source writes (List.nodup_finRange n)]
  simp [written, writes, MemCmd.isResponse, memoryFunctional, MemCmd.isRead, MemCmd.isWrite,
    Packet.makeAtomicResponse, MemCmd.needsResponse, MemCmd.isRequest, MemCmd.responseCommand, List.mem_finRange]

theorem functional_writes (source : Fin n) (coherent : Coherent system value) (writes : pkt.cmd = .WriteReq) :
    ∃ response after, system.functional source pkt = some (response, after) ∧
      after.completed = system.completed ∧ Coherent after (Function.update value pkt.line
        ((value pkt.line).write pkt.offset pkt.data)) := by
  have request : pkt.cmd.isResponse = false := by rw [writes]; rfl
  obtain ⟨response, ran⟩ := busFunctional_write
    (system.withCache source (rewritten pkt (system.caches source))) source writes
  have goesOn : system.functional source pkt =
      (system.withCache source (rewritten pkt (system.caches source))).busFunctional pkt source := by
    simp [System.functional, functionalAccess_write writes, request]
  refine ⟨response, _, goesOn.trans ran, rfl, ?_⟩
  intro line
  have copies :
      (fun port => (written (system.withCache source (rewritten pkt (system.caches source)))
      source pkt).caches port line) = fun port => rewritten pkt (system.caches port) line := by
    funext port
    by_cases same : port = source
    · subst same
      simp [written, System.withCache]
    · simp [written, System.withCache, same]
  rw [copies]
  by_cases same : line = pkt.line
  · subst same
    simp only [written, rewritten, Function.update_self]
    exact (coherent pkt.line).rewrite fun data => pkt.writeDataToBlock data
  · simp only [written, rewritten, Function.update_of_ne same]
    exact coherent line

theorem coherent_cleaned (coherent : Coherent system value) {line : Line}
    (held : system.caches source line = some blk) :
    Coherent ((written system source (System.cleaning line blk)).withCache source
      (Function.update ((written system source (System.cleaning line blk)).caches source) line
        (some { blk with isDirty := false }))) value := by
  have current := (coherent line).current source blk held
  have rewrite (data : Data blkSize) :
      (System.cleaning line blk).writeDataToBlock data = value line :=
    (write_read data blk.data).trans current
  intro other
  rw [withCache_copies]
  by_cases here : other = line
  · subst here
    rw [Function.update_self]
    refine (coherent other).weaken ?_ fun _ => ?_
    · intro port now held'
      by_cases own : port = source
      · subst own
        rw [Function.update_self] at held'
        obtain rfl := Option.some.inj held'
        exact ⟨blk, held, rfl, rfl, nofun, id⟩
      · rw [Function.update_of_ne own] at held'
        simp only [written, ne_eq, own, not_false_eq_true, if_true] at held'
        obtain ⟨before, was, rfl⟩ : ∃ before, system.caches port other = some before ∧
            ({ before with data := (System.cleaning other blk).writeDataToBlock before.data } :
              CacheBlk blkSize) = now := by
          simpa [rewritten, System.cleaning, Packet.ofBlock] using held'
        refine ⟨before, was, ?_, rfl, id, id⟩
        rw [rewrite, (coherent other).current port before was]
    · exact (Function.update_self _ _ _).trans (rewrite _)
  · have copies : (fun port => (written system source (System.cleaning line blk)).caches port other) =
        fun port => system.caches port other := by
      funext port
      simp only [written]
      split
      · exact Function.update_of_ne here _ _
      · rfl
    have memory :
        (written system source (System.cleaning line blk)).memory other = system.memory other :=
      Function.update_of_ne here _ _
    rw [Function.update_of_ne here]
    change LineCoherent _ ((written system source (System.cleaning line blk)).memory other) _
    rw [memory, copies, Function.update_eq_iff.mpr ⟨congrFun copies source, fun _ _ => rfl⟩]
    exact coherent other

theorem writebackVisitor_coherent (coherent : Coherent system value) (source : Fin n) (line : Line) :
    ∃ after, System.writebackVisitor source system line = some after ∧
      after.completed = system.completed ∧ Coherent after value := by
  rw [System.writebackVisitor]
  cases held : system.caches source line with
  | none => exact ⟨system, rfl, rfl, coherent⟩
  | some blk =>
      cases dirty : blk.isDirty with
      | false => exact ⟨system, by simp [dirty], rfl, coherent⟩
      | true =>
          obtain ⟨response, ran⟩ := busFunctional_write system source
            (show (System.cleaning line blk).cmd = .WriteReq from rfl)
          have cleaned := coherent_cleaned coherent held
          refine ⟨_, ?_, ?_, cleaned⟩
          · simp [dirty, ran]
          · rfl

theorem memWriteback_coherent (lines : List Line) (coherent : Coherent system value) (source : Fin n) :
    ∃ after, system.memWriteback source lines = some after ∧ after.completed = system.completed ∧
      Coherent after value := by
  induction lines generalizing system with
  | nil => exact ⟨system, rfl, rfl, coherent⟩
  | cons line rest ih =>
      obtain ⟨middle, visited, same, coherent⟩ := writebackVisitor_coherent coherent source line
      obtain ⟨after, ran, same', coherent⟩ := ih coherent
      refine ⟨after, ?_, same'.trans same, coherent⟩
      rw [System.memWriteback, List.foldlM_cons, visited]
      exact ran

theorem invalidateVisitor_coherent {after : System Line blkSize n} (coherent : Coherent system value)
    {line : Line} (visited : System.invalidateVisitor source system line = some after) :
    after.completed = system.completed ∧ Coherent after value := by
  rw [System.invalidateVisitor] at visited
  cases held : system.caches source line with
  | none =>
      rw [held] at visited
      cases visited
      exact ⟨rfl, coherent⟩
  | some blk =>
      rw [held] at visited
      cases dirty : blk.isDirty with
      | true => simp [dirty] at visited
      | false =>
          simp only [dirty, Bool.false_eq_true, if_false] at visited
          cases visited
          refine ⟨rfl, fun other => ?_⟩
          rw [withCache_copies]
          by_cases here : other = line
          · subst here
            rw [Function.update_self]
            exact (coherent other).drop held (fun was => absurd (dirty.symm.trans was) Bool.false_ne_true)
              fun _ => rfl
          · rw [Function.update_of_ne here, Function.update_eq_self]
            exact coherent other

theorem memInvalidate_coherent {lines : List Line} {after : System Line blkSize n}
    (coherent : Coherent system value) (visited : system.memInvalidate source lines = some after) :
    after.completed = system.completed ∧ Coherent after value := by
  induction lines generalizing system with
  | nil =>
      cases visited
      exact ⟨rfl, coherent⟩
  | cons line rest ih =>
      rw [System.memInvalidate, List.foldlM_cons] at visited
      obtain ⟨middle, first, visited⟩ := Option.bind_eq_some_iff.mp visited
      obtain ⟨same, coherent⟩ := invalidateVisitor_coherent coherent first
      obtain ⟨same', coherent⟩ := ih coherent visited
      exact ⟨same'.trans same, coherent⟩

end

/-! ## Runs -/

def serve (memory : Line → Data blkSize) (completion : Completion Line n) :
    Option (Line → Data blkSize) :=
  (serveLine (memory completion.pkt.line) completion.pkt completion.response).map
    (Function.update memory completion.pkt.line)

def Serves (first : Line → Data blkSize) (system : System Line blkSize n) : Prop :=
  -- the accesses so far have led from `first` to what the caches and the memory stand for
  ∃ value, run serve system.completed first = some value ∧ Coherent system value

section

variable {first : Line → Data blkSize} {system next : System Line blkSize n} {action : Action Line n}

omit [DecidableEq Line] in
theorem coherent_init (first : Line → Data blkSize) :
    Coherent (System.init first : System Line blkSize n) first :=
  fun line => lineCoherent_none (first line)

theorem Serves.onward {after : System Line blkSize n} {value : Line → Data blkSize}
    (served : run serve system.completed first = some value) (same : after.completed = system.completed)
    (coherent : Coherent after value) : Serves first after :=
  ⟨value, by rw [same, served], coherent⟩

/-- An access that is completed is served. -/
theorem Serves.complete {after : System Line blkSize n} {value : Line → Data blkSize}
    {source : Fin n} {pkt response : Packet Line} {line' : Data blkSize}
    (served : run serve system.completed first = some value) (same : after.completed = system.completed)
    (answered : serveLine (value pkt.line) pkt response = some line')
    (coherent : Coherent after (Function.update value pkt.line line')) :
    Serves first (after.complete source pkt response) := by
  refine ⟨Function.update value pkt.line line', ?_, coherent⟩
  rw [System.complete, same, run_append, served]
  simp [run, serve, answered]

theorem step_serves (serves : Serves first system) (ready : Ready blkSize action) :
    (∃ next, system.step action = some next ∧ Serves first next) ∨
      ∃ source lines, action = .memInvalidate source lines := by
  obtain ⟨value, served, coherent⟩ := serves
  rw [System.step, if_pos ready]
  cases action with
  | access source pkt victim =>
      obtain ⟨response, after, ran, accessed⟩ := access_coherent source victim coherent ready
      obtain ⟨line', answered, coherent⟩ := accessed.coherent
      exact .inl ⟨_, by rw [System.perform, ran]; rfl,
        .complete served accessed.completed answered coherent⟩
  | functional source pkt =>
      obtain ⟨made, reads | writes⟩ := ready
      · obtain ⟨response, ran, data⟩ := functional_reads source coherent reads
        have answered : serveLine (value pkt.line) pkt response = some (value pkt.line) := by
          simp [serveLine, reads, data]
        have same : Coherent system (Function.update value pkt.line (value pkt.line)) := by
          rwa [Function.update_eq_self]
        exact .inl ⟨_, by rw [System.perform, ran]; rfl, .complete served rfl answered same⟩
      · obtain ⟨response, after, ran, same, coherent⟩ := functional_writes source coherent writes
        refine .inl ⟨_, by rw [System.perform, ran]; rfl, .complete served same ?_ coherent⟩
        simp [serveLine, writes]
  | memWriteback source lines =>
      obtain ⟨after, ran, same, coherent⟩ := memWriteback_coherent lines coherent source
      exact .inl ⟨after, ran, .onward served same coherent⟩
  | memInvalidate source lines => exact .inr ⟨source, lines, rfl⟩

theorem serves_step (serves : Serves first system) (stepped : system.step action = some next) :
    Serves first next := by
  have ready : Ready blkSize action := by
    by_contra not
    rw [System.step, if_neg not] at stepped
    cases stepped
  obtain ⟨other, same, kept⟩ | ⟨source, lines, rfl⟩ := step_serves serves ready
  · obtain rfl := Option.some.inj (stepped.symm.trans same)
    exact kept
  · obtain ⟨value, served, coherent⟩ := serves
    rw [System.step, if_pos ready] at stepped
    obtain ⟨same, coherent⟩ := memInvalidate_coherent coherent stepped
    exact .onward served same coherent

theorem serves_run {actions : List (Action Line n)} (ran : run System.step actions (.init first) = some system) :
    Serves first system := by
  have preserves (system : System Line blkSize n) (action : Action Line n) (next : System Line blkSize n)
      (serves : Serves first system) (_ : True) (stepped : system.step action = some next) :
      Serves first next := serves_step serves stepped
  exact run_preserves preserves actions _ _ ⟨first, rfl, coherent_init first⟩
    (fun _ _ _ _ _ _ _ _ => trivial) ran

/-- Caches that snoop on one bus are one memory: whatever the processors ask for and whatever blocks
the caches give up, each access finds what the accesses before it have left, and a store conditional
writes exactly if it reports that it did. -/
theorem accesses_of_one_memory {actions : List (Action Line n)}
    (ran : run System.step actions (.init first) = some system) :
    ∃ memory, run serve system.completed first = some memory := by
  obtain ⟨memory, served, _⟩ := serves_run ran
  exact ⟨memory, served⟩

def passing : List (Action ℕ 2) :=
  [.access 0 ⟨.WriteReq, 5, 1, 2, [7, 8], false, false, false, ⟨0, false, false, 0⟩⟩ none,
    .access 1 ⟨.ReadReq, 5, 0, 4, [0, 0, 0, 0], false, false, false, ⟨1, false, false, 0⟩⟩ none,
    .access 1 ⟨.WriteReq, 5, 2, 1, [9], false, false, false, ⟨1, false, false, 0⟩⟩ none,
    .access 1 ⟨.ReadReq, 6, 0, 1, [0], false, false, false, ⟨1, false, false, 0⟩⟩ (some 5),
    .access 0 ⟨.ReadReq, 5, 1, 2, [0, 0], false, false, false, ⟨0, false, false, 0⟩⟩ none]

def zeros : ℕ → Data 4 := fun _ _ => 0

theorem accesses_of_passing :
    ∃ system : System ℕ 4 2, run System.step passing (.init zeros) = some system ∧
      system.completed.map (·.response.data) = [[7, 8], [0, 7, 8, 0], [9], [0], [7, 9]] ∧
      ∃ memory, run serve system.completed zeros = some memory := by
  have shown : (run System.step passing (.init zeros : System ℕ 4 2)).map
      (fun system => system.completed.map (·.response.data)) =
        some [[7, 8], [0, 7, 8, 0], [9], [0], [7, 9]] := by decide
  obtain ⟨system, ran, data⟩ := Option.map_eq_some_iff.mp shown
  exact ⟨system, ran, data, accesses_of_one_memory ran⟩

/-- The copies of a line hold the same bytes, at most one of them is dirty, one that may be written
has no others beside it, and only a dirty one makes the memory stale. -/
theorem copies_of_a_line {actions : List (Action Line n)}
    (ran : run System.step actions (.init first) = some system) (line : Line) {port : Fin n}
    {blk : CacheBlk blkSize} (held : system.caches port line = some blk) :
    (∀ other blk', other ≠ port → system.caches other line = some blk' →
      blk'.data = blk.data ∧ blk.isWritable = false ∧ (blk.isDirty = true → blk'.isDirty = false)) ∧
    ((∀ other blk', system.caches other line = some blk' → blk'.isDirty = false) →
      system.memory line = blk.data) := by
  obtain ⟨value, _, coherent⟩ := serves_run ran
  have current := (coherent line).current port blk held
  constructor
  · intro other blk' different held'
    refine ⟨((coherent line).current other blk' held').trans current.symm, ?_, ?_⟩
    · by_contra writable
      rw [Bool.not_eq_false] at writable
      have none' : system.caches other line = none :=
        (coherent line).exclusive port other blk held writable different
      rw [none'] at held'
      cases held'
    · intro dirty
      by_contra dirty'
      rw [Bool.not_eq_false] at dirty'
      exact different ((coherent line).single other port blk' blk held' held dirty' dirty)
  · intro clean
    exact ((coherent line).clean clean).trans current.symm

theorem copies_of_passing :
    ∃ (system : System ℕ 4 2) (blk : CacheBlk 4), run System.step (passing.take 2) (.init zeros) = some system ∧
      system.caches 0 5 = some blk ∧ ∀ other blk', other ≠ 0 → system.caches other 5 = some blk' →
        blk'.data = blk.data ∧ blk.isWritable = false ∧ (blk.isDirty = true → blk'.isDirty = false) := by
  have shown : ((run System.step (passing.take 2) (.init zeros : System ℕ 4 2)).bind
      fun system => system.caches 0 5).isSome = true := by decide
  obtain ⟨blk, shown⟩ := Option.isSome_iff_exists.mp shown
  obtain ⟨system, ran, held⟩ := Option.bind_eq_some_iff.mp shown
  exact ⟨system, blk, ran, held, (copies_of_a_line ran 5 held).1⟩

theorem writebackVisitor_source {source : Fin n} {line : Line} {after : System Line blkSize n}
    (visited : System.writebackVisitor source system line = some after) :
    (∀ blk, after.caches source line = some blk → blk.isDirty = false) ∧
      ∀ other blk, after.caches source other = some blk → blk.isDirty = true →
        ∃ before, system.caches source other = some before ∧ before.isDirty = true := by
  rw [System.writebackVisitor] at visited
  cases held : system.caches source line with
  | none =>
      rw [held] at visited
      cases visited
      refine ⟨fun blk same => ?_, fun other blk same dirty => ⟨blk, same, dirty⟩⟩
      rw [held] at same
      cases same
  | some blk =>
      rw [held] at visited
      cases dirty : blk.isDirty with
      | false =>
          simp only [dirty, Bool.false_eq_true, if_false] at visited
          cases visited
          refine ⟨fun other same => ?_, fun other blk same dirty => ⟨blk, same, dirty⟩⟩
          rw [held] at same
          exact Option.some.inj same ▸ dirty
      | true =>
          obtain ⟨response, ran⟩ := busFunctional_write system source
            (show (System.cleaning line blk).cmd = .WriteReq from rfl)
          simp only [dirty, if_true, ran, Option.map_some] at visited
          cases visited
          have own : (written system source (System.cleaning line blk)).caches source =
              system.caches source := by
            simp [written]
          constructor
          · intro other same
            simp only [System.withCache, Function.update_self] at same
            cases same
            rfl
          · intro other now same isDirty
            simp only [System.withCache, Function.update_self, own] at same
            by_cases here : other = line
            · subst here
              rw [Function.update_self] at same
              cases same
              cases isDirty
            · rw [Function.update_of_ne here] at same
              exact ⟨now, same, isDirty⟩

theorem memWriteback_cleans {source : Fin n} {lines : List Line} {after : System Line blkSize n}
    (visited : system.memWriteback source lines = some after) :
    (∀ line ∈ lines, ∀ blk, after.caches source line = some blk → blk.isDirty = false) ∧
      ∀ other blk, after.caches source other = some blk → blk.isDirty = true →
        ∃ before, system.caches source other = some before ∧ before.isDirty = true := by
  induction lines generalizing system with
  | nil =>
      cases visited
      exact ⟨nofun, fun other blk same dirty => ⟨blk, same, dirty⟩⟩
  | cons line rest ih =>
      rw [System.memWriteback, List.foldlM_cons] at visited
      obtain ⟨middle, first, visited⟩ := Option.bind_eq_some_iff.mp visited
      obtain ⟨cleaned, kept⟩ := writebackVisitor_source first
      obtain ⟨all, keeps⟩ := ih visited
      constructor
      · intro other mem blk same
        obtain rfl | mem := List.mem_cons.mp mem
        · by_contra dirty
          rw [Bool.not_eq_false] at dirty
          obtain ⟨before, was, isDirty⟩ := keeps other blk same dirty
          rw [cleaned before was] at isDirty
          cases isDirty
        · exact all other mem blk same
      · intro other blk same dirty
        obtain ⟨before, was, isDirty⟩ := keeps other blk same dirty
        exact kept other before was isDirty

theorem memInvalidate_completes {source : Fin n} {lines : List Line}
    (clean : ∀ line ∈ lines, ∀ blk, system.caches source line = some blk → blk.isDirty = false) :
    ∃ after, system.memInvalidate source lines = some after ∧
      ∀ line, after.caches source line = if line ∈ lines then none else system.caches source line := by
  induction lines generalizing system with
  | nil => exact ⟨system, rfl, fun line => (if_neg List.not_mem_nil).symm⟩
  | cons line rest ih =>
      obtain ⟨middle, first, same⟩ :
          ∃ middle, System.invalidateVisitor source system line = some middle ∧
          middle.caches source = Function.update (system.caches source) line none := by
        rw [System.invalidateVisitor]
        cases held : system.caches source line with
        | none => exact ⟨system, rfl, by rw [← held, Function.update_eq_self]⟩
        | some blk =>
            refine ⟨_, by simp only [clean line List.mem_cons_self blk held]; rfl, ?_⟩
            simp [System.withCache]
      have clean' (other : Line) (mem : other ∈ rest) (blk : CacheBlk blkSize)
          (held : middle.caches source other = some blk) : blk.isDirty = false := by
        rw [same] at held
        by_cases here : other = line
        · rw [here, Function.update_self] at held
          cases held
        · rw [Function.update_of_ne here] at held
          exact clean other (List.mem_cons_of_mem _ mem) blk held
      obtain ⟨after, ran, gone⟩ := ih clean'
      refine ⟨after, ?_, ?_⟩
      · rw [System.memInvalidate, List.foldlM_cons, first]
        exact ran
      · intro other
        rw [gone, same]
        by_cases here : other = line
        · simp [here]
        · simp [here]

/-- No assertion fails: an access or a functional access completes in every state that a run
reaches, and so does a writeback of any blocks, after which these blocks can be invalidated without
the loss of a byte. -/
theorem no_assertion_fails {actions : List (Action Line n)}
    (ran : run System.step actions (.init first) = some system) :
    (∀ source pkt victim, FromCpu blkSize pkt → (system.step (.access source pkt victim)).isSome) ∧
    (∀ source pkt, FromCpu blkSize pkt → pkt.cmd = .ReadReq ∨ pkt.cmd = .WriteReq →
      (system.step (.functional source pkt)).isSome) ∧
    ∀ source lines, ∃ clean flushed, system.step (.memWriteback source lines) = some clean ∧
      clean.step (.memInvalidate source lines) = some flushed ∧
      (∀ line ∈ lines, flushed.caches source line = none) ∧ Serves first flushed := by
  have serves := serves_run ran
  have completes {action : Action Line n} (ready : Ready blkSize action)
      (other : ∀ source lines, action ≠ .memInvalidate source lines) :
      (system.step action).isSome := by
    obtain ⟨next, stepped, _⟩ | ⟨source, lines, same⟩ := step_serves serves ready
    · rw [stepped]
      rfl
    · exact absurd same (other source lines)
  refine ⟨fun source pkt victim made => completes made nofun,
    fun source pkt made cmd => completes ⟨made, cmd⟩ nofun, fun source lines => ?_⟩
  have ready : Ready blkSize (.memWriteback source lines : Action Line n) := trivial
  obtain ⟨clean, stepped, serves⟩ | ⟨_, _, same⟩ := step_serves serves ready
  · have visited : system.memWriteback source lines = some clean := by
      rwa [System.step, if_pos ready] at stepped
    obtain ⟨flushed, invalidated, gone⟩ := memInvalidate_completes (memWriteback_cleans visited).1
    have stepped' : clean.step (.memInvalidate source lines) = some flushed := invalidated
    exact ⟨clean, flushed, stepped, stepped', fun line mem => (gone line).trans (if_pos mem),
      serves_step serves stepped'⟩
  · cases same

theorem passing_completes :
    ∃ system : System ℕ 4 2, run System.step passing (.init zeros) = some system ∧
      ∃ clean flushed, system.step (.memWriteback 1 [5, 6]) = some clean ∧
        clean.step (.memInvalidate 1 [5, 6]) = some flushed := by
  have shown : (run System.step passing (.init zeros : System ℕ 4 2)).isSome = true := by decide
  obtain ⟨system, ran⟩ := Option.isSome_iff_exists.mp shown
  obtain ⟨clean, flushed, stepped, invalidated, _⟩ := (no_assertion_fails ran).2.2 1 [5, 6]
  exact ⟨system, ran, clean, flushed, stepped, invalidated⟩

end

end GemFi.SnoopingRuns
