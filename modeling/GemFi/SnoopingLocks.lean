import GemFi.SnoopingRuns

/-!
Load-locked and store-conditional across caches that snoop on one bus. A lock stays in a block only
while no write comes between: the writes of the other caches take the block away, and those of its
own cache clear the locks that they overlap, but for its swaps.
-/

namespace GemFi.SnoopingLocks

open SnoopingCaches SnoopingLines SnoopingAccess SnoopingRuns Transitions

variable {Line : Type} {blkSize n : ℕ}

/-- A completed write that overlaps a lock of the line. -/
def Conflicts (lock : Lock) (line : Line) (completion : Completion Line n) : Prop :=
  completion.pkt.line = line ∧ Writes completion.pkt completion.response ∧
    lock.overlapping completion.pkt = true

/-- A load-locked of the cache has set the lock, and only swaps of the same cache may have written its
bytes since. -/
def Kept (source : Fin n) (line : Line) (lock : Lock) (completed : List (Completion Line n)) :
    Prop :=
  ∃ earlier linked between, completed = earlier ++ linked :: between ∧ linked.self = source ∧
    linked.pkt.cmd = .LoadLockedReq ∧ linked.pkt.line = line ∧ Lock.ofPacket linked.pkt = lock ∧
    ∀ completion ∈ between, Conflicts lock line completion →
      completion.self = source ∧ completion.pkt.cmd = .SwapReq

structure Reserved (system : System Line blkSize n) : Prop where
  made : ∀ completion ∈ system.completed, FromCpu blkSize completion.pkt
  locks : ∀ source line blk, system.caches source line = some blk → ∀ lock ∈ blk.lockList,
    Kept source line lock system.completed
  conds : ∀ before cond after, system.completed = before ++ cond :: after →
    cond.pkt.cmd = .StoreCondReq → cond.response.req.extraData = 1 →
      ∃ lock, lock.matchesContext cond.pkt = true ∧ Kept cond.self cond.pkt.line lock before

section

variable {source : Fin n} {line : Line} {lock : Lock} {completed : List (Completion Line n)}

theorem Kept.later (kept : Kept source line lock completed) (completion : Completion Line n)
    (harmless : Conflicts lock line completion → completion.self = source ∧ completion.pkt.cmd = .SwapReq) :
    Kept source line lock (completed ++ [completion]) := by
  obtain ⟨earlier, linked, between, rfl, self, cmd, here, sets, quiet⟩ := kept
  refine ⟨earlier, linked, between ++ [completion], by simp, self, cmd, here, sets, ?_⟩
  intro other mem conflicts
  obtain mem | mem := List.mem_append.mp mem
  · exact quiet other mem conflicts
  · obtain rfl := List.mem_singleton.mp mem
    exact harmless conflicts

variable [DecidableEq Line] {system after : System Line blkSize n} {pkt response : Packet Line}
  {value : Line → Data blkSize}

omit [DecidableEq Line] in
theorem Reserved.cond_append {completion : Completion Line n} (reserved : Reserved system)
    (justified : completion.pkt.cmd = .StoreCondReq → completion.response.req.extraData = 1 →
      ∃ lock, lock.matchesContext completion.pkt = true ∧
        Kept completion.self completion.pkt.line lock system.completed)
    (before : List (Completion Line n)) (cond : Completion Line n) (rest : List (Completion Line n))
    (split : system.completed ++ [completion] = before ++ cond :: rest)
    (cmd : cond.pkt.cmd = .StoreCondReq) (success : cond.response.req.extraData = 1) :
    ∃ lock, lock.matchesContext cond.pkt = true ∧ Kept cond.self cond.pkt.line lock before := by
  obtain rfl | ⟨init, last, rfl⟩ := List.eq_nil_or_concat rest
  · obtain ⟨rfl, same⟩ := List.append_inj' split rfl
    obtain rfl := List.singleton_injective same
    exact justified cmd success
  · have split' : system.completed ++ [completion] = (before ++ cond :: init) ++ [last] := by
      simpa using split
    obtain ⟨was, _⟩ := List.append_inj' split' rfl
    exact reserved.conds before cond init was cmd success

omit [DecidableEq Line] in
theorem Reserved.made_append (reserved : Reserved system) (made : FromCpu blkSize pkt)
    (completion : Completion Line n) (mem : completion ∈ system.completed ++ [⟨source, pkt, response⟩]) :
    FromCpu blkSize completion.pkt := by
  obtain mem | mem := List.mem_append.mp mem
  · exact reserved.made completion mem
  · rw [List.mem_singleton.mp mem]
    exact made

theorem reserved_access (reserved : Reserved system) (made : FromCpu blkSize pkt)
    (accessed : Accessed system after source pkt response value) :
    Reserved (after.complete source pkt response) := by
  have completed : (after.complete source pkt response).completed =
      system.completed ++ [⟨source, pkt, response⟩] := by
    rw [System.complete, accessed.completed]
  constructor
  · rw [completed]
    exact reserved.made_append made
  · intro port line blk held lock mem
    rw [completed]
    by_cases here : port = source ∧ line = pkt.line
    · obtain ⟨rfl, rfl⟩ := here
      obtain ⟨before, relocked, was⟩ := accessed.own blk held
      obtain old | ⟨cmd, rfl⟩ := relocked.comes lock mem
      · obtain rfl | ⟨blk', held', rfl⟩ := was
        · cases old
        · refine (reserved.locks port pkt.line blk' held' lock old).later _ ?_
          rintro ⟨_, writes, overlaps⟩
          refine ⟨rfl, ?_⟩
          by_contra other
          rw [relocked.goes writes other lock mem] at overlaps
          cases overlaps
      · refine ⟨system.completed, ⟨port, pkt, response⟩, [], rfl, rfl, cmd, rfl, rfl, ?_⟩
        intro completion mem
        cases mem
    · have elsewhere : port ≠ source ∨ line ≠ pkt.line := by
        rwa [← not_and_or]
      obtain ⟨⟨blk', held', same⟩, harmless⟩ := accessed.others port line blk elsewhere held
      refine (reserved.locks port line blk' held' lock (same ▸ mem)).later _ ?_
      rintro ⟨here, writes, _⟩
      exact absurd writes (harmless here.symm)
  · intro before cond rest split
    rw [completed] at split
    refine reserved.cond_append ?_ before cond rest split
    intro cmd success
    obtain ⟨blk, lock, held, mem, found⟩ := accessed.cond cmd success
    exact ⟨lock, found, reserved.locks source pkt.line blk held lock mem⟩

omit [DecidableEq Line] in
/-- Blocks that keep their locks. -/
theorem Reserved.fewer (reserved : Reserved system) (same : after.completed = system.completed)
    (locks : ∀ port line blk', after.caches port line = some blk' →
      ∃ blk, system.caches port line = some blk ∧ blk.lockList = blk'.lockList) : Reserved after := by
  constructor
  · rw [same]
    exact reserved.made
  · intro port line blk' held lock mem
    obtain ⟨blk, was, kept⟩ := locks port line blk' held
    rw [same]
    exact reserved.locks port line blk was lock (kept ▸ mem)
  · rw [same]
    exact reserved.conds

omit [DecidableEq Line] in
theorem reserved_functional (reserved : Reserved system) (made : FromCpu blkSize pkt)
    (reads : pkt.cmd = .ReadReq) : Reserved (system.complete source pkt response) := by
  constructor
  · exact reserved.made_append made
  · intro port line blk held lock mem
    refine (reserved.locks port line blk held lock mem).later _ ?_
    rintro ⟨_, writes, _⟩
    simp [Writes, reads] at writes
  · intro before cond rest split
    refine reserved.cond_append ?_ before cond rest split
    intro cmd
    rw [reads] at cmd
    cases cmd

theorem reserved_writeback (reserved : Reserved system)
    (visited : System.writebackVisitor source system line = some after) : Reserved after := by
  rw [System.writebackVisitor] at visited
  cases held : system.caches source line with
  | none =>
      rw [held] at visited
      cases visited
      exact reserved
  | some blk =>
      rw [held] at visited
      by_cases dirty : blk.isDirty = true
      · obtain ⟨response, ran⟩ := busFunctional_write system source
          (show (System.cleaning line blk).cmd = .WriteReq from rfl)
        simp only [dirty, if_true, ran, Option.map_some] at visited
        cases visited
        have rewrites (port : Fin n) (other : Line) (now : CacheBlk blkSize)
            (same : (written system source (System.cleaning line blk)).caches port other = some now) :
            ∃ was, system.caches port other = some was ∧ was.lockList = now.lockList := by
          simp only [written] at same
          split at same
          · by_cases here : other = line
            · subst here
              obtain ⟨was, had, rfl⟩ : ∃ was, system.caches port other = some was ∧
                  ({ was with data := (System.cleaning other blk).writeDataToBlock was.data } :
                    CacheBlk blkSize) = now := by
                simpa [rewritten, System.cleaning, Packet.ofBlock] using same
              exact ⟨was, had, rfl⟩
            · have other' : other ≠ (System.cleaning line blk).line := here
              rw [rewritten, Function.update_of_ne other'] at same
              exact ⟨now, same, rfl⟩
          · exact ⟨now, same, rfl⟩
        refine reserved.fewer rfl fun port other now same => ?_
        by_cases own : port = source
        · subst own
          simp only [System.withCache, Function.update_self] at same
          by_cases here : other = line
          · subst here
            rw [Function.update_self] at same
            cases same
            exact ⟨blk, held, rfl⟩
          · rw [Function.update_of_ne here] at same
            exact rewrites port other now same
        · simp only [System.withCache, Function.update_of_ne own] at same
          exact rewrites port other now same
      · simp only [dirty] at visited
        cases visited
        exact reserved

theorem reserved_invalidate (reserved : Reserved system)
    (visited : System.invalidateVisitor source system line = some after) : Reserved after := by
  rw [System.invalidateVisitor] at visited
  split at visited
  · cases visited
    exact reserved
  · split at visited
    · cases visited
    · cases visited
      refine reserved.fewer rfl fun port other now same => ⟨now, ?_, rfl⟩
      by_cases own : port = source
      · subst own
        simp only [System.withCache, Function.update_self] at same
        by_cases here : other = line
        · rw [here, Function.update_self] at same
          cases same
        · rwa [Function.update_of_ne here] at same
      · simpa only [System.withCache, Function.update_of_ne own] using same

omit [DecidableEq Line] in
theorem reserved_foldlM {visitor : System Line blkSize n → Line → Option (System Line blkSize n)}
    (keeps : ∀ system line after, Reserved system → visitor system line = some after → Reserved after)
    (lines : List Line) (reserved : Reserved system) (visited : lines.foldlM visitor system = some after) :
    Reserved after := by
  induction lines generalizing system with
  | nil =>
      cases visited
      exact reserved
  | cons line rest ih =>
      rw [List.foldlM_cons] at visited
      obtain ⟨middle, first, visited⟩ := Option.bind_eq_some_iff.mp visited
      exact ih (keeps system line middle reserved first) visited

def NoFunctionalWrite : Action Line n → Prop
  -- a functional write does not look at the locks
  | .functional _ pkt => pkt.cmd ≠ .WriteReq
  | _ => True

theorem reserved_step {first : Line → Data blkSize} {action : Action Line n} (serves : Serves first system)
    (reserved : Reserved system) (harmless : NoFunctionalWrite action)
    (stepped : system.step action = some after) : Reserved after := by
  obtain ⟨value, _, coherent⟩ := serves
  rw [System.step] at stepped
  split at stepped
  · rename_i ready
    cases action with
    | access source pkt victim =>
        obtain ⟨response, moved, ran, accessed⟩ := access_coherent source victim coherent ready
        rw [System.perform, ran] at stepped
        cases stepped
        exact reserved_access reserved ready accessed
    | functional source pkt =>
        have reads : pkt.cmd = .ReadReq := ready.2.resolve_right harmless
        obtain ⟨response, ran, _⟩ := functional_reads source coherent reads
        rw [System.perform, ran] at stepped
        cases stepped
        exact reserved_functional reserved ready.1 reads
    | memWriteback source lines =>
        exact reserved_foldlM (fun _ _ _ => reserved_writeback) lines reserved stepped
    | memInvalidate source lines =>
        exact reserved_foldlM (fun _ _ _ => reserved_invalidate) lines reserved stepped
  · cases stepped

/-! ## The bytes of a load-locked -/

theorem read_write_apart (data : Data blkSize) {offset size at' : ℕ} {bytes : List UInt8}
    (apart : offset + size ≤ at' ∨ at' + bytes.length ≤ offset) :
    (data.write at' bytes).read offset size = data.read offset size := by
  refine List.map_congr_left fun k mem => ?_
  have small := List.mem_range.mp mem
  by_cases inside : offset + k < blkSize
  · simp only [inside, dif_pos, Data.write]
    by_cases after : at' ≤ offset + k
    · rw [if_pos after, List.getElem?_eq_none (by omega)]
      rfl
    · rw [if_neg after]
  · simp only [inside, dif_neg, not_false_eq_true]

theorem serve_keeps {completion linked : Completion Line n} {memory memory' : Line → Data blkSize}
    (served : serve memory completion = some memory') (made : FromCpu blkSize completion.pkt)
    (harmless : ¬ Conflicts (Lock.ofPacket linked.pkt) linked.pkt.line completion) :
    (memory' linked.pkt.line).read linked.pkt.offset linked.pkt.size =
      (memory linked.pkt.line).read linked.pkt.offset linked.pkt.size := by
  obtain ⟨line', answered, rfl⟩ := Option.map_eq_some_iff.mp served
  by_cases here : completion.pkt.line = linked.pkt.line
  swap
  · rw [Function.update_of_ne (Ne.symm here)]
  rw [here, Function.update_self]
  rw [here] at answered
  have apart (writes : Writes completion.pkt completion.response) :
      ((memory linked.pkt.line).write completion.pkt.offset completion.pkt.data).read linked.pkt.offset
        linked.pkt.size = (memory linked.pkt.line).read linked.pkt.offset linked.pkt.size := by
    refine read_write_apart _ ?_
    have clear : ¬ (Lock.ofPacket linked.pkt).overlapping completion.pkt = true :=
      fun overlaps => harmless ⟨here, writes, overlaps⟩
    rw [Lock.overlapping, decide_eq_true_eq] at clear
    simp only [Lock.ofPacket] at clear
    have some' := made.positive
    rw [made.length]
    omega
  rw [serveLine] at answered
  rcases made.cmd with cmd | cmd | cmd | cmd | cmd <;> simp only [cmd] at answered
  · split at answered
    · rw [← Option.some.inj answered]
    · cases answered
  · split at answered
    · rw [← Option.some.inj answered]
    · cases answered
  · rw [← Option.some.inj answered]
    exact apart (.inl cmd)
  · rw [← Option.some.inj answered]
    split
    · exact apart (.inr (.inr ⟨cmd, ‹_›⟩))
    · rfl
  · split at answered
    · obtain ⟨overwrite_mem, _, rfl⟩ := Option.map_eq_some_iff.mp answered
      cases overwrite_mem with
      | true => exact apart (.inr (.inl cmd))
      | false => rfl
    · cases answered

theorem run_keeps {linked : Completion Line n} {between : List (Completion Line n)}
    {memory memory' : Line → Data blkSize} (served : run serve between memory = some memory')
    (made : ∀ completion ∈ between, FromCpu blkSize completion.pkt)
    (harmless : ∀ completion ∈ between, ¬ Conflicts (Lock.ofPacket linked.pkt) linked.pkt.line completion) :
    (memory' linked.pkt.line).read linked.pkt.offset linked.pkt.size =
      (memory linked.pkt.line).read linked.pkt.offset linked.pkt.size := by
  induction between generalizing memory with
  | nil =>
      cases served
      rfl
  | cons completion rest ih =>
      obtain ⟨middle, first, served⟩ := Option.bind_eq_some_iff.mp served
      rw [ih served (fun other mem => made other (List.mem_cons_of_mem _ mem))
        (fun other mem => harmless other (List.mem_cons_of_mem _ mem))]
      exact serve_keeps first (made completion List.mem_cons_self)
        (harmless completion List.mem_cons_self)

theorem reserved_run {first : Line → Data blkSize} {actions : List (Action Line n)}
    (harmless : ∀ action ∈ actions, NoFunctionalWrite action)
    (ran : run System.step actions (.init first) = some system) :
    Serves first system ∧ Reserved system := by
  have preserves (system : System Line blkSize n) (action : Action Line n) (next : System Line blkSize n)
      (both : Serves first system ∧ Reserved system) (harmless : NoFunctionalWrite action)
      (stepped : system.step action = some next) : Serves first next ∧ Reserved next :=
    ⟨serves_step both.1 stepped, reserved_step both.1 both.2 harmless stepped⟩
  have start : Serves first (System.init first : System Line blkSize n) ∧
      Reserved (System.init first : System Line blkSize n) := by
    refine ⟨⟨first, rfl, coherent_init first⟩, ?_, ?_, ?_⟩
    · intro completion mem
      cases mem
    · intro port line blk held
      cases held
    · intro before cond after split
      simp [System.init] at split
  refine run_preserves preserves actions _ _ start ?_ ran
  intro before action after _ _ split _ _
  exact harmless action (by simp [split])

/-- A store conditional that succeeds has a load-locked of its context before it, at its cache and
over its bytes, and no write to these bytes has come between but swaps of the same cache. Without
a swap of these bytes the line still has what the load-locked has read. -/
theorem store_conditional_is_atomic {first : Line → Data blkSize} {actions : List (Action Line n)}
    (harmless : ∀ action ∈ actions, NoFunctionalWrite action)
    (ran : run System.step actions (.init first) = some system)
    {before rest : List (Completion Line n)} {cond : Completion Line n}
    (split : system.completed = before ++ cond :: rest) (cmd : cond.pkt.cmd = .StoreCondReq)
    (success : cond.response.req.extraData = 1) :
    ∃ earlier linked between, before = earlier ++ linked :: between ∧ linked.self = cond.self ∧
      linked.pkt.cmd = .LoadLockedReq ∧ linked.pkt.line = cond.pkt.line ∧
      (Lock.ofPacket linked.pkt).matchesContext cond.pkt = true ∧
      (∀ completion ∈ between, Conflicts (Lock.ofPacket linked.pkt) linked.pkt.line completion →
        completion.self = cond.self ∧ completion.pkt.cmd = .SwapReq) ∧
      ((∀ completion ∈ between, Conflicts (Lock.ofPacket linked.pkt) linked.pkt.line completion →
          completion.pkt.cmd ≠ .SwapReq) →
        ∃ memory, run serve before first = some memory ∧
          (memory linked.pkt.line).read linked.pkt.offset linked.pkt.size = linked.response.data) := by
  obtain ⟨⟨value, served, _⟩, reserved⟩ := reserved_run harmless ran
  obtain ⟨lock, found, earlier, linked, between, rfl, self, linkedCmd, line, rfl, quiet⟩ :=
    reserved.conds before cond rest split cmd success
  refine ⟨earlier, linked, between, rfl, self, linkedCmd, line, found, line ▸ quiet, fun noSwap => ?_⟩
  rw [split, run_append] at served
  obtain ⟨memory, prefixed, _⟩ := Option.bind_eq_some_iff.mp served
  refine ⟨memory, prefixed, ?_⟩
  have made (completion : Completion Line n) (mem : completion ∈ linked :: between) :
      FromCpu blkSize completion.pkt :=
    reserved.made completion (split ▸ List.mem_append_left _ (List.mem_append_right _ mem))
  rw [run_append] at prefixed
  obtain ⟨start, _, prefixed⟩ := Option.bind_eq_some_iff.mp prefixed
  obtain ⟨middle, read, later⟩ := Option.bind_eq_some_iff.mp prefixed
  rw [run_keeps later fun completion mem => made completion (List.mem_cons_of_mem _ mem)]
  · obtain ⟨line', answered, rfl⟩ := Option.map_eq_some_iff.mp read
    simp only [serveLine, linkedCmd] at answered
    split at answered
    · rw [Function.update_self, ← Option.some.inj answered]
      exact Eq.symm ‹_›
    · cases answered
  · intro completion mem conflicts
    exact noSwap completion mem conflicts (quiet completion mem (line ▸ conflicts)).2

end

def lockedStore (own other : Fin n) : List (Action ℕ n) :=
  [.access own ⟨.WriteReq, 5, 1, 2, [7, 8], false, false, false, ⟨0, false, false, 0⟩⟩ none,
    .access own ⟨.LoadLockedReq, 5, 1, 2, [0, 0], false, false, false, ⟨0, false, false, 0⟩⟩ none,
    .access other ⟨.ReadReq, 5, 0, 4, [0, 0, 0, 0], false, false, false, ⟨1, false, false, 0⟩⟩ none,
    .access own ⟨.StoreCondReq, 5, 1, 2, [9, 9], false, false, false, ⟨0, false, false, 0⟩⟩ none]

theorem lockedStore_is_atomic :
    ∃ (system : System ℕ 4 2) (before : List (Completion ℕ 2)) (cond : Completion ℕ 2),
      run System.step (lockedStore 0 1) (.init zeros) = some system ∧ system.completed = before ++ [cond] ∧
        ∃ linked ∈ before, linked.pkt.cmd = .LoadLockedReq ∧ linked.self = cond.self := by
  have harmless : ∀ action ∈ lockedStore (0 : Fin 2) 1, NoFunctionalWrite action := by
    simp [lockedStore, NoFunctionalWrite]
  have shown : (run System.step (lockedStore 0 1) (.init zeros : System ℕ 4 2)).map (fun system =>
      system.completed.map fun completion => (completion.pkt.cmd, completion.response.req.extraData)) =
        some ([(.WriteReq, 0), (.LoadLockedReq, 0), (.ReadReq, 0)] ++ [(.StoreCondReq, 1)]) := by decide
  obtain ⟨system, ran, completed⟩ := Option.map_eq_some_iff.mp shown
  obtain ⟨before, last, split, _, same⟩ := List.map_eq_append_iff.mp completed
  obtain ⟨cond, rfl, both⟩ := List.map_eq_singleton_iff.mp same
  obtain ⟨cmd, success⟩ := Prod.mk.inj both
  obtain ⟨earlier, linked, between, rfl, self, linkedCmd, _⟩ :=
    store_conditional_is_atomic harmless ran split cmd success
  exact ⟨system, _, cond, ran, split, linked, List.mem_append_right _ List.mem_cons_self, linkedCmd, self⟩

end GemFi.SnoopingLocks
