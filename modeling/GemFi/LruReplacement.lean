import GemFi.LruSet
import GemFi.Outcomes
import GemFi.RecencyOrders
import GemFi.Transitions

/-!
Replacement in one set of the LRU tags, over whole runs: each operation is one of a lineup on which
the keys are the tags with their security bits. The writeback that fills a block replaces its
status and with it the security bit, and so puts another key there than it has looked for.
-/

namespace GemFi.LruReplacement

open LruSet Outcomes RecencyOrders Transitions

abbrev Key := Addr × Bool

section Loops

variable {blk : Nat} {blks : List Nat}

theorem swapUntil_eq (next : Nat) (member : blk ∈ blks) :
    ∃ n ≤ blks.length, swapUntil blk next blks = .ok (next :: blks.erase blk, n) := by
  induction blks generalizing next with
  | nil => cases member
  | cons tmp rest ih =>
      by_cases found : tmp = blk
      · subst found
        refine ⟨1, Nat.succ_le_succ (Nat.zero_le _), ?_⟩
        rw [swapUntil, if_pos rfl, List.erase_cons_head]
      · have later := (List.mem_cons.mp member).resolve_left fun same => found same.symm
        obtain ⟨n, within, carried⟩ := ih tmp later
        refine ⟨n + 1, Nat.succ_le_succ within, ?_⟩
        rw [swapUntil, if_neg found, carried, List.erase_cons_tail (by simpa using found)]
        rfl

theorem swapUntil_stops (next : Nat) (absent : blk ∉ blks) :
    swapUntil blk next blks = .error .assertion := by
  induction blks generalizing next with
  | nil => rfl
  | cons tmp rest ih =>
      rw [List.mem_cons, not_or] at absent
      rw [swapUntil, if_neg fun same => absent.1 same.symm, ih tmp absent.2]
      rfl

theorem moveToHead_eq (member : blk ∈ blks) :
    ∃ n ≤ blks.length, moveToHead blks blk = .ok (blk :: blks.erase blk, n) := by
  cases blks with
  | nil => cases member
  | cons head rest =>
      by_cases isHead : head = blk
      · subst isHead
        refine ⟨0, Nat.zero_le _, ?_⟩
        rw [moveToHead, List.head?_cons, List.erase_cons_head]
        exact if_pos rfl
      · obtain ⟨n, within, carried⟩ := swapUntil_eq blk member
        refine ⟨n, within, ?_⟩
        rw [moveToHead, List.head?_cons, ← carried]
        exact if_neg isHead

theorem reverse_erase_reverse (nodup : blks.Nodup) (blk : Nat) :
    (blks.reverse.erase blk).reverse = blks.erase blk := by
  rw [(List.nodup_reverse.mpr nodup).erase_eq_filter, nodup.erase_eq_filter, List.filter_reverse,
    List.reverse_reverse]

theorem moveToTail_eq (nodup : blks.Nodup) (member : blk ∈ blks) :
    ∃ n ≤ blks.length, moveToTail blks blk = .ok (blks.erase blk ++ [blk], n) := by
  unfold moveToTail
  split
  next isNone =>
    rw [List.getLast?_eq_none_iff.mp isNone] at member
    cases member
  next tail isLast =>
    by_cases isTail : tail = blk
    · subst isTail
      obtain ⟨before, split⟩ := List.getLast?_eq_some_iff.mp isLast
      refine ⟨0, Nat.zero_le _, ?_⟩
      rw [if_pos rfl, ← reverse_erase_reverse nodup, split, List.reverse_append, List.reverse_singleton,
        List.singleton_append, List.erase_cons_head, List.reverse_reverse]
    · obtain ⟨n, within, carried⟩ := swapUntil_eq blk (List.mem_reverse.mpr member)
      rw [List.length_reverse] at within
      refine ⟨n, within, ?_⟩
      rw [if_neg isTail, carried, ← reverse_erase_reverse nodup, ← List.reverse_cons]
      rfl

theorem moveToTail_stops (absent : blk ∉ blks) : ∃ stop, moveToTail blks blk = .error stop := by
  unfold moveToTail
  split
  next => exact ⟨_, rfl⟩
  next tail isLast =>
    have other : tail ≠ blk := by
      rintro rfl
      exact absent (List.mem_of_getLast? isLast)
    rw [if_neg other, swapUntil_stops blk (mt List.mem_reverse.mp absent)]
    exact ⟨_, rfl⟩

end Loops

section Blocks

variable {blk : CacheBlk}

def held (blk : CacheBlk) : Option Key :=
  if blk.isValid then some (blk.tag, blk.isSecure) else none

theorem held_eq_some_iff {key : Key} :
    held blk = some key ↔ blk.isValid = true ∧ blk.tag = key.1 ∧ blk.isSecure = key.2 := by
  unfold held
  split
  next isValid => rw [Option.some.injEq, Prod.ext_iff, and_iff_right isValid]
  next notValid => exact iff_of_false (Option.some_ne_none key).symm fun shown => notValid shown.1

theorem held_ne_none_iff : held blk ≠ none ↔ blk.isValid = true := by
  unfold held
  split
  next isValid => exact iff_of_true (Option.some_ne_none _) isValid
  next notValid => exact iff_of_false (fun differs => differs rfl) notValid

theorem held_eq_none_iff : held blk = none ↔ blk.isValid = false := by
  rw [← not_iff_not, ← ne_eq, held_ne_none_iff, Bool.not_eq_false]

theorem flags_of_blank (isZero : blk.status = 0) : blk.isValid = false ∧ blk.isSecure = false := by
  rw [CacheBlk.isValid, CacheBlk.isSecure, isZero]
  decide

theorem or_and_ne_zero (status bits flag : Status) :
    ((status ||| bits) &&& flag != 0) = ((status &&& flag != 0) || (bits &&& flag != 0)) := by
  rw [BitVec.and_or_distrib_right, Bool.eq_iff_iff, Bool.or_eq_true, bne_iff_ne, bne_iff_ne,
    bne_iff_ne]
  exact (not_congr BitVec.or_eq_zero_iff).trans not_and_or

theorem isValid_set (condition : Bool) (bits : Status) :
    (blk.set condition bits).isValid = (blk.isValid || (condition && (bits &&& BlkValid != 0))) := by
  cases condition with
  | true => exact or_and_ne_zero _ _ _
  | false => exact (Bool.or_false _).symm

theorem isSecure_set (condition : Bool) (bits : Status) :
    (blk.set condition bits).isSecure = (blk.isSecure || (condition && (bits &&& BlkSecure != 0))) := by
  cases condition with
  | true => exact or_and_ne_zero _ _ _
  | false => exact (Bool.or_false _).symm

theorem tag_set (condition : Bool) (bits : Status) : (blk.set condition bits).tag = blk.tag := by
  cases condition with
  | true => rfl
  | false => rfl

theorem srcMasterId_set (condition : Bool) (bits : Status) :
    (blk.set condition bits).srcMasterId = blk.srcMasterId := by
  cases condition with
  | true => rfl
  | false => rfl

theorem held_fillStatus (pkt : Packet) (sharedAsserted memInhibitAsserted : Bool) (whenReady : Tick)
    (blk : CacheBlk) :
    held (fillStatus pkt sharedAsserted memInhibitAsserted whenReady blk) =
      some (blk.tag, blk.isSecure || pkt.isSecure) := by
  have later : ∀ filled : CacheBlk, { filled with whenReady := whenReady }.isValid = filled.isValid ∧
      { filled with whenReady := whenReady }.isSecure = filled.isSecure := fun _ => ⟨rfl, rfl⟩
  rw [held_eq_some_iff, fillStatus, (later _).1, (later _).2]
  refine ⟨?_, ?_, ?_⟩
  · simp [isValid_set, BlkValid, BlkReadable]
  · simp only [tag_set]
  · simp [isSecure_set, BlkSecure, BlkValid, BlkReadable, BlkWritable, BlkDirty]

theorem held_writebackStatus (isSupplyExclusive : Bool) (blk : CacheBlk) :
    held (writebackStatus isSupplyExclusive blk) = held blk := by
  have isValid : (writebackStatus isSupplyExclusive blk).isValid = blk.isValid := by
    simp [writebackStatus, isValid_set, BlkDirty, BlkWritable, BlkValid]
  have isSecure : (writebackStatus isSupplyExclusive blk).isSecure = blk.isSecure := by
    simp [writebackStatus, isSecure_set, BlkDirty, BlkWritable, BlkSecure]
  have tag : (writebackStatus isSupplyExclusive blk).tag = blk.tag := by
    simp only [writebackStatus, tag_set]
  rw [held, held, isValid, isSecure, tag]

end Blocks

section Operations

structure Tidy (cfg : Config) (blk : CacheBlk) : Prop where
  source : blk.isValid = true → blk.srcMasterId.toNat < cfg.maxMasters
  clean : blk.isValid = false → blk.status = 0

variable {cfg : Config} {set : CacheSet} {blk : Nat} {pkt : Packet}

theorem evict_eq {block : CacheBlk} (tidy : Tidy cfg block) :
    evict cfg block = .ok block.invalidate := by
  unfold evict
  cases isValid : block.isValid with
  | true =>
      rw [if_pos rfl, assert, if_pos (decide_eq_true (tidy.source isValid))]
      rfl
  | false =>
      rw [if_neg Bool.false_ne_true, CacheBlk.invalidate, ← tidy.clean isValid]

def insertedBlk (pkt : Packet) (block : CacheBlk) : CacheBlk :=
  -- the block that insertBlock leaves, before the caller sets its status
  let tagged := { block.invalidate with tag := pkt.tag }
  { tagged.set pkt.isSecure BlkSecure with srcMasterId := pkt.masterId }

theorem insertedBlk_flags (pkt : Packet) (block : CacheBlk) :
    (insertedBlk pkt block).isValid = false ∧ (insertedBlk pkt block).isSecure = pkt.isSecure ∧
      (insertedBlk pkt block).tag = pkt.tag := by
  have later : ∀ tagged : CacheBlk, { tagged with srcMasterId := pkt.masterId }.isValid = tagged.isValid ∧
      { tagged with srcMasterId := pkt.masterId }.isSecure = tagged.isSecure := fun _ => ⟨rfl, rfl⟩
  rw [insertedBlk, (later _).1, (later _).2, isValid_set, isSecure_set,
    (flags_of_blank rfl).1, (flags_of_blank rfl).2]
  refine ⟨?_, ?_, ?_⟩
  · cases pkt.isSecure <;> rfl
  · cases pkt.isSecure <;> rfl
  · simp only [tag_set]

theorem insertBlock_eq (tidy : Tidy cfg (set.blocks blk)) (member : blk ∈ set.blks)
    (registered : pkt.masterId.toNat < cfg.maxMasters) :
    insertBlock cfg pkt blk set = .ok {
      blks := blk :: set.blks.erase blk
      blocks := Function.update set.blocks blk (insertedBlk pkt (set.blocks blk)) } := by
  obtain ⟨n, _, moved⟩ := moveToHead_eq member
  refine bind_eq_of_ok (evict_eq tidy) (bind_eq_of_ok (if_pos (decide_eq_true registered))
    (bind_eq_of_ok moved rfl))

theorem insertBlock_stops (tidy : Tidy cfg (set.blocks blk))
    (unregistered : ¬ pkt.masterId.toNat < cfg.maxMasters) :
    insertBlock cfg pkt blk set = .error .assertion := by
  refine bind_eq_of_ok (evict_eq tidy) ?_
  rw [assert, if_neg (by simpa using unregistered)]
  rfl

theorem tidy_of_valid {block : CacheBlk} (isValid : block.isValid = true)
    (source : block.srcMasterId.toNat < cfg.maxMasters) : Tidy cfg block where
  source _ := source
  clean notValid := by
    rw [isValid] at notValid
    cases notValid

theorem Tidy.update {blocks : Nat → CacheBlk} {block : CacheBlk} (tidy : ∀ i, Tidy cfg (blocks i))
    (isTidy : Tidy cfg block) (blk : Nat) : ∀ i, Tidy cfg (Function.update blocks blk block i) :=
  (Function.forall_update_iff blocks fun _ block => Tidy cfg block).mpr ⟨isTidy, fun i _ => tidy i⟩

theorem update_update (blks : List Nat) (blocks : Nat → CacheBlk) (blk : Nat) (block : CacheBlk)
    (change : CacheBlk → CacheBlk) :
    CacheSet.update ⟨blks, Function.update blocks blk block⟩ blk change =
      ⟨blks, Function.update blocks blk (change block)⟩ := by
  simp only [CacheSet.update, Function.update_self, Function.update_idem]

end Operations

section Simulation

variable {cfg : Config} {watched : Watched} {blk : Nat} {block : CacheBlk}

def lineup (watched : Watched) : Lineup Nat Key where
  order := watched.set.blks
  held i := held (watched.set.blocks i)
  last := watched.last
  now := watched.now

theorem matching_iff {set : CacheSet} {tag : Addr} {is_secure : Bool} :
    set.matching tag is_secure blk = true ↔ held (set.blocks blk) = some (tag, is_secure) := by
  rw [held_eq_some_iff, CacheSet.matching, Bool.and_eq_true, Bool.and_eq_true, beq_iff_eq, beq_iff_eq]
  constructor
  · rintro ⟨⟨tagged, isValid⟩, secure⟩
    exact ⟨isValid, tagged, secure⟩
  · rintro ⟨isValid, tagged, secure⟩
    exact ⟨⟨tagged, isValid⟩, secure⟩

theorem find_lineup (watched : Watched) (tag : Addr) (is_secure : Bool) :
    (lineup watched).find (tag, is_secure) = watched.set.findBlk tag is_secure := by
  have same : ∀ i, decide (held (watched.set.blocks i) = some (tag, is_secure)) =
      watched.set.matching tag is_secure i := by
    intro i
    rw [Bool.eq_iff_iff, decide_eq_true_iff]
    exact matching_iff.symm
  exact congrArg (fun matching => List.find? matching watched.set.blks) (funext same)

theorem held_update (blocks : Nat → CacheBlk) (blk : Nat) (block : CacheBlk) :
    (fun i => held (Function.update blocks blk block i)) =
      Function.update (fun i => held (blocks i)) blk (held block) :=
  Function.comp_update held blocks blk block

theorem held_update_same {blocks : Nat → CacheBlk} (same : held block = held (blocks blk)) :
    (fun i => held (Function.update blocks blk block i)) = fun i => held (blocks i) := by
  rw [held_update, same]
  exact Function.update_eq_self _ _

theorem lineup_after_put {key : Key} (isHeld : held block = some key) :
    lineup (watched.after (some blk, ⟨blk :: watched.set.blks.erase blk,
      Function.update watched.set.blocks blk block⟩)) = (lineup watched).put blk key := by
  rw [Lineup.put, ← isHeld]
  exact congrArg (fun held' => Lineup.mk (blk :: watched.set.blks.erase blk) held'
    (Function.update watched.last blk (watched.now + 1)) (watched.now + 1)) (held_update _ _ _)

theorem lineup_after_touch (same : held block = held (watched.set.blocks blk)) :
    lineup (watched.after (some blk, ⟨blk :: watched.set.blks.erase blk,
      Function.update watched.set.blocks blk block⟩)) = (lineup watched).touch blk :=
  congrArg (fun held' => Lineup.mk (blk :: watched.set.blks.erase blk) held'
    (Function.update watched.last blk (watched.now + 1)) (watched.now + 1)) (held_update_same same)

theorem lineup_after_wait (same : held block = held (watched.set.blocks blk)) :
    lineup (watched.after (none, ⟨watched.set.blks, Function.update watched.set.blocks blk block⟩)) =
      (lineup watched).wait :=
  congrArg (fun held' => Lineup.mk watched.set.blks held' watched.last (watched.now + 1))
    (held_update_same same)

theorem lineup_after_clear (isEmpty : held block = none) :
    lineup (watched.after (none, ⟨watched.set.blks.erase blk ++ [blk],
      Function.update watched.set.blocks blk block⟩)) = (lineup watched).clear blk := by
  rw [Lineup.clear, ← isEmpty]
  exact congrArg (fun held' => Lineup.mk (watched.set.blks.erase blk ++ [blk]) held' watched.last
    (watched.now + 1)) (held_update _ _ _)

def serve (lineup : Lineup Nat Key) : Action → Lineup Nat Key
  | .access tag isSecure _ =>
      match lineup.find (tag, isSecure) with
      | none => lineup.wait
      | some blk => lineup.touch blk
  | .handleFill pkt _ _ _ =>
      match lineup.find (pkt.tag, pkt.isSecure) with
      | none => lineup.replace (pkt.tag, pkt.isSecure)
      | some _ => lineup.wait
  | .writeback pkt _ _ =>
      match lineup.find (pkt.tag, pkt.isSecure) with
      | none => lineup.replace (pkt.tag, false)
      | some blk => lineup.touch blk
  | .invalidate blk => lineup.clear blk

def Called (cfg : Config) (set : CacheSet) : Action → Prop
  -- what the callers see to: fills are for registered masters, and blocks that are invalidated are
  -- valid blocks of the set
  | .access _ _ _ => True
  | .handleFill pkt _ _ _ | .writeback pkt _ _ =>
      set.findBlk pkt.tag pkt.isSecure = none → pkt.masterId.toNat < cfg.maxMasters
  | .invalidate blk => blk ∈ set.blks ∧ (set.blocks blk).isValid = true

structure Sound (cfg : Config) (assoc : Nat) (watched : Watched) : Prop where
  positive : 1 ≤ assoc
  blocks : watched.set.blks.Perm (List.range assoc)
  recent : Recent (lineup watched)
  tidy : ∀ blk, Tidy cfg (watched.set.blocks blk)

/-- What is known of a set after an operation. -/
structure Served (cfg : Config) (watched : Watched) (action : Action)
    (result : Option Nat × CacheSet) : Prop where
  called : Called cfg watched.set action
  lineup : lineup (watched.after result) = serve (lineup watched) action
  tidy : ∀ blk, Tidy cfg (result.2.blocks blk)

theorem of_findBlk {tag : Addr} {is_secure : Bool}
    (found : watched.set.findBlk tag is_secure = some blk) :
    blk ∈ watched.set.blks ∧ held (watched.set.blocks blk) = some (tag, is_secure) := by
  rw [← find_lineup] at found
  exact of_find found

theorem accessBlock_hit (cfg : Config) {tag : Addr} {is_secure : Bool} (curTick : Tick)
    (found : watched.set.findBlk tag is_secure = some blk) :
    ∃ lat, accessBlock cfg tag is_secure curTick watched.set =
      .ok (some blk, lat, { watched.set with blks := blk :: watched.set.blks.erase blk }) := by
  obtain ⟨n, _, moved⟩ := moveToHead_eq (of_findBlk found).1
  unfold accessBlock
  rw [found]
  dsimp only
  rw [moved]
  exact ⟨_, rfl⟩

theorem accessBlock_miss (cfg : Config) {tag : Addr} {is_secure : Bool} (curTick : Tick)
    (absent : watched.set.findBlk tag is_secure = none) :
    accessBlock cfg tag is_secure curTick watched.set = .ok (none, cfg.hitLatency, watched.set) := by
  unfold accessBlock
  rw [absent]

theorem Sound.exists_victim {assoc : Nat} (sound : Sound cfg assoc watched) :
    ∃ victim, watched.set.blks.getLast? = some victim ∧ victim ∈ watched.set.blks ∧
      findVictim watched.set = .ok victim := by
  cases isLast : watched.set.blks.getLast? with
  | none =>
      have count := sound.blocks.length_eq
      rw [List.getLast?_eq_none_iff.mp isLast, List.length_range] at count
      exact absurd (count ▸ sound.positive) (by decide)
  | some victim =>
      refine ⟨victim, rfl, List.mem_of_getLast? isLast, ?_⟩
      rw [findVictim, isLast]

variable {assoc : Nat}

theorem access_serves (sound : Sound cfg assoc watched) (tag : Addr) (isSecure : Bool) (curTick : Tick) :
    Ends (fun _ => ¬ Called cfg watched.set (.access tag isSecure curTick))
      (Served cfg watched (.access tag isSecure curTick))
      (perform cfg watched.set (.access tag isSecure curTick)) := by
  rw [perform]
  cases found : watched.set.findBlk tag isSecure with
  | none =>
      rw [accessBlock_miss cfg curTick found]
      refine ⟨True.intro, ?_, sound.tidy⟩
      rw [serve, find_lineup, found]
      rfl
  | some blk =>
      obtain ⟨lat, accessed⟩ := accessBlock_hit cfg curTick found
      rw [accessed]
      refine ⟨True.intro, ?_, sound.tidy⟩
      rw [serve, find_lineup, found]
      rfl

theorem insertBlock_serves (sound : Sound cfg assoc watched) (pkt : Packet) {victim : Nat}
    (member : victim ∈ watched.set.blks) :
    Ends (fun _ => ¬ pkt.masterId.toNat < cfg.maxMasters)
      (fun inserted => pkt.masterId.toNat < cfg.maxMasters ∧ inserted = {
        blks := victim :: watched.set.blks.erase victim
        blocks := Function.update watched.set.blocks victim
          (insertedBlk pkt (watched.set.blocks victim)) })
      (insertBlock cfg pkt victim watched.set) := by
  by_cases registered : pkt.masterId.toNat < cfg.maxMasters
  · rw [insertBlock_eq (sound.tidy victim) member registered]
    exact ⟨registered, rfl⟩
  · rw [insertBlock_stops (sound.tidy victim) registered]
    exact registered

theorem handleFill_serves (sound : Sound cfg assoc watched) (pkt : Packet)
    (sharedAsserted memInhibitAsserted : Bool) (whenReady : Tick) :
    Ends (fun _ => ¬ Called cfg watched.set (.handleFill pkt sharedAsserted memInhibitAsserted whenReady))
      (Served cfg watched (.handleFill pkt sharedAsserted memInhibitAsserted whenReady))
      (perform cfg watched.set (.handleFill pkt sharedAsserted memInhibitAsserted whenReady)) := by
  rw [perform, LruSet.handleFill]
  cases found : watched.set.findBlk pkt.tag pkt.isSecure with
  | some blk =>
      obtain ⟨_, isHeld⟩ := of_findBlk found
      obtain ⟨isValid, tagged, secure⟩ := held_eq_some_iff.mp isHeld
      have filled := held_fillStatus pkt sharedAsserted memInhibitAsserted whenReady
        (watched.set.blocks blk)
      rw [tagged, secure, Bool.or_self] at filled
      refine ⟨fun isNone => ?_, ?_, ?_⟩
      · rw [found] at isNone
        cases isNone
      · rw [serve, find_lineup, found]
        exact lineup_after_wait (filled.trans isHeld.symm)
      · refine Tidy.update sound.tidy (tidy_of_valid (held_eq_some_iff.mp filled).1 ?_) blk
        simp only [fillStatus, srcMasterId_set]
        exact (sound.tidy blk).source isValid
  | none =>
      obtain ⟨victim, isLast, member, chosen⟩ := sound.exists_victim
      rw [chosen]
      refine ((insertBlock_serves sound pkt member).allow ?_).bind ?_
      · exact fun _ unregistered called => unregistered (called found)
      · rintro inserted ⟨registered, rfl⟩
        obtain ⟨invalid, secure, tagged⟩ := insertedBlk_flags pkt (watched.set.blocks victim)
        have filled := held_fillStatus pkt sharedAsserted memInhibitAsserted whenReady
          (insertedBlk pkt (watched.set.blocks victim))
        rw [tagged, secure, Bool.or_self] at filled
        have isInvalid : (Function.update watched.set.blocks victim
            (insertedBlk pkt (watched.set.blocks victim)) victim).isValid = false := by
          rw [Function.update_self, invalid]
        rw [update_update, isInvalid]
        refine ⟨fun _ => registered, ?_, ?_⟩
        · rw [serve, find_lineup, found, replace_eq_put isLast]
          exact lineup_after_put filled
        · refine Tidy.update sound.tidy (tidy_of_valid (held_eq_some_iff.mp filled).1 ?_) victim
          simp only [fillStatus, srcMasterId_set]
          exact registered

theorem writeback_serves (sound : Sound cfg assoc watched) (pkt : Packet) (isSupplyExclusive : Bool)
    (curTick : Tick) :
    Ends (fun _ => ¬ Called cfg watched.set (.writeback pkt isSupplyExclusive curTick))
      (Served cfg watched (.writeback pkt isSupplyExclusive curTick))
      (perform cfg watched.set (.writeback pkt isSupplyExclusive curTick)) := by
  rw [perform, LruSet.writeback]
  apply Ends.map
  cases found : watched.set.findBlk pkt.tag pkt.isSecure with
  | some blk =>
      obtain ⟨lat, accessed⟩ := accessBlock_hit cfg curTick found
      obtain ⟨isValid, _⟩ := held_eq_some_iff.mp (of_findBlk found).2
      have marked := held_writebackStatus isSupplyExclusive (watched.set.blocks blk)
      rw [accessed]
      refine ⟨fun isNone => ?_, ?_, ?_⟩
      · rw [found] at isNone
        cases isNone
      · rw [serve, find_lineup, found]
        exact lineup_after_touch marked
      · have stays : (writebackStatus isSupplyExclusive (watched.set.blocks blk)).isValid = true := by
          rw [← held_ne_none_iff, marked, held_ne_none_iff]
          exact isValid
        refine Tidy.update sound.tidy (tidy_of_valid stays ?_) blk
        simp only [writebackStatus, srcMasterId_set]
        exact (sound.tidy blk).source isValid
  | none =>
      obtain ⟨victim, isLast, member, chosen⟩ := sound.exists_victim
      rw [accessBlock_miss cfg curTick found]
      change Ends _ _ (findVictim watched.set >>= _)
      rw [chosen]
      refine ((insertBlock_serves sound pkt member).allow ?_).bind ?_
      · exact fun _ unregistered called => unregistered (called found)
      · rintro inserted ⟨registered, rfl⟩
        -- the security bit that insertBlock has set is gone
        have replaced : held { insertedBlk pkt (watched.set.blocks victim) with
            status := BlkValid ||| BlkReadable } = some (pkt.tag, false) := by
          have bits : ((BlkValid ||| BlkReadable) &&& BlkValid != 0) = true ∧
              ((BlkValid ||| BlkReadable) &&& BlkSecure != 0) = false := by decide
          exact held_eq_some_iff.mpr
            ⟨bits.1, (insertedBlk_flags pkt (watched.set.blocks victim)).2.2, bits.2⟩
        have filled := (held_writebackStatus isSupplyExclusive _).trans replaced
        dsimp only
        rw [update_update, update_update]
        refine ⟨fun _ => registered, ?_, ?_⟩
        · rw [serve, find_lineup, found, replace_eq_put isLast]
          exact lineup_after_put filled
        · refine Tidy.update sound.tidy (tidy_of_valid (held_eq_some_iff.mp filled).1 ?_) victim
          simp only [writebackStatus, srcMasterId_set]
          exact registered

theorem invalidate_serves (sound : Sound cfg assoc watched) (blk : Nat) :
    Ends (fun _ => ¬ Called cfg watched.set (.invalidate blk)) (Served cfg watched (.invalidate blk))
      (perform cfg watched.set (.invalidate blk)) := by
  rw [perform, LruSet.invalidate]
  apply Ends.map
  cases isValid : (watched.set.blocks blk).isValid with
  | false =>
      exact fun called : _ ∧ _ => Bool.false_ne_true (isValid.symm.trans called.2)
  | true =>
      have fromMaster : assert (decide ((watched.set.blocks blk).srcMasterId.toNat <
          cfg.maxMasters)) = .ok () := if_pos (decide_eq_true ((sound.tidy blk).source isValid))
      by_cases member : blk ∈ watched.set.blks
      · have nodup : watched.set.blks.Nodup := sound.recent.nodup
        obtain ⟨n, _, moved⟩ := moveToTail_eq nodup member
        rw [fromMaster, moved]
        have blank : { (watched.set.blocks blk).invalidate with
            srcMasterId := invldMasterId }.isValid = false := (flags_of_blank rfl).1
        refine ⟨⟨member, isValid⟩, ?_, ?_⟩
        · exact lineup_after_clear (if_neg (by rw [blank]; exact Bool.false_ne_true))
        · refine Tidy.update sound.tidy ⟨fun stays => ?_, fun _ => rfl⟩ blk
          rw [blank] at stays
          cases stays
      · obtain ⟨stop, stopped⟩ := moveToTail_stops member
        rw [fromMaster, stopped]
        exact fun called => member called.1

theorem perform_serves (sound : Sound cfg assoc watched) (action : Action) :
    Ends (fun _ => ¬ Called cfg watched.set action) (Served cfg watched action)
      (perform cfg watched.set action) := by
  cases action with
  | access tag isSecure curTick => exact access_serves sound tag isSecure curTick
  | handleFill pkt sharedAsserted memInhibitAsserted whenReady =>
      exact handleFill_serves sound pkt sharedAsserted memInhibitAsserted whenReady
  | writeback pkt isSupplyExclusive curTick =>
      exact writeback_serves sound pkt isSupplyExclusive curTick
  | invalidate blk => exact invalidate_serves sound blk

theorem recent_serve {order : Lineup Nat Key} (recent : Recent order) (action : Action)
    (inside : ∀ blk, action = .invalidate blk → blk ∈ order.order) :
    Recent (serve order action) ∧ (serve order action).order.Perm order.order := by
  cases action with
  | access tag isSecure curTick =>
      cases found : order.find (tag, isSecure) with
      | none =>
          rw [serve, found]
          exact ⟨recent.wait, List.Perm.refl _⟩
      | some blk =>
          rw [serve, found]
          exact recent.touch_found found
  | handleFill pkt sharedAsserted memInhibitAsserted whenReady =>
      cases found : order.find (pkt.tag, pkt.isSecure) with
      | none =>
          rw [serve, found]
          exact ⟨recent.replace, perm_replace⟩
      | some blk =>
          rw [serve, found]
          exact ⟨recent.wait, List.Perm.refl _⟩
  | writeback pkt isSupplyExclusive curTick =>
      cases found : order.find (pkt.tag, pkt.isSecure) with
      | none =>
          rw [serve, found]
          exact ⟨recent.replace, perm_replace⟩
      | some blk =>
          rw [serve, found]
          exact recent.touch_found found
  | invalidate blk =>
      have member := inside blk rfl
      exact ⟨recent.clear member, perm_clear member⟩

theorem Sound.step (sound : Sound cfg assoc watched) {action : Action} {next : Watched}
    (stepped : step cfg watched action = some next) :
    Sound cfg assoc next ∧ lineup next = serve (lineup watched) action ∧ Called cfg watched.set action := by
  have serves := perform_serves sound action
  cases performed : perform cfg watched.set action with
  | error stop =>
      rw [LruSet.step, performed] at stepped
      cases stepped
  | ok result =>
      rw [LruSet.step, performed] at stepped
      cases stepped
      rw [performed] at serves
      have inside : ∀ blk, action = .invalidate blk → blk ∈ watched.set.blks := by
        rintro blk rfl
        exact serves.called.1
      obtain ⟨recent, moved⟩ := recent_serve sound.recent action inside
      rw [← serves.lineup] at recent moved
      exact ⟨⟨sound.positive, moved.trans sound.blocks, recent, serves.tidy⟩, serves.lineup, serves.called⟩

theorem held_init (assoc i : Nat) : (lineup (Watched.init assoc)).held i = none :=
  held_eq_none_iff.mpr (flags_of_blank rfl).1

theorem Sound.init (cfg : Config) (positive : 1 ≤ assoc) : Sound cfg assoc (Watched.init assoc) where
  positive := positive
  blocks := List.Perm.refl _
  recent :=
    { nodup := List.nodup_range
      ordered := by
        apply List.Pairwise.imp_of_mem _ (List.pairwise_lt_range)
        intro a b _ _ _ holds
        exact absurd (held_init assoc b) holds
      past := fun i => Nat.le_refl 0 }
  tidy blk :=
    { source := fun isValid => by
        rw [(flags_of_blank rfl).1] at isValid
        cases isValid
      clean := fun _ => rfl }

theorem called_completes (cfg : Config) (positive : 1 ≤ assoc) (actions : List Action)
    (called : Admissible (LruSet.step cfg) (fun watched action => Called cfg watched.set action) actions
      (Watched.init assoc)) :
    ∃ reached, run (LruSet.step cfg) actions (Watched.init assoc) = some reached ∧
      Sound cfg assoc reached := by
  apply run_completes _ actions (Watched.init assoc) (Sound.init cfg positive) called
  intro watched action sound isCalled
  have serves := perform_serves sound action
  cases performed : perform cfg watched.set action with
  | error stop =>
      rw [performed] at serves
      exact absurd isCalled serves
  | ok result =>
      have stepped : LruSet.step cfg watched action = some (watched.after result) := by
        rw [LruSet.step, performed]
        rfl
      exact ⟨_, stepped, (sound.step stepped).1⟩

end Simulation

section Runs

variable {cfg : Config} {assoc : Nat} {watched : Watched}

/-- The set replaces its blocks in LRU order, and holds nothing twice. -/
structure Replaces (assoc : Nat) (watched : Watched) : Prop where
  permutation : watched.set.blks.Perm (List.range assoc)
  unique : ∀ a < assoc, ∀ b < assoc,
    (watched.set.blocks a).isValid = true → (watched.set.blocks b).isValid = true →
    (watched.set.blocks a).tag = (watched.set.blocks b).tag →
    (watched.set.blocks a).isSecure = (watched.set.blocks b).isSecure → a = b
  victim : ∃ victim < assoc, findVictim watched.set = .ok victim ∧
    ((∃ a < assoc, (watched.set.blocks a).isValid = false) →
      (watched.set.blocks victim).isValid = false) ∧
    ((∀ a < assoc, (watched.set.blocks a).isValid = true) →
      ∀ a < assoc, a ≠ victim → watched.last victim < watched.last a)
  head : ∀ blk < assoc, ∃ n ≤ assoc,
    moveToHead watched.set.blks blk = .ok (blk :: watched.set.blks.erase blk, n)
  tail : ∀ blk < assoc, ∃ n ≤ assoc,
    moveToTail watched.set.blks blk = .ok (watched.set.blks.erase blk ++ [blk], n)

def Apart (watched : Watched) : Action → Prop
  -- a writeback does not fill a block with a secure tag while another block than the victim, which
  -- is the last one, holds this tag as not secure
  | .writeback pkt _ _ =>
      pkt.isSecure = true →
        (∀ blk ∈ watched.set.blks, watched.set.matching pkt.tag true blk = false) →
        ∀ blk ∈ watched.set.blks, watched.set.matching pkt.tag false blk = true →
          watched.set.blks.getLast? = some blk
  | _ => True

theorem Sound.mem_iff (sound : Sound cfg assoc watched) {blk : Nat} :
    blk ∈ watched.set.blks ↔ blk < assoc :=
  sound.blocks.mem_iff.trans List.mem_range

theorem Sound.distinct_iff (sound : Sound cfg assoc watched) :
    Distinct (lineup watched) ↔ Replaces assoc watched := by
  constructor
  · intro distinct
    have count : watched.set.blks.length = assoc := by
      rw [sound.blocks.length_eq, List.length_range]
    obtain ⟨victim, isLast, member, chosen⟩ := sound.exists_victim
    obtain ⟨anEmpty, theOldest⟩ := sound.recent.last_place isLast
    refine ⟨sound.blocks, ?_, ?_, ?_, ?_⟩
    · intro a first b second isValid isValid' sameTag sameSecure
      apply distinct a (sound.mem_iff.mpr first) b (sound.mem_iff.mpr second)
      · exact held_ne_none_iff.mpr isValid
      · change held _ = held _
        rw [held, held, if_pos isValid, if_pos isValid', sameTag, sameSecure]
    · refine ⟨victim, sound.mem_iff.mp member, chosen, ?_, ?_⟩
      · rintro ⟨a, inside, isInvalid⟩
        exact held_eq_none_iff.mp
          (anEmpty ⟨a, sound.mem_iff.mpr inside, held_eq_none_iff.mpr isInvalid⟩)
      · intro full a inside other
        refine theOldest (fun b stored => ?_) a (sound.mem_iff.mpr inside) other
        exact held_ne_none_iff.mpr (full b (sound.mem_iff.mp stored))
    · intro blk inside
      obtain ⟨n, within, moved⟩ := moveToHead_eq (sound.mem_iff.mpr inside)
      exact ⟨n, count ▸ within, moved⟩
    · intro blk inside
      have nodup : watched.set.blks.Nodup := sound.recent.nodup
      obtain ⟨n, within, moved⟩ := moveToTail_eq nodup (sound.mem_iff.mpr inside)
      exact ⟨n, count ▸ within, moved⟩
  · intro replaces a first b second holds same
    obtain ⟨key, isHeld⟩ := Option.ne_none_iff_exists'.mp holds
    obtain ⟨isValid, tagged, secure⟩ := held_eq_some_iff.mp isHeld
    obtain ⟨isValid', tagged', secure'⟩ := held_eq_some_iff.mp (same.symm.trans isHeld)
    exact replaces.unique a (sound.mem_iff.mp first) b (sound.mem_iff.mp second) isValid isValid'
      (tagged.trans tagged'.symm) (secure.trans secure'.symm)

theorem distinct_serve_iff (distinct : Distinct (lineup watched)) {action : Action}
    (called : Called cfg watched.set action) :
    Distinct (serve (lineup watched) action) ↔ Apart watched action := by
  cases action with
  | access tag isSecure curTick =>
      refine iff_of_true ?_ True.intro
      cases found : (lineup watched).find (tag, isSecure) with
      | none =>
          rw [serve, found]
          exact distinct
      | some blk =>
          rw [serve, found]
          exact distinct.touch (of_find found).1
  | handleFill pkt sharedAsserted memInhibitAsserted whenReady =>
      refine iff_of_true ?_ True.intro
      cases found : (lineup watched).find (pkt.tag, pkt.isSecure) with
      | none =>
          rw [serve, found]
          refine distinct.replace_iff.mpr fun blk member isHeld => ?_
          exact absurd isHeld (not_held_of_find_eq_none found blk member)
      | some blk =>
          rw [serve, found]
          exact distinct
  | writeback pkt isSupplyExclusive curTick =>
      cases found : (lineup watched).find (pkt.tag, pkt.isSecure) with
      | none =>
          rw [serve, found]
          refine distinct.replace_iff.trans ?_
          cases secure : pkt.isSecure with
          | false =>
              rw [secure] at found
              refine iff_of_true (fun blk member isHeld => ?_) (fun isSecure => ?_)
              · exact absurd isHeld (not_held_of_find_eq_none found blk member)
              · rw [secure] at isSecure
                cases isSecure
          | true =>
              rw [secure] at found
              constructor
              · intro others _ _ blk member insecure
                exact others blk member (matching_iff.mp insecure)
              · intro apart blk member isHeld
                refine apart secure (fun other isStored => ?_) blk member (matching_iff.mpr isHeld)
                rw [← Bool.not_eq_true, matching_iff]
                exact not_held_of_find_eq_none found other isStored
      | some blk =>
          rw [serve, found]
          obtain ⟨member, isHeld⟩ := of_find found
          refine iff_of_true (distinct.touch member) fun secure absent => ?_
          rw [secure] at isHeld
          have isMatching := matching_iff.mpr isHeld
          rw [absent blk member] at isMatching
          cases isMatching
  | invalidate blk => exact iff_of_true (distinct.clear called.1) True.intro

/-- Along every sequence of operations the set replaces in LRU order and holds nothing twice, if
and only if no writeback fills a block with a secure tag while another one than the victim holds
this tag as not secure. -/
theorem replaces_iff (cfg : Config) {assoc : Nat} (positive : 1 ≤ assoc) (actions : List Action) :
    Always (step cfg) (Replaces assoc) actions (Watched.init assoc) ↔
      EachStep (step cfg) Apart actions (Watched.init assoc) := by
  have initial := Sound.init cfg positive
  have blank : Distinct (lineup (Watched.init assoc)) :=
    fun a _ _ _ holds => absurd (held_init assoc a) holds
  apply always_iff_eachStep (Sound cfg assoc) (fun _ _ _ sound stepped => (sound.step stepped).1) _
    actions (Watched.init assoc) initial (initial.distinct_iff.mp blank)
  intro watched action next sound replaces stepped
  obtain ⟨sound', served, called⟩ := sound.step stepped
  rw [← sound'.distinct_iff, served]
  exact distinct_serve_iff (sound.distinct_iff.mpr replaces) called

theorem replaces_iff_two_blocks :
    Always (step ⟨2, 500, 8⟩) (Replaces 2)
        [.handleFill ⟨5, false, 0⟩ true false 0, .handleFill ⟨6, true, 1⟩ false true 0,
          .access 5 false 9, .handleFill ⟨7, false, 0⟩ true false 0, .invalidate 0,
          .writeback ⟨5, true, 2⟩ true 12] (Watched.init 2) ↔
      EachStep (step ⟨2, 500, 8⟩) Apart
        [.handleFill ⟨5, false, 0⟩ true false 0, .handleFill ⟨6, true, 1⟩ false true 0,
          .access 5 false 9, .handleFill ⟨7, false, 0⟩ true false 0, .invalidate 0,
          .writeback ⟨5, true, 2⟩ true 12] (Watched.init 2) :=
  replaces_iff _ (by decide) _

/-- A tag is filled, and the same tag is written back from the secure memory: both blocks are valid
and not secure. -/
theorem secure_writeback_held_twice :
    ¬ Always (step ⟨2, 500, 8⟩) (Replaces 2)
      [.handleFill ⟨5, false, 0⟩ true false 0, .writeback ⟨5, true, 0⟩ false 0] (Watched.init 2) := by
  intro always
  have replaces := always _ [] _ (List.append_nil _).symm rfl
  have same := replaces.unique 0 (by decide) 1 (by decide) (by decide) (by decide) (by decide)
    (by decide)
  cases same

end Runs

end GemFi.LruReplacement
