import GemFi.AlphaTlb
import GemFi.Outcomes
import GemFi.Transitions
import Mathlib.Data.List.Nodup

/-!
The three copies of the mapping in the translation buffer agree in every state: the multimap has
one pair for each valid entry of the array and no other, and the cache points at valid entries.
So an entry that is replaced is found in the multimap.
-/

namespace GemFi.TlbMirror

open SortedMaps Outcomes Transitions AlphaTlb

theorem less_strictWeak : StrictWeak less where
  irrefl a := decide_eq_false (BitVec.lt_irrefl a)
  trans a b c first second :=
    decide_eq_true (BitVec.lt_trans (of_decide_eq_true first) (of_decide_eq_true second))
  split a b c ordered := by
    simp only [less, decide_eq_true_eq, BitVec.lt_def] at ordered ⊢
    omega

theorem eq_of_not_less {a b : Addr} (notBefore : less a b = false) (notAfter : less b a = false) :
    a = b := by
  simp only [less, decide_eq_false_iff_not, BitVec.lt_def] at notBefore notAfter
  exact BitVec.eq_of_toNat_eq (by omega)

def slots (cache : EntryCache) : List (Option Nat) := [cache.slot0, cache.slot1, cache.slot2]

theorem not_mem_slots_empty (i : Nat) : some i ∉ slots EntryCache.empty := by
  simp [slots, EntryCache.empty]

/-- The multimap mirrors the valid entries, and the cache points at some of them. -/
structure Sound (tlb : TLB) : Prop where
  next : tlb.nlu < tlb.size
  sorted : Sorted less tlb.lookupTable
  nodup : tlb.lookupTable.Nodup
  mirrors : ∀ key i, (key, i) ∈ tlb.lookupTable ↔
    i < tlb.size ∧ (tlb.table i).valid = true ∧ (tlb.table i).tag = key
  cache : ∀ i, some i ∈ slots tlb.entryCache → i < tlb.size ∧ (tlb.table i).valid = true

variable {tlb : TLB} {table : Nat → TlbEntry}

section Eviction

variable {nlu : Nat} {oldvpn : Addr}

theorem evict_eq_ok (table : Nat → TlbEntry) (pairs : PageTable) (sorted : Sorted less pairs)
    (least : ∀ pair ∈ pairs, less pair.1 oldvpn = false)
    (mirrored : ∀ pair ∈ pairs, (table pair.2).tag = pair.1) (isOld : (table nlu).tag = oldvpn)
    (member : (oldvpn, nlu) ∈ pairs) :
    evict table nlu oldvpn pairs = .ok (pairs.erase (oldvpn, nlu)) := by
  induction pairs with
  | nil => cases member
  | cons first later ih =>
      obtain ⟨key, index⟩ := first
      have tagged : (table index).tag = key := mirrored (key, index) List.mem_cons_self
      by_cases found : index = nlu
      · subst found
        rw [← tagged, isOld, evict, if_pos rfl, List.erase_cons_head]
      · have other : (key, index) ≠ (oldvpn, nlu) := fun same => found (congrArg Prod.snd same)
        have later' : (oldvpn, nlu) ∈ later :=
          (List.mem_cons.mp member).resolve_left fun same => other same.symm
        have samePage : key = oldvpn :=
          eq_of_not_less (least _ List.mem_cons_self) ((List.pairwise_cons.mp sorted).1 _ later')
        have rest := ih sorted.of_cons (fun pair isLater => least pair (List.mem_cons_of_mem _ isLater))
          (fun pair isLater => mirrored pair (List.mem_cons_of_mem _ isLater)) later'
        rw [evict, if_neg found, if_neg (fun differs => differs (tagged.trans samePage)), rest,
          List.erase_cons_tail (by simpa using other)]
        rfl

end Eviction

/-- After the eviction the multimap has the pairs of the other entries. -/
theorem Sound.dropReplaced (sound : Sound tlb) :
    ∃ kept, tlb.dropReplaced = .ok { tlb with lookupTable := kept } ∧
      kept.Sublist tlb.lookupTable ∧
      ∀ pair, pair ∈ kept ↔ pair ∈ tlb.lookupTable ∧ pair.2 ≠ tlb.nlu := by
  unfold TLB.dropReplaced
  cases isValid : (tlb.table tlb.nlu).valid with
  | false =>
      refine ⟨tlb.lookupTable, rfl, List.Sublist.refl _, fun pair => ?_⟩
      refine (and_iff_left_of_imp fun member => ?_).symm
      intro replaced
      have valid := ((sound.mirrors pair.1 pair.2).mp member).2.1
      rw [replaced, isValid] at valid
      cases valid
  | true =>
      have member : ((tlb.table tlb.nlu).tag, tlb.nlu) ∈ tlb.lookupTable :=
        (sound.mirrors _ _).mpr ⟨sound.next, isValid, rfl⟩
      obtain ⟨reached, fromFirst⟩ := find_eq_atLeast less_strictWeak sound.sorted member
        (less_strictWeak.irrefl _) (less_strictWeak.irrefl _)
      have part : (find less (tlb.table tlb.nlu).tag tlb.lookupTable).Sublist tlb.lookupTable := by
        rw [fromFirst]
        exact List.dropWhile_sublist _
      have evicted := evict_eq_ok tlb.table _ (sound.sorted.sublist part)
        (fun pair isLater => not_less_of_mem_atLeast less_strictWeak sound.sorted (fromFirst ▸ isLater))
        (fun pair isLater => ((sound.mirrors pair.1 pair.2).mp (part.subset isLater)).2.2) rfl reached
      have apart : ((tlb.table tlb.nlu).tag, tlb.nlu) ∉
          below less (tlb.table tlb.nlu).tag tlb.lookupTable := fun early => by
        have ordered := less_of_mem_below early
        rw [less_strictWeak.irrefl] at ordered
        cases ordered
      have whole : below less (tlb.table tlb.nlu).tag tlb.lookupTable ++
          (find less (tlb.table tlb.nlu).tag tlb.lookupTable).erase
            ((tlb.table tlb.nlu).tag, tlb.nlu) =
          tlb.lookupTable.erase ((tlb.table tlb.nlu).tag, tlb.nlu) := by
        rw [← List.erase_append_right _ apart, fromFirst, below_append_atLeast]
      refine ⟨tlb.lookupTable.erase ((tlb.table tlb.nlu).tag, tlb.nlu), ?_, List.erase_sublist,
        fun pair => ?_⟩
      · rw [← whole]
        cases found : find less (tlb.table tlb.nlu).tag tlb.lookupTable with
        | nil =>
            rw [found] at reached
            cases reached
        | cons first later =>
            rw [found] at evicted
            rw [if_neg (by simp)]
            dsimp only
            rw [found]
            exact bind_eq_of_ok evicted rfl
      · rw [sound.nodup.mem_erase_iff, and_comm]
        apply and_congr_right
        intro listed
        refine not_congr ⟨fun same => congrArg Prod.snd same, fun same => ?_⟩
        have tagged := ((sound.mirrors pair.1 pair.2).mp listed).2.2
        exact Prod.ext (by rw [← tagged, same]) same

/-- The new pair goes where the old entry's pair is gone. -/
theorem Sound.put (sound : Sound tlb) {kept : PageTable} (fewer : kept.Sublist tlb.lookupTable)
    (mem_kept_iff : ∀ pair, pair ∈ kept ↔ pair ∈ tlb.lookupTable ∧ pair.2 ≠ tlb.nlu)
    (noCache : tlb.entryCache = EntryCache.empty) (page : Addr) (entry : TlbEntry) :
    Sound (TLB.put { tlb with lookupTable := kept } page entry) := by
  have sortedKept : Sorted less kept := sound.sorted.sublist fewer
  constructor
  · exact sound.next
  · exact Sorted.place less_strictWeak sortedKept _
  · have fresh : (page, tlb.nlu) ∉ kept := fun listed => ((mem_kept_iff _).mp listed).2 rfl
    have moved : (place less (page, tlb.nlu) kept).Perm ((page, tlb.nlu) :: kept) := by
      conv_rhs => rw [← upTo_append_beyond less page kept]
      exact List.perm_middle
    exact moved.nodup_iff.mpr (List.nodup_cons.mpr ⟨fresh, sound.nodup.sublist fewer⟩)
  · intro key i
    refine mem_place_iff.trans ?_
    change _ ↔ i < tlb.size ∧
      (Function.update tlb.table tlb.nlu { entry with tag := page, valid := true } i).valid = true ∧
      (Function.update tlb.table tlb.nlu { entry with tag := page, valid := true } i).tag = key
    rw [mem_kept_iff, sound.mirrors, Prod.mk.injEq]
    by_cases isNew : i = tlb.nlu
    · subst isNew
      rw [Function.update_self]
      simp only [and_true, ne_eq, not_true_eq_false, and_false, or_false, sound.next, true_and]
      exact eq_comm
    · rw [Function.update_of_ne isNew]
      simp [isNew]
  · intro i pointed
    change some i ∈ slots tlb.entryCache at pointed
    rw [noCache] at pointed
    exact absurd pointed (not_mem_slots_empty i)

theorem Sound.nextnlu (sound : Sound tlb) : Sound tlb.nextnlu where
  next := by
    have some := sound.next
    change (if tlb.nlu + 1 ≥ tlb.size then 0 else tlb.nlu + 1) < tlb.size
    split
    · omega
    · omega
  sorted := sound.sorted
  nodup := sound.nodup
  mirrors := sound.mirrors
  cache := sound.cache

theorem Sound.flushCache (sound : Sound tlb) : Sound tlb.flushCache where
  next := sound.next
  sorted := sound.sorted
  nodup := sound.nodup
  mirrors := sound.mirrors
  cache := fun i pointed => absurd pointed (not_mem_slots_empty i)

/-- An insertion always completes. -/
theorem Sound.insert (sound : Sound tlb) (addr : Addr) (entry : TlbEntry) :
    ∃ inserted, tlb.insert addr entry = .ok inserted ∧ Sound inserted := by
  obtain ⟨kept, dropped, fewer, mem_kept_iff⟩ := sound.flushCache.dropReplaced
  refine ⟨_, bind_eq_of_ok dropped rfl, ?_⟩
  exact (sound.flushCache.put fewer mem_kept_iff rfl (vpn addr) entry).nextnlu

theorem sound_of_blank {tlb : TLB} (next : tlb.nlu < tlb.size) (blank : tlb.table = fun _ => TlbEntry.zero)
    (noPair : tlb.lookupTable = []) (noCache : tlb.entryCache = EntryCache.empty) : Sound tlb := by
  constructor
  · exact next
  · rw [noPair]
    exact List.Pairwise.nil
  · rw [noPair]
    exact List.nodup_nil
  · intro key i
    rw [noPair, blank]
    constructor
    · intro listed
      cases listed
    · rintro ⟨_, isValid, _⟩
      cases isValid
  · rw [noCache]
    exact fun i pointed => absurd pointed (not_mem_slots_empty i)

theorem Sound.init {size : Nat} (nonempty : 1 ≤ size) : Sound (TLB.init size) :=
  sound_of_blank nonempty rfl rfl rfl

theorem Sound.flushAll (sound : Sound tlb) : Sound tlb.flushAll :=
  sound_of_blank (Nat.lt_of_le_of_lt (Nat.zero_le _) sound.next) rfl rfl rfl

section Flushes

structure Swept (pairs kept : PageTable) (table swept : Nat → TlbEntry) : Prop where
  fewer : kept.Sublist pairs
  tags : ∀ i, (swept i).tag = (table i).tag
  mem_iff : ∀ pair ∈ pairs, pair ∈ kept ↔ (swept pair.2).valid = true
  others : ∀ i, i ∉ pairs.map Prod.snd → swept i = table i
  valids : ∀ i, (swept i).valid = true → (table i).valid = true

theorem Swept.refl {pairs : PageTable} (valid : ∀ pair ∈ pairs, (table pair.2).valid = true) :
    Swept pairs pairs table table where
  fewer := List.Sublist.refl _
  tags := fun _ => rfl
  mem_iff := fun pair member => iff_of_true member (valid pair member)
  others := fun _ _ => rfl
  valids := fun _ => id

/-- The first pair stays. -/
theorem Swept.keep {pairs kept : PageTable} {swept : Nat → TlbEntry} {key : Addr} {index : Nat}
    (rest : Swept pairs kept table swept) (isValid : (table index).valid = true)
    (apart : index ∉ pairs.map Prod.snd) :
    Swept ((key, index) :: pairs) ((key, index) :: kept) table swept where
  fewer := rest.fewer.cons_cons _
  tags := rest.tags
  mem_iff := fun pair member => by
    rcases List.mem_cons.mp member with rfl | later
    · rw [rest.others index apart, isValid]
      exact iff_of_true List.mem_cons_self rfl
    · have other : pair ≠ (key, index) := by
        rintro rfl
        exact apart (List.mem_map_of_mem later)
      rw [List.mem_cons, rest.mem_iff pair later]
      exact or_iff_right other
  others := fun i absent => rest.others i fun listed => absent (List.mem_cons_of_mem _ listed)
  valids := rest.valids

/-- The first pair goes. -/
theorem Swept.drop {pairs kept : PageTable} {swept : Nat → TlbEntry} {key : Addr} {index : Nat}
    (rest : Swept pairs kept (Function.update table index (table index).invalidated) swept)
    (apart : index ∉ pairs.map Prod.snd) : Swept ((key, index) :: pairs) kept table swept where
  fewer := rest.fewer.cons _
  tags := fun i => by
    rw [rest.tags]
    by_cases isDropped : i = index
    · subst isDropped
      rw [Function.update_self]
      rfl
    · rw [Function.update_of_ne isDropped]
  mem_iff := fun pair member => by
    rcases List.mem_cons.mp member with rfl | later
    · rw [rest.others index apart, Function.update_self]
      refine iff_of_false (fun listed => ?_) Bool.false_ne_true
      exact apart (List.mem_map_of_mem (rest.fewer.subset listed))
    · exact rest.mem_iff pair later
  others := fun i absent => by
    rw [List.map_cons, List.mem_cons, not_or] at absent
    rw [rest.others i absent.2, Function.update_of_ne absent.1]
  valids := fun i isValid => by
    have before := rest.valids i isValid
    by_cases isDropped : i = index
    · subst isDropped
      rw [Function.update_self] at before
      cases before
    · rwa [Function.update_of_ne isDropped] at before

theorem exists_sweep (wanted : Addr → Bool) (leaves : TlbEntry → Bool) (pairs : PageTable)
    (valid : ∀ pair ∈ pairs, (table pair.2).valid = true)
    (apart : (pairs.map Prod.snd).Nodup) :
    ∃ kept swept, sweep wanted leaves pairs table = .ok (kept, swept) ∧
      Swept pairs kept table swept := by
  induction pairs generalizing table with
  | nil => exact ⟨[], table, rfl, Swept.refl valid⟩
  | cons first later ih =>
      obtain ⟨key, index⟩ := first
      obtain ⟨alone, distinct⟩ := List.nodup_cons.mp apart
      have isValid := valid (key, index) List.mem_cons_self
      have laterValid : ∀ pair ∈ later, (table pair.2).valid = true :=
        fun pair member => valid pair (List.mem_cons_of_mem _ member)
      unfold sweep
      split
      · exact ⟨_, _, rfl, Swept.refl valid⟩
      · cases isLeft : leaves (table index) with
        | true =>
            have stillValid : ∀ pair ∈ later, (Function.update table index (table index).invalidated
                pair.2).valid = true := fun pair member => by
              have other : pair.2 ≠ index := fun same =>
                alone (List.mem_map.mpr ⟨pair, member, same⟩)
              rw [Function.update_of_ne other]
              exact laterValid pair member
            obtain ⟨kept, swept, completes, rest⟩ := ih stillValid distinct
            exact ⟨kept, swept, bind_eq_of_ok (assert_ok isValid) completes, rest.drop alone⟩
        | false =>
            obtain ⟨kept, swept, completes, rest⟩ := ih laterValid distinct
            exact ⟨(key, index) :: kept, swept, bind_eq_of_ok (assert_ok isValid)
              (bind_eq_of_ok completes rfl), rest.keep isValid alone⟩

end Flushes

/-- No two pairs are of one place. -/
theorem Sound.apart (sound : Sound tlb) : (tlb.lookupTable.map Prod.snd).Nodup := by
  apply List.Nodup.map_on _ sound.nodup
  rintro ⟨key, i⟩ first ⟨key', j⟩ second rfl
  have tag := ((sound.mirrors key _).mp first).2.2
  have tag' := ((sound.mirrors key' _).mp second).2.2
  rw [← tag, ← tag']

theorem Sound.valid (sound : Sound tlb) : ∀ pair ∈ tlb.lookupTable, (tlb.table pair.2).valid = true :=
  fun pair member => ((sound.mirrors pair.1 pair.2).mp member).2.1

/-- A flush of a part of the pairs. -/
theorem Sound.swept (sound : Sound tlb) {before pairs kept : PageTable} {swept : Nat → TlbEntry}
    (split : before ++ pairs = tlb.lookupTable) (sweeps : Swept pairs kept tlb.table swept) :
    Sound { tlb.flushCache with table := swept, lookupTable := before ++ kept } := by
  have fewer : (before ++ kept).Sublist tlb.lookupTable := split ▸ sweeps.fewer.append_left before
  have apart := sound.apart
  rw [← split, List.map_append, List.nodup_append'] at apart
  have mem_iff : ∀ pair, pair ∈ before ++ kept ↔
      pair ∈ tlb.lookupTable ∧ (swept pair.2).valid = true := by
    intro pair
    constructor
    · intro member
      refine ⟨fewer.subset member, ?_⟩
      rcases List.mem_append.mp member with early | late
      · have outside : pair.2 ∉ pairs.map Prod.snd := apart.2.2 (List.mem_map_of_mem early)
        rw [sweeps.others _ outside]
        exact sound.valid pair (fewer.subset member)
      · exact (sweeps.mem_iff pair (sweeps.fewer.subset late)).mp late
    · rintro ⟨member, isValid⟩
      rw [← split, List.mem_append] at member
      exact List.mem_append.mpr (member.imp id fun late => (sweeps.mem_iff pair late).mpr isValid)
  constructor
  · exact sound.next
  · exact sound.sorted.sublist fewer
  · exact sound.nodup.sublist fewer
  · intro key i
    refine (mem_iff (key, i)).trans ?_
    change _ ↔ i < tlb.size ∧ (swept i).valid = true ∧ (swept i).tag = key
    rw [sound.mirrors, sweeps.tags]
    constructor
    · rintro ⟨⟨inside, _, tagged⟩, isValid⟩
      exact ⟨inside, isValid, tagged⟩
    · rintro ⟨inside, isValid, tagged⟩
      exact ⟨⟨inside, sweeps.valids i isValid, tagged⟩, isValid⟩
  · exact fun i pointed => absurd pointed (not_mem_slots_empty i)

theorem Sound.flushProcesses (sound : Sound tlb) :
    ∃ flushed, tlb.flushProcesses = .ok flushed ∧ Sound flushed := by
  obtain ⟨kept, swept, completes, sweeps⟩ := exists_sweep (fun _ => true)
    (fun entry => !entry.asma) tlb.lookupTable sound.valid sound.apart
  exact ⟨_, bind_eq_of_ok completes rfl, sound.swept (List.nil_append _) sweeps⟩

theorem Sound.flushAddr (sound : Sound tlb) (addr : Addr) (asn : BitVec 8) :
    ∃ flushed, tlb.flushAddr addr asn = .ok flushed ∧ Sound flushed := by
  unfold TLB.flushAddr
  split
  next => exact ⟨_, rfl, sound.flushCache⟩
  next first later found =>
    have fromFirst : first :: later = atLeast less (vpn addr) tlb.lookupTable := by
      rcases find_cases less (vpn addr) tlb.lookupTable with isNone | isSome
      · rw [isNone] at found
        cases found
      · rw [← found, isSome]
    have split : below less (vpn addr) tlb.lookupTable ++ first :: later = tlb.lookupTable := by
      rw [fromFirst, below_append_atLeast]
    have part : (first :: later).Sublist tlb.lookupTable := split ▸ List.sublist_append_right _ _
    obtain ⟨kept, swept, completes, sweeps⟩ := exists_sweep (fun key => key == vpn addr)
      (fun entry => entry.serves (vpn addr) asn) (first :: later)
      (fun pair member => sound.valid pair (part.subset member)) (sound.apart.sublist (part.map _))
    exact ⟨_, bind_eq_of_ok completes rfl, sound.swept split sweeps⟩

theorem Sound.updateCache (sound : Sound tlb) {entry : Nat} (inside : entry < tlb.size)
    (isValid : (tlb.table entry).valid = true) : Sound (tlb.updateCache entry) where
  next := sound.next
  sorted := sound.sorted
  nodup := sound.nodup
  mirrors := sound.mirrors
  cache := fun i pointed => by
    have recent : i = entry ∨ some i = tlb.entryCache.slot0 ∨ some i = tlb.entryCache.slot1 := by
      simpa [slots, TLB.updateCache] using pointed
    rcases recent with rfl | earlier
    · exact ⟨inside, isValid⟩
    · apply sound.cache i
      rcases earlier with inFirst | inSecond
      · simp [slots, inFirst]
      · simp [slots, inSecond]

theorem walk_ends (pairs : PageTable) (valid : ∀ pair ∈ pairs, (table pair.2).valid = true)
    (page : Addr) (asn : BitVec 8) :
    Ends (fun stop => stop = Stop.noElement)
      (fun found => ∀ i, found = some i → ∃ key, (key, i) ∈ pairs) (walk table page asn pairs) := by
  induction pairs with
  | nil => rfl
  | cons first later ih =>
      obtain ⟨key, index⟩ := first
      unfold walk
      split
      · exact fun i isFound => nomatch isFound
      · rw [assert_ok (valid (key, index) List.mem_cons_self)]
        dsimp only [bind, Except.bind]
        split
        · rintro i isFound
          cases isFound
          exact ⟨key, List.mem_cons_self⟩
        · refine (ih fun pair member => valid pair (List.mem_cons_of_mem _ member)).mono ?_
          intro found fromLater i isFound
          obtain ⟨key', member⟩ := fromLater i isFound
          exact ⟨key', List.mem_cons_of_mem _ member⟩

theorem Sound.lookup (sound : Sound tlb) (page : Addr) (asn : BitVec 8) (past : Addr) :
    Ends (fun stop => stop = Stop.noElement) (fun result => Sound result.2)
      (tlb.lookup page asn past) := by
  unfold TLB.lookup
  split
  next => exact sound
  next =>
    split
    next => exact sound
    next first later found =>
      have part : ∀ pair ∈ first :: later, pair ∈ tlb.lookupTable := by
        intro pair member
        rcases find_cases less page tlb.lookupTable with isNone | isSome
        · rw [isNone] at found
          cases found
        · rw [← found, isSome] at member
          exact (List.dropWhile_sublist _).subset member
      have walks := walk_ends (first :: later) (fun pair member => sound.valid pair (part pair member))
        page asn
      cases walked : walk tlb.table page asn (first :: later) with
      | error stop =>
          rw [walked] at walks
          cases walks
          dsimp only
          split
          · rfl
          · exact sound
      | ok result =>
          cases result with
          | none => exact sound
          | some entry =>
              obtain ⟨key, member⟩ := walks.of_ok walked entry rfl
              obtain ⟨inside, isValid, _⟩ := (sound.mirrors key entry).mp (part _ member)
              exact sound.updateCache inside isValid

def Stops : Action → Stop → Prop
  | .lookup _ _ _, stop => stop = .noElement
  | .demapPage _ _, stop => stop = .assertion
  | _, _ => False

theorem Sound.perform (sound : Sound tlb) (action : Action) :
    Ends (Stops action) Sound (perform tlb action) := by
  cases action with
  | insert addr entry =>
      obtain ⟨inserted, completes, kept⟩ := sound.insert addr entry
      rw [AlphaTlb.perform, completes]
      exact kept
  | flushAll => exact sound.flushAll
  | flushProcesses =>
      obtain ⟨flushed, completes, kept⟩ := sound.flushProcesses
      rw [AlphaTlb.perform, completes]
      exact kept
  | flushAddr addr asn =>
      obtain ⟨flushed, completes, kept⟩ := sound.flushAddr addr asn
      rw [AlphaTlb.perform, completes]
      exact kept
  | lookup page asn past => exact Ends.map (sound.lookup page asn past)
  | demapPage addr asn =>
      have checks : Ends (Stops (.demapPage addr asn)) (fun _ => True)
          (assert (decide (asn.toNat < 1 <<< 8))) := by
        unfold assert
        split
        · exact True.intro
        · rfl
      apply checks.bind
      intro _ _
      obtain ⟨flushed, completes, kept⟩ := sound.flushAddr addr (asn.setWidth 8)
      rw [completes]
      exact kept
  | index advance =>
      cases advance with
      | false => exact sound
      | true => exact sound.nextnlu

theorem Sound.step (sound : Sound tlb) {action : Action} {tlb' : TLB}
    (stepped : step tlb action = some tlb') : Sound tlb' :=
  (sound.perform action).of_ok (eq_ok_of_toOption stepped)

/-- In every state that a buffer of any size reaches, the multimap mirrors the array, the cache
points at valid entries, and no insertion panics. -/
theorem mapping_stays_mirrored {size : Nat} (nonempty : 1 ≤ size) (actions : List Action) :
    Always step (fun tlb => Sound tlb ∧
      ∀ addr entry, ∃ inserted, tlb.insert addr entry = .ok inserted) actions (TLB.init size) := by
  have preserves : ∀ tlb action tlb', Sound tlb → True → step tlb action = some tlb' → Sound tlb' :=
    fun _ _ _ sound _ stepped => sound.step stepped
  have always := always_of_preserved preserves actions (TLB.init size) (Sound.init nonempty)
    (fun _ _ _ _ _ _ _ _ => True.intro)
  intro before after reached split ran
  have sound := always before after reached split ran
  refine ⟨sound, fun addr entry => ?_⟩
  obtain ⟨inserted, completes, _⟩ := sound.insert addr entry
  exact ⟨inserted, completes⟩

theorem mapping_stays_mirrored_around_replacement :
    Always step (fun tlb => Sound tlb ∧
      ∀ addr entry, ∃ inserted, tlb.insert addr entry = .ok inserted)
      [.insert 0x2000 TlbEntry.zero, .insert 0x4000 TlbEntry.zero, .lookup 1 0 0,
        .insert 0x2000 TlbEntry.zero, .lookup 2 0 0, .flushProcesses] (TLB.init 2) :=
  mapping_stays_mirrored (by decide) _

/-- The second page is still there after the first is replaced. -/
example :
    ((run step [.insert 0x2000 TlbEntry.zero, .insert 0x4000 TlbEntry.zero, .lookup 1 0 0,
      .insert 0x2000 TlbEntry.zero, .lookup 2 0 0] (TLB.init 2)).map fun tlb =>
        (tlb.lookupTable, tlb.entryCache)) =
    some ([(1, 0), (2, 1)], ⟨some 1, none, none⟩) := by decide

end GemFi.TlbMirror
