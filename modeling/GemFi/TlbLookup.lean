import GemFi.TlbMirror

/-!
What a lookup in the translation buffer answers. The walk over the entries of a page stops at an
entry of another page, and does not compare with the end of the multimap as `flushAddr` does: when
the page is the last one there and none of its entries serves, the end is read.
-/

namespace GemFi.TlbLookup

open SortedMaps Outcomes Transitions AlphaTlb TlbMirror

def ReadsEnd (tlb : TLB) (page : Addr) (asn : BitVec 8) : Prop :=
  tlb.cached page asn = none ∧ ∃ first later, find less page tlb.lookupTable = first :: later ∧
    walk tlb.table page asn (first :: later) = .error .noElement

/-- A valid entry that translates the page for the address space. -/
def Served (tlb : TLB) (page : Addr) (asn : BitVec 8) (i : Nat) : Prop :=
  i < tlb.size ∧ (tlb.table i).valid = true ∧ (tlb.table i).serves page asn = true

/-- The lookup stays inside the multimap, returns, and finds an entry exactly when there is one. -/
structure Answers (tlb : TLB) (page : Addr) (asn : BitVec 8) : Prop where
  inside : ¬ ReadsEnd tlb page asn
  exact : ∀ past, ∃ found after, tlb.lookup page asn past = .ok (found, after) ∧
    (∀ i, found = some i → Served tlb page asn i) ∧
    (found.isSome = true ↔ ∃ i, Served tlb page asn i)

/-- Some valid entry serves, or none is of the page, or one is of a page behind it. -/
def Bounded (tlb : TLB) (page : Addr) (asn : BitVec 8) : Prop :=
  (∃ i, Served tlb page asn i) ∨
    (∀ i < tlb.size, (tlb.table i).valid = true → (tlb.table i).tag ≠ page) ∨
    ∃ i < tlb.size, (tlb.table i).valid = true ∧ page < (tlb.table i).tag

variable {tlb : TLB} {table : Nat → TlbEntry} {page : Addr} {asn : BitVec 8}

theorem tag_of_serves {entry : TlbEntry} (serves : entry.serves page asn = true) : entry.tag = page := by
  rw [TlbEntry.serves, Bool.and_eq_true, beq_iff_eq] at serves
  exact serves.1.symm

theorem of_cached {i : Nat} (isCached : tlb.cached page asn = some i) :
    some i ∈ slots tlb.entryCache ∧ (tlb.table i).serves page asn = true := by
  unfold TLB.cached at isCached
  split at isCached
  next => cases isCached
  next first inFirst =>
    split at isCached
    next serves =>
      cases isCached
      exact ⟨by simp [slots, inFirst], serves⟩
    next =>
      split at isCached
      next => cases isCached
      next second inSecond =>
        split at isCached
        next serves =>
          cases isCached
          exact ⟨by simp [slots, inSecond], serves⟩
        next =>
          split at isCached
          next => cases isCached
          next third inThird =>
            split at isCached
            next serves =>
              cases isCached
              exact ⟨by simp [slots, inThird], serves⟩
            next => cases isCached

theorem served_of_cached (sound : Sound tlb) {i : Nat} (isCached : tlb.cached page asn = some i) :
    Served tlb page asn i := by
  obtain ⟨pointed, serves⟩ := of_cached isCached
  obtain ⟨inside, isValid⟩ := sound.cache i pointed
  exact ⟨inside, isValid, serves⟩

structure Seen (table : Nat → TlbEntry) (page : Addr) (asn : BitVec 8) (pairs : PageTable)
    (found : Option Nat) : Prop where
  hit : ∀ i, found = some i → (page, i) ∈ pairs ∧ (table i).serves page asn = true
  miss : found = none → (∀ pair ∈ pairs, (table pair.2).serves page asn = false) ∧
    ∃ pair ∈ pairs, less page pair.1 = true

/-- The first pair is passed, since its entry does not serve. -/
theorem Seen.pass {first : Addr × Nat} {later : PageTable} {found : Option Nat}
    (seen : Seen table page asn later found) (fails : (table first.2).serves page asn = false) :
    Seen table page asn (first :: later) found where
  hit i isFound := by
    obtain ⟨member, serves⟩ := seen.hit i isFound
    exact ⟨List.mem_cons_of_mem _ member, serves⟩
  miss isNone := by
    obtain ⟨noneServes, pair, member, behind⟩ := seen.miss isNone
    exact ⟨List.forall_mem_cons.mpr ⟨fails, noneServes⟩, pair, List.mem_cons_of_mem _ member, behind⟩

theorem behind_of_ne {key : Addr} {index : Nat} {later : PageTable}
    (sorted : Sorted less ((key, index) :: later)) (notBefore : less key page = false)
    (other : key ≠ page) : ∀ pair ∈ (key, index) :: later, less page pair.1 = true := by
  have behind : less page key = true := by
    by_contra notBehind
    exact other (eq_of_not_less notBefore (Bool.eq_false_of_not_eq_true notBehind))
  refine List.forall_mem_cons.mpr ⟨behind, fun pair member => ?_⟩
  rcases less_strictWeak.split page pair.1 key behind with further | back
  · exact further
  · rw [(List.pairwise_cons.mp sorted).1 pair member] at back
    cases back

theorem not_serves_of_behind {entry : TlbEntry} (behind : less page entry.tag = true) :
    entry.serves page asn = false := by
  rw [← Bool.not_eq_true]
  intro serves
  rw [tag_of_serves serves, less_strictWeak.irrefl] at behind
  cases behind

/-- The walk ends at an entry that serves or at another page. Otherwise it comes to the end, where
all pairs are of the page and none serves. -/
theorem walk_sees (pairs : PageTable) (sorted : Sorted less pairs)
    (least : ∀ pair ∈ pairs, less pair.1 page = false)
    (valid : ∀ pair ∈ pairs, (table pair.2).valid = true)
    (mirrored : ∀ pair ∈ pairs, (table pair.2).tag = pair.1) :
    Ends (fun stop => stop = Stop.noElement ∧
        ∀ pair ∈ pairs, pair.1 = page ∧ (table pair.2).serves page asn = false)
      (Seen table page asn pairs) (walk table page asn pairs) := by
  induction pairs with
  | nil => exact ⟨rfl, fun pair member => absurd member List.not_mem_nil⟩
  | cons first later ih =>
      obtain ⟨key, index⟩ := first
      unfold walk
      by_cases samePage : key = page
      · subst samePage
        rw [if_neg (fun differs => differs rfl),
          assert_ok (valid (key, index) List.mem_cons_self)]
        dsimp only [bind, Except.bind]
        cases serves : (table index).serves key asn with
        | true =>
            rw [if_pos rfl]
            constructor
            · rintro i isFound
              cases isFound
              exact ⟨List.mem_cons_self, serves⟩
            · intro isNone
              cases isNone
        | false =>
            rw [if_neg Bool.false_ne_true]
            have rest := ih sorted.of_cons (fun pair member => least pair (List.mem_cons_of_mem _ member))
              (fun pair member => valid pair (List.mem_cons_of_mem _ member))
              (fun pair member => mirrored pair (List.mem_cons_of_mem _ member))
            refine (rest.mono fun found seen => seen.pass serves).allow fun stop ending => ?_
            exact ⟨ending.1, List.forall_mem_cons.mpr ⟨⟨rfl, serves⟩, ending.2⟩⟩
      · rw [if_pos samePage]
        have behind := behind_of_ne sorted (least _ List.mem_cons_self) samePage
        constructor
        · intro i isFound
          cases isFound
        · refine fun _ => ⟨fun pair member => ?_, _, List.mem_cons_self, behind _ List.mem_cons_self⟩
          apply not_serves_of_behind
          rw [mirrored pair member]
          exact behind pair member

theorem find_sees (sound : Sound tlb) (asn : BitVec 8) {first : Addr × Nat} {later : PageTable}
    (found : find less page tlb.lookupTable = first :: later) :
    Ends (fun stop => stop = Stop.noElement ∧ ∀ pair ∈ first :: later,
        pair.1 = page ∧ (tlb.table pair.2).serves page asn = false)
      (Seen tlb.table page asn (first :: later)) (walk tlb.table page asn (first :: later)) := by
  have part : (first :: later).Sublist tlb.lookupTable := found ▸ find_sublist less page tlb.lookupTable
  apply walk_sees
  · exact sound.sorted.sublist part
  · intro pair member
    rcases find_cases less page tlb.lookupTable with isNone | isSome
    · rw [isNone] at found
      cases found
    · rw [← found, isSome] at member
      exact not_less_of_mem_atLeast less_strictWeak sound.sorted member
  · exact fun pair member => sound.valid pair (part.subset member)
  · exact fun pair member => ((sound.mirrors pair.1 pair.2).mp (part.subset member)).2.2

theorem mem_find (sound : Sound tlb) {i : Nat} (inside : i < tlb.size) (isValid : (tlb.table i).valid = true)
    (ofPage : (tlb.table i).tag = page) : (page, i) ∈ find less page tlb.lookupTable :=
  (find_eq_atLeast less_strictWeak sound.sorted ((sound.mirrors page i).mpr ⟨inside, isValid, ofPage⟩)
    (less_strictWeak.irrefl page) (less_strictWeak.irrefl page)).1

theorem mem_find_of_served (sound : Sound tlb) {i : Nat} (served : Served tlb page asn i) :
    (page, i) ∈ find less page tlb.lookupTable :=
  mem_find sound served.1 served.2.1 (tag_of_serves served.2.2)

theorem mem_find_of_behind (sound : Sound tlb) {first : Addr × Nat} {later : PageTable} {i : Nat}
    (found : find less page tlb.lookupTable = first :: later) (inside : i < tlb.size)
    (isValid : (tlb.table i).valid = true) (behind : page < (tlb.table i).tag) :
    ((tlb.table i).tag, i) ∈ first :: later := by
  have listed : ((tlb.table i).tag, i) ∈ tlb.lookupTable :=
    (sound.mirrors _ i).mpr ⟨inside, isValid, rfl⟩
  rw [← below_append_atLeast less page tlb.lookupTable, List.mem_append] at listed
  rcases listed with early | late
  · have before : less (tlb.table i).tag page = true := less_of_mem_below early
    rw [less_strictWeak.asymm (decide_eq_true behind)] at before
    cases before
  · rcases find_cases less page tlb.lookupTable with isNone | isSome
    · rw [isNone] at found
      cases found
    · rwa [← found, isSome]

theorem served_of_mem_find (sound : Sound tlb) {i : Nat}
    (member : (page, i) ∈ find less page tlb.lookupTable)
    (serves : (tlb.table i).serves page asn = true) : Served tlb page asn i := by
  obtain ⟨inside, isValid, _⟩ :=
    (sound.mirrors page i).mp ((find_sublist less page tlb.lookupTable).subset member)
  exact ⟨inside, isValid, serves⟩

theorem readsEnd_iff (sound : Sound tlb) : ReadsEnd tlb page asn ↔ ¬ Bounded tlb page asn := by
  constructor
  · rintro ⟨_, first, later, found, ended⟩
    have seen := find_sees sound asn found
    rw [ended] at seen
    obtain ⟨_, allOfPage⟩ := seen
    rintro (⟨i, served⟩ | noneOfPage | ⟨i, inside, isValid, behind⟩)
    · have listed := mem_find_of_served sound served
      rw [found] at listed
      have serves := served.2.2
      rw [(allOfPage _ listed).2] at serves
      cases serves
    · have listed : first ∈ find less page tlb.lookupTable := found ▸ List.mem_cons_self
      obtain ⟨inside, isValid, tagged⟩ := (sound.mirrors first.1 first.2).mp
        ((find_sublist less page tlb.lookupTable).subset listed)
      exact noneOfPage _ inside isValid (tagged.trans (allOfPage first List.mem_cons_self).1)
    · have listed := mem_find_of_behind sound found inside isValid behind
      have samePage : (tlb.table i).tag = page := (allOfPage _ listed).1
      rw [samePage] at behind
      exact BitVec.lt_irrefl page behind
  · intro unbounded
    rw [Bounded, not_or, not_or] at unbounded
    obtain ⟨noneServes, someOfPage, noneBehind⟩ := unbounded
    simp only [not_forall, not_not] at someOfPage
    obtain ⟨i, inside, isValid, ofPage⟩ := someOfPage
    have listed := mem_find sound inside isValid ofPage
    cases found : find less page tlb.lookupTable with
    | nil =>
        rw [found] at listed
        cases listed
    | cons first later =>
        refine ⟨?_, first, later, found, ?_⟩
        · rw [Option.eq_none_iff_forall_ne_some]
          exact fun j isCached => noneServes ⟨j, served_of_cached sound isCached⟩
        · have seen := find_sees sound asn found
          cases walked : walk tlb.table page asn (first :: later) with
          | error stop =>
              rw [walked] at seen
              rw [seen.1]
          | ok result =>
              rw [walked] at seen
              cases result with
              | some j =>
                  obtain ⟨member, serves⟩ := seen.hit j rfl
                  exact absurd ⟨j, served_of_mem_find sound (found ▸ member) serves⟩ noneServes
              | none =>
                  obtain ⟨_, pair, member, behind⟩ := seen.miss rfl
                  have stored := (find_sublist less page tlb.lookupTable).subset (found ▸ member)
                  obtain ⟨inside', isValid', tagged⟩ := (sound.mirrors pair.1 pair.2).mp stored
                  refine absurd ⟨pair.2, inside', isValid', ?_⟩ noneBehind
                  rw [tagged]
                  exact of_decide_eq_true behind

theorem lookup_exact (sound : Sound tlb) (inside : ¬ ReadsEnd tlb page asn) : Answers tlb page asn := by
  refine ⟨inside, fun past => ?_⟩
  unfold TLB.lookup
  cases isCached : tlb.cached page asn with
  | some i =>
      have served := served_of_cached sound isCached
      refine ⟨some i, tlb, rfl, ?_, iff_of_true rfl ⟨i, served⟩⟩
      rintro j isFound
      cases isFound
      exact served
  | none =>
      cases found : find less page tlb.lookupTable with
      | nil =>
          refine ⟨none, tlb, rfl, fun i isFound => absurd isFound.symm (Option.some_ne_none i),
            iff_of_false Bool.false_ne_true ?_⟩
          rintro ⟨i, served⟩
          have listed := mem_find_of_served sound served
          rw [found] at listed
          cases listed
      | cons first later =>
          have seen := find_sees sound asn found
          cases walked : walk tlb.table page asn (first :: later) with
          | error stop =>
              rw [walked] at seen
              rw [seen.1] at walked
              exact absurd ⟨isCached, first, later, found, walked⟩ inside
          | ok result =>
              rw [walked] at seen
              cases result with
              | some i =>
                  obtain ⟨member, serves⟩ := seen.hit i rfl
                  have served := served_of_mem_find sound (found ▸ member) serves
                  refine ⟨some i, tlb.updateCache i, by simp only [walked], ?_,
                    iff_of_true rfl ⟨i, served⟩⟩
                  rintro j isFound
                  cases isFound
                  exact served
              | none =>
                  refine ⟨none, tlb, by simp only [walked],
                    fun i isFound => absurd isFound.symm (Option.some_ne_none i),
                    iff_of_false Bool.false_ne_true ?_⟩
                  rintro ⟨i, served⟩
                  have listed := mem_find_of_served sound served
                  rw [found] at listed
                  have serves := served.2.2
                  rw [(seen.miss rfl).1 _ listed] at serves
                  cases serves

theorem answers_iff_bounded (sound : Sound tlb) : Answers tlb page asn ↔ Bounded tlb page asn := by
  constructor
  · intro answers
    by_contra unbounded
    exact answers.inside ((readsEnd_iff sound).mpr unbounded)
  · intro bounded
    exact lookup_exact sound fun reads => (readsEnd_iff sound).mp reads bounded

/-- In every state that a buffer of any size reaches, and for every page and address space, the
lookup finds a valid entry that serves exactly when there is one and stays inside the multimap, if
and only if some entry serves, none is of the page, or one is of a page behind it. -/
theorem lookup_answers_iff {size : Nat} (nonempty : 1 ≤ size) (actions : List Action) :
    Always step (fun tlb => ∀ page asn, Answers tlb page asn ↔ Bounded tlb page asn) actions
      (TLB.init size) := by
  have preserves : ∀ tlb action tlb', Sound tlb → True → step tlb action = some tlb' → Sound tlb' :=
    fun _ _ _ sound _ stepped => sound.step stepped
  have always := always_of_preserved preserves actions (TLB.init size) (Sound.init nonempty)
    (fun _ _ _ _ _ _ _ _ => True.intro)
  intro before after reached split ran page asn
  exact answers_iff_bounded (always before after reached split ran)

theorem lookup_answers_iff_shared_page :
    Always step (fun tlb => ∀ page asn, Answers tlb page asn ↔ Bounded tlb page asn)
      [.insert 0x2000 TlbEntry.zero, .insert 0x2000 { TlbEntry.zero with asn := 1 },
        .lookup 1 1 0, .flushAddr 0x2000 1] (TLB.init 64) :=
  lookup_answers_iff (by decide) _

/-- One page is mapped for the address space 0. When the address space 1 looks it up, the walk
passes its entry and reads the end of the multimap. -/
theorem lookup_reads_end :
    ¬ Always step (fun tlb => ∀ page asn, Answers tlb page asn) [.insert 0x2000 TlbEntry.zero]
      (TLB.init 64) := by
  intro always
  have answers := always [.insert 0x2000 TlbEntry.zero] [] _ rfl rfl 1 1
  refine answers.inside ⟨by decide, (1, 0), [], by decide, by decide⟩

end GemFi.TlbLookup
