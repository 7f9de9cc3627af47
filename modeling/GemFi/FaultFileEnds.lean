import GemFi.FaultRoundTrip
import GemFi.Reloading

/-!
Reading the fault file: a round of getFromFile takes a word off the stream or leaves it no longer
good, so that the text by itself always comes to an end. Each object is inserted while it is
constructed. The insertions end as well where the memory that `new` returns holds null at `nxt`; a
pointer left there can close a circle in the queue, and the search for a later timing goes round in
it for ever.
-/

namespace GemFi.FaultFileEnds

open TokenStream TokenStream.InputStream ThreadInfo FaultQueue FaultQueue.FaultStore FaultScan
open FaultFile FaultRecords FaultRoundTrip LinkedLists QueueRepresentation QueueHistory Reloading

section Rounds

variable {asserts : Bool} {left : Nat → Leftovers} {fuel rounds : Nat} {check : String}
  {os : InputStream Char} {s : FaultStore}

theorem readFaults_not_good (rounds : Nat) (check : String) (os os' : InputStream Char)
    (created : List Creation)
    (returned : readFaults asserts left rounds check os = .ok (created, os')) :
    os'.good = false := by
  induction rounds generalizing check os created with
  | zero => cases returned
  | succ rounds ih =>
      cases good : os.good with
      | false =>
          rw [readFaults_bad asserts good] at returned
          cases returned
          exact good
      | true =>
          rw [readFaults_good asserts good] at returned
          obtain ⟨word, named, _, returned⟩ := Reader.bind_ok returned
          obtain ⟨fault, built, _, returned⟩ := Reader.bind_ok returned
          obtain ⟨others, last, rest, returned⟩ := Reader.bind_ok returned
          cases returned
          exact ih word built others rest

/-- How a loop that ends can end. -/
def Ends {α : Type} (outcome : Except Halt (α × InputStream Char)) : Prop :=
  (∃ a os, outcome = .ok (a, os) ∧ os.good = false) ∨
    outcome = .error .assertion ∨ outcome = .error .outOfRange

theorem ends_error {α : Type} {halt : Halt} (own : Genuine halt) :
    Ends (.error halt : Except Halt (α × InputStream Char)) := by
  cases halt with
  | assertion => exact Or.inr (Or.inl rfl)
  | outOfRange => exact Or.inr (Or.inr rfl)
  | outOfRounds => exact absurd rfl own

theorem readFaults_ends (rounds : Nat) (check : String) (os : InputStream Char)
    (enough : os.weight ≤ rounds) : Ends (readFaults asserts left rounds check os) := by
  have genuine : Halts (readFaults asserts left rounds check os) :=
    readFaults_halts asserts rounds check os enough
  cases outcome : readFaults asserts left rounds check os with
  | ok result =>
      obtain ⟨created, last⟩ := result
      exact Or.inl ⟨created, last, rfl, readFaults_not_good rounds check os last created outcome⟩
  | error halt => exact ends_error (genuine halt outcome)

/-- The loop of getFromFile with the insertions where they stand. `none` is an insertion that does not
come back. -/
def loadFaults (asserts : Bool) (left : Nat → Leftovers) (fuel : Nat) :
    Nat → String → InputStream Char → FaultStore →
      Option (Except Halt (FaultStore × InputStream Char))
  | 0, _, _, _ => some (.error .outOfRounds)
  | rounds + 1, check, os, s =>
      if os.good then
        match readString check os with
        | .error halt => some (.error halt)
        | .ok (check, os) =>
            match newFault asserts (left rounds) check os with
            | .error halt => some (.error halt)
            | .ok (created, os) =>
                (storeAll fuel created.toList s).bind (loadFaults asserts left fuel rounds check os)
      else some (.ok (s, os))

theorem loadFaults_bad (bad : os.good = false) :
    loadFaults asserts left fuel (rounds + 1) check os s = some (.ok (s, os)) := by
  rw [loadFaults, bad]
  rfl

theorem loadFaults_good {word : String} {named built : InputStream Char} {created : Option Creation}
    (good : os.good = true) (extracted : readString check os = .ok (word, named))
    (constructed : newFault asserts (left rounds) word named = .ok (created, built)) :
    loadFaults asserts left fuel (rounds + 1) check os s =
      (storeAll fuel created.toList s).bind (loadFaults asserts left fuel rounds word built) := by
  rw [loadFaults, if_pos good, extracted]
  dsimp only
  rw [constructed]

theorem storeAll_append (first second : List Creation) (s : FaultStore) :
    storeAll fuel (first ++ second) s = (storeAll fuel first s).bind (storeAll fuel second) :=
  List.foldlM_append

theorem readFaults_of_getFromFile {text : List Char} {created : List Creation}
    (returned : FaultFile.getFromFile asserts left text = .ok created) :
    ∃ os, readFaults asserts left (text.length + 2) "" (InputStream.start text) =
      .ok (created, os) := by
  unfold FaultFile.getFromFile at returned
  cases read : readFaults asserts left (text.length + 2) "" (InputStream.start text) with
  | error halt =>
      rw [read] at returned
      cases returned
  | ok result =>
      rw [read] at returned
      cases returned
      exact ⟨result.2, rfl⟩

theorem loadFaults_of_read (created : List Creation) (os' : InputStream Char)
    (returned : readFaults asserts left rounds check os = .ok (created, os')) :
    loadFaults asserts left fuel rounds check os s =
      (storeAll fuel created s).map fun s => .ok (s, os') := by
  induction rounds generalizing check os created s with
  | zero => cases returned
  | succ rounds ih =>
      cases good : os.good with
      | false =>
          rw [readFaults_bad asserts good] at returned
          cases returned
          exact loadFaults_bad good
      | true =>
          rw [readFaults_good asserts good] at returned
          obtain ⟨word, named, extracted, returned⟩ := Reader.bind_ok returned
          obtain ⟨fault, built, constructed, returned⟩ := Reader.bind_ok returned
          obtain ⟨others, last, rest, returned⟩ := Reader.bind_ok returned
          cases returned
          rw [loadFaults_good good extracted constructed, storeAll_append, Option.map_bind]
          exact congrArg (Option.bind _) (funext fun s => ih others rest)

end Rounds

/-! ## Insertions -/

section Insertions

def withPrv (g : FaultPtr → Option FaultPtr) (s : FaultStore) : FaultStore :=
  { s with mem := fun p => { s.mem p with prv := g p } }

variable {s s' t : FaultStore} {g : FaultPtr → Option FaultPtr} {f last before p : FaultPtr}
  {q : StageQueue} {target : Option FaultPtr} {nodes : List FaultPtr} {fuel : Nat}

theorem withPrv_write {change : InjectedFault → InjectedFault}
    (apart : ∀ fault x, change { fault with prv := x } = { change fault with prv := x }) :
    (withPrv g s).write f change = withPrv g (s.write f change) := by
  unfold withPrv write
  congr 1
  funext p
  dsimp only
  split
  · exact apart (s.mem p) (g p)
  · rfl

theorem withPrv_setNxt : (withPrv g s).setNxt f target = withPrv g (s.setNxt f target) :=
  withPrv_write fun _ _ => rfl

theorem withPrv_setQueue : (withPrv g s).setQueue f q = withPrv g (s.setQueue f q) :=
  withPrv_write fun _ _ => rfl

theorem withPrv_setPrv :
    (withPrv g s).setPrv f target = withPrv (Function.update g f target) (s.setPrv f target) := by
  unfold withPrv setPrv write
  congr 1
  funext p
  dsimp only
  by_cases same : p = f
  · subst p
    rw [if_pos rfl, if_pos rfl, Function.update_self]
  · rw [if_neg same, if_neg same, Function.update_of_ne same]

theorem withPrv_allocate (record : FaultRecord) :
    allocate record (withPrv g s) = withPrv g (allocate record s) :=
  have constructed : (withPrv g s).write s.fresh record.construct =
      withPrv g (s.write s.fresh record.construct) := withPrv_write fun _ _ => rfl
  congrArg (fun t : FaultStore => { t with fresh := s.fresh + 1 }) constructed

theorem withPrv_linkLast : (withPrv g s).linkLast q f last =
    withPrv (Function.update g f (some last)) (s.linkLast q f last) := by
  unfold linkLast
  rw [withPrv_setNxt, withPrv_setPrv]
  rfl

theorem withPrv_linkFirst : (withPrv g s).linkFirst q f p =
    withPrv (Function.update g p (some f)) (s.linkFirst q f p) := by
  unfold linkFirst
  rw [withPrv_setPrv, withPrv_setNxt]
  rfl

theorem withPrv_linkBetween : (withPrv g s).linkBetween f before p =
    withPrv (Function.update (Function.update g f (some before)) p (some f))
      (s.linkBetween f before p) := by
  unfold linkBetween
  rw [withPrv_setNxt, withPrv_setPrv, withPrv_setPrv, withPrv_setNxt]

/-- `insert` reads no backward link but that of a fault behind the head, so that other links elsewhere
make no difference. -/
theorem insert_withPrv (linked : Linked s.nxt g (s.head q) (s.tail q) nodes) (outside : f ∉ nodes)
    (read : ∀ p ∈ nodes, s.head q ≠ some p → s.prv p = g p)
    (returned : (withPrv g s).insert fuel q f = some t) :
    ∃ s' g', s.insert fuel q f = some s' ∧ t = withPrv g' s' ∧
      (∀ p, p ≠ f → p ∉ nodes → s'.prv p = s.prv p ∧ g' p = g p) ∧
      ∀ p ∈ f :: nodes, s'.head q ≠ some p → s'.prv p = g' p := by
  by_cases vacant : s.empty q = true
  · have vacant' : (withPrv g s).empty q = true := vacant
    simp only [FaultStore.insert, setQueue_empty, vacant', if_true, Option.some.injEq] at returned
    simp only [FaultStore.insert, setQueue_empty, vacant, if_true]
    refine ⟨_, Function.update g f none, rfl, ?_, ?_, ?_⟩
    · rw [← returned, withPrv_setQueue, ← withPrv_setPrv, ← withPrv_setNxt]
      rfl
    · intro p other _
      simp [other]
    · intro p member notHead
      have nothing := (empty_linked_iff (s := withPrv g s) linked).mp vacant
      rw [nothing, List.mem_singleton] at member
      subst p
      simp
  · have vacant' : ¬ (withPrv g s).empty q = true := vacant
    simp only [FaultStore.insert, setQueue_empty, vacant', setQueue_nxt, setQueue_timing,
      setQueue_head, setQueue_tail, setQueue_prv] at returned
    simp only [FaultStore.insert, setQueue_empty, vacant, setQueue_nxt, setQueue_timing,
      setQueue_head, setQueue_tail, setQueue_prv]
    obtain ⟨found, searched, returned⟩ := Option.bind_eq_some_iff.mp returned
    have searched : walk s.nxt (fun p => !decide (s.timing p < s.timing f)) fuel (s.head q) =
        some found := searched
    have place := walk_eq_find _ nodes fuel found linked.forward searched
    simp only [searched]
    cases found with
    | none =>
        obtain ⟨last, atTail, result⟩ := Option.bind_eq_some_iff.mp returned
        have atTail : s.tail q = some last := atTail
        cases result
        refine ⟨_, Function.update g f (some last), by simp [atTail]; rfl, ?_, ?_, ?_⟩
        · rw [withPrv_setQueue, withPrv_linkLast]
        · intro p other _
          simp [linkLast, other]
        · intro p member notHead
          by_cases new : p = f
          · subst p
            simp [linkLast]
          · have old := (List.mem_cons.mp member).resolve_left new
            have kept : s.prv p = g p := read p old (by simpa [linkLast] using notHead)
            simpa [linkLast, new] using kept
    | some next =>
        have inside : next ∈ nodes := List.mem_of_find?_eq_some place.symm
        have apart : next ≠ f := fun same => outside (same ▸ inside)
        by_cases atHead : s.head q = some next
        · have atHead' : (withPrv g s).head q = some next := atHead
          simp only [atHead', if_true, Option.some.injEq] at returned
          refine ⟨_, Function.update g next (some f), if_pos atHead, ?_, ?_, ?_⟩
          · rw [← returned, withPrv_setQueue, withPrv_linkFirst]
          · intro p other notInside
            have otherNext : p ≠ next := fun same => notInside (same ▸ inside)
            simp [linkFirst, otherNext]
          · intro p member notHead
            have other : p ≠ f := fun same => notHead (by simp [linkFirst, same])
            by_cases wasHead : p = next
            · subst p
              simp [linkFirst]
            · have old := (List.mem_cons.mp member).resolve_left other
              have kept : s.prv p = g p := read p old (by
                rw [atHead]
                exact fun same => wasHead (Option.some.inj same).symm)
              simpa [linkFirst, wasHead] using kept
        · have atHead' : ¬ (withPrv g s).head q = some next := atHead
          simp only [atHead', if_false] at returned
          obtain ⟨before, previous, result⟩ := Option.bind_eq_some_iff.mp returned
          have previous : s.prv next = some before := (read next inside atHead).trans previous
          cases result
          refine ⟨_, Function.update (Function.update g f (some before)) next (some f),
            (if_neg atHead).trans (Option.bind_eq_some_iff.mpr ⟨before, previous, rfl⟩), ?_, ?_, ?_⟩
          · rw [withPrv_setQueue, withPrv_linkBetween]
          · intro p other notInside
            have otherNext : p ≠ next := fun same => notInside (same ▸ inside)
            simp [linkBetween, other, otherNext]
          · intro p member notHead
            by_cases isNext : p = next
            · subst p
              simp [linkBetween]
            · by_cases new : p = f
              · subst p
                simp [linkBetween, isNext]
              · have old := (List.mem_cons.mp member).resolve_left new
                have kept : s.prv p = g p := read p old (by simpa [linkBetween] using notHead)
                simpa [linkBetween, isNext, new] using kept

variable {lists : StageQueue → List FaultPtr} {record : FaultRecord}

/-- Queues into which every new object can be inserted. A fault at the front keeps whatever memory
held at its `prv`, so only the backward links behind the heads are those of the lists. -/
structure Receptive (s : FaultStore) (g : FaultPtr → Option FaultPtr)
    (lists : StageQueue → List FaultPtr) : Prop where
  held : Represents (withPrv g s) lists
  read : ∀ q, ∀ p ∈ lists q, s.head q ≠ some p → s.prv p = g p
  older : ∀ q, ∀ p ∈ lists q, p < s.fresh
  clear : ∀ p, s.fresh < p → s.nxt p = none
  first : ∀ q, lists q ≠ [] → s.nxt s.fresh = none

theorem empty_receptive (vacant : ∀ q, s.empty q = true)
    (clear : ∀ p, s.fresh < p → s.nxt p = none) : Receptive s s.prv (fun _ => []) := by
  have ends : ∀ q, s.head q = none ∧ s.tail q = none := fun q => (empty_iff s q).mp (vacant q)
  refine ⟨⟨fun q => ⟨(ends q).1, (ends q).2⟩, ?_, ?_⟩, ?_, ?_, clear, ?_⟩ <;> simp

theorem Receptive.newest (receptive : Receptive s g lists) (q : StageQueue) :
    s.fresh ∉ lists q :=
  fun member => Nat.lt_irrefl _ (receptive.older q _ member)

theorem allocate_nxt (record : FaultRecord) (p : FaultPtr) :
    (allocate record s).nxt p = s.nxt p := by
  rw [FaultStore.nxt]
  by_cases new : p = s.fresh
  · subst new
    rw [allocate_new]
    rfl
  · rw [allocate_other record new]
    rfl

/-- The constructor leaves the links of its object to `insert`. -/
theorem Receptive.allocated (receptive : Receptive s g lists) (record : FaultRecord) :
    Receptive (allocate record s) g lists where
  held := by
    rw [← withPrv_allocate]
    refine receptive.held.congr rfl (fun q p member => ?_)
    have other : p ≠ (withPrv g s).fresh := Nat.ne_of_lt (receptive.older q p member)
    rw [FaultStore.nxt, FaultStore.prv, FaultStore.owner, allocate_other record other]
    exact ⟨rfl, rfl, rfl⟩
  read q p member notHead := by
    have other : p ≠ s.fresh := Nat.ne_of_lt (receptive.older q p member)
    rw [FaultStore.prv, allocate_other record other]
    exact receptive.read q p member notHead
  older q p member := Nat.lt_succ_of_lt (receptive.older q p member)
  clear p above := (allocate_nxt record p).trans (receptive.clear p (Nat.lt_of_succ_lt above))
  first _ _ := (allocate_nxt record _).trans (receptive.clear _ (Nat.lt_succ_self _))

/-- One object goes into its queue, and no other queue changes. -/
theorem Receptive.inserted (receptive : Receptive s g lists) (record : FaultRecord) (q : StageQueue)
    (enough : (lists q).length < fuel) :
    ∃ s' g' nodes, (allocate record s).insert fuel q s.fresh = some s' ∧
      Receptive s' g' (Function.update lists q nodes) ∧ nodes.length = (lists q).length + 1 := by
  -- `g` is free at the new object, so let it hold the null that `insert` may not write there
  let g₀ := Function.update g s.fresh none
  let t := allocate record s
  have allocated := receptive.allocated record
  have held : Represents (withPrv g₀ t) lists := by
    refine allocated.held.congr rfl (fun r p member => ⟨rfl, ?_, rfl⟩)
    have other : p ≠ s.fresh := fun same => receptive.newest r (same ▸ member)
    exact Function.update_of_ne other _ _
  have cleared : LinksCleared (withPrv g₀ t) q (lists q) s.fresh :=
    ⟨fun occupied _ => (allocate_nxt record _).trans (receptive.first q occupied),
      fun _ _ _ => Function.update_self _ _ _⟩
  have read : ∀ p ∈ lists q, t.head q ≠ some p → t.prv p = g₀ p := by
    intro p member notHead
    have other : p ≠ s.fresh := fun same => receptive.newest q (same ▸ member)
    exact (allocated.read q p member notHead).trans (Function.update_of_ne other _ _).symm
  obtain ⟨u, returned⟩ := insert_returns (held.linked q) enough
  obtain ⟨s', g', stored, rfl, elsewhere, behindHead⟩ :=
    insert_withPrv (s := t) (g := g₀) (held.linked q) (receptive.newest q) read returned
  have effect := insert_effect (held.linked q) (receptive.newest q) cleared returned
  have grown : s'.fresh = s.fresh + 1 := (FaultStore.insert_frame stored).2.1
  have perm := inserted_perm (withPrv g₀ t) s.fresh (lists q)
  refine ⟨s', g', _, stored, ⟨insert_represents held receptive.newest cleared returned,
    ?_, ?_, ?_, ?_⟩, perm.length_eq⟩
  · intro r p member notHead
    by_cases same : r = q
    · subst r
      rw [Function.update_self, perm.mem_iff] at member
      exact behindHead p member notHead
    · rw [Function.update_of_ne same] at member
      have other : p ≠ s.fresh := fun new => receptive.newest r (new ▸ member)
      have outside : p ∉ lists q := fun inside => same (held.apart r q p member inside)
      have sameHead : s'.head r = t.head r := (effect.head r).trans (if_neg same)
      obtain ⟨kept, keptG⟩ := elsewhere p other outside
      rw [kept, keptG, allocated.read r p member (sameHead ▸ notHead)]
      exact (Function.update_of_ne other _ _).symm
  · intro r p member
    rw [grown]
    rcases mem_update_added perm receptive.newest r p member with ⟨rfl, _⟩ | ⟨_, old⟩
    · exact Nat.lt_succ_self _
    · exact Nat.lt_succ_of_lt (receptive.older r p old)
  all_goals
    have ahead : ∀ p, s.fresh < p → s'.nxt p = none := by
      intro p above
      have outside : p ∉ lists q := fun inside => Nat.lt_asymm above (receptive.older q p inside)
      have untouched := inserted_untouched effect returned (Nat.ne_of_gt above) outside
      have kept : (withPrv g' s').nxt p = (withPrv g₀ t).nxt p := congrArg _ untouched
      exact (kept.trans (allocate_nxt record p)).trans (receptive.clear p above)
  · intro p above
    rw [grown] at above
    exact ahead p (Nat.lt_of_succ_lt above)
  · intro _ _
    rw [grown]
    exact ahead _ (Nat.lt_succ_self _)

/-- Storing what a round constructed succeeds, and no queue grows by more than that object. -/
theorem Receptive.stores (receptive : Receptive s g lists) (created : Option Creation)
    (enough : ∀ q, (lists q).length < fuel) :
    ∃ s' g' lists', storeAll fuel created.toList s = some s' ∧ Receptive s' g' lists' ∧
      ∀ q, (lists' q).length ≤ (lists q).length + 1 := by
  cases created with
  | none => exact ⟨s, g, lists, rfl, receptive, fun q => Nat.le_succ _⟩
  | some c =>
      have one : storeAll fuel (some c).toList s = c.store fuel s :=
        Option.bind_fun_some (c.store fuel s)
      rw [one, Creation.store]
      cases c.queue with
      | none => exact ⟨_, g, lists, rfl, receptive.allocated _, fun q => Nat.le_succ _⟩
      | some q =>
          obtain ⟨s', g', nodes, stored, receptive', longer⟩ := receptive.inserted
            (c.fault.record (c.faultType.getD (s.mem s.fresh).faultType)) q (enough q)
          refine ⟨s', g', _, stored, receptive', fun r => ?_⟩
          by_cases same : r = q
          · subst same
            rw [Function.update_self, longer]
          · rw [Function.update_of_ne same]
            exact Nat.le_succ _

theorem Receptive.loadFaults_ends {asserts : Bool} {left : Nat → Leftovers}
    (receptive : Receptive s g lists) (rounds : Nat) (check : String) (os : InputStream Char)
    (enough : os.weight ≤ rounds) (room : ∀ q, (lists q).length + rounds ≤ fuel) :
    ∃ outcome, loadFaults asserts left fuel rounds check os s = some outcome ∧ Ends outcome := by
  induction rounds generalizing check os s g lists with
  | zero =>
      have positive := os.weight_pos
      omega
  | succ rounds ih =>
      cases good : os.good with
      | false => exact ⟨_, loadFaults_bad good, Or.inl ⟨s, os, rfl, good⟩⟩
      | true =>
          rw [loadFaults, if_pos good]
          cases extracted : readString check os with
          | error halt => exact ⟨_, rfl, ends_error ((readString_within check).error os halt extracted)⟩
          | ok read =>
              obtain ⟨word, named⟩ := read
              dsimp only
              cases constructed : newFault asserts (left rounds) word named with
              | error halt =>
                  exact ⟨_, rfl, ends_error
                    ((newFault_within asserts (left rounds) word).error named halt constructed)⟩
              | ok created =>
                  obtain ⟨created, built⟩ := created
                  -- the name took something off the stream or broke it
                  have shorter := readString_weight_lt good extracted
                  have kept := (newFault_within asserts (left rounds) word).weight_le _ _ _ constructed
                  have shortest : ∀ q, (lists q).length < fuel := fun q => by
                    have least := room q
                    omega
                  obtain ⟨s', g', lists', stored, receptive', grown⟩ :=
                    receptive.stores created shortest
                  have roomLeft : ∀ q, (lists' q).length + rounds ≤ fuel := fun q => by
                    have least := room q
                    have most := grown q
                    omega
                  dsimp only
                  rw [stored, Option.bind_some]
                  exact ih receptive' word built (by omega) roomLeft

end Insertions

/-! ## Circles -/

section Circles

variable {s₀ s s' : FaultStore} {p f h : FaultPtr} {q : StageQueue} {fuel : Nat}
  {record : FaultRecord}

theorem insert_vacant (vacant : s.empty q = true) (returned : s.insert fuel q f = some s') :
    s' = (((s.setQueue f q).setEnds q ⟨some f, some f⟩).setNxt f none).setPrv f none := by
  simp only [FaultStore.insert, setQueue_empty, vacant, if_true, Option.some.injEq] at returned
  exact returned.symm

theorem insert_occupied (atHead : s.head q = some h) :
    s.insert fuel q f =
      (walk s.nxt (fun p => !decide (s.timing p < s.timing f)) fuel (some h)).bind fun found =>
        match found with
        | none => (s.tail q).bind fun last => some ((s.setQueue f q).linkLast q f last)
        | some p =>
            if h = p then some ((s.setQueue f q).linkFirst q f p)
            else (s.prv p).bind fun before => some ((s.setQueue f q).linkBetween f before p) := by
  have vacant : ¬ s.empty q = true := by simp [FaultStore.empty, atHead]
  simp only [FaultStore.insert, setQueue_empty, vacant, setQueue_nxt, setQueue_timing,
    setQueue_head, setQueue_tail, setQueue_prv, atHead, Option.some.injEq]
  rfl

theorem insert_front (atHead : s.head q = some h) (late : ¬ s.timing h < s.timing f)
    (returned : s.insert fuel q f = some s') : s' = (s.setQueue f q).linkFirst q f h := by
  rw [insert_occupied atHead] at returned
  cases fuel with
  | zero => cases returned
  | succ fuel =>
      simp only [walk, late, decide_false, Bool.not_false, if_true, Option.bind_some,
        Option.some.injEq] at returned
      exact returned.symm

def timedLine (timing : Fin 3) : FaultLine :=
  -- a line for an object that is due at `timing`
  { fetchLine with timing := ⟨timing, Nat.lt_trans timing.isLt (by decide)⟩ }

theorem timedLine_record {timing : Fin 3} (read : RecordOf (timedLine timing) record) :
    stageOf record.faultType = .fetchStage ∧ record.timing = BitVec.ofNat 64 timing := by
  obtain ⟨memory, rfl⟩ := read
  exact ⟨rfl, rfl⟩

/-- Lines for the objects from `f` on. Each goes to the front of its queue, but for the object at
`p`, which goes behind all others; the place of the last is searched for among all of them. -/
def circlingLines (p : FaultPtr) : Nat → FaultPtr → List FaultLine
  | 0, _ => [timedLine 2]
  | n + 1, f => timedLine (if f = p then 1 else 0) :: circlingLines p n (f + 1)

/-- The objects from `first` up to `n` lead to one another, but for the first of them as long as there
is none at `p`. The object at `p` leads where its memory did. -/
structure Circling (first p n : Nat) (stale : Option FaultPtr) (s : FaultStore) : Prop where
  fresh : s.fresh = n
  head : ∃ h : Nat, s.head .fetchStage = some h ∧ first ≤ h ∧ h < n
  tail : n ≤ p → s.tail .fetchStage = some first
  early : ∀ k : Nat, first ≤ k → k < n → s.timing k < if n ≤ p then 1 else 2
  link : ∀ k : Nat, first ≤ k → k < n → k ≠ p →
    (∃ j : Nat, s.nxt k = some j ∧ first ≤ j ∧ j < n) ∨ (s.nxt k = none ∧ k = first ∧ n ≤ p)
  own : s.nxt p = stale

variable {first n : Nat} {p : Nat} {stale : Option FaultPtr}

theorem allocate_old_timing (record : FaultRecord) {k : FaultPtr} (other : k ≠ s.fresh) :
    (allocate record s).timing k = s.timing k := by
  rw [FaultStore.timing, allocate_other record other]
  rfl

theorem load_fresh (returned : load fuel record s = some s') (newest : s.fresh = n) :
    s'.fresh = n + 1 := by
  rw [← newest]
  exact (FaultStore.insert_frame returned).2.1

theorem load_timing (returned : load fuel record s = some s') (newest : s.fresh = n) (k : Nat) :
    s'.timing k = if k = n then record.timing else s.timing k := by
  have data : s'.data k = (allocate record s).data k :=
    congrFun (FaultStore.insert_frame returned).1 k
  have same := congrArg InjectedFault.timing data
  change s'.timing k = (allocate record s).timing k at same
  rw [same, ← newest]
  split
  · next new => rw [new, allocate_timing]
  · next other => exact allocate_old_timing record other

theorem start_circling (vacant : s₀.empty .fetchStage = true) (newest : s₀.fresh = first)
    (ahead : first < p) (stage : stageOf record.faultType = .fetchStage)
    (now : record.timing = 0) (returned : load fuel record s₀ = some s) :
    Circling first p (first + 1) (s₀.nxt p) s := by
  have timing := load_timing returned newest
  have fresh := load_fresh returned newest
  rw [load, stage, newest] at returned
  have written := insert_vacant (s := allocate record s₀) vacant returned
  have only : ∀ k, first ≤ k → k < first + 1 → k = first := by omega
  refine ⟨fresh, ⟨first, ?_, Nat.le_refl _, Nat.lt_succ_self _⟩, ?_, ?_, ?_, ?_⟩
  · rw [written]
    simp
  · intro _
    rw [written]
    simp
  · intro k old new
    rw [timing, if_pos (only k old new), now, if_pos (show first + 1 ≤ p from ahead)]
    decide
  · intro k old new _
    refine Or.inr ⟨?_, only k old new, ahead⟩
    rw [written, only k old new]
    simp
  · rw [written]
    simp [Nat.ne_of_gt ahead, allocate_nxt]

/-- An object that is due at once goes to the front. -/
theorem Circling.front (circling : Circling first p n stale s) (other : n ≠ p)
    (stage : stageOf record.faultType = .fetchStage) (now : record.timing = 0)
    (returned : load fuel record s = some s') : Circling first p (n + 1) stale s' := by
  have timing := load_timing returned circling.fresh
  have fresh := load_fresh returned circling.fresh
  obtain ⟨h, atHead, older, newer⟩ := circling.head
  have late : ¬ (allocate record s).timing h < (allocate record s).timing s.fresh := by
    rw [allocate_timing, now]
    exact BitVec.not_lt_zero
  rw [load, stage] at returned
  have written := insert_front (s := allocate record s) atHead late returned
  rw [circling.fresh] at written
  have nxt : ∀ k : Nat, s'.nxt k = if k = n then some h else s.nxt k := by
    intro k
    rw [written]
    simp [linkFirst, allocate_nxt]
  have side : n + 1 ≤ p ↔ n ≤ p := by omega
  refine ⟨fresh, ⟨n, ?_, by omega, Nat.lt_succ_self n⟩, ?_, ?_, ?_, ?_⟩
  · rw [written]
    simp [linkFirst]
  · intro before
    have kept : s'.tail .fetchStage = s.tail .fetchStage := by
      rw [written]
      simp [linkFirst]
      rfl
    rw [kept]
    exact circling.tail (side.mp before)
  · intro k old new
    rw [timing]
    simp only [side]
    split
    · rw [now]
      split <;> decide
    · next isOld => exact circling.early k old (by omega)
  · intro k old new notP
    rw [nxt, side]
    split
    · exact Or.inl ⟨h, rfl, older, by omega⟩
    · next isOld =>
        obtain ⟨j, linked, inside, below⟩ | dangling := circling.link k old (by omega) notP
        · exact Or.inl ⟨j, linked, inside, by omega⟩
        · exact Or.inr dangling
  · rw [nxt, if_neg (Ne.symm other)]
    exact circling.own

/-- The object at `p` goes behind all others and keeps what its memory held at `nxt`. -/
theorem Circling.back (circling : Circling first p p stale s)
    (stage : stageOf record.faultType = .fetchStage) (later : record.timing = 1)
    (returned : load fuel record s = some s') : Circling first p (p + 1) stale s' := by
  have timing := load_timing returned circling.fresh
  have fresh := load_fresh returned circling.fresh
  obtain ⟨h, atHead, older, newer⟩ := circling.head
  have early : ∀ k, first ≤ k → k < p → s.timing k < 1 := by
    intro k old new
    have bound := circling.early k old new
    rwa [if_pos (Nat.le_refl p)] at bound
  rw [load, stage, insert_occupied (s := allocate record s) atHead, circling.fresh] at returned
  obtain ⟨found, searched, returned⟩ := Option.bind_eq_some_iff.mp returned
  have nothing : found = none := by
    refine walk_misses (P := fun k : Nat => first ≤ k ∧ k < p) _ _ _ ?_ ?_ ?_ searched
    · rintro k ⟨old, new⟩
      have below := early k old new
      have other : k ≠ s.fresh := circling.fresh ▸ Nat.ne_of_lt new
      rw [← circling.fresh, allocate_timing, allocate_old_timing record other, later,
        decide_eq_true below]
      rfl
    · rintro k next ⟨old, new⟩ linked
      rw [allocate_nxt] at linked
      obtain ⟨j, isNext, inside⟩ | ⟨dangling, _⟩ := circling.link k old new (Nat.ne_of_lt new)
      · rw [linked] at isNext
        cases isNext
        exact inside
      · rw [linked] at dangling
        cases dangling
    · rintro k isFirst
      cases isFirst
      exact ⟨older, newer⟩
  subst found
  obtain ⟨last, atTail, written⟩ := Option.bind_eq_some_iff.mp returned
  have isFirst : last = first := Option.some.inj (atTail.symm.trans (circling.tail (Nat.le_refl p)))
  subst last
  have written := (Option.some.inj written).symm
  have nxt : ∀ k : Nat, s'.nxt k = if k = first then some p else s.nxt k := by
    intro k
    rw [written]
    simp [linkLast, allocate_nxt]
  refine ⟨fresh, ⟨h, ?_, older, by omega⟩, ?_, ?_, ?_, ?_⟩
  · have kept : s'.head .fetchStage = s.head .fetchStage := by
      rw [written]
      simp [linkLast]
      rfl
    exact kept.trans atHead
  · intro before
    omega
  · intro k old new
    rw [timing, if_neg (Nat.not_succ_le_self p)]
    split
    · rw [later]
      decide
    · next isOld =>
        have below := early k old (by omega)
        rw [BitVec.lt_def] at below ⊢
        exact Nat.lt_trans below (by decide)
  · intro k old new notP
    rw [nxt]
    split
    · exact Or.inl ⟨p, rfl, by omega, by omega⟩
    · next other =>
        obtain ⟨j, linked, inside, below⟩ | ⟨_, same, _⟩ := circling.link k old (by omega) notP
        · exact Or.inl ⟨j, linked, inside, by omega⟩
        · exact absurd same other
  · rw [nxt, if_neg (show p ≠ first by omega)]
    exact circling.own

/-- With `p` and what it leads to among the objects, the search for the last place passes only faults
that are earlier, and never runs out of them. -/
theorem Circling.endless {x : Nat} (circling : Circling first p n (some x) s)
    (placed : p < n) (inside : first ≤ x) (below : x < n)
    (stage : stageOf record.faultType = .fetchStage) (last : record.timing = 2) :
    load fuel record s = none := by
  obtain ⟨h, atHead, older, newer⟩ := circling.head
  rw [load, stage, insert_occupied (s := allocate record s) atHead, circling.fresh]
  refine Option.bind_eq_none_iff.mpr fun found searched => ?_
  rw [walk_endless (P := fun k : Nat => first ≤ k ∧ k < n) _ _ h ?_ ?_ ⟨older, newer⟩] at searched
  · cases searched
  · rintro k ⟨old, new⟩
    have early := circling.early k old new
    have other : k ≠ s.fresh := circling.fresh ▸ Nat.ne_of_lt new
    rw [if_neg (Nat.not_le_of_gt placed)] at early
    rw [← circling.fresh, allocate_timing, allocate_old_timing record other, last,
      decide_eq_true early]
    rfl
  · rintro k ⟨old, new⟩
    rw [allocate_nxt]
    by_cases isP : k = p
    · subst k
      exact ⟨x, circling.own, inside, below⟩
    · obtain linked | ⟨_, _, before⟩ := circling.link k old new isP
      · exact linked
      · omega

/-- By induction on the lines: each stays in the circle, and the last does not come back. -/
theorem Circling.never {x : Nat} (inside : first ≤ x) (m : Nat)
    (records : List FaultRecord) (circling : Circling first p n (some x) s) (placed : p < n + m)
    (below : x < n + m) (read : List.Forall₂ RecordOf (circlingLines p m n) records) :
    Activation.getFromFile fuel records s = none := by
  induction m generalizing n s records with
  | zero =>
      obtain ⟨record, rest, made, _, rfl⟩ := List.forall₂_cons_left_iff.mp read
      obtain ⟨stage, last⟩ := timedLine_record made
      rw [Activation.getFromFile, circling.endless placed inside below stage last]
      rfl
  | succ m ih =>
      obtain ⟨record, rest, made, others, rfl⟩ := List.forall₂_cons_left_iff.mp read
      obtain ⟨stage, timing⟩ := timedLine_record made
      rw [Activation.getFromFile]
      refine Option.bind_eq_none_iff.mpr fun next returned => ?_
      have circling' : Circling first p (n + 1) (some x) next := by
        by_cases here : n = p
        · subst n
          rw [if_pos rfl] at timing
          exact circling.back stage timing returned
        · rw [if_neg here] at timing
          exact circling.front here stage timing returned
      exact ih rest circling' (by omega) (by omega) others

def circlingText (first p m : Nat) : List Char :=
  -- the file of such lines, for a first object at `first`
  (timedLine 0).text ++ FaultRoundTrip.behind (circlingLines p m (first + 1)) []

theorem circlingText_endless (asserts : Bool) (left : Nat → Leftovers) {x : Nat} (m : Nat)
    (vacant : s.empty .fetchStage = true) (newest : s.fresh = first) (ahead : first < p)
    (stale : s.nxt p = some x) (inside : first ≤ x) (placed : p ≤ first + m)
    (below : x ≤ first + m) (fuel : Nat) :
    loadFaults asserts left fuel ((circlingText first p m).length + 2) ""
      (InputStream.start (circlingText first p m)) s = none := by
  obtain ⟨created, read, returned⟩ :=
    getFromFile_unterminated asserts left (timedLine 0) (circlingLines p m (first + 1))
  obtain ⟨last, readAll⟩ := readFaults_of_getFromFile returned
  obtain ⟨records, made, stored⟩ := @storeAll_records fuel _ _ read
  obtain ⟨record, rest, isFirst, others, rfl⟩ := List.forall₂_cons_left_iff.mp made
  obtain ⟨stage, now⟩ := timedLine_record isFirst
  rw [circlingText, loadFaults_of_read created last readAll, stored, Activation.getFromFile]
  refine Option.map_eq_none_iff.mpr (Option.bind_eq_none_iff.mpr fun next loaded => ?_)
  have circling := start_circling vacant newest ahead stage now loaded
  rw [stale] at circling
  exact Circling.never inside m rest circling (by omega) (by omega) others

end Circles

section Termination

def ReadsToEnd (asserts : Bool) (left : Nat → Leftovers) (text : List Char) (s : FaultStore) :
    Prop :=
  -- with every search for a place given enough tests, the loop that reads `text` comes back
  ∃ enough, ∀ fuel ≥ enough, ∃ outcome,
    loadFaults asserts left fuel (text.length + 2) "" (InputStream.start text) s = some outcome ∧
      Ends outcome

def NewLinksClear (s : FaultStore) : Prop := ∀ p, s.fresh < p → s.nxt p = none

theorem clear_reads (asserts : Bool) (left : Nat → Leftovers) (s : FaultStore)
    (vacant : ∀ q, s.empty q = true) (clear : NewLinksClear s) (text : List Char) :
    ReadsToEnd asserts left text s := by
  refine ⟨text.length + 2, fun fuel enough => ?_⟩
  refine (empty_receptive vacant clear).loadFaults_ends _ _ _ (Nat.le_refl _) fun q => ?_
  rw [List.length_nil, Nat.zero_add]
  exact enough

/-- A pointer left in that memory, to an object of the file, is enough for a file to be read for
ever. -/
theorem stale_circles (asserts : Bool) (left : Nat → Leftovers) (s : FaultStore)
    (vacant : ∀ q, s.empty q = true) (p x : Nat) (ahead : s.fresh < p) (inside : s.fresh ≤ x)
    (stale : s.nxt p = some x) : ∃ text, ¬ ReadsToEnd asserts left text s := by
  refine ⟨circlingText s.fresh p (max p x), ?_⟩
  rintro ⟨enough, reads⟩
  obtain ⟨outcome, returned, _⟩ := reads enough (Nat.le_refl _)
  rw [circlingText_endless asserts left (max p x) (vacant _) rfl ahead stale inside
    (Nat.le_trans (Nat.le_max_left p x) (Nat.le_add_left _ _))
    (Nat.le_trans (Nat.le_max_right p x) (Nat.le_add_left _ _))] at returned
  cases returned

/-- The characters of every file are read within a bound on the rounds. With the insertions of the
constructors, every file is read to its end where the memory that `new` returns holds null at `nxt`,
and only there as long as what it holds does not lead to objects older than the file's. -/
theorem getFromFile_terminates_iff (asserts : Bool) (left : Nat → Leftovers) (s : FaultStore)
    (vacant : ∀ q, s.empty q = true) :
    (∀ text rounds, text.length + 2 ≤ rounds →
      Ends (readFaults asserts left rounds "" (InputStream.start text))) ∧
    (NewLinksClear s → ∀ text, ReadsToEnd asserts left text s) ∧
    ((∀ p x, s.fresh < p → s.nxt p = some x → s.fresh ≤ x) →
      ((∀ text, ReadsToEnd asserts left text s) ↔ NewLinksClear s)) := by
  refine ⟨fun text rounds => readFaults_ends rounds "" (InputStream.start text),
    clear_reads asserts left s vacant, fun fromNew => ⟨fun reads p ahead => ?_,
      clear_reads asserts left s vacant⟩⟩
  cases stale : s.nxt p with
  | none => rfl
  | some x =>
      obtain ⟨text, endless⟩ :=
        stale_circles asserts left s vacant p x ahead (fromNew p x ahead stale) stale
      exact absurd (reads text) endless

/-- A pointer where the first of three objects is constructed does no harm: the object goes into an
empty queue. -/
theorem first_link_is_overwritten :
    ReadsToEnd true (fun _ => zeroed) (circlingText 0 1 1) (clearMemory.setNxt 0 (some 0)) := by
  have clear : NewLinksClear (clearMemory.setNxt 0 (some 0)) := by
    intro p ahead
    exact (setNxt_nxt clearMemory 0 p (some 0)).trans (if_neg (Nat.ne_of_gt ahead))
  have fromNew : ∀ p x, (clearMemory.setNxt 0 (some 0)).fresh < p →
      (clearMemory.setNxt 0 (some 0)).nxt p = some x → (clearMemory.setNxt 0 (some 0)).fresh ≤ x :=
    fun _ x _ _ => Nat.zero_le x
  exact ((getFromFile_terminates_iff true (fun _ => zeroed) (clearMemory.setNxt 0 (some 0))
    fun _ => rfl).2.2 fromNew).mpr clear _

/-- The second object is constructed where memory holds a pointer to that very place, and goes
behind the first. The search for the place of the third stays at the second for ever. -/
theorem stale_link_never_ends :
    circlingText 0 1 1 =
        ("GeneralFetchInjectedFault Inst:0 Flip:1 all all 1 0" ++ "\n" ++
          "GeneralFetchInjectedFault Inst:1 Flip:1 all all 1 0" ++ "\n" ++
          "GeneralFetchInjectedFault Inst:2 Flip:1 all all 1 0").toList ∧
      (∀ fuel, loadFaults true (fun _ => zeroed) fuel ((circlingText 0 1 1).length + 2) ""
        (InputStream.start (circlingText 0 1 1)) (clearMemory.setNxt 1 (some 1)) = none) ∧
      ¬ ∀ text, ReadsToEnd true (fun _ => zeroed) text (clearMemory.setNxt 1 (some 1)) := by
  have start : (clearMemory.setNxt 1 (some 1)).fresh = 0 := rfl
  have endless := circlingText_endless true (fun _ => zeroed) 1 rfl start Nat.zero_lt_one rfl
    (Nat.zero_le 1) (Nat.le_refl 1) (Nat.le_refl 1)
  refine ⟨?_, endless, fun reads => ?_⟩
  · have zero : "GeneralFetchInjectedFault Inst:0 Flip:1 all all 1 0".toList = (timedLine 0).text := by
      decide
    have one :
        "GeneralFetchInjectedFault Inst:1 Flip:1 all all 1 0".toList = (timedLine 1).text := by
      decide
    have two :
        "GeneralFetchInjectedFault Inst:2 Flip:1 all all 1 0".toList = (timedLine 2).text := by
      decide
    simp only [String.toList_append, zero, one, two]
    simp [circlingText, circlingLines, FaultRoundTrip.behind]
  obtain ⟨enough, reads⟩ := reads (circlingText 0 1 1)
  obtain ⟨outcome, returned, _⟩ := reads enough (Nat.le_refl _)
  rw [endless] at returned
  cases returned

end Termination

end GemFi.FaultFileEnds
