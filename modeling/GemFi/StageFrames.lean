import GemFi.Calls
import GemFi.QueueRepresentation

/-!
The hook of one stage and the queues of the others. A scan or a fired fault
writes to members of its own queue only, so what the other queues hold, and
every fault outside the queue, stays as it is.
-/

namespace GemFi.StageFrames

open LinkedLists ThreadInfo FaultQueue QueueRepresentation Corruption FaultScan Activation
open Activation.FiSystem Hooks Calls

variable {fuel : Nat} {q : StageQueue} {s s' s'' : FaultStore}
  {lists lists' lists'' : StageQueue → List FaultPtr}

theorem mem_eq_of_data {p : FaultPtr} (data : s'.data p = s.data p) (nxt : s'.nxt p = s.nxt p)
    (prv : s'.prv p = s.prv p) (owner : s'.owner p = s.owner p) : s'.mem p = s.mem p := by
  have rebuilt : ∀ t : FaultStore, t.mem p =
      { t.data p with nxt := t.nxt p, prv := t.prv p, queue := t.owner p } := fun _ => rfl
  rw [rebuilt s', rebuilt s, data, nxt, prv, owner]

structure Within (q : StageQueue) (s : FaultStore) (lists : StageQueue → List FaultPtr)
    (s' : FaultStore) (lists' : StageQueue → List FaultPtr) : Prop where
  -- from `s` to `s'` only queue `q` was worked on: it may have lost faults
  held : Represents s' lists'
  others : ∀ r, r ≠ q → lists' r = lists r
  fewer : ∀ p ∈ lists' q, p ∈ lists q
  untouched : ∀ p, p ∉ lists q → s'.mem p = s.mem p

theorem Within.refl (held : Represents s lists) : Within q s lists s lists :=
  ⟨held, fun _ _ => rfl, fun _ member => member, fun _ _ => rfl⟩

theorem Within.trans (first : Within q s lists s' lists') (second : Within q s' lists' s'' lists'') :
    Within q s lists s'' lists'' := by
  refine ⟨second.held, ?_, ?_, ?_⟩
  · intro r other
    exact (second.others r other).trans (first.others r other)
  · intro p member
    exact first.fewer p (second.fewer p member)
  · intro p outside
    have outside' : p ∉ lists' q := fun member => outside (first.fewer p member)
    exact (second.untouched p outside').trans (first.untouched p outside)

/-- A fault that is in no list stays out of all of them. -/
theorem Within.absent {f : FaultPtr} (within : Within q s lists s' lists')
    (absent : ∀ r, f ∉ lists r) (r : StageQueue) : f ∉ lists' r := by
  by_cases same : r = q
  · subst r
    exact fun member => absent q (within.fewer f member)
  · rw [within.others r same]
    exact absent r

theorem within_write {f : FaultPtr} {change : InjectedFault → InjectedFault}
    (held : Represents s lists) (member : f ∈ lists q)
    (nxt : (change (s.mem f)).nxt = (s.mem f).nxt) (prv : (change (s.mem f)).prv = (s.mem f).prv)
    (queue : (change (s.mem f)).queue = (s.mem f).queue) :
    Within q s lists (s.write f change) lists := by
  refine ⟨held.write nxt prv queue, fun _ _ => rfl, fun _ member => member, ?_⟩
  intro p outside
  have other : p ≠ f := fun same => outside (same ▸ member)
  exact if_neg other

theorem scan_within {c : ScanContext} {found : Option FaultPtr} (held : Represents s lists)
    (returned : scan fuel q c s = some (s', found)) :
    Within q s lists s' lists ∧ ∀ f, found = some f → f ∈ lists q := by
  rcases scan_cases (held.linked q).forward returned with
    ⟨rfl, rfl, _⟩ | ⟨p, servicedAt, first, _, rfl, rfl⟩
  · exact ⟨Within.refl held, fun f nothing => by cases nothing⟩
  · have member : p ∈ lists q := List.mem_of_find?_eq_some first
    refine ⟨within_write held member rfl rfl rfl, ?_⟩
    intro f isFound
    cases isFound
    exact member

theorem remove_within {f : FaultPtr} (held : Represents s lists) (member : f ∈ lists q)
    (returned : s.remove fuel q f = some s') :
    Within q s lists s' (Function.update lists q ((lists q).erase f)) := by
  have removed := remove_represents held member returned
  obtain ⟨data, _, owner⟩ := FaultStore.remove_frame returned
  obtain ⟨first, second, split⟩ := List.append_of_mem member
  have linked : Linked s.nxt s.prv (s.head q) (s.tail q) (first ++ f :: second) :=
    split ▸ held.linked q
  have effect := remove_effect first second linked returned
  refine ⟨removed, fun r other => Function.update_of_ne other _ _, ?_, ?_⟩
  · intro p inRest
    rw [Function.update_self] at inRest
    exact List.mem_of_mem_erase inRest
  · intro p outside
    -- remove relinks the two neighbours, and they are members
    have neighbours : p ∉ first ∧ p ∉ second := by
      rw [split] at outside
      simp only [List.mem_append, List.mem_cons, not_or] at outside
      exact ⟨outside.1, outside.2.2⟩
    apply mem_eq_of_data (congrFun data p)
    · rw [effect.nxt, if_neg]
      exact fun last => neighbours.1 (List.mem_of_getLast? last)
    · rw [effect.prv, if_neg]
      exact fun next => neighbours.2 (List.mem_of_head? next)
    · exact congrFun owner p

theorem fire_within {f : FaultPtr} {clockEdge : Word} {value value' : StageValue q}
    (held : Represents s lists) (member : f ∈ lists q)
    (returned : fire fuel q clockEdge f value s = some (s', value')) :
    ∃ lists', Within q s lists s' lists' := by
  obtain ⟨⟨p', v'⟩, processed, rest⟩ := Option.bind_eq_some_iff.mp returned
  obtain ⟨store, checked, result⟩ := Option.bind_eq_some_iff.mp rest
  cases result
  have kept := process_schedule processed
  have written : Within q s lists (s.write f fun _ => p') lists :=
    within_write held member kept.nxt kept.prv kept.queue
  unfold check4reschedule at checked
  split at checked
  -- the last occurrence is taken out of the queue, any other only moves
  · rw [written.held.owned q f member] at checked
    exact ⟨_, written.trans (remove_within written.held member checked)⟩
  · cases checked
    exact ⟨lists, written.trans (within_write written.held member rfl rfl rfl)⟩

theorem fire_last {f : FaultPtr} {p' : InjectedFault} {value value' : StageValue q}
    (clockEdge : Word) (held : Represents s lists) (member : f ∈ lists q)
    (enough : (lists q).length < fuel) (last : (s.mem f).occurrence = 1)
    (processed : process q (s.mem f) value = some (p', value')) :
    ∃ store, fire fuel q clockEdge f value s = some (store, value') ∧
      Within q s lists store (Function.update lists q ((lists q).erase f)) := by
  have kept := process_schedule processed
  have written : Within q s lists (s.write f fun _ => p') lists :=
    within_write held member kept.nxt kept.prv kept.queue
  have isLast : ((s.write f fun _ => p').mem f).occurrence = 1 := by
    simp [FaultStore.write, kept.occurrence, last]
  obtain ⟨store, removed⟩ := remove_returns (written.held.linked q) member enough
  refine ⟨store, ?_, written.trans (remove_within written.held member removed)⟩
  have checked : check4reschedule fuel clockEdge f (s.write f fun _ => p') = some store := by
    unfold check4reschedule
    rw [if_pos isLast, written.held.owned q f member]
    exact removed
  unfold fire
  rw [processed, Option.bind_eq_bind, Option.bind_some]
  dsimp only
  rw [checked]
  rfl

theorem fireLoop_within {c : ScanContext} {call : HookCall} (rounds : Nat)
    (value value' : StageValue q) (fi fi' : FiSystem) (fired : List FaultPtr)
    (lists : StageQueue → List FaultPtr) (held : Represents fi.store lists)
    (returned : fireLoop fuel q c call rounds value fi = some (fi', value', fired)) :
    (∃ lists', Within q fi.store lists fi'.store lists') ∧ ∀ f ∈ fired, f ∈ lists q := by
  induction rounds generalizing value fi fired lists with
  | zero => cases returned
  | succ rounds ih =>
      obtain ⟨⟨store, found⟩, scanned, rest⟩ := Option.bind_eq_some_iff.mp returned
      obtain ⟨within, member⟩ := scan_within held scanned
      cases found with
      | none =>
          cases rest
          exact ⟨⟨lists, within⟩, fun f inNone => by cases inNone⟩
      | some f =>
          rw [fireLoop_found scanned] at returned
          obtain ⟨⟨store', value''⟩, fires, rest⟩ := Option.bind_eq_some_iff.mp returned
          obtain ⟨⟨fi'', value''', later⟩, looped, result⟩ := Option.bind_eq_some_iff.mp rest
          cases result
          have inQ := member f rfl
          -- what one firing left of the queue is where the rest of the loop starts
          obtain ⟨lists', once⟩ := fire_within within.held inQ fires
          have both := within.trans once
          have heldAfter : Represents (firedOne fi q call f store').store lists' := by
            rw [firedOne_store]
            exact once.held
          obtain ⟨⟨last, ended⟩, members⟩ := ih _ _ _ lists' heldAfter looped
          rw [firedOne_store] at ended
          refine ⟨⟨last, both.trans ended⟩, ?_⟩
          intro g inFired
          rcases List.mem_cons.mp inFired with isFirst | isLater
          · exact isFirst ▸ inQ
          · exact both.fewer g (members g isLater)

section Calling

variable {fi fi' : FiSystem} {tc : ThreadContext} {ptr : ThreadPtr} {hook : HookCall}
  {fired : List FaultPtr}

theorem fireDue_within {value value' : StageValue q}
    (returned : fireDue fuel q tc ptr hook value fi = some (fi', value', fired))
    (held : Represents fi.store lists) :
    (∃ lists', Within q fi.store lists fi'.store lists') ∧ ∀ f ∈ fired, f ∈ lists q := by
  obtain ⟨c, _, looped⟩ := Option.bind_eq_some_iff.mp returned
  exact fireLoop_within _ _ _ _ _ _ lists held looped

/-- A hook that does not get to its loop. -/
theorem nothing_within (held : Represents fi.store lists) :
    (∃ lists', Within q fi.store lists fi.store lists') ∧ ∀ f ∈ ([] : List FaultPtr), f ∈ lists q :=
  ⟨⟨lists, Within.refl held⟩, fun f inNone => by cases inNone⟩

theorem mainFault_within (held : Represents fi.store lists)
    (returned : mainFault fuel tc ptr hook fi = some (fi', fired)) :
    (∃ lists', Within .main fi.store lists fi'.store lists') ∧ ∀ f ∈ fired, f ∈ lists .main := by
  obtain ⟨thread, _, rest⟩ := Option.bind_eq_some_iff.mp returned
  split at rest
  · cases rest
    exact nothing_within held
  · obtain ⟨⟨_, _, _⟩, due, result⟩ := Option.bind_eq_some_iff.mp rest
    cases result
    exact fireDue_within due held

theorem fetchFault_within {inst inst' : MachInst} (held : Represents fi.store lists)
    (returned : fetchFault fuel tc ptr hook inst fi = some (fi', inst', fired)) :
    (∃ lists', Within .fetchStage fi.store lists fi'.store lists') ∧
      ∀ f ∈ fired, f ∈ lists .fetchStage := by
  obtain ⟨thread, _, rest⟩ := Option.bind_eq_some_iff.mp returned
  split at rest
  · cases rest
    exact nothing_within held
  · dsimp only at rest
    split at rest
    · cases rest
      exact nothing_within held
    · split at rest
      · obtain ⟨counted, both, due⟩ := Option.bind_eq_some_iff.mp rest
        have store := countBoth_store both
        have within := fireDue_within due (store ▸ held)
        rwa [store] at within
      · cases rest
        exact nothing_within held

theorem decodeFault_within {inst inst' : StaticInst} (held : Represents fi.store lists)
    (returned : decodeFault fuel tc ptr hook inst fi = some (fi', inst', fired)) :
    (∃ lists', Within .decodeStage fi.store lists fi'.store lists') ∧
      ∀ f ∈ fired, f ∈ lists .decodeStage := by
  obtain ⟨thread, _, rest⟩ := Option.bind_eq_some_iff.mp returned
  split at rest
  · cases rest
    exact nothing_within held
  · dsimp only at rest
    split at rest
    · cases rest
      exact nothing_within held
    · have within := fireDue_within rest held
      exact within

theorem operandFault_within {count : String → ThreadEnabledFault → ThreadEnabledFault}
    {value value' : StageValue q} (held : Represents fi.store lists)
    (returned : operandFault q count fuel tc hook value fi = some (fi', value', fired)) :
    (∃ lists', Within q fi.store lists fi'.store lists') ∧ ∀ f ∈ fired, f ∈ lists q := by
  unfold operandFault at returned
  split at returned
  · cases returned
    exact nothing_within held
  · obtain ⟨ptr, _, rest⟩ := Option.bind_eq_some_iff.mp returned
    obtain ⟨thread, _, rest⟩ := Option.bind_eq_some_iff.mp rest
    split at rest
    · dsimp only at rest
      split at rest
      · cases rest
        exact nothing_within held
      · obtain ⟨⟨looped, _, _⟩, due, rest⟩ := Option.bind_eq_some_iff.mp rest
        obtain ⟨counted, both, result⟩ := Option.bind_eq_some_iff.mp rest
        cases result
        have within := fireDue_within due held
        rwa [← countBoth_store both] at within
    · cases rest
      exact nothing_within held

def queueOf : Call → Option StageQueue
  | .main _ _ _ => some .main
  | .fetch _ _ _ _ => some .fetchStage
  | .decode _ _ _ _ => some .decodeStage
  | .iew _ _ _ => some .iewStage
  | .lds _ _ _ => some .loadStore
  | .control _ | .increaseTicks _ _ _ => none

theorem makeCall_within {m next : Machine} {call : Call} (held : Represents m.fi.store lists)
    (made : makeCall fuel m call = some (next, fired)) (works : ∀ action, call ≠ .control action) :
    (queueOf call = none ∧ next.fi.store = m.fi.store ∧ fired = []) ∨
      ∃ q, queueOf call = some q ∧ (∃ lists', Within q m.fi.store lists next.fi.store lists') ∧
        ∀ f ∈ fired, f ∈ lists q := by
  cases call with
  | control action => exact absurd rfl (works action)
  | main i ptr hook =>
      obtain ⟨⟨fi', fired'⟩, returned, result⟩ := Option.bind_eq_some_iff.mp made
      cases result
      exact Or.inr ⟨.main, rfl, mainFault_within held returned⟩
  | fetch i ptr hook inst =>
      obtain ⟨⟨fi', inst', fired'⟩, returned, result⟩ := Option.bind_eq_some_iff.mp made
      cases result
      exact Or.inr ⟨.fetchStage, rfl, fetchFault_within held returned⟩
  | decode i ptr hook inst =>
      obtain ⟨⟨fi', inst', fired'⟩, returned, result⟩ := Option.bind_eq_some_iff.mp made
      cases result
      exact Or.inr ⟨.decodeStage, rfl, decodeFault_within held returned⟩
  | iew i hook operand =>
      obtain ⟨⟨fi', value', fired'⟩, returned, result⟩ := Option.bind_eq_some_iff.mp made
      cases result
      exact Or.inr ⟨.iewStage, rfl, operandFault_within held returned⟩
  | lds i hook operand =>
      obtain ⟨⟨fi', value', fired'⟩, returned, result⟩ := Option.bind_eq_some_iff.mp made
      cases result
      exact Or.inr ⟨.loadStore, rfl, operandFault_within held returned⟩
  | increaseTicks i ptr ticks =>
      obtain ⟨fi', returned, result⟩ := Option.bind_eq_some_iff.mp made
      cases result
      exact Or.inl ⟨rfl, countBoth_store returned, rfl⟩

end Calling

end GemFi.StageFrames
