import GemFi.Rings
import Mathlib.Data.List.Nodup

/-!
The pool of functional units of the out-of-order CPU (cpu/o3/fu_pool.hh, cpu/o3/fu_pool.cc). The
units that provide an op class stand in a circular queue, from which getUnit takes the first that
is not busy; a busy unit is held until it is on the list of those to be freed.
-/

namespace GemFi.FunctionalUnits

open Rings

structure OpDesc (OpClass : Type) where
  opClass : OpClass
  opLat : ℕ
  issueLat : ℕ

structure FUDesc (OpClass : Type) where
  opDescList : List (OpDesc OpClass)
  number : ℕ

structure FUIdxQueue where
  idx : ℕ
  funcUnitsIdx : List ℕ

namespace FUIdxQueue

def addFU (queue : FUIdxQueue) (fu : ℕ) : FUIdxQueue :=
  { queue with funcUnitsIdx := queue.funcUnitsIdx ++ [fu] }

def getFU (queue : FUIdxQueue) : Option (ℕ × FUIdxQueue) :=
  queue.funcUnitsIdx[queue.idx]?.map fun fu =>
    (fu, { queue with idx := next queue.funcUnitsIdx.length queue.idx })

end FUIdxQueue

structure FUPool (OpClass : Type) where
  maxOpLatencies : OpClass → ℕ
  maxIssueLatencies : OpClass → ℕ
  unitBusy : ℕ → Bool
  unitsToBeFreed : List ℕ
  fuPerCapList : OpClass → FUIdxQueue
  numFU : ℕ

inductive UnitIndex where
  -- what getUnit returns: the codes -2 and -1, or a unit
  | notProvided | allBusy
  | unit (fu : ℕ)
  deriving DecidableEq, Repr

section Model

variable {OpClass : Type}

namespace FUPool

def findFree (unitBusy : ℕ → Bool) (start : ℕ) : ℕ → ℕ → FUIdxQueue → Option (Option ℕ × FUIdxQueue)
  | 0, _, _ => none
  | fuel + 1, fu, queue =>
      if unitBusy fu then
        match queue.getFU with
        | none => none
        | some (other, queue) =>
            if other = start then some (none, queue) else findFree unitBusy start fuel other queue
      else some (some fu, queue)

def freeUnitNextCycle (pool : FUPool OpClass) (fu : ℕ) : Option (FUPool OpClass) :=
  if pool.unitBusy fu then some { pool with unitsToBeFreed := pool.unitsToBeFreed ++ [fu] } else none

def processFreeUnits (pool : FUPool OpClass) : Option (FUPool OpClass) :=
  (pool.unitsToBeFreed.reverse.foldlM (fun (unitBusy : ℕ → Bool) fu =>
    if unitBusy fu then some (Function.update unitBusy fu false) else none) pool.unitBusy).map fun unitBusy =>
      { pool with unitBusy := unitBusy, unitsToBeFreed := [] }

variable [DecidableEq OpClass]

def getUnit (pool : FUPool OpClass) (capability : OpClass) : Option (UnitIndex × FUPool OpClass) :=
  if (pool.fuPerCapList capability).funcUnitsIdx = [] then some (.notProvided, pool)
  else
    match (pool.fuPerCapList capability).getFU with
    | none => none
    | some (start, queue) =>
        match findFree pool.unitBusy start queue.funcUnitsIdx.length start queue with
        | none => none
        | some (none, queue) =>
            some (.allBusy, { pool with fuPerCapList := Function.update pool.fuPerCapList capability queue })
        | some (some fu, queue) =>
            if fu < pool.numFU then
              some (.unit fu, { pool with
                fuPerCapList := Function.update pool.fuPerCapList capability queue
                unitBusy := Function.update pool.unitBusy fu true })
            else none

def addCapability (first number : ℕ) (pool : FUPool OpClass) (op : OpDesc OpClass) :
    FUPool OpClass :=
  { pool with
    maxOpLatencies := Function.update pool.maxOpLatencies op.opClass (max (pool.maxOpLatencies op.opClass) op.opLat)
    maxIssueLatencies :=
      Function.update pool.maxIssueLatencies op.opClass (max (pool.maxIssueLatencies op.opClass) op.issueLat)
    fuPerCapList := Function.update pool.fuPerCapList op.opClass
      ((List.range' first number).foldl FUIdxQueue.addFU (pool.fuPerCapList op.opClass)) }

def addDesc (pool : FUPool OpClass) (desc : FUDesc OpClass) : FUPool OpClass :=
  if desc.number = 0 then pool
  else
    { desc.opDescList.foldl (addCapability pool.numFU desc.number) pool with numFU := pool.numFU + desc.number }

def construct (descs : List (FUDesc OpClass)) : FUPool OpClass :=
  descs.foldl addDesc ⟨fun _ => 0, fun _ => 0, fun _ => false, [], fun _ => ⟨0, []⟩, 0⟩

end FUPool

end Model

section Units

variable {OpClass : Type} {pool : FUPool OpClass} {held : List ℕ} {fu : ℕ}

structure Wired (pool : FUPool OpClass) : Prop where
  inside : ∀ c, (pool.fuPerCapList c).funcUnitsIdx ≠ [] →
    (pool.fuPerCapList c).idx < (pool.fuPerCapList c).funcUnitsIdx.length
  nodup : ∀ c, (pool.fuPerCapList c).funcUnitsIdx.Nodup
  known : ∀ c, ∀ fu ∈ (pool.fuPerCapList c).funcUnitsIdx, fu < pool.numFU

/-- The busy units are those that are held and those to be freed, each in one place. -/
structure Held (held : List ℕ) (pool : FUPool OpClass) : Prop where
  apart : (pool.unitsToBeFreed ++ held).Nodup
  busy : ∀ fu, pool.unitBusy fu = true ↔ fu ∈ pool.unitsToBeFreed ++ held

theorem findFree_spec (unitBusy : ℕ → Bool) {units : List ℕ} {head start : ℕ} (inside : head < units.length)
    (nodup : units.Nodup) (isStart : units[head]? = some start) (fuel passed : ℕ)
    (here : units[slot units.length head passed]? = some fu) (enough : units.length ≤ fuel + passed)
    (within : passed < units.length)
    (busy : ∀ earlier < passed, ∀ fu, units[slot units.length head earlier]? = some fu → unitBusy fu = true) :
    ∃ found idx, FUPool.findFree unitBusy start fuel fu ⟨slot units.length head (passed + 1), units⟩ =
        some (found, ⟨idx, units⟩) ∧ idx < units.length ∧
      (∀ fu ∈ found, fu ∈ units ∧ unitBusy fu = false) ∧ (found = none → ∀ fu ∈ units, unitBusy fu = true) := by
  induction fuel generalizing passed fu with
  | zero => omega
  | succ fuel ih =>
      unfold FUPool.findFree
      cases isBusy : unitBusy fu with
      | false =>
          refine ⟨some fu, slot units.length head (passed + 1), by simp, slot_lt inside, ?_,
            fun none => absurd none (Option.some_ne_none fu)⟩
          rintro _ ⟨⟩
          exact ⟨List.mem_of_getElem? here, isBusy⟩
      | true =>
          have busy :
              ∀ earlier < passed + 1, ∀ fu, units[slot units.length head earlier]? = some fu →
              unitBusy fu = true := by
            intro earlier below other isOther
            obtain before | rfl := Nat.lt_succ_iff_lt_or_eq.mp below
            · exact busy earlier before other isOther
            · rw [here] at isOther
              cases isOther
              exact isBusy
          obtain ⟨other, isOther⟩ :
              ∃ other, units[slot units.length head (passed + 1)]? = some other :=
            ⟨_, List.getElem?_eq_getElem (slot_lt inside)⟩
          simp only [if_true, FUIdxQueue.getFU, isOther, Option.map_some, next_slot inside]
          by_cases around : passed + 1 = units.length
          · have isFirst : slot units.length head (passed + 1) = head := by
              rw [around, slot, Nat.add_mod_right, Nat.mod_eq_of_lt inside]
            have same : other = start := by
              rw [isFirst, isStart] at isOther
              exact (Option.some.inj isOther).symm
            rw [if_pos same]
            refine ⟨none, _, rfl, slot_lt inside, fun unit member => absurd member (Option.not_mem_none unit),
              fun _ unit member => ?_⟩
            obtain ⟨index, bound, isUnit⟩ := List.mem_iff_getElem.mp member
            -- every index is some steps after the head
            have reached :
                slot units.length head ((index + units.length - head) % units.length) = index := by
              rw [slot, Nat.add_mod_mod, Nat.add_sub_cancel' (by omega), Nat.add_mod_right, Nat.mod_eq_of_lt bound]
            have below : (index + units.length - head) % units.length < passed + 1 := by
              rw [around]
              exact Nat.mod_lt _ (Nat.zero_lt_of_lt inside)
            refine busy _ below unit ?_
            rw [reached, List.getElem?_eq_getElem bound, isUnit]
          · have differs : other ≠ start := by
              intro same
              rw [same, ← isStart] at isOther
              have equal := (List.getElem?_inj (slot_lt inside) nodup).mp isOther
              have again : passed + 1 = 0 :=
                slot_inj (Nat.lt_of_le_of_ne within around) (Nat.zero_lt_of_lt inside)
                  (equal.trans (slot_zero inside).symm)
              exact absurd again (Nat.succ_ne_zero passed)
            rw [if_neg differs]
            exact ih (passed + 1) isOther (by omega) (by omega) busy

theorem Held.perm {held' : List ℕ} (holds : Held held pool) (same : held.Perm held') :
    Held held' pool :=
  ⟨(same.append_left _).nodup_iff.mp holds.apart,
    fun fu => (holds.busy fu).trans (same.append_left _).mem_iff⟩

variable [DecidableEq OpClass]

inductive Answered (pool : FUPool OpClass) (c : OpClass) : UnitIndex → FUPool OpClass → Prop
  -- what getUnit answers, and how it leaves the pool: nothing but the position in a queue changes,
  -- and one unit that was free
  | notProvided (none : (pool.fuPerCapList c).funcUnitsIdx = []) : Answered pool c .notProvided pool
  | allBusy (idx : ℕ) (busy : ∀ fu ∈ (pool.fuPerCapList c).funcUnitsIdx, pool.unitBusy fu = true) :
      Answered pool c .allBusy { pool with
        fuPerCapList := Function.update pool.fuPerCapList c ⟨idx, (pool.fuPerCapList c).funcUnitsIdx⟩ }
  | unit (idx fu : ℕ) (provides : fu ∈ (pool.fuPerCapList c).funcUnitsIdx) (free : pool.unitBusy fu = false) :
      Answered pool c (.unit fu) { pool with
        fuPerCapList := Function.update pool.fuPerCapList c ⟨idx, (pool.fuPerCapList c).funcUnitsIdx⟩
        unitBusy := Function.update pool.unitBusy fu true }

theorem Wired.update (wired : Wired pool) {c : OpClass} {idx : ℕ} (unitBusy : ℕ → Bool) (toBeFreed : List ℕ)
    (inside : idx < (pool.fuPerCapList c).funcUnitsIdx.length) :
    Wired { pool with
      fuPerCapList := Function.update pool.fuPerCapList c ⟨idx, (pool.fuPerCapList c).funcUnitsIdx⟩
      unitBusy := unitBusy, unitsToBeFreed := toBeFreed } := by
  refine ⟨?_, ?_, ?_⟩
  · intro d some
    by_cases same : d = c
    · subst same
      simpa using inside
    · simpa [same] using wired.inside d (by simpa [same] using some)
  · intro d
    by_cases same : d = c
    · subst same
      simpa using wired.nodup d
    · simpa [same] using wired.nodup d
  · intro d
    by_cases same : d = c
    · subst same
      simpa using wired.known d
    · simpa [same] using wired.known d

theorem getUnit_answered (wired : Wired pool) (c : OpClass) :
    ∃ answer after, pool.getUnit c = some (answer, after) ∧ Answered pool c answer after ∧ Wired after := by
  unfold FUPool.getUnit
  by_cases none : (pool.fuPerCapList c).funcUnitsIdx = []
  · rw [if_pos none]
    exact ⟨_, _, rfl, .notProvided none, wired⟩
  · rw [if_neg none]
    have inside := wired.inside c none
    obtain ⟨start, isStart⟩ : ∃ start,
        (pool.fuPerCapList c).funcUnitsIdx[(pool.fuPerCapList c).idx]? = some start :=
      ⟨_, List.getElem?_eq_getElem inside⟩
    have first : slot (pool.fuPerCapList c).funcUnitsIdx.length (pool.fuPerCapList c).idx 0 =
        (pool.fuPerCapList c).idx := slot_zero inside
    obtain ⟨found, idx, ran, still, free, busy⟩ :=
      findFree_spec pool.unitBusy inside (wired.nodup c) isStart (pool.fuPerCapList c).funcUnitsIdx.length 0
        (first.symm ▸ isStart) (Nat.le_refl _) (Nat.zero_lt_of_lt inside)
        (fun earlier below => absurd below (Nat.not_lt_zero earlier))
    rw [← next_slot inside, first] at ran
    simp only [FUIdxQueue.getFU, isStart, Option.map_some, ran]
    cases found with
    | none => exact ⟨_, _, rfl, .allBusy idx (busy rfl), wired.update _ _ still⟩
    | some fu =>
        obtain ⟨provides, isFree⟩ := free fu rfl
        simp only [wired.known c fu provides, if_true]
        exact ⟨_, _, rfl, .unit idx fu provides isFree, wired.update _ _ still⟩

theorem Answered.keeps_held {c : OpClass} {after : FUPool OpClass} {answer : UnitIndex}
    (answered : Answered pool c answer after)
    (holds : Held held pool) : match answer with
      | .unit fu => Held (fu :: held) after
      | _ => Held held after := by
  cases answered with
  | notProvided none => exact holds
  | allBusy idx busy => exact ⟨holds.apart, holds.busy⟩
  | unit idx fu provides free =>
      have unheld : fu ∉ pool.unitsToBeFreed ++ held := fun member =>
        absurd (free.symm.trans ((holds.busy fu).mpr member)) nofun
      refine ⟨List.perm_middle.nodup_iff.mpr (List.nodup_cons.mpr ⟨unheld, holds.apart⟩), fun other => ?_⟩
      change Function.update pool.unitBusy fu true other = true ↔ other ∈ pool.unitsToBeFreed ++ fu :: held
      rw [List.perm_middle.mem_iff, List.mem_cons]
      by_cases same : other = fu
      · simp [same]
      · rw [Function.update_of_ne same, holds.busy other, or_iff_right same]

theorem Answered.units {c : OpClass} {after : FUPool OpClass} {answer : UnitIndex}
    (answered : Answered pool c answer after) (d : OpClass) :
    (after.fuPerCapList d).funcUnitsIdx = (pool.fuPerCapList d).funcUnitsIdx := by
  cases answered with
  | notProvided none => rfl
  | allBusy idx busy | unit idx fu provides free =>
      by_cases same : d = c
      · simp [same]
      · simp [same]

theorem Answered.busy {c : OpClass} {after : FUPool OpClass} {answer : UnitIndex}
    (answered : Answered pool c answer after) (wasBusy : pool.unitBusy fu = true) :
    after.unitBusy fu = true := by
  cases answered with
  | notProvided none | allBusy idx busy => exact wasBusy
  | unit idx other provides free =>
      by_cases same : fu = other
      · simp [same]
      · simpa [same] using wasBusy

theorem Answered.toBeFreed {c : OpClass} {after : FUPool OpClass} {answer : UnitIndex}
    (answered : Answered pool c answer after) : after.unitsToBeFreed = pool.unitsToBeFreed := by
  cases answered <;> rfl

theorem Answered.all_busy {c : OpClass} {after : FUPool OpClass} (answered : Answered pool c .allBusy after) :
    ∀ fu ∈ (pool.fuPerCapList c).funcUnitsIdx, pool.unitBusy fu = true := by
  cases answered with
  | allBusy idx busy => exact busy

omit [DecidableEq OpClass]

theorem freeUnitNextCycle_held (holds : Held (fu :: held) pool) :
    pool.freeUnitNextCycle fu = some { pool with unitsToBeFreed := pool.unitsToBeFreed ++ [fu] } ∧
      Held held { pool with unitsToBeFreed := pool.unitsToBeFreed ++ [fu] } := by
  have busy := (holds.busy fu).mpr (List.mem_append_right _ List.mem_cons_self)
  have moved : pool.unitsToBeFreed ++ [fu] ++ held = pool.unitsToBeFreed ++ fu :: held := by
    rw [List.append_assoc, List.singleton_append]
  refine ⟨by rw [FUPool.freeUnitNextCycle, if_pos busy], ?_, ?_⟩
  · exact moved ▸ holds.apart
  · exact moved ▸ holds.busy

theorem free_all {unitBusy : ℕ → Bool} {units held : List ℕ} (apart : (units ++ held).Nodup)
    (busy : ∀ fu, unitBusy fu = true ↔ fu ∈ units ++ held) :
    ∃ after, (units.foldlM (fun (unitBusy : ℕ → Bool) fu =>
        if unitBusy fu then some (Function.update unitBusy fu false) else none) unitBusy) = some after ∧
      ∀ fu, after fu = true ↔ fu ∈ held := by
  induction units generalizing unitBusy with
  | nil => exact ⟨unitBusy, rfl, busy⟩
  | cons fu units ih =>
      obtain ⟨fresh, apart⟩ := List.nodup_cons.mp apart
      have isBusy : unitBusy fu = true := (busy fu).mpr List.mem_cons_self
      simp only [List.foldlM_cons, isBusy, if_true, Option.bind_eq_bind, Option.bind_some]
      refine ih apart fun other => ?_
      by_cases same : other = fu
      · subst same
        simpa using fresh
      · rw [Function.update_of_ne same, busy other, List.cons_append, List.mem_cons]
        simp [same]

theorem processFreeUnits_held (holds : Held held pool) :
    ∃ after, pool.processFreeUnits = some after ∧ Held held after ∧ after.unitsToBeFreed = [] ∧
      after.fuPerCapList = pool.fuPerCapList ∧ after.numFU = pool.numFU := by
  have turned : (pool.unitsToBeFreed.reverse ++ held).Perm (pool.unitsToBeFreed ++ held) :=
    (List.reverse_perm _).append_right held
  obtain ⟨unitBusy, freed, busy⟩ := free_all (turned.nodup_iff.mpr holds.apart)
    fun fu => (holds.busy fu).trans turned.mem_iff.symm
  refine ⟨{ pool with unitBusy := unitBusy, unitsToBeFreed := [] }, ?_, ⟨?_, busy⟩, rfl, rfl, rfl⟩
  · simp only [FUPool.processFreeUnits, freed, Option.map_some]
  · exact (List.nodup_append.mp holds.apart).2.1

theorem Wired.congr {after : FUPool OpClass} (wired : Wired pool) (same : after.fuPerCapList = pool.fuPerCapList)
    (number : after.numFU = pool.numFU) : Wired after := by
  refine ⟨?_, ?_, ?_⟩ <;> simp only [same, number]
  · exact wired.inside
  · exact wired.nodup
  · exact wired.known

end Units

/-! ## The constructor -/

section Construction

variable {OpClass : Type} [DecidableEq OpClass] {pool : FUPool OpClass} {first number : ℕ}

theorem addFU_foldl (units : List ℕ) (queue : FUIdxQueue) :
    units.foldl FUIdxQueue.addFU queue = ⟨queue.idx, queue.funcUnitsIdx ++ units⟩ := by
  induction units generalizing queue with
  | nil => simp
  | cons fu units ih => simp [ih, FUIdxQueue.addFU]

/-- While the capabilities of one description are added: the classes that are still to come have only
units from before. -/
structure Adding (first number : ℕ) (classes : List OpClass) (pool : FUPool OpClass) : Prop where
  atStart : ∀ c, (pool.fuPerCapList c).idx = 0
  nodup : ∀ c, (pool.fuPerCapList c).funcUnitsIdx.Nodup
  known : ∀ c, ∀ fu ∈ (pool.fuPerCapList c).funcUnitsIdx, fu < first + number
  later : ∀ c ∈ classes, ∀ fu ∈ (pool.fuPerCapList c).funcUnitsIdx, fu < first

theorem adding_foldl (first number : ℕ) {ops : List (OpDesc OpClass)} (distinct : (ops.map (·.opClass)).Nodup)
    (adding : Adding first number (ops.map (·.opClass)) pool) :
    Adding first number [] (ops.foldl (FUPool.addCapability first number) pool) := by
  induction ops generalizing pool with
  | nil => exact adding
  | cons op ops ih =>
      obtain ⟨fresh, distinct⟩ := List.nodup_cons.mp distinct
      refine ih distinct ⟨?_, ?_, ?_, ?_⟩
      · intro c
        by_cases same : c = op.opClass
        · subst same
          simpa [FUPool.addCapability, addFU_foldl] using adding.atStart op.opClass
        · simpa [FUPool.addCapability, same] using adding.atStart c
      · intro c
        by_cases same : c = op.opClass
        · subst same
          simp only [FUPool.addCapability, addFU_foldl, Function.update_self]
          refine List.nodup_append.mpr ⟨adding.nodup _, List.nodup_range', ?_⟩
          intro old isOld new isNew same
          have below := adding.later op.opClass List.mem_cons_self old isOld
          have above := (List.mem_range'_1.mp isNew).1
          omega
        · simpa [FUPool.addCapability, same] using adding.nodup c
      · intro c fu member
        by_cases same : c = op.opClass
        · subst same
          simp only [FUPool.addCapability, addFU_foldl, Function.update_self] at member
          obtain old | new := List.mem_append.mp member
          · exact adding.known _ fu old
          · exact (List.mem_range'_1.mp new).2
        · exact adding.known c fu (by simpa [FUPool.addCapability, same] using member)
      · intro c later fu member
        have differs : c ≠ op.opClass := by
          rintro rfl
          exact fresh later
        exact adding.later c (List.mem_cons_of_mem _ later) fu (by simpa [FUPool.addCapability, differs] using member)

theorem addCapability_units (first number : ℕ) (ops : List (OpDesc OpClass)) (pool : FUPool OpClass) :
    (ops.foldl (FUPool.addCapability first number) pool).unitBusy = pool.unitBusy ∧
      (ops.foldl (FUPool.addCapability first number) pool).unitsToBeFreed = pool.unitsToBeFreed := by
  induction ops generalizing pool with
  | nil => exact ⟨rfl, rfl⟩
  | cons op ops ih => exact ih _

theorem construct_wired {descs : List (FUDesc OpClass)}
    (distinct : ∀ desc ∈ descs, (desc.opDescList.map (·.opClass)).Nodup) :
    Wired (FUPool.construct descs) ∧ Held [] (FUPool.construct descs) := by
  have loop : ∀ pool : FUPool OpClass, Adding pool.numFU 0 [] pool → Held [] pool →
      Adding (descs.foldl FUPool.addDesc pool).numFU 0 [] (descs.foldl FUPool.addDesc pool) ∧
        Held [] (descs.foldl FUPool.addDesc pool) := by
    induction descs with
    | nil => exact fun pool adding held => ⟨adding, held⟩
    | cons desc descs ih =>
        intro pool adding held
        obtain ⟨here, distinct⟩ := List.forall_mem_cons.mp distinct
        refine ih distinct (FUPool.addDesc pool desc) ?_ ?_
        · unfold FUPool.addDesc
          split
          · exact adding
          · have added := adding_foldl pool.numFU desc.number here
              ⟨adding.atStart, adding.nodup, fun c fu member => Nat.lt_add_right _ (adding.known c fu member),
                fun c _ fu member => adding.known c fu member⟩
            exact ⟨added.atStart, added.nodup, added.known, nofun⟩
        · unfold FUPool.addDesc
          split
          · exact held
          · obtain ⟨busy, toBeFreed⟩ := addCapability_units pool.numFU desc.number
              desc.opDescList pool
            refine ⟨?_, ?_⟩
            · exact toBeFreed ▸ held.apart
            · intro fu
              change (desc.opDescList.foldl _ pool).unitBusy fu = true ↔
                fu ∈ (desc.opDescList.foldl _ pool).unitsToBeFreed ++ []
              rw [busy, toBeFreed]
              exact held.busy fu
  obtain ⟨added, held⟩ := loop ⟨fun _ => 0, fun _ => 0, fun _ => false, [], fun _ => ⟨0, []⟩, 0⟩
    ⟨fun _ => rfl, fun _ => List.nodup_nil, fun _ _ member => absurd member List.not_mem_nil, nofun⟩
    ⟨List.nodup_nil, fun _ => by simp⟩
  refine ⟨⟨?_, added.nodup, added.known⟩, held⟩
  intro c some
  exact (added.atStart c).symm ▸ List.length_pos_of_ne_nil some

end Construction

end GemFi.FunctionalUnits
