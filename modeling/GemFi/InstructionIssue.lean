import GemFi.FunctionalUnits
import GemFi.IssueOrder
import GemFi.Transitions
import Mathlib.Data.List.Perm.Basic

/-!
The issue of instructions in the out-of-order CPU (cpu/o3/inst_queue_impl.hh): scheduleReadyInsts
goes along the list of op classes, the oldest ready instruction first, and hands out functional units;
an instruction waits for its completion where its operation takes more than a cycle. The writeback
slots of the next stage (cpu/o3/iew.hh) bound what is under way.
-/

namespace GemFi.InstructionIssue

open Transitions IssueOrder FunctionalUnits

section Model

structure Config (OpClass : Type) where
  noOpClass : OpClass
  totalWidth : ℕ
  wbMax : ℕ

/-- `opClass` and `squashed` belong to the instructions, by their sequence numbers. `issued` has those
that are issued and `writtenBack` those that are done, in their order. A completion is an FUCompletion
with the unit that it frees. -/
structure State (OpClass : Type) where
  opClass : ℕ → OpClass
  squashed : ℕ → Bool
  ready : ReadyQueues OpClass
  fuPool : FUPool OpClass
  completions : List (ℕ × Option ℕ)
  instsToExecute : List ℕ
  wbOutstanding : ℕ
  ableToIssue : Bool
  issued : List ℕ
  writtenBack : List ℕ

variable {OpClass : Type}

namespace State

/-- `incrWb`. -/
def incrWb (config : Config OpClass) (s : State OpClass) : Option (State OpClass) :=
  if s.wbOutstanding + 1 ≤ config.wbMax then
    some { s with
      wbOutstanding := s.wbOutstanding + 1
      ableToIssue := if s.wbOutstanding + 1 = config.wbMax then false else s.ableToIssue }
  else none

/-- `decrWb`. -/
def decrWb (config : Config OpClass) (s : State OpClass) : Option (State OpClass) :=
  if s.wbOutstanding = 0 then none
  else some { s with
    wbOutstanding := s.wbOutstanding - 1
    ableToIssue := if s.wbOutstanding = config.wbMax then true else s.ableToIssue }

def send (s : State OpClass) (c : OpClass) (seqNum : ℕ) : UnitIndex → Option (State OpClass)
  | .unit fu =>
      if s.fuPool.maxOpLatencies c = 1 then
        (s.fuPool.freeUnitNextCycle fu).map fun fuPool =>
          { s with fuPool := fuPool, instsToExecute := s.instsToExecute ++ [seqNum] }
      else if s.fuPool.maxIssueLatencies c > 1 then
        some { s with completions := s.completions ++ [(seqNum, some fu)] }
      else
        (s.fuPool.freeUnitNextCycle fu).map fun fuPool =>
          { s with fuPool := fuPool, completions := s.completions ++ [(seqNum, none)] }
  | _ => some { s with instsToExecute := s.instsToExecute ++ [seqNum] }

variable [DecidableEq OpClass]

def examine (config : Config OpClass) (c : OpClass) (seqNum : ℕ) (pass : State OpClass × ℕ) :
    Option (Outcome × State OpClass × ℕ) :=
  -- the body of the loop of scheduleReadyInsts, for the instruction at the top of a class; the
  -- count is total_issued
  if pass.1.squashed seqNum then some (.squashed, pass)
  else
    (if c = config.noOpClass then some (.notProvided, pass.1.fuPool) else pass.1.fuPool.getUnit c).bind
      fun (idx, fuPool) =>
        if idx = .allBusy then some (.busy, { pass.1 with fuPool := fuPool }, pass.2)
        else
          ({ pass.1 with fuPool := fuPool }.send c seqNum idx).bind fun s =>
            ({ s with issued := s.issued ++ [seqNum] }.incrWb config).map fun s => (.issued, s, pass.2 + 1)

def scheduleReadyInsts (config : Config OpClass) (s : State OpClass) : Option (State OpClass) :=
  (s.ready.schedule (fun pass => decide (pass.2 < config.totalWidth) && pass.1.ableToIssue)
    (examine config) (s, 0)).map fun (ready, pass) => { pass.1 with ready := ready }

def addIfReady (s : State OpClass) (seqNum : ℕ) : Option (State OpClass) :=
  (s.ready.addReady (s.opClass seqNum) seqNum).map fun ready => { s with ready := ready }

/-- `FUCompletion::process` and processFUCompletion, for one of the completions. -/
def processFUCompletion (s : State OpClass) (event : ℕ) : Option (State OpClass) :=
  match s.completions[event]? with
  | none => none
  | some (seqNum, fu) =>
      (match fu with
        | some fu => s.fuPool.freeUnitNextCycle fu
        | none => some s.fuPool).map fun fuPool =>
          { s with
            fuPool := fuPool
            completions := s.completions.eraseIdx event
            instsToExecute := s.instsToExecute ++ [seqNum] }

def processFreeUnits (s : State OpClass) : Option (State OpClass) :=
  s.fuPool.processFreeUnits.map fun fuPool => { s with fuPool := fuPool }

def writeback (config : Config OpClass) (s : State OpClass) : Option (State OpClass) :=
  -- an instruction is executed and written back, which frees its slot
  match s.instsToExecute with
  | [] => none
  | seqNum :: rest => { s with instsToExecute := rest, writtenBack := s.writtenBack ++ [seqNum] }.decrWb config

end State

inductive Action where
  | addIfReady (seqNum : ℕ)
  | squash (squashed youngest : ℕ)
  | scheduleReadyInsts
  | processFUCompletion (event : ℕ)
  | processFreeUnits
  | writeback
  deriving DecidableEq, Repr

variable [DecidableEq OpClass]

def step (config : Config OpClass) (s : State OpClass) : Action → Option (State OpClass)
  | .addIfReady seqNum => s.addIfReady seqNum
  -- those in flight are marked, up to the youngest; a later instruction has a number of its own
  | .squash squashed youngest => some { s with
      squashed := fun i => s.squashed i || decide (squashed < i ∧ i ≤ youngest) }
  | .scheduleReadyInsts => s.scheduleReadyInsts config
  | .processFUCompletion event => s.processFUCompletion event
  | .processFreeUnits => s.processFreeUnits
  | .writeback => s.writeback config

def Ready (s : State OpClass) : Action → Prop
  | .addIfReady seqNum => seqNum ∉ s.ready.readyInsts (s.opClass seqNum) ∧ seqNum ∉ s.issued
  | .processFUCompletion event => event < s.completions.length
  | .writeback => s.instsToExecute ≠ []
  | _ => True

instance (s : State OpClass) (action : Action) : Decidable (Ready s action) :=
  match action with
  | .addIfReady seqNum =>
      inferInstanceAs (Decidable (seqNum ∉ s.ready.readyInsts (s.opClass seqNum) ∧ seqNum ∉ s.issued))
  | .processFUCompletion event => inferInstanceAs (Decidable (event < s.completions.length))
  | .writeback => inferInstanceAs (Decidable (s.instsToExecute ≠ []))
  | .squash _ _ | .scheduleReadyInsts | .processFreeUnits => inferInstanceAs (Decidable True)

def init (descs : List (FUDesc OpClass)) (opClass : ℕ → OpClass) : State OpClass where
  opClass := opClass
  squashed := fun _ => false
  ready := .empty
  fuPool := .construct descs
  completions := []
  instsToExecute := []
  wbOutstanding := 0
  ableToIssue := true
  issued := []
  writtenBack := []

end Model

/-! ## Invariants -/

section Invariants

variable {OpClass : Type} {config : Config OpClass} {s : State OpClass} {q : ReadyQueues OpClass}

/-- What is under way: each busy unit in one place, each issued instruction in one place, and a writeback
slot for each of those that are not written back. -/
structure Flight (config : Config OpClass) (s : State OpClass) : Prop where
  wired : Wired s.fuPool
  held : Held (s.completions.filterMap (·.2)) s.fuPool
  placed : (s.completions.map (·.1) ++ s.instsToExecute ++ s.writtenBack).Perm s.issued
  outstanding : s.wbOutstanding = s.completions.length + s.instsToExecute.length
  bounded : s.wbOutstanding ≤ config.wbMax
  able : s.ableToIssue = true ↔ s.wbOutstanding < config.wbMax
  once : s.issued.Nodup

structure Queued (q : ReadyQueues OpClass) (s : State OpClass) : Prop where
  classes : ∀ c, ∀ i ∈ q.readyInsts c, s.opClass i = c
  unissued : ∀ c, ∀ i ∈ q.readyInsts c, i ∉ s.issued
  once : ∀ c, (q.readyInsts c).Nodup

structure Sound (config : Config OpClass) (s : State OpClass) : Prop where
  ordered : Ordered none s.ready
  queued : Queued s.ready s
  flight : Flight config s

def weight (s : State OpClass) : ℕ :=
  -- the steps that are under way, but for the instructions that wait
  3 * s.completions.length + s.instsToExecute.length + s.fuPool.unitsToBeFreed.length

def left (s : State OpClass) : ℕ := 5 * s.ready.rounds s.ready.listOrder + weight s

def AllBusy (config : Config OpClass) (pool : FUPool OpClass) (c : OpClass) : Prop :=
  c ≠ config.noOpClass ∧ (pool.fuPerCapList c).funcUnitsIdx ≠ [] ∧
    ∀ fu ∈ (pool.fuPerCapList c).funcUnitsIdx, pool.unitBusy fu = true

end Invariants

/-! ## One instruction -/

section Examine

variable {OpClass : Type} {config : Config OpClass} {s after : State OpClass} {pool : FUPool OpClass} {c : OpClass}
  {i fu n : ℕ}

/-- Within a pass units only become busy, and nothing changes for the instructions but that some are
issued. -/
structure Kept (s after : State OpClass) : Prop where
  opClass : after.opClass = s.opClass
  squashed : after.squashed = s.squashed
  units : ∀ c, (after.fuPool.fuPerCapList c).funcUnitsIdx = (s.fuPool.fuPerCapList c).funcUnitsIdx
  busy : ∀ fu, s.fuPool.unitBusy fu = true → after.fuPool.unitBusy fu = true

theorem AllBusy.mono (busy : AllBusy config s.fuPool c) (kept : Kept s after) :
    AllBusy config after.fuPool c := by
  obtain ⟨isClass, some_unit, all⟩ := busy
  rw [AllBusy, kept.units c]
  exact ⟨isClass, some_unit, fun fu member => kept.busy fu (all fu member)⟩

structure Sent (s : State OpClass) (i : ℕ) (after : State OpClass) : Prop where
  state : after = { s with
    fuPool := after.fuPool, completions := after.completions, instsToExecute := after.instsToExecute }
  wired : Wired after.fuPool
  held : Held (after.completions.filterMap (·.2)) after.fuPool
  placed : (after.completions.map (·.1) ++ after.instsToExecute).Perm
    (i :: (s.completions.map (·.1) ++ s.instsToExecute))
  units : after.fuPool.fuPerCapList = s.fuPool.fuPerCapList
  busy : after.fuPool.unitBusy = s.fuPool.unitBusy
  heavier : weight after ≤ weight s + 4

theorem placed_last (completions : List (ℕ × Option ℕ)) (insts : List ℕ) (i : ℕ) :
    (completions.map (·.1) ++ (insts ++ [i])).Perm (i :: (completions.map (·.1) ++ insts)) := by
  rw [← List.append_assoc]
  exact List.perm_append_singleton i _

theorem placed_between (completions : List (ℕ × Option ℕ)) (insts : List ℕ) (i : ℕ) (fu : Option ℕ) :
    ((completions ++ [(i, fu)]).map (·.1) ++ insts).Perm (i :: (completions.map (·.1) ++ insts)) := by
  rw [List.map_append, List.append_assoc]
  exact List.perm_middle

theorem send_unit (wired : Wired s.fuPool) (held : Held (fu :: s.completions.filterMap (·.2)) s.fuPool) (c : OpClass)
    (i : ℕ) : ∃ after, s.send c i (.unit fu) = some after ∧ Sent s i after := by
  obtain ⟨freed, heldFreed⟩ := freeUnitNextCycle_held held
  have rewired : Wired { s.fuPool with unitsToBeFreed := s.fuPool.unitsToBeFreed ++ [fu] } := wired.congr rfl rfl
  unfold State.send
  -- a unit that is pipelined, or done within the cycle, is freed at its end; another one is kept
  by_cases single : s.fuPool.maxOpLatencies c = 1
  · refine ⟨{ s with
      fuPool := { s.fuPool with unitsToBeFreed := s.fuPool.unitsToBeFreed ++ [fu] }
      instsToExecute := s.instsToExecute ++ [i] }, ?_, rfl, rewired, heldFreed, placed_last _ _ i, rfl, rfl, ?_⟩
    · simp only [if_pos single, freed, Option.map_some]
    · simp only [weight, List.length_append, List.length_singleton]
      omega
  · by_cases unpipelined : s.fuPool.maxIssueLatencies c > 1
    · refine ⟨{ s with completions := s.completions ++ [(i, some fu)] }, ?_, rfl, wired, ?_,
        placed_between _ _ i _, rfl, rfl, ?_⟩
      · simp only [if_neg single, if_pos unpipelined]
      · refine held.perm ?_
        change (fu :: s.completions.filterMap (·.2)).Perm ((s.completions ++ [(i, some fu)]).filterMap (·.2))
        rw [List.filterMap_append]
        exact (List.perm_append_singleton fu _).symm
      · simp only [weight, List.length_append, List.length_singleton]
        omega
    · refine ⟨{ s with
        fuPool := { s.fuPool with unitsToBeFreed := s.fuPool.unitsToBeFreed ++ [fu] }
        completions := s.completions ++ [(i, none)] }, ?_, rfl, rewired, ?_, placed_between _ _ i _, rfl, rfl, ?_⟩
      · simp only [if_neg single, if_neg unpipelined, freed, Option.map_some]
      · refine heldFreed.perm ?_
        change (s.completions.filterMap (·.2)).Perm ((s.completions ++ [(i, (none : Option ℕ))]).filterMap (·.2))
        rw [List.filterMap_append]
        exact List.Perm.of_eq (List.append_nil _).symm
      · simp only [weight, List.length_append, List.length_singleton]
        omega

theorem send_direct (wired : Wired s.fuPool) (held : Held (s.completions.filterMap (·.2)) s.fuPool) (c : OpClass)
    (i : ℕ) : ∃ after, s.send c i .notProvided = some after ∧ Sent s i after :=
  ⟨{ s with instsToExecute := s.instsToExecute ++ [i] }, rfl, rfl, wired, held, placed_last _ _ i, rfl, rfl, by
    simp only [weight, List.length_append, List.length_singleton]
    omega⟩

/-- With a writeback slot, an instruction that is sent is issued. -/
theorem Sent.flight (config : Config OpClass) (sent : Sent s i after)
    (placed : (s.completions.map (·.1) ++ s.instsToExecute ++ s.writtenBack).Perm s.issued)
    (outstanding : s.wbOutstanding = s.completions.length + s.instsToExecute.length)
    (able : s.ableToIssue = true ↔ s.wbOutstanding < config.wbMax) (once : s.issued.Nodup) (unissued : i ∉ s.issued)
    (slot : s.wbOutstanding < config.wbMax) :
    ∃ issued, ({ after with issued := after.issued ++ [i] }.incrWb config) = some issued ∧ Flight config issued ∧
      issued = { after with
        issued := s.issued ++ [i], wbOutstanding := issued.wbOutstanding, ableToIssue := issued.ableToIssue } := by
  have same : after.issued = s.issued ∧ after.wbOutstanding = s.wbOutstanding ∧ after.ableToIssue = s.ableToIssue ∧
      after.writtenBack = s.writtenBack := by
    rw [sent.state]
    exact ⟨rfl, rfl, rfl, rfl⟩
  obtain ⟨issued, wb, isAble, written⟩ := same
  have lengths := sent.placed.length_eq
  simp only [List.length_append, List.length_map, List.length_cons] at lengths
  refine ⟨_, if_pos (wb ▸ slot), ⟨sent.wired, sent.held, ?_, ?_, ?_, ?_, ?_⟩, ?_⟩
  · change (after.completions.map (·.1) ++ after.instsToExecute ++ after.writtenBack).Perm (after.issued ++ [i])
    rw [issued, written]
    refine (sent.placed.append_right _).trans ?_
    exact (placed.cons i).trans (List.perm_append_singleton i _).symm
  · change after.wbOutstanding + 1 = after.completions.length + after.instsToExecute.length
    omega
  · change after.wbOutstanding + 1 ≤ config.wbMax
    omega
  · change (if after.wbOutstanding + 1 = config.wbMax then false else after.ableToIssue) = true ↔
      after.wbOutstanding + 1 < config.wbMax
    rw [isAble, wb]
    split
    · next full => exact iff_of_false nofun (by omega)
    · next space => exact iff_of_true (able.mpr slot) (by omega)
  · change (after.issued ++ [i]).Nodup
    rw [issued]
    exact (List.perm_append_singleton i _).nodup_iff.mpr (List.nodup_cons.mpr ⟨unissued, once⟩)
  · rw [issued]

variable [DecidableEq OpClass]

/-- The instruction at the top of a class is dropped when it is squashed, is passed over when every
unit for it is busy, and is issued else. -/
theorem examine_spec (flight : Flight config s) (able : s.ableToIssue = true) (unissued : i ∉ s.issued) (c : OpClass)
    (n : ℕ) :
    (s.squashed i = true ∧ State.examine config c i (s, n) = some (.squashed, s, n)) ∨
    (s.squashed i = false ∧ ∃ after, State.examine config c i (s, n) = some (.busy, after, n) ∧
      AllBusy config after.fuPool c ∧ Kept s after ∧ Flight config after ∧ after.issued = s.issued ∧
      weight after = weight s) ∨
    (s.squashed i = false ∧ ∃ after, State.examine config c i (s, n) = some (.issued, after, n + 1) ∧
      Kept s after ∧ Flight config after ∧ after.issued = s.issued ++ [i] ∧ weight after ≤ weight s + 4) := by
  have slot := flight.able.mp able
  cases isSquashed : s.squashed i with
  | true => exact .inl ⟨rfl, if_pos isSquashed⟩
  | false =>
      refine .inr ?_
      have stands : ¬s.squashed i = true := by simp [isSquashed]
      -- an instruction that has its unit, or needs none, in the pool that is left
      have granted (idx : UnitIndex) (fuPool : FUPool OpClass) (notBusy : idx ≠ .allBusy)
          (given : (if c = config.noOpClass then some (.notProvided, s.fuPool) else s.fuPool.getUnit c) =
            some (idx, fuPool))
          (units : ∀ c, (fuPool.fuPerCapList c).funcUnitsIdx = (s.fuPool.fuPerCapList c).funcUnitsIdx)
          (busy : ∀ fu, s.fuPool.unitBusy fu = true → fuPool.unitBusy fu = true)
          (toBeFreed : fuPool.unitsToBeFreed = s.fuPool.unitsToBeFreed)
          (sends : ∃ after, ({ s with fuPool := fuPool } : State OpClass).send c i idx = some after ∧
            Sent { s with fuPool := fuPool } i after) :
          ∃ after, State.examine config c i (s, n) = some (.issued, after, n + 1) ∧
            Kept s after ∧ Flight config after ∧ after.issued = s.issued ++ [i] ∧ weight after ≤ weight s + 4 := by
        obtain ⟨after, ran, sent⟩ := sends
        obtain ⟨issued, slotted, flightAfter, state⟩ := sent.flight config flight.placed
          flight.outstanding flight.able flight.once unissued slot
        refine ⟨issued, ?_, ⟨?_, ?_, fun c => ?_, fun fu isBusy => ?_⟩, flightAfter, ?_, ?_⟩
        · rw [State.examine]
          simp only [if_neg stands, given, Option.bind_some, if_neg notBusy, ran, slotted, Option.map_some]
        · rw [state, sent.state]
        · rw [state, sent.state]
        · rw [state]
          exact (congrFun sent.units c ▸ units c :)
        · rw [state]
          exact (congrFun sent.busy fu).trans (busy fu isBusy)
        · rw [state]
        · have heavier := sent.heavier
          rw [state]
          simp only [weight, toBeFreed] at heavier ⊢
          exact heavier
      by_cases noOp : c = config.noOpClass
      · exact .inr ⟨rfl, granted .notProvided s.fuPool nofun (if_pos noOp) (fun _ => rfl) (fun _ => id) rfl
          (send_direct flight.wired flight.held c i)⟩
      · obtain ⟨answer, pool, asked, answered, wired⟩ := getUnit_answered flight.wired c
        have given : (if c = config.noOpClass then some (UnitIndex.notProvided, s.fuPool) else s.fuPool.getUnit c) =
            some (answer, pool) := (if_neg noOp).trans asked
        have held := answered.keeps_held flight.held
        cases answer with
        | notProvided =>
            exact .inr ⟨rfl, granted .notProvided pool nofun given answered.units (fun _ => answered.busy)
              answered.toBeFreed (send_direct wired held c i)⟩
        | unit fu =>
            exact .inr ⟨rfl, granted (.unit fu) pool nofun given answered.units (fun _ => answered.busy)
              answered.toBeFreed (send_unit wired held c i)⟩
        | allBusy =>
            have kept : Kept s { s with fuPool := pool } := ⟨rfl, rfl, answered.units, fun _ => answered.busy⟩
            refine .inl ⟨rfl, { s with fuPool := pool }, ?_, AllBusy.mono ⟨noOp, ?_, answered.all_busy⟩ kept, kept, ?_,
              rfl, by rw [weight, weight, answered.toBeFreed]⟩
            · rw [State.examine]
              simp only [if_neg stands, given, Option.bind_some, if_true]
            · intro empty
              rw [FUPool.getUnit, if_pos empty] at asked
              cases asked
            · exact ⟨wired, held, flight.placed, flight.outstanding, flight.bounded, flight.able, flight.once⟩

end Examine

/-! ## A pass of scheduleReadyInsts -/

section Pass

variable {OpClass : Type} [DecidableEq OpClass] {config : Config OpClass} {start s after : State OpClass}
  {q moved_q : ReadyQueues OpClass} {new younger : List ℕ} {before rest moved : List (ListOrderEntry OpClass)}
  {entry : ListOrderEntry OpClass} {n : ℕ}

/-- Within a pass that has issued `new`: the classes before the iterator have no free unit, and those
behind it have only younger instructions. -/
structure Passing (config : Config OpClass) (start : State OpClass) (new : List ℕ)
    (before rest : List (ListOrderEntry OpClass)) (q : ReadyQueues OpClass) (s : State OpClass) :
    Prop where
  opClass : s.opClass = start.opClass
  squashed : s.squashed = start.squashed
  flight : Flight config s
  queued : Queued q s
  passedOver : ∀ e ∈ before, AllBusy config s.fuPool e.queueType
  issued : s.issued = start.issued ++ new
  increasing : new.Pairwise (· < ·)
  older : ∀ i ∈ new, ∀ e ∈ rest, i ≤ e.oldestInst
  chosen : ∀ i ∈ new, start.squashed i = false ∧ i ∈ start.ready.readyInsts (start.opClass i)
  kept : ∀ c, ∀ i ∈ start.ready.readyInsts c, start.squashed i = true ∨ i ∈ new ∨ i ∈ q.readyInsts c
  fewer : ∀ c, ∀ i ∈ q.readyInsts c, i ∈ start.ready.readyInsts c
  lighter : 5 * q.rounds (before ++ rest) + weight s + new.length ≤ left start
  idle : new = [] → weight s ≤ weight start

theorem taken_rounds (ordered : Ordered none { q with listOrder := before ++ entry :: rest })
    (taken : Taken before entry rest younger q moved moved_q) :
    moved_q.rounds (before ++ moved) < q.rounds (before ++ entry :: rest) := by
  have others : ∀ e ∈ before, e.queueType ≠ entry.queueType := fun e member same => by
    have classes := ordered.classes
    rw [List.map_append] at classes
    exact (List.nodup_append.mp classes).2.2 _ (List.mem_map_of_mem member) entry.queueType
      (List.mem_map_of_mem List.mem_cons_self) same
  have lower := taken.rounds
  rw [rounds_append, rounds_append, rounds_of_others taken.readyInsts others]
  omega

/-- Taking the top of a class off its queue. -/
theorem Queued.take (queued : Queued q s) (after : State OpClass)
    (ready : q.readyInsts entry.queueType = entry.oldestInst :: younger)
    (taken : moved_q.readyInsts = Function.update q.readyInsts entry.queueType younger)
    (sameClass : after.opClass = s.opClass)
    (issued : ∀ i ∈ after.issued, i ∈ s.issued ∨ i = entry.oldestInst) : Queued moved_q after ∧
      (∀ c, ∀ i ∈ moved_q.readyInsts c, i ∈ q.readyInsts c) ∧
      ∀ c, ∀ i ∈ q.readyInsts c, i = entry.oldestInst ∨ i ∈ moved_q.readyInsts c := by
  have single := queued.once entry.queueType
  rw [ready] at single
  obtain ⟨away, single⟩ := List.nodup_cons.mp single
  have here : moved_q.readyInsts entry.queueType = younger := by rw [taken, Function.update_self]
  have elsewhere (c : OpClass) (differs : c ≠ entry.queueType) :
      moved_q.readyInsts c = q.readyInsts c := by
    rw [taken, Function.update_of_ne differs]
  have fewer (c : OpClass) (i : ℕ) (member : i ∈ moved_q.readyInsts c) : i ∈ q.readyInsts c := by
    by_cases same : c = entry.queueType
    · rw [same, here] at member
      rw [same, ready]
      exact List.mem_cons_of_mem _ member
    · rwa [elsewhere c same] at member
  refine ⟨⟨fun c i member => ?_, fun c i member wasIssued => ?_, fun c => ?_⟩, fewer, fun c i member => ?_⟩
  · rw [sameClass]
    exact queued.classes c i (fewer c i member)
  · obtain old | rfl := issued i wasIssued
    · exact queued.unissued c i (fewer c i member) old
    · have isClass := queued.classes c _ (fewer c _ member)
      have topClass := queued.classes entry.queueType entry.oldestInst (ready ▸ List.mem_cons_self)
      rw [← isClass, topClass, here] at member
      exact away member
  · by_cases same : c = entry.queueType
    · rw [same, here]
      exact single
    · rw [elsewhere c same]
      exact queued.once c
  · by_cases same : c = entry.queueType
    · rw [same, ready] at member
      rw [same, here]
      exact List.mem_cons.mp member
    · rw [elsewhere c same]
      exact .inr member

theorem Passing.squashed_top (ordered : Ordered none { q with listOrder := before ++ entry :: rest })
    (passing : Passing config start new before (entry :: rest) q s)
    (ready : q.readyInsts entry.queueType = entry.oldestInst :: younger)
    (isSquashed : s.squashed entry.oldestInst = true) (taken : Taken before entry rest younger q moved moved_q) :
    Passing config start new before moved moved_q s := by
  obtain ⟨queued, fewer, still⟩ := passing.queued.take s ready taken.readyInsts rfl fun i => .inl
  refine ⟨passing.opClass, passing.squashed, passing.flight, queued, passing.passedOver, passing.issued,
    passing.increasing, ?_, passing.chosen, ?_, fun c i member => passing.fewer c i (fewer c i member), ?_,
    passing.idle⟩
  · exact fun i member e later => (passing.older i member entry List.mem_cons_self).trans (taken.later e later)
  · intro c i member
    obtain wasSquashed | isNew | waits := passing.kept c i member
    · exact .inl wasSquashed
    · exact .inr (.inl isNew)
    · obtain rfl | waits := still c i waits
      · exact .inl (passing.squashed ▸ isSquashed)
      · exact .inr (.inr waits)
  · have lower := taken_rounds ordered taken
    have lighter := passing.lighter
    omega

omit [DecidableEq OpClass] in
theorem Passing.passed_over (passing : Passing config start new before (entry :: rest) q s) (kept : Kept s after)
    (flight : Flight config after) (busy : AllBusy config after.fuPool entry.queueType)
    (sameIssued : after.issued = s.issued) (sameWeight : weight after = weight s) :
    Passing config start new (before ++ [entry]) rest q after := by
  refine ⟨kept.opClass.trans passing.opClass, kept.squashed.trans passing.squashed, flight,
    ⟨?_, ?_, passing.queued.once⟩, ?_, sameIssued.trans passing.issued, passing.increasing, ?_, passing.chosen, passing.kept, passing.fewer, ?_,
    fun none => sameWeight ▸ passing.idle none⟩
  · rw [kept.opClass]
    exact passing.queued.classes
  · rw [sameIssued]
    exact passing.queued.unissued
  · intro e member
    obtain member | isEntry := List.mem_append.mp member
    · exact (passing.passedOver e member).mono kept
    · exact List.mem_singleton.mp isEntry ▸ busy
  · exact fun i member e later => passing.older i member e (List.mem_cons_of_mem entry later)
  · rw [List.append_assoc, List.singleton_append, sameWeight]
    exact passing.lighter

theorem Passing.issue (ordered : Ordered none { q with listOrder := before ++ entry :: rest })
    (passing : Passing config start new before (entry :: rest) q s)
    (ready : q.readyInsts entry.queueType = entry.oldestInst :: younger)
    (stands : s.squashed entry.oldestInst = false) (kept : Kept s after) (flight : Flight config after)
    (isIssued : after.issued = s.issued ++ [entry.oldestInst]) (heavier : weight after ≤ weight s + 4)
    (taken : Taken before entry rest younger q moved moved_q) :
    Passing config start (new ++ [entry.oldestInst]) before moved moved_q after := by
  have atTop : entry.oldestInst ∈ q.readyInsts entry.queueType := ready ▸ List.mem_cons_self
  have wasReady := passing.fewer _ _ atTop
  obtain ⟨queued, fewer, still⟩ := passing.queued.take after ready taken.readyInsts kept.opClass fun i member => by
    rw [isIssued] at member
    exact (List.mem_append.mp member).imp_right List.mem_singleton.mp
  refine ⟨kept.opClass.trans passing.opClass, kept.squashed.trans passing.squashed, flight, queued,
    fun e member => (passing.passedOver e member).mono kept, ?_, ?_, ?_, ?_, ?_,
    fun c i member => passing.fewer c i (fewer c i member), ?_, fun none => absurd none (by simp)⟩
  · rw [isIssued, passing.issued, List.append_assoc]
  · -- it is the oldest one of what is left on the list, and so younger than what the pass has issued
    refine List.pairwise_append.mpr ⟨passing.increasing, List.pairwise_singleton _ _, fun i member j isTop => ?_⟩
    rw [List.mem_singleton.mp isTop]
    refine lt_of_le_of_ne (passing.older i member entry List.mem_cons_self) ?_
    rintro rfl
    exact passing.queued.unissued _ _ atTop (passing.issued ▸ List.mem_append_right _ member)
  · intro i member e later
    obtain member | isTop := List.mem_append.mp member
    · exact (passing.older i member entry List.mem_cons_self).trans (taken.later e later)
    · exact List.mem_singleton.mp isTop ▸ taken.later e later
  · intro i member
    obtain member | isTop := List.mem_append.mp member
    · exact passing.chosen i member
    · rw [List.mem_singleton.mp isTop, ← passing.squashed, ← passing.opClass, passing.queued.classes _ _ atTop]
      exact ⟨stands, wasReady⟩
  · intro c i member
    obtain wasSquashed | isNew | waits := passing.kept c i member
    · exact .inl wasSquashed
    · exact .inr (.inl (List.mem_append_left _ isNew))
    · obtain rfl | waits := still c i waits
      · exact .inr (.inl (List.mem_append_right _ (List.mem_singleton_self _)))
      · exact .inr (.inr waits)
  · have lower := taken_rounds ordered taken
    have lighter := passing.lighter
    rw [List.length_append, List.length_singleton]
    omega

/-- What a pass does: the instructions that it issues are ready ones in their order, and one that is
left behind them, or beside a free slot, has no free unit. -/
structure Scheduled (config : Config OpClass) (s : State OpClass) (new : List ℕ) (after : State OpClass) : Prop where
  squashed : after.squashed = s.squashed
  issued : after.issued = s.issued ++ new
  increasing : new.Pairwise (· < ·)
  chosen : ∀ i ∈ new, s.squashed i = false ∧ i ∈ s.ready.readyInsts (s.opClass i)
  within : new.length ≤ config.totalWidth
  kept : ∀ c, ∀ i ∈ s.ready.readyInsts c, s.squashed i = true ∨ i ∈ new ∨ i ∈ after.ready.readyInsts c
  oldestFirst : ∀ c, ∀ i ∈ after.ready.readyInsts c, ∀ j ∈ new, i < j → AllBusy config after.fuPool c
  filled : new.length < config.totalWidth → after.ableToIssue = true →
    ∀ c, ∀ _i ∈ after.ready.readyInsts c, AllBusy config after.fuPool c

omit [DecidableEq OpClass] in
theorem oldest_le (ordered : Ordered none q) {c : OpClass} {i : ℕ} (member : i ∈ q.readyInsts c) :
    ∃ e ∈ q.listOrder, e.queueType = c ∧ e.oldestInst ≤ i := by
  obtain ⟨e, listed, rfl⟩ := ordered.queued c nofun (List.ne_nil_of_mem member)
  refine ⟨e, listed, rfl, ?_⟩
  obtain ⟨younger, queue⟩ := List.head?_eq_some_iff.mp (ordered.current e listed).2.2
  have increasing := ordered.increasing e.queueType
  rw [queue] at increasing member
  obtain rfl | later := List.mem_cons.mp member
  · exact le_rfl
  · exact (List.pairwise_cons.mp increasing).1 i later

def InPass (config : Config OpClass) (start : State OpClass) (before rest : List (ListOrderEntry OpClass))
    (q : ReadyQueues OpClass) (pass : State OpClass × ℕ) : Prop :=
  ∃ new : List ℕ, pass.2 = new.length ∧ new.length ≤ config.totalWidth ∧
    Passing config start new before rest q pass.1

/-- One round of the loop. -/
theorem InPass.round {pass : State OpClass × ℕ}
    (ordered : Ordered none { q with listOrder := before ++ entry :: rest })
    (inPass : InPass config start before (entry :: rest) q pass)
    (goesOn : (decide (pass.2 < config.totalWidth) && pass.1.ableToIssue) = true)
    (ready : q.readyInsts entry.queueType = entry.oldestInst :: younger) :
    ∃ outcome after, State.examine config entry.queueType entry.oldestInst pass = some (outcome, after) ∧
      (outcome = .busy → InPass config start (before ++ [entry]) rest q after) ∧
      (outcome ≠ .busy → ∀ moved taken, Taken before entry rest younger q moved taken →
        InPass config start before moved taken after) := by
  obtain ⟨s, n⟩ := pass
  obtain ⟨new, count, within, passing⟩ := inPass
  obtain ⟨room, able⟩ := Bool.and_eq_true_iff.mp goesOn
  have atTop : entry.oldestInst ∈ q.readyInsts entry.queueType := ready ▸ List.mem_cons_self
  obtain ⟨isSquashed, ran⟩ | ⟨_, after, ran, busy, kept, flight, same, light⟩ |
      ⟨stands, after, ran, kept, flight, isIssued, heavier⟩ :=
    examine_spec passing.flight able (passing.queued.unissued _ _ atTop) entry.queueType n
  · refine ⟨_, _, ran, nofun, fun _ moved taken isTaken => ⟨new, count, within, ?_⟩⟩
    exact passing.squashed_top ordered ready isSquashed isTaken
  · refine ⟨_, _, ran, fun _ => ⟨new, count, within, ?_⟩, fun differs => absurd rfl differs⟩
    exact passing.passed_over kept flight busy same light
  · have below : n < config.totalWidth := of_decide_eq_true room
    have longer : (new ++ [entry.oldestInst]).length = n + 1 := by
      rw [List.length_append, List.length_singleton, ← count]
    refine ⟨_, _, ran, nofun, fun _ moved taken isTaken => ⟨new ++ [entry.oldestInst], longer.symm, ?_, ?_⟩⟩
    · rw [longer]
      exact below
    · exact passing.issue ordered ready stands kept flight isIssued heavier isTaken

theorem scheduleReadyInsts_spec (sound : Sound config s) :
    ∃ new after, s.scheduleReadyInsts config = some after ∧ Sound config after ∧ Scheduled config s new after ∧
      left after + new.length ≤ left s ∧ (new = [] → weight after ≤ weight s) := by
  have started : InPass config s [] s.ready.listOrder s.ready (s, 0) :=
    ⟨[], rfl, Nat.zero_le _, rfl, rfl, sound.flight, sound.queued, nofun, (List.append_nil _).symm, List.Pairwise.nil,
      nofun, nofun, fun _ _ member => .inr (.inr member), fun _ _ => id, Nat.le_refl _, fun _ => Nat.le_refl _⟩
  obtain ⟨front, back, q, ⟨s', n⟩, ran, ordered, ⟨new, count, within, passing⟩, ended⟩ := scheduleFrom_rule
    (fun pass : State OpClass × ℕ => decide (pass.2 < config.totalWidth) && pass.1.ableToIssue)
    (State.examine config) (InPass config s)
    (fun before entry rest q pass younger goesOn ordered inPass ready => inPass.round ordered goesOn ready)
    (Nat.lt_succ_self _) sound.ordered started
  have entry_of {c : OpClass} {i : ℕ} (member : i ∈ q.readyInsts c) :
      ∃ e ∈ front ++ back, e.queueType = c ∧ e.oldestInst ≤ i := oldest_le ordered member
  refine ⟨new, { s' with ready := { q with listOrder := front ++ back } }, ?_, ⟨ordered, ?_, ?_⟩,
    ⟨passing.squashed, passing.issued, passing.increasing, passing.chosen, within, passing.kept, ?_, ?_⟩, ?_,
    passing.idle⟩
  · rw [State.scheduleReadyInsts, ReadyQueues.schedule, ran]
    rfl
  · exact ⟨passing.queued.classes, passing.queued.unissued, passing.queued.once⟩
  · obtain ⟨wired, held, placed, outstanding, bounded, able, once⟩ := passing.flight
    exact ⟨wired, held, placed, outstanding, bounded, able, once⟩
  · intro c i member j isNew younger
    obtain ⟨e, listed, rfl, oldest⟩ := entry_of member
    obtain inFront | inBack := List.mem_append.mp listed
    · exact passing.passedOver e inFront
    · exact absurd ((passing.older j isNew e inBack).trans oldest) (Nat.not_le_of_lt younger)
  · intro room able c i member
    have atEnd : back = [] := ended.resolve_right fun stopped => by
      rw [← count] at room
      simp only [decide_eq_true room, Bool.true_and] at stopped
      exact absurd (stopped.symm.trans able) nofun
    obtain ⟨e, listed, rfl, _⟩ := entry_of member
    rw [atEnd, List.append_nil] at listed
    exact passing.passedOver e listed
  · have lighter := passing.lighter
    rw [← rounds_congr { q with listOrder := front ++ back } q rfl] at lighter
    exact lighter

end Pass

/-! ## Steps and runs -/

section Steps

variable {OpClass : Type} [DecidableEq OpClass] {config : Config OpClass} {s after : State OpClass} {seqNum event : ℕ}

structure Same (s after : State OpClass) : Prop where
  ready : after.ready = s.ready
  issued : after.issued = s.issued
  squashed : after.squashed = s.squashed

theorem Sound.addIfReady (sound : Sound config s) (ready : Ready s (.addIfReady seqNum)) :
    ∃ after, s.addIfReady seqNum = some after ∧ Sound config after := by
  obtain ⟨notWaiting, unissued⟩ := ready
  obtain ⟨queues, added, ordered, readyInsts⟩ := sound.ordered.addReady (s.opClass seqNum) seqNum
  have here : queues.readyInsts (s.opClass seqNum) =
      (s.ready.readyInsts (s.opClass seqNum)).orderedInsert (· ≤ ·) seqNum := by
    rw [readyInsts, Function.update_self]
  have elsewhere (c : OpClass) (differs : c ≠ s.opClass seqNum) :
      queues.readyInsts c = s.ready.readyInsts c := by
    rw [readyInsts, Function.update_of_ne differs]
  have cases_mem {c : OpClass} {i : ℕ} (member : i ∈ queues.readyInsts c) :
      i = seqNum ∧ c = s.opClass seqNum ∨ i ∈ s.ready.readyInsts c := by
    by_cases same : c = s.opClass seqNum
    · rw [same, here, List.mem_orderedInsert] at member
      exact member.imp (fun isNew => ⟨isNew, same⟩) fun old => same ▸ old
    · exact .inr (elsewhere c same ▸ member)
  refine ⟨{ s with ready := queues }, by rw [State.addIfReady, added, Option.map_some], ordered, ⟨?_, ?_, ?_⟩, ?_⟩
  · intro c i member
    obtain ⟨rfl, rfl⟩ | old := cases_mem member
    · rfl
    · exact sound.queued.classes c i old
  · intro c i member
    obtain ⟨rfl, _⟩ | old := cases_mem member
    · exact unissued
    · exact sound.queued.unissued c i old
  · intro c
    change (queues.readyInsts c).Nodup
    by_cases same : c = s.opClass seqNum
    · rw [same, here, (List.perm_orderedInsert _ _ _).nodup_iff]
      exact List.nodup_cons.mpr ⟨notWaiting, sound.queued.once _⟩
    · rw [elsewhere c same]
      exact sound.queued.once c
  · obtain ⟨wired, held, placed, outstanding, bounded, able, once⟩ := sound.flight
    exact ⟨wired, held, placed, outstanding, bounded, able, once⟩

omit [DecidableEq OpClass] in
/-- A completion hands its instruction on, and its unit back. -/
theorem Sound.processFUCompletion (sound : Sound config s) (ready : event < s.completions.length) :
    ∃ after, s.processFUCompletion event = some after ∧ Sound config after ∧ Same s after ∧ weight after < weight s := by
  obtain ⟨ordered, ⟨classes, unissued, single⟩, wired, held, placed, outstanding, bounded, able, once⟩ := sound
  obtain ⟨⟨i, fu⟩, isEvent⟩ : ∃ completion, s.completions[event]? = some completion :=
    ⟨_, List.getElem?_eq_getElem ready⟩
  have taken : ((i, fu) :: s.completions.eraseIdx event).Perm s.completions := by
    have isThere := List.getElem_cons_eraseIdx_perm ready
    rwa [(List.getElem?_eq_some_iff.mp isEvent).2] at isThere
  have heldBefore := held.perm (taken.filterMap (·.2)).symm
  obtain ⟨pool, freed, rewired, heldAfter, atMost⟩ : ∃ pool,
      (match fu with
        | some fu => s.fuPool.freeUnitNextCycle fu
        | none => some s.fuPool) = some pool ∧ Wired pool ∧
      Held ((s.completions.eraseIdx event).filterMap (·.2)) pool ∧
      pool.unitsToBeFreed.length ≤ s.fuPool.unitsToBeFreed.length + 1 := by
    cases fu with
    | none => exact ⟨s.fuPool, rfl, wired, heldBefore, Nat.le_succ _⟩
    | some fu =>
        obtain ⟨freed, heldAfter⟩ := freeUnitNextCycle_held heldBefore
        exact ⟨_, freed, wired.congr rfl rfl, heldAfter, by simp⟩
  have lengths := taken.length_eq
  rw [List.length_cons] at lengths
  refine ⟨{ s with
      fuPool := pool
      completions := s.completions.eraseIdx event
      instsToExecute := s.instsToExecute ++ [i] }, ?_, ⟨ordered, ⟨classes, unissued, single⟩,
    rewired, heldAfter, ?_, ?_, bounded, able, once⟩, ⟨rfl, rfl, rfl⟩, ?_⟩
  · simp only [State.processFUCompletion, isEvent, freed, Option.map_some]
  · refine List.Perm.trans (List.Perm.append_right _ ?_) placed
    refine (placed_last _ _ i).trans ?_
    rw [← List.cons_append]
    exact (taken.map (·.1)).append_right _
  · change s.wbOutstanding = (s.completions.eraseIdx event).length + (s.instsToExecute ++ [i]).length
    rw [List.length_append, List.length_singleton]
    omega
  · simp only [weight, List.length_append, List.length_singleton]
    omega

omit [DecidableEq OpClass] in
theorem Sound.processFreeUnits (sound : Sound config s) :
    ∃ after, s.processFreeUnits = some after ∧ Sound config after ∧ after.fuPool.unitsToBeFreed = [] ∧
      after.completions = s.completions ∧ after.instsToExecute = s.instsToExecute ∧ Same s after := by
  obtain ⟨ordered, ⟨classes, unissued, single⟩, wired, held, placed, outstanding, bounded, able, once⟩ := sound
  obtain ⟨pool, freed, heldAfter, none_left, units, number⟩ := processFreeUnits_held held
  refine ⟨{ s with fuPool := pool }, by rw [State.processFreeUnits, freed, Option.map_some], ⟨ordered,
    ⟨classes, unissued, single⟩, wired.congr units number, heldAfter, placed, outstanding, bounded, able, once⟩,
    none_left, rfl, rfl, rfl, rfl, rfl⟩

omit [DecidableEq OpClass] in
/-- Writing an instruction back frees its slot. -/
theorem Sound.writeback (sound : Sound config s) (ready : s.instsToExecute ≠ []) :
    ∃ after, s.writeback config = some after ∧ Sound config after ∧ Same s after ∧ weight after < weight s := by
  obtain ⟨ordered, ⟨classes, unissued, single⟩, wired, held, placed, outstanding, bounded, able, once⟩ := sound
  obtain ⟨i, rest, isHead⟩ := List.exists_cons_of_ne_nil ready
  rw [isHead] at placed outstanding
  rw [List.length_cons] at outstanding
  have some_outstanding : s.wbOutstanding ≠ 0 := by omega
  refine ⟨{ s with
      instsToExecute := rest
      writtenBack := s.writtenBack ++ [i]
      wbOutstanding := s.wbOutstanding - 1
      ableToIssue := if s.wbOutstanding = config.wbMax then true else s.ableToIssue }, ?_, ⟨ordered,
    ⟨classes, unissued, single⟩, wired, held, ?_, ?_, ?_, ?_, once⟩, ⟨rfl, rfl, rfl⟩, ?_⟩
  · simp only [State.writeback, isHead, State.decrWb, if_neg some_outstanding]
  · refine List.Perm.trans ?_ placed
    change (s.completions.map (·.1) ++ rest ++ (s.writtenBack ++ [i])).Perm _
    rw [List.append_assoc, List.append_assoc, List.cons_append]
    refine List.Perm.append_left _ ?_
    rw [← List.append_assoc]
    exact List.perm_append_singleton i _
  · change s.wbOutstanding - 1 = s.completions.length + rest.length
    omega
  · exact (Nat.sub_le _ 1).trans bounded
  · change (if s.wbOutstanding = config.wbMax then true else s.ableToIssue) = true ↔ s.wbOutstanding - 1 < config.wbMax
    split
    · exact iff_of_true rfl (by omega)
    · exact iff_of_true (able.mpr (by omega)) (by omega)
  · simp only [weight, isHead, List.length_cons]
    omega

theorem step_sound (sound : Sound config s) {action : Action} (ready : Ready s action) :
    ∃ after, step config s action = some after ∧ Sound config after := by
  cases action with
  | addIfReady seqNum => exact sound.addIfReady ready
  | squash squashed youngest =>
      obtain ⟨ordered, ⟨classes, unissued, single⟩, wired, held, placed, outstanding, bounded, able, once⟩ := sound
      exact ⟨_, rfl, ordered, ⟨classes, unissued, single⟩, wired, held, placed, outstanding, bounded, able, once⟩
  | scheduleReadyInsts =>
      obtain ⟨_, after, ran, soundAfter, _⟩ := scheduleReadyInsts_spec sound
      exact ⟨after, ran, soundAfter⟩
  | processFUCompletion event =>
      obtain ⟨after, ran, soundAfter, _⟩ := sound.processFUCompletion ready
      exact ⟨after, ran, soundAfter⟩
  | processFreeUnits =>
      obtain ⟨after, ran, soundAfter, _⟩ := sound.processFreeUnits
      exact ⟨after, ran, soundAfter⟩
  | writeback =>
      obtain ⟨after, ran, soundAfter, _⟩ := sound.writeback ready
      exact ⟨after, ran, soundAfter⟩

def Own : Action → Prop
  -- what the queue does by itself, without new instructions
  | .addIfReady _ | .squash _ _ => False
  | _ => True

structure Idle (s : State OpClass) : Prop where
  completions : s.completions = []
  instsToExecute : s.instsToExecute = []
  unitsToBeFreed : s.fuPool.unitsToBeFreed = []
  listOrder : s.ready.listOrder = []

structure Onward (s after : State OpClass) : Prop where
  squashed : after.squashed = s.squashed
  issued : ∀ i ∈ s.issued, i ∈ after.issued
  waiting : ∀ c, ∀ i ∈ s.ready.readyInsts c, s.squashed i = true ∨ i ∈ after.issued ∨ i ∈ after.ready.readyInsts c

omit [DecidableEq OpClass] in
theorem Same.onward (same : Same s after) : Onward s after := by
  refine ⟨same.squashed, ?_, ?_⟩
  · rw [same.issued]
    exact fun _ => id
  · rw [same.ready]
    exact fun c i member => .inr (.inr member)

omit [DecidableEq OpClass] in
theorem Same.left_lt (same : Same s after) (lighter : weight after < weight s) :
    left after < left s := by
  rw [left, left, same.ready]
  omega

omit [DecidableEq OpClass] in
theorem Onward.trans {next : State OpClass} (first : Onward s after) (second : Onward after next) :
    Onward s next := by
  refine ⟨second.squashed.trans first.squashed, fun i member => second.issued i (first.issued i member), ?_⟩
  intro c i member
  obtain isSquashed | issued | waits := first.waiting c i member
  · exact .inl isSquashed
  · exact .inr (.inl (second.issued i issued))
  · exact (second.waiting c i waits).imp_left fun isSquashed => first.squashed ▸ isSquashed

omit [DecidableEq OpClass] in
theorem weight_eq_zero : weight s = 0 ↔
    s.completions = [] ∧ s.instsToExecute = [] ∧ s.fuPool.unitsToBeFreed = [] := by
  simp [weight, and_assoc]

theorem Sound.scheduled_onward (sound : Sound config s) (width : 0 < config.totalWidth) (slots : 0 < config.wbMax)
    (nothing : weight s = 0) (some_left : s.ready.listOrder ≠ []) :
    ∃ after, s.scheduleReadyInsts config = some after ∧ Sound config after ∧ Onward s after ∧ left after < left s := by
  obtain ⟨new, after, ran, soundAfter, spec, lighter, idle⟩ := scheduleReadyInsts_spec sound
  refine ⟨after, ran, soundAfter, ⟨spec.squashed, ?_, ?_⟩, ?_⟩
  · rw [spec.issued]
    exact fun i => List.mem_append_left new
  · intro c i member
    rw [spec.issued]
    exact (spec.kept c i member).imp_right (Or.imp_left (List.mem_append_right s.issued))
  · obtain isNil | some_new := List.eq_nil_or_concat new
    · -- no unit is busy, so that no class is left on the list
      have still := Nat.le_zero.mp (nothing ▸ idle isNil)
      have flight := soundAfter.flight
      obtain ⟨noCompletions, noInsts, noUnits⟩ := weight_eq_zero.mp still
      have outstanding := flight.outstanding
      rw [noCompletions, noInsts] at outstanding
      have able := flight.able.mpr (outstanding ▸ slots)
      have unlisted : after.ready.listOrder = [] := by
        refine List.eq_nil_iff_forall_not_mem.mpr fun e member => ?_
        have head := (soundAfter.ordered.current e member).2.2
        have waits : e.oldestInst ∈ after.ready.readyInsts e.queueType := List.mem_of_mem_head? head
        obtain ⟨_, some_unit, busy⟩ := spec.filled (isNil ▸ width) able e.queueType e.oldestInst waits
        obtain ⟨fu, isUnit⟩ := List.exists_mem_of_ne_nil _ some_unit
        have isHeld := (flight.held.busy fu).mp (busy fu isUnit)
        rw [noUnits, noCompletions] at isHeld
        exact absurd isHeld List.not_mem_nil
      obtain ⟨entry, rest, isList⟩ := List.exists_cons_of_ne_nil some_left
      rw [left, left, unlisted, still, isList, ReadyQueues.rounds, ReadyQueues.rounds]
      omega
    · obtain ⟨front, last, rfl⟩ := some_new
      rw [List.length_concat] at lighter
      omega

theorem Sound.onward (sound : Sound config s) (width : 0 < config.totalWidth) (slots : 0 < config.wbMax) :
    Idle s ∨ ∃ action after, (Ready s action ∧ Own action) ∧ step config s action = some after ∧
      (Sound config after ∧ Onward s after) ∧ left after < left s := by
  by_cases noCompletions : s.completions = []
  · by_cases noInsts : s.instsToExecute = []
    · by_cases noUnits : s.fuPool.unitsToBeFreed = []
      · by_cases unlisted : s.ready.listOrder = []
        · exact .inl ⟨noCompletions, noInsts, noUnits, unlisted⟩
        · have nothing := weight_eq_zero.mpr ⟨noCompletions, noInsts, noUnits⟩
          obtain ⟨after, ran, soundAfter, onward, lower⟩ := sound.scheduled_onward width slots nothing unlisted
          exact .inr ⟨.scheduleReadyInsts, after, ⟨trivial, trivial⟩, ran, ⟨soundAfter, onward⟩, lower⟩
      · obtain ⟨after, ran, soundAfter, none_left, completions, insts, same⟩ := sound.processFreeUnits
        have lighter : weight after < weight s := by
          have some_units := List.length_pos_iff.mpr noUnits
          simp only [weight, none_left, completions, insts, List.length_nil]
          omega
        exact .inr ⟨.processFreeUnits, after, ⟨trivial, trivial⟩, ran, ⟨soundAfter, same.onward⟩, same.left_lt lighter⟩
    · obtain ⟨after, ran, soundAfter, same, lighter⟩ := sound.writeback noInsts
      exact .inr ⟨.writeback, after, ⟨noInsts, trivial⟩, ran, ⟨soundAfter, same.onward⟩, same.left_lt lighter⟩
  · have ready : 0 < s.completions.length := List.length_pos_iff.mpr noCompletions
    obtain ⟨after, ran, soundAfter, same, lighter⟩ := sound.processFUCompletion ready
    exact .inr ⟨.processFUCompletion 0, after, ⟨ready, trivial⟩, ran, ⟨soundAfter, same.onward⟩, same.left_lt lighter⟩

theorem init_sound {descs : List (FUDesc OpClass)} (distinct : ∀ desc ∈ descs, (desc.opDescList.map (·.opClass)).Nodup)
    (slots : 0 < config.wbMax) (opClass : ℕ → OpClass) : Sound config (init descs opClass) := by
  obtain ⟨wired, held⟩ := construct_wired distinct
  refine ⟨⟨List.Pairwise.nil, List.nodup_nil, List.nodup_nil, nofun, nofun, fun c _ => ?_,
    fun c _ some => absurd rfl some, fun _ => List.Pairwise.nil⟩, ⟨nofun, nofun, fun _ => List.nodup_nil⟩, wired, held, List.Perm.refl _, rfl,
    Nat.zero_le _, iff_of_true rfl slots, List.nodup_nil⟩
  refine iff_of_false nofun ?_
  rintro ⟨e, member, _⟩
  exact absurd member List.not_mem_nil

theorem run_sound {descs : List (FUDesc OpClass)} (distinct : ∀ desc ∈ descs, (desc.opDescList.map (·.opClass)).Nodup)
    (slots : 0 < config.wbMax) {opClass : ℕ → OpClass} {actions : List Action}
    (ready : EachStep (step config) Ready actions (init descs opClass))
    (ran : run (step config) actions (init descs opClass) = some s) : Sound config s := by
  refine run_preserves (fun s action next sound ready stepped => ?_) actions _ s
    (init_sound distinct slots opClass) ready ran
  obtain ⟨other, again, soundNext⟩ := step_sound sound ready
  cases again.symm.trans stepped
  exact soundNext

end Steps

/-! ## Main results -/

section Results

variable {OpClass : Type} [DecidableEq OpClass] {config : Config OpClass} {s : State OpClass}
  {descs : List (FUDesc OpClass)} {opClass : ℕ → OpClass} {actions : List Action}

/-- In every state that is reached, a pass of scheduleReadyInsts issues ready instructions in program
order, at most as many as the width; every instruction that was ready is issued, waits on or was
squashed. One that waits while a younger one was issued, or while there is room for another, has no
free unit. -/
theorem oldest_first (distinct : ∀ desc ∈ descs, (desc.opDescList.map (·.opClass)).Nodup) (slots : 0 < config.wbMax)
    (ready : EachStep (step config) Ready actions (init descs opClass))
    (ran : run (step config) actions (init descs opClass) = some s) :
    ∃ new after, s.scheduleReadyInsts config = some after ∧ Scheduled config s new after := by
  obtain ⟨new, after, scheduled, _, spec, _⟩ := scheduleReadyInsts_spec (run_sound distinct slots ready ran)
  exact ⟨new, after, scheduled, spec⟩

def smallDescs : List (FUDesc ℕ) := [⟨[⟨1, 1, 1⟩], 1⟩, ⟨[⟨2, 3, 3⟩, ⟨3, 4, 1⟩], 1⟩]

def smallConfig : Config ℕ := ⟨0, 3, 4⟩

def smallClass (seqNum : ℕ) : ℕ := if seqNum < 3 then 2 else if seqNum = 5 then 0 else 1

def smallSteps : List Action :=
  [.addIfReady 2, .addIfReady 1, .addIfReady 3, .addIfReady 4, .squash 3 4, .scheduleReadyInsts, .addIfReady 5]

theorem small_run :
    ∃ s, Admissible (step smallConfig) Ready smallSteps (init smallDescs smallClass) ∧
    run (step smallConfig) smallSteps (init smallDescs smallClass) = some s ∧
    s.squashed 4 = true ∧ s.squashed 5 = false ∧ s.ready.readyInsts 2 = [2] ∧ s.ready.readyInsts 0 = [5] ∧
    s.issued = [1, 3] ∧ s.completions = [(1, some 1)] := by
  have shown : (run (step smallConfig) smallSteps (init smallDescs smallClass)).map (fun s =>
      (s.squashed 4, s.squashed 5, s.ready.readyInsts 2, s.ready.readyInsts 0, s.issued, s.completions)) =
        some (true, false, [2], [5], [1, 3], [(1, some 1)]) := by rfl
  obtain ⟨s, ran, facts⟩ := Option.map_eq_some_iff.mp shown
  obtain ⟨marked, facts⟩ := Prod.ext_iff.mp facts
  obtain ⟨later, facts⟩ := Prod.ext_iff.mp facts
  obtain ⟨first, facts⟩ := Prod.ext_iff.mp facts
  obtain ⟨second, facts⟩ := Prod.ext_iff.mp facts
  obtain ⟨issued, completions⟩ := Prod.ext_iff.mp facts
  exact ⟨s, admissible_of_admits (by decide +kernel), ran, marked, later, first, second, issued, completions⟩

theorem small_pass_oldest_first : ∃ s new after,
    run (step smallConfig) smallSteps (init smallDescs smallClass) = some s ∧ s.squashed 4 = true ∧
    s.squashed 5 = false ∧ s.ready.readyInsts 2 = [2] ∧ s.ready.readyInsts 0 = [5] ∧
    s.scheduleReadyInsts smallConfig = some after ∧ Scheduled smallConfig s new after := by
  obtain ⟨s, ready, ran, marked, later, first, second, _⟩ := small_run
  obtain ⟨new, after, scheduled, spec⟩ := oldest_first (by decide) (by decide) ready.eachStep ran
  exact ⟨s, new, after, ran, marked, later, first, second, scheduled, spec⟩

/-- In every state that is reached, each issued instruction is at one place of those it comes through,
with a writeback slot until it is written back; a unit is busy while one completion holds it or until
the end of the cycle, and not longer. -/
theorem one_place_each (distinct : ∀ desc ∈ descs, (desc.opDescList.map (·.opClass)).Nodup) (slots : 0 < config.wbMax)
    (ready : EachStep (step config) Ready actions (init descs opClass))
    (ran : run (step config) actions (init descs opClass) = some s) :
    s.issued.Nodup ∧ (s.completions.map (·.1) ++ s.instsToExecute ++ s.writtenBack).Perm s.issued ∧
    s.wbOutstanding = s.completions.length + s.instsToExecute.length ∧ s.wbOutstanding ≤ config.wbMax ∧
    (s.ableToIssue = true ↔ s.wbOutstanding < config.wbMax) ∧
    (s.fuPool.unitsToBeFreed ++ s.completions.filterMap (·.2)).Nodup ∧
    (∀ fu, s.fuPool.unitBusy fu = true ↔ fu ∈ s.fuPool.unitsToBeFreed ++ s.completions.filterMap (·.2)) ∧
    ∃ after, s.processFreeUnits = some after ∧
      ∀ fu, after.fuPool.unitBusy fu = true ↔ fu ∈ s.completions.filterMap (·.2) := by
  have sound := run_sound distinct slots ready ran
  obtain ⟨after, freed, soundAfter, none_left, completions, _⟩ := sound.processFreeUnits
  have flight := sound.flight
  refine ⟨flight.once, flight.placed, flight.outstanding, flight.bounded, flight.able, flight.held.apart,
    flight.held.busy, after, freed, fun fu => ?_⟩
  rw [soundAfter.flight.held.busy, none_left, completions, List.nil_append]

theorem small_run_one_place :
    ∃ s, run (step smallConfig) smallSteps (init smallDescs smallClass) = some s ∧
    s.completions = [(1, some 1)] ∧ s.issued.Nodup ∧ ∃ after, s.processFreeUnits = some after ∧
      ∀ fu, after.fuPool.unitBusy fu = true ↔ fu ∈ s.completions.filterMap (·.2) := by
  obtain ⟨s, ready, ran, _, _, _, _, _, completions⟩ := small_run
  obtain ⟨once, _, _, _, _, _, _, freed⟩ := one_place_each (by decide) (by decide) ready.eachStep ran
  exact ⟨s, ran, completions, once, freed⟩

/-- No assertion of the issue queue fails, nor one of the units or of the writeback slots. -/
theorem issue_never_fails (distinct : ∀ desc ∈ descs, (desc.opDescList.map (·.opClass)).Nodup) (slots : 0 < config.wbMax)
    (ready : Admissible (step config) Ready actions (init descs opClass)) :
    ∃ s, run (step config) actions (init descs opClass) = some s := by
  obtain ⟨s, ran, _⟩ := run_completes (fun s action sound ready => step_sound sound ready) actions _
    (init_sound distinct slots opClass) ready
  exact ⟨s, ran⟩

theorem small_issue_never_fails :
    ∃ s, run (step smallConfig) smallSteps (init smallDescs smallClass) = some s := by
  obtain ⟨_, ready, _⟩ := small_run
  exact issue_never_fails (by decide) (by decide) ready

/-- No instruction waits for ever: without new ones, within a bounded number of steps every unsquashed
instruction that is ready has been issued and written back, in some order of completions. -/
theorem comes_to_writeback (distinct : ∀ desc ∈ descs, (desc.opDescList.map (·.opClass)).Nodup)
    (slots : 0 < config.wbMax) (width : 0 < config.totalWidth)
    (ready : EachStep (step config) Ready actions (init descs opClass))
    (ran : run (step config) actions (init descs opClass) = some s) :
    ∃ later reached, Admissible (step config) (fun s action => Ready s action ∧ Own action) later s ∧
      run (step config) later s = some reached ∧ later.length ≤ left s ∧
      (∀ c, reached.ready.readyInsts c = []) ∧ (∀ fu, reached.fuPool.unitBusy fu = false) ∧
      (∀ i ∈ s.issued, i ∈ reached.writtenBack) ∧
      ∀ c, ∀ i ∈ s.ready.readyInsts c, s.squashed i = true ∨ i ∈ reached.writtenBack := by
  have sound := run_sound distinct slots ready ran
  have start : Onward s s := ⟨rfl, fun _ => id, fun _ _ member => .inr (.inr member)⟩
  obtain ⟨later, reached, admissible, finished, ⟨soundReached, onward⟩, idle, short⟩ :=
    exists_admissible_run (fun t => Sound config t ∧ Onward s t) Idle (fun s action => Ready s action ∧ Own action) left
      (by
        rintro t ⟨soundT, before⟩
        obtain idle | ⟨action, after, met, stepped, ⟨soundAfter, next⟩, lower⟩ := soundT.onward width slots
        · exact .inl idle
        · exact .inr ⟨action, after, met, stepped, ⟨soundAfter, before.trans next⟩, lower⟩)
      s ⟨sound, start⟩
  have nothing_waits (c : OpClass) : reached.ready.readyInsts c = [] := by
    by_contra waits
    obtain ⟨e, listed, _⟩ := soundReached.ordered.queued c nofun waits
    exact absurd (idle.listOrder ▸ listed) List.not_mem_nil
  have placed := soundReached.flight.placed
  rw [idle.completions, idle.instsToExecute] at placed
  have written (i : ℕ) (issued : i ∈ reached.issued) :
      i ∈ reached.writtenBack := placed.mem_iff.mpr issued
  refine ⟨later, reached, admissible, finished, short, nothing_waits, fun fu => Bool.eq_false_iff.mpr fun busy => ?_,
    fun i issued => written i (onward.issued i issued), fun c i waits => ?_⟩
  · have isHeld := (soundReached.flight.held.busy fu).mp busy
    rw [idle.unitsToBeFreed, idle.completions] at isHeld
    exact List.not_mem_nil isHeld
  · obtain isSquashed | issued | stillWaits := onward.waiting c i waits
    · exact .inl isSquashed
    · exact .inr (written i issued)
    · rw [nothing_waits c] at stillWaits
      exact absurd stillWaits List.not_mem_nil

theorem small_run_comes_to_writeback : ∃ s later reached,
    run (step smallConfig) smallSteps (init smallDescs smallClass) = some s ∧
    run (step smallConfig) later s = some reached ∧ (∀ c, reached.ready.readyInsts c = []) ∧
    5 ∈ reached.writtenBack := by
  obtain ⟨s, ready, ran, _, unmarked, _, waits, _⟩ := small_run
  obtain ⟨later, reached, _, finished, _, empty, _, _, written⟩ :=
    comes_to_writeback (by decide) (by decide) (by decide) ready.eachStep ran
  have isWritten := (written 0 5 (waits ▸ List.mem_singleton_self 5)).resolve_left (by simp [unmarked])
  exact ⟨s, later, reached, ran, finished, empty, isWritten⟩

end Results

end GemFi.InstructionIssue
