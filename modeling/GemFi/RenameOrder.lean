import GemFi.RenameStage
import GemFi.Outcomes
import GemFi.Transitions

/-!
What the rename stage does with the instructions it receives. What it has sent, the
instruction it holds for serialization, the skid buffer and the instructions from decode are one
flow in the order of the program, as long as no squash, ROB squash or stall comes at a
moment where the stage loses track of what it holds.
-/

namespace GemFi.RenameOrder

open Outcomes Transitions RenameStage

section Flows

def alive (insts : List DynInst) : List Nat :=
  -- the instructions of a queue that are not squashed
  (insts.filter fun inst => !inst.squashed).map DynInst.seqNum

def held (s : State) : List Nat :=
  (s.serializeInst.map DynInst.seqNum).toList ++ alive s.skidBuffer ++ alive s.insts

def flow (s : State) : List Nat := s.sent.map DynInst.seqNum ++ held s

@[simp] theorem alive_nil : alive [] = [] := rfl

theorem alive_append (front rest : List DynInst) :
    alive (front ++ rest) = alive front ++ alive rest := by
  simp [alive]

theorem alive_cons_squashed {inst : DynInst} {rest : List DynInst} (squashed : inst.squashed = true) :
    alive (inst :: rest) = alive rest := by
  simp [alive, squashed]

theorem alive_cons {inst : DynInst} {rest : List DynInst} (awake : inst.squashed = false) :
    alive (inst :: rest) = inst.seqNum :: alive rest := by
  simp [alive, awake]

theorem alive_setSerializeBefore (front : DynInst) (rest : List DynInst) :
    alive (front.setSerializeBefore :: rest) = alive (front :: rest) := by
  have marked : front.setSerializeBefore.squashed = front.squashed := rfl
  cases squashed : front.squashed with
  | true => rw [alive_cons_squashed squashed, alive_cons_squashed (marked.trans squashed)]
  | false =>
      rw [alive_cons squashed, alive_cons (marked.trans squashed)]
      rfl

theorem alive_serializeAfter (queue : List DynInst) (onNext : Bool) :
    alive (serializeAfter queue onNext).1 = alive queue := by
  cases queue with
  | nil => rfl
  | cons front rest => exact alive_setSerializeBefore front rest

theorem alive_serializeNext (s : State) (queue : List DynInst) :
    alive (serializeNext s queue).1 = alive queue := by
  unfold serializeNext
  split
  · split
    · rfl
    · cases queue with
      | nil => rfl
      | cons front rest => exact alive_setSerializeBefore front rest
  · rfl

end Flows

section Tracking

def cover (uncovered : List Nat) (signals : Signals) : List Nat :=
  -- the instructions that were received and that no squash has covered, after one more cycle
  let received := uncovered ++ alive signals.fromDecode
  if signals.squash then received.filter fun number => number ≤ signals.doneSeqNum else received

inductive Sendable (s : State) (number : Nat) : Prop where
  | serializing (inst : DynInst) (isInst : s.serializeInst = some inst) (same : inst.seqNum = number)
      (resumes : s.status = .serializeStall ∨ s.status = .squashing ∧ s.resumeSerialize = true)
  | skidding (member : number ∈ alive s.skidBuffer)
      (resumes : s.status = .blocked ∨ s.status = .unblocking ∨ s.status = .serializeStall)
  | waiting (member : number ∈ alive s.insts)

/-- What is sent and held is in program order, without repetition, and every uncovered instruction
is sent or can be. -/
structure Forwarded (uncovered : List Nat) (s : State) : Prop where
  ordered : (flow s).Pairwise (· < ·)
  present : ∀ number ∈ uncovered, number ∈ s.sent.map DynInst.seqNum ∨ Sendable s number

def signalled (signals : Signals) (s : State) : Except Stop State :=
  readStallSignals signals
    (readFreeEntries signals
      (sortInsts signals { s with renameBlock := false, renameUnblock := false }))

/-- The signals of a cycle come at a moment where the stage keeps track. -/
structure Spared (s : State) (signals : Signals) : Prop where
  /-- A squash is older than all that is in the queues. -/
  squash : signals.squash = true →
    ∀ number ∈ alive s.skidBuffer ++ alive s.insts ++ alive signals.fromDecode,
      signals.doneSeqNum < number
  /-- The ROB does not start squashing on its own while something is held. -/
  robSquashing : signals.squash = false → signals.robSquashing = true →
    alive s.skidBuffer = [] ∧ s.status ≠ .serializeStall
  /-- No stall meets a squashing stage that is to resume serializing. -/
  resume : signals.squash = false → signals.robSquashing = false → s.status = .squashing →
    s.resumeSerialize = true → ∀ s', signalled signals s = .ok s' → checkStall signals s' = false

end Tracking

section Invariant

structure Settled (s : State) : Prop where
  serializing : s.serializeInst.isSome = true ↔
    s.status = .serializeStall ∨ s.status = .squashing ∧ s.resumeSerialize = true
  awake : ∀ inst ∈ s.serializeInst, inst.squashed = false
  resumes : s.resumeSerialize = true → s.status = .squashing
  unblocking : s.resumeUnblocking = false
  skidding : alive s.skidBuffer ≠ [] →
    s.status = .blocked ∨ s.status = .unblocking ∨ s.status = .serializeStall

variable {config : Config} {signals : Signals} {s s' : State}

theorem Settled.not_resuming (settled : Settled s) (status : s.status ≠ .squashing) :
    s.resumeSerialize = false := by
  by_contra resumes
  exact status (settled.resumes (by simpa using resumes))

theorem Settled.sendable (settled : Settled s) {number : Nat} (member : number ∈ held s) :
    Sendable s number := by
  rcases List.mem_append.mp member with front | inInsts
  · rcases List.mem_append.mp front with inSerial | inSkid
    · obtain ⟨inst, isInst, same⟩ := by simpa using inSerial
      exact .serializing inst isInst same (settled.serializing.mp (by rw [isInst]; rfl))
    · exact .skidding inSkid (settled.skidding (List.ne_nil_of_mem inSkid))
  · exact .waiting inInsts

structure Stopped (s s' : State) : Prop where
  insts : s'.insts = []
  skidBuffer : s'.skidBuffer = s.skidBuffer ++ s.insts
  status : s'.status = if s.status = .serializeStall then .serializeStall else .blocked
  serializeInst : s'.serializeInst = s.serializeInst
  resumeSerialize : s'.resumeSerialize = s.resumeSerialize
  resumeUnblocking : s'.resumeUnblocking = s.resumeUnblocking
  sent : s'.sent = s.sent

theorem skidInsert_ends (config : Config) (s : State) :
    Ends (fun _ => True)
      (fun s' => s' = { s with skidBuffer := s.skidBuffer ++ s.insts, insts := [] })
      (skidInsert config s) := by
  unfold skidInsert
  split
  · trivial
  · rfl

theorem block_ends (config : Config) (s : State) :
    Ends (fun _ => True) (Stopped s) (block config s) := by
  unfold block
  refine (skidInsert_ends config s).bind ?_
  rintro _ rfl
  dsimp only
  split
  · rename_i isBlocked
    exact ⟨rfl, rfl, by simp [isBlocked], rfl, rfl, rfl, rfl⟩
  · by_cases serializing : s.status = .serializeStall
    · split <;>
        exact ⟨rfl, rfl, serializing.trans (if_pos serializing).symm, rfl, rfl, rfl, rfl⟩
    · split <;> exact ⟨rfl, rfl, (if_neg serializing).symm, rfl, rfl, rfl, rfl⟩

theorem Stopped.flow_eq (stopped : Stopped s s') : flow s' = flow s := by
  simp only [flow, held, stopped.sent, stopped.serializeInst, stopped.skidBuffer, stopped.insts,
    alive_append, alive_nil, List.append_nil, List.append_assoc]

/-- A stall, unless it meets a squashing stage that is to resume serializing. -/
theorem Stopped.settled (stopped : Stopped s s') (settled : Settled s)
    (resumes : s.resumeSerialize = false) : Settled s' := by
  have notResumes : s'.resumeSerialize = false := stopped.resumeSerialize.trans resumes
  by_cases serializing : s.status = .serializeStall
  · have status : s'.status = .serializeStall := stopped.status.trans (if_pos serializing)
    refine ⟨?_, ?_, ?_, stopped.resumeUnblocking.trans settled.unblocking, fun _ => .inr (.inr status)⟩
    · rw [stopped.serializeInst]
      exact iff_of_true (settled.serializing.mpr (.inl serializing)) (.inl status)
    · rw [stopped.serializeInst]
      exact settled.awake
    · simp [notResumes]
  · have status : s'.status = .blocked := stopped.status.trans (if_neg serializing)
    refine ⟨?_, ?_, ?_, stopped.resumeUnblocking.trans settled.unblocking, fun _ => .inl status⟩
    · rw [stopped.serializeInst, settled.serializing]
      simp [serializing, resumes, status]
    · rw [stopped.serializeInst]
      exact settled.awake
    · simp [notResumes]

theorem unblock_settled (settled : Settled s)
    (status : s.status = .blocked ∨ s.status = .unblocking ∨ s.status = .serializeStall) :
    Settled (unblock s) ∧ flow (unblock s) = flow s := by
  unfold unblock
  split
  · rename_i done
    have notSquashing : s.status ≠ .squashing := by
      rcases status with is | is | is <;> simp [is]
    have notResumes : s.resumeSerialize = false := settled.not_resuming notSquashing
    refine ⟨⟨?_, settled.awake, ?_, settled.unblocking, ?_⟩, rfl⟩
    · change s.serializeInst.isSome = true ↔ _
      rw [settled.serializing]
      simp [done.2, notResumes]
    · simp [notResumes]
    · simp [done.1]
  · exact ⟨settled, rfl⟩

end Invariant

section Renaming

variable {config : Config} {signals : Signals} {s s' : State}

structure Passed (pass pass' : Pass) : Prop where
  flow : pass'.sent.map DynInst.seqNum ++ (pass'.serializeInst.map DynInst.seqNum).toList ++
    alive pass'.queue = pass.sent.map DynInst.seqNum ++ alive pass.queue
  awake : ∀ inst ∈ pass'.serializeInst, inst.squashed = false

theorem renameLoop_ends (available : Nat) (pass : Pass) (nothing : pass.serializeInst = none) :
    Ends (fun _ => True) (Passed pass) (renameLoop config signals available pass) := by
  induction available generalizing pass with
  | zero => exact ⟨by simp [nothing], by simp [nothing]⟩
  | succ available ih =>
      unfold renameLoop
      have stays : Passed pass { pass with available := available + 1 } :=
        ⟨by simp [nothing], by simp [nothing]⟩
      split
      · cases isQueue : pass.queue with
        | nil => trivial
        | cons inst rest =>
            dsimp only
            by_cases squashed : inst.squashed = true
            · rw [if_pos squashed]
              refine (ih { pass with queue := rest } nothing).mono
                fun pass' passed => ⟨?_, passed.awake⟩
              rw [passed.flow, isQueue, alive_cons_squashed squashed]
            · have awake : inst.squashed = false := by simpa using squashed
              rw [if_neg squashed]
              split
              · exact ⟨by simp [nothing, isQueue], by simp [nothing]⟩
              · split
                · refine ⟨?_, ?_⟩
                  · rw [isQueue, alive_cons awake]
                    split <;> simp [DynInst.setSerializeHandled]
                  · intro held isHeld
                    cases isHeld
                    split <;> exact awake
                · have sends : ∀ sending : DynInst, sending.seqNum = inst.seqNum → ∀ queue onNext,
                      alive queue = alive rest → Ends (fun _ => True) (Passed pass)
                        (renameLoop config signals available { pass with
                          queue := queue
                          serializeOnNextInst := onNext
                          sent := pass.sent ++ [sending] }) := by
                    intro sending same queue onNext sameQueue
                    refine (ih { pass with
                      queue := queue
                      serializeOnNextInst := onNext
                      sent := pass.sent ++ [sending] } nothing).mono
                        fun pass' passed => ⟨?_, passed.awake⟩
                    rw [passed.flow, isQueue, alive_cons awake]
                    simp [same, sameQueue]
                  split
                  · exact sends inst.setSerializeHandled rfl _ _ (alive_serializeAfter rest _)
                  · exact sends inst rfl rest pass.serializeOnNextInst rfl
      · exact stays

/-- Before renameInsts, in a cycle in which the stage runs or unblocks. -/
structure Ready (s : State) : Prop where
  nothing : s.serializeInst = none
  resumes : s.resumeSerialize = false
  unblocking : s.resumeUnblocking = false
  status : s.status = .running ∨ s.status = .idle ∨ s.status = .unblocking
  skidding : s.status ≠ .unblocking → alive s.skidBuffer = []

theorem Settled.ready (settled : Settled s)
    (status : s.status = .running ∨ s.status = .idle ∨ s.status = .unblocking) : Ready s := by
  have notSquashing : s.status ≠ .squashing ∧ s.status ≠ .serializeStall ∧ s.status ≠ .blocked := by
    rcases status with is | is | is <;> simp [is]
  have resumes : s.resumeSerialize = false := settled.not_resuming notSquashing.1
  refine ⟨?_, resumes, settled.unblocking, status, ?_⟩
  · have none : ¬ s.serializeInst.isSome = true := by
      rw [settled.serializing]
      simp [notSquashing.1, notSquashing.2.1]
    simpa using none
  · intro notUnblocking
    by_contra some
    rcases settled.skidding some with is | is | is
    · exact notSquashing.2.2 is
    · exact notUnblocking is
    · exact notSquashing.2.1 is

theorem Ready.settled (ready : Ready s) : Settled s := by
  have notSerializing : s.status ≠ .serializeStall ∧ s.status ≠ .squashing := by
    rcases ready.status with is | is | is <;> simp [is]
  refine ⟨?_, by simp [ready.nothing], by simp [ready.resumes], ready.unblocking, ?_⟩
  · simp [ready.nothing, notSerializing]
  · intro some
    by_contra not
    exact some (ready.skidding fun is => not (.inr (.inl is)))

/-- The queue and what the stage holds behind it. -/
theorem Ready.flow_eq (ready : Ready s) : flow s = s.sent.map DynInst.seqNum ++
    (alive (instsToRename s) ++ if s.status = .unblocking then alive s.insts else []) := by
  unfold flow held instsToRename
  by_cases unblocking : s.status = .unblocking
  · simp [unblocking, ready.nothing]
  · simp [unblocking, ready.nothing, ready.skidding unblocking]

/-- What the loop leaves is in program order, and the status says whether an instruction waits to
be serialized. -/
theorem finishPass_settled (ready : Ready s) {queue : List DynInst} {onNext short : Bool}
    {pass : Pass}
    (sameQueue : alive queue = alive (instsToRename s))
    (passed : Passed ⟨queue, [], none, onNext, short, 0⟩ pass) :
    Settled (finishPass s pass) ∧ flow (finishPass s pass) = flow s ∧
      ((finishPass s pass).status = s.status ∨ (finishPass s pass).status = .serializeStall) ∧
      (finishPass s pass).resumeSerialize = false := by
  have flows := passed.flow
  rw [List.map_nil, List.nil_append, sameQueue] at flows
  have settled := ready.settled
  rw [ready.flow_eq, ← flows]
  unfold finishPass setInstsToRename
  cases isInst : pass.serializeInst with
  | none =>
      simp only [Option.map_none, Option.toList_none, List.append_nil]
      by_cases unblocking : s.status = .unblocking
      · simp only [unblocking, if_true]
        refine ⟨⟨?_, settled.awake, ?_, ready.unblocking, fun _ => .inr (.inl rfl)⟩, ?_, .inl trivial,
          ready.resumes⟩
        · simpa [unblocking] using settled.serializing
        · simp [ready.resumes]
        · simp [flow, held, ready.nothing]
      · simp only [unblocking, if_false]
        have noSkid := ready.skidding unblocking
        refine ⟨⟨settled.serializing, settled.awake, settled.resumes, ready.unblocking, ?_⟩, ?_,
          .inl trivial, ready.resumes⟩
        · exact fun some => absurd noSkid some
        · simp [flow, held, ready.nothing, noSkid]
  | some inst =>
      simp only [Option.map_some, Option.toList_some]
      have awake : inst.squashed = false := passed.awake inst isInst
      by_cases unblocking : s.status = .unblocking
      · simp only [unblocking, if_true]
        refine ⟨⟨by simp, by simpa using awake, by simp [ready.resumes], ready.unblocking,
          fun _ => .inr (.inr rfl)⟩, ?_, .inr trivial, ready.resumes⟩
        simp [flow, held]
      · simp only [unblocking, if_false]
        have noSkid := ready.skidding unblocking
        refine ⟨⟨by simp, by simpa using awake, by simp [ready.resumes], ready.unblocking,
          fun _ => .inr (.inr rfl)⟩, ?_, .inr trivial, ready.resumes⟩
        simp [flow, held, noSkid]

structure Advanced (s s' : State) : Prop where
  settled : Settled s'
  flow_eq : flow s' = flow s
  status : s'.status = s.status ∨ s'.status = .blocked ∨ s'.status = .serializeStall

theorem Stopped.advanced {s₁ : State} (stopped : Stopped s₁ s') (settled : Settled s₁)
    (resumes : s₁.resumeSerialize = false) (same : flow s₁ = flow s) : Advanced s s' := by
  refine ⟨stopped.settled settled resumes, stopped.flow_eq.trans same, .inr ?_⟩
  rw [stopped.status]
  split
  · exact .inr rfl
  · exact .inl rfl

theorem renameInsts_ends (ready : Ready s) :
    Ends (fun _ => True) (Advanced s) (renameInsts config signals s) := by
  unfold renameInsts
  dsimp only
  by_cases empty : (instsToRename s).length = 0
  · rw [if_pos empty]
    exact Ends.ok ⟨ready.settled, rfl, .inl rfl⟩
  rw [if_neg empty]
  by_cases full : min (calcFreeROBEntries signals s)
      (min (calcFreeIQEntries signals s) (calcFreeLSQEntries signals s)) ≤ 0
  · rw [if_pos full]
    exact (block_ends config s).mono fun s' stopped =>
      stopped.advanced ready.settled ready.resumes rfl
  rw [if_neg full]
  refine (renameLoop_ends _ _ rfl).bind fun pass passed => ?_
  obtain ⟨settled, same, status, resumes⟩ :=
    finishPass_settled ready (alive_serializeNext s (instsToRename s)) passed
  split
  · refine (block_ends config _).bind fun s' stopped => ?_
    have advanced : Advanced s s' := stopped.advanced settled resumes same
    exact Ends.ok ⟨⟨advanced.settled.serializing, advanced.settled.awake, advanced.settled.resumes,
      advanced.settled.unblocking, advanced.settled.skidding⟩, advanced.flow_eq, advanced.status⟩
  · exact Ends.ok ⟨settled, same, status.imp_right .inr⟩

end Renaming

section Cycles

variable {config : Config} {signals : Signals} {s s' : State}

def Midway (s : State) : Prop :=
  Settled s ∨ s.status = .serializeStall ∧ Settled { s with resumeSerialize := false }

theorem blockResumed_ends (midway : Midway s) :
    Ends (fun _ => True) (fun s' => Settled s' ∧ flow s' = flow s) (blockResumed config s) := by
  unfold blockResumed
  cases status : s.status with
  | serializeStall =>
      dsimp only
      have settled : Settled { s with resumeSerialize := false } := by
        rcases midway with settled | ⟨_, settled⟩
        · refine ⟨?_, settled.awake, by simp, settled.unblocking, settled.skidding⟩
          simpa [status] using settled.serializing
        · exact settled
      split
      · rw [status] at settled
        refine (block_ends config _).bind fun s' stopped => ?_
        have settled' := stopped.settled settled rfl
        exact Ends.ok ⟨⟨settled'.serializing, settled'.awake, settled'.resumes, settled'.unblocking,
          settled'.skidding⟩, stopped.flow_eq⟩
      · rename_i notResumes
        have same : s.resumeSerialize = false := by simpa using notResumes
        rw [← same] at settled
        exact Ends.ok ⟨settled, rfl⟩
  | unblocking =>
      have settled : Settled s := midway.resolve_right (by simp [status])
      dsimp only
      rw [if_neg (by simp [settled.unblocking])]
      exact Ends.ok ⟨settled, rfl⟩
  | running | idle | startSquash | squashing | blocked =>
      exact Ends.ok ⟨midway.resolve_right (by simp [status]), rfl⟩

theorem skidInsertValid_ends (settled : Settled s)
    (status : s.status = .blocked ∨ s.status = .unblocking ∨ s.status = .serializeStall) :
    Ends (fun _ => True) (fun s' => Settled s' ∧ flow s' = flow s ∧ s'.status = s.status)
      (skidInsertValid config signals s) := by
  unfold skidInsertValid
  split
  · refine (skidInsert_ends config s).mono ?_
    rintro _ rfl
    refine ⟨⟨settled.serializing, settled.awake, settled.resumes, settled.unblocking,
      fun _ => status⟩,
      ?_, rfl⟩
    simp [flow, held, alive_append]
  · exact Ends.ok ⟨settled, rfl, rfl⟩

theorem rename_ends (midway : Midway s) :
    Ends (fun _ => True) (fun s' => Settled s' ∧ flow s' = flow s) (rename config signals s) := by
  unfold rename
  refine (blockResumed_ends midway).bind ?_
  rintro s₁ ⟨settled, same⟩
  have runs : s₁.status = .running ∨ s₁.status = .idle ∨ s₁.status = .unblocking →
      Ends (fun _ => True) (Advanced s₁) (renameInsts config signals s₁) := fun status =>
    renameInsts_ends (settled.ready status)
  cases status : s₁.status with
  | running =>
      exact (runs (.inl status)).mono fun s' advanced =>
        ⟨advanced.settled, advanced.flow_eq.trans same⟩
  | idle =>
      exact (runs (.inr (.inl status))).mono fun s' advanced =>
        ⟨advanced.settled, advanced.flow_eq.trans same⟩
  | unblocking =>
      refine (runs (.inr (.inr status))).bind fun s₂ advanced => ?_
      have status₂ := advanced.status
      rw [status] at status₂
      have order : s₂.status = .blocked ∨ s₂.status = .unblocking ∨ s₂.status = .serializeStall := by
        rcases status₂ with is | is | is
        · exact .inr (.inl is)
        · exact .inl is
        · exact .inr (.inr is)
      refine (skidInsertValid_ends advanced.settled order).bind ?_
      rintro s₃ ⟨settled₃, same₃, status₃⟩
      rw [← status₃] at order
      obtain ⟨settled', same'⟩ := unblock_settled settled₃ order
      exact Ends.ok ⟨settled', same'.trans (same₃.trans (advanced.flow_eq.trans same))⟩
  | startSquash | squashing | blocked | serializeStall => exact Ends.ok ⟨settled, same⟩

end Cycles

section Signals

variable {config : Config} {signals : Signals} {s s' : State}

theorem Settled.resumeSerialize_eq (settled : Settled s) (status : s.status ≠ .serializeStall) :
    s.resumeSerialize = s.serializeInst.isSome := by
  rw [Bool.eq_iff_iff, settled.serializing]
  constructor
  · intro resumes
    exact .inr ⟨settled.resumes resumes, resumes⟩
  · rintro (is | ⟨_, resumes⟩)
    · exact absurd is status
    · exact resumes

theorem Settled.nothing (settled : Settled s) (status : s.status ≠ .serializeStall)
    (resumes : s.resumeSerialize = false) : s.serializeInst = none := by
  have none := settled.resumeSerialize_eq status
  rw [resumes] at none
  simpa using none.symm

structure Cleared (squashSeqNum : Nat) (s s' : State) : Prop where
  status : s'.status = .squashing
  insts : s'.insts = []
  skidBuffer : s'.skidBuffer = []
  sent : s'.sent = s.sent
  resumeUnblocking : s'.resumeUnblocking = s.resumeUnblocking
  serializeInst : s'.serializeInst = s.serializeInst ∨
    s'.serializeInst = none ∧ ∀ inst ∈ s.serializeInst, squashSeqNum < inst.seqNum
  resumeSerialize : s'.resumeSerialize = s'.serializeInst.isSome

theorem squash_ends (squashSeqNum : Nat) (settled : Settled s) :
    Ends (fun _ => True) (Cleared squashSeqNum s) (squash squashSeqNum s) := by
  unfold squash
  have drops : s.status = .blocked ∨ s.status = .unblocking →
      ∀ inst ∈ s.serializeInst, squashSeqNum < inst.seqNum := by
    intro status
    have others : s.status ≠ .serializeStall ∧ s.status ≠ .squashing := by
      rcases status with is | is <;> simp [is]
    simp [settled.nothing others.1 (settled.not_resuming others.2)]
  cases status : s.status with
  | blocked => exact Ends.ok ⟨rfl, rfl, rfl, rfl, rfl, .inr ⟨rfl, drops (.inl status)⟩, rfl⟩
  | unblocking => exact Ends.ok ⟨rfl, rfl, rfl, rfl, rfl, .inr ⟨rfl, drops (.inr status)⟩, rfl⟩
  | serializeStall =>
      cases isInst : s.serializeInst with
      | none => trivial
      | some inst =>
          dsimp only
          split
          · exact Ends.ok ⟨rfl, rfl, rfl, rfl, rfl, .inl isInst.symm, rfl⟩
          · rename_i younger
            refine Ends.ok ⟨rfl, rfl, rfl, rfl, rfl, .inr ⟨rfl, ?_⟩, rfl⟩
            rw [isInst]
            rintro _ ⟨⟩
            exact Nat.lt_of_not_le younger
  | running | idle | startSquash | squashing =>
      exact Ends.ok ⟨rfl, rfl, rfl, rfl, rfl, .inl rfl,
        settled.resumeSerialize_eq (by simp [status])⟩

structure Updated (signals : Signals) (s s' : State) : Prop where
  midway : Midway s'
  sublist : (flow s').Sublist (flow s)
  kept : ∀ number ∈ flow s, (signals.squash = true → number ≤ signals.doneSeqNum) → number ∈ flow s'

theorem Updated.of_flow_eq (midway : Midway s') (same : flow s' = flow s) : Updated signals s s' where
  midway := midway
  sublist := by rw [same]
  kept := by
    rw [same]
    exact fun number member _ => member

theorem Cleared.updated (cleared : Cleared signals.doneSeqNum s s') (settled : Settled s)
    (isSquash : signals.squash = true)
    (younger : ∀ number ∈ alive s.skidBuffer ++ alive s.insts, signals.doneSeqNum < number) :
    Updated signals s s' := by
  have flows : flow s' =
      s.sent.map DynInst.seqNum ++ (s'.serializeInst.map DynInst.seqNum).toList := by
    simp [flow, held, cleared.insts, cleared.skidBuffer, cleared.sent]
  refine ⟨.inl ⟨?_, ?_, fun _ => cleared.status, cleared.resumeUnblocking.trans settled.unblocking,
    ?_⟩,
    ?_, ?_⟩
  · simp [cleared.status, cleared.resumeSerialize]
  · rcases cleared.serializeInst with same | ⟨none, _⟩
    · rw [same]
      exact settled.awake
    · simp [none]
  · simp [cleared.skidBuffer]
  · rw [flows, flow, held, List.append_assoc]
    refine (List.Sublist.refl _).append ?_
    rcases cleared.serializeInst with same | ⟨none, _⟩
    · rw [same]
      exact List.sublist_append_left _ _
    · simp [none]
  · intro number member covered
    have notCovered := covered isSquash
    rw [flow, held, List.append_assoc] at member
    rw [flows]
    rcases List.mem_append.mp member with inSent | inHeld
    · exact List.mem_append_left _ inSent
    rcases List.mem_append.mp inHeld with inSerial | inQueues
    · refine List.mem_append_right _ ?_
      rcases cleared.serializeInst with same | ⟨_, dropped⟩
      · rwa [same]
      · obtain ⟨inst, isInst, rfl⟩ := by simpa using inSerial
        exact absurd (dropped inst isInst) (Nat.not_lt.mpr notCovered)
    · exact absurd (younger number inQueues) (Nat.not_lt.mpr notCovered)

theorem resumeInst_eq {inst : DynInst} (isInst : s.serializeInst = some inst) :
    resumeInst s = .ok (if s.skidBuffer = [] then
        { s with
          status := .running
          renameUnblock := true
          insts := inst.clearSerializeBefore :: s.insts
          serializeInst := none }
      else
        { s with
          status := .unblocking
          skidBuffer := inst.clearSerializeBefore :: s.skidBuffer
          serializeInst := none }) := by
  by_cases skid : s.skidBuffer = [] <;> simp [resumeInst, unblock, isInst, skid]

theorem resumeInst_ends (settled : Settled s) (status : s.status = .serializeStall) :
    Ends (fun _ => True) (fun s' => Settled s' ∧ flow s' = flow s) (resumeInst s) := by
  cases isInst : s.serializeInst with
  | none =>
      rw [resumeInst, isInst]
      trivial
  | some inst =>
      have awake : inst.clearSerializeBefore.squashed = false := settled.awake inst isInst
      have number : inst.clearSerializeBefore.seqNum = inst.seqNum := rfl
      have resumes : s.resumeSerialize = false := settled.not_resuming (by simp [status])
      rw [resumeInst_eq isInst]
      by_cases skid : s.skidBuffer = []
      · rw [if_pos skid]
        refine Ends.ok ⟨⟨?_, ?_, ?_, settled.unblocking, ?_⟩, ?_⟩ <;>
          simp [resumes, flow, held, isInst, skid, alive_cons awake, number]
      · rw [if_neg skid]
        refine Ends.ok ⟨⟨?_, ?_, ?_, settled.unblocking, ?_⟩, ?_⟩ <;>
          simp [resumes, flow, held, isInst, alive_cons awake, number]

theorem takeUp_ends (settled : Settled s) (noSquash : signals.squash = false)
    (noRob : signals.robSquashing = false) (runs : checkStall signals s = false) :
    Ends (fun _ => True) (Updated signals s) (updateStatus config signals s) := by
  simp only [updateStatus, noSquash, noRob, runs, Bool.false_eq_true, if_false]
  cases status : s.status with
  | blocked =>
      have serializing := settled.serializing
      have resumes := settled.resumes
      simp only [status, reduceCtorEq, false_and, or_false, iff_false, imp_false]
        at serializing resumes
      have unblocks : Settled { s with status := .unblocking } :=
        ⟨by simpa using serializing, settled.awake, fun is => absurd is resumes, settled.unblocking,
          fun _ => .inr (.inl rfl)⟩
      obtain ⟨settled', same⟩ := unblock_settled unblocks (.inr (.inl rfl))
      exact Ends.ok (.of_flow_eq (.inl settled') same)
  | squashing =>
      have serializing := settled.serializing
      have noSkid : alive s.skidBuffer = [] := by
        by_contra some
        have order := settled.skidding some
        simp [status] at order
      dsimp only
      rw [status] at serializing
      split
      · rename_i resumes
        refine Ends.ok (.of_flow_eq (.inr ⟨rfl, ?_, settled.awake, by simp, settled.unblocking,
          ?_⟩) rfl)
        · simpa [resumes] using serializing
        · simp [noSkid]
      · rename_i resumes
        rw [if_neg (by simp [settled.unblocking])]
        refine Ends.ok (.of_flow_eq (.inl ⟨?_, settled.awake, ?_, settled.unblocking, ?_⟩) rfl)
        · simpa [resumes] using serializing
        · exact fun is => absurd is resumes
        · simp [noSkid]
  | serializeStall =>
      exact (resumeInst_ends settled status).mono fun s' ⟨settled', same⟩ =>
        .of_flow_eq (.inl settled') same
  | running | idle | startSquash | unblocking => exact Ends.ok (.of_flow_eq (.inl settled) rfl)

theorem updateStatus_ends (settled : Settled s)
    (squashes : signals.squash = true →
      ∀ number ∈ alive s.skidBuffer ++ alive s.insts, signals.doneSeqNum < number)
    (robSquashes : signals.squash = false → signals.robSquashing = true →
      alive s.skidBuffer = [] ∧ s.status ≠ .serializeStall)
    (resumes : signals.squash = false → signals.robSquashing = false → s.status = .squashing →
      s.resumeSerialize = true → checkStall signals s = false) :
    Ends (fun _ => True) (Updated signals s) (updateStatus config signals s) := by
  cases isSquash : signals.squash with
  | true =>
      rw [updateStatus, if_pos isSquash]
      exact (squash_ends signals.doneSeqNum settled).mono fun s' cleared =>
        cleared.updated settled isSquash (squashes isSquash)
  | false =>
      cases isRob : signals.robSquashing with
      | true =>
          rw [updateStatus, if_neg (by simp [isSquash]), if_pos isRob]
          obtain ⟨noSkid, status⟩ := robSquashes isSquash isRob
          refine Ends.ok (.of_flow_eq
            (.inl ⟨?_, settled.awake, fun _ => rfl, settled.unblocking, ?_⟩) rfl)
          · simp [settled.resumeSerialize_eq status]
          · exact fun some => absurd noSkid some
      | false =>
          cases stalls : checkStall signals s with
          | true =>
              rw [updateStatus, if_neg (by simp [isSquash]), if_neg (by simp [isRob]), if_pos stalls]
              have notResumes : s.resumeSerialize = false := by
                by_contra resumed
                have resumed : s.resumeSerialize = true := by simpa using resumed
                have runs := resumes isSquash isRob (settled.resumes resumed) resumed
                simp [stalls] at runs
              exact (block_ends config s).mono fun s' stopped =>
                .of_flow_eq (.inl (stopped.settled settled notResumes)) stopped.flow_eq
          | false => exact takeUp_ends settled isSquash isRob stalls

end Signals

section Runs

variable {config : Config} {signals : Signals} {s s' : State}

structure Arrived (signals : Signals) (s s' : State) : Prop where
  insts : s'.insts = s.insts ++ signals.fromDecode
  skidBuffer : s'.skidBuffer = s.skidBuffer
  status : s'.status = s.status
  serializeInst : s'.serializeInst = s.serializeInst
  resumeSerialize : s'.resumeSerialize = s.resumeSerialize
  resumeUnblocking : s'.resumeUnblocking = s.resumeUnblocking
  sent : s'.sent = s.sent

theorem ends_assert (condition : Bool) :
    Ends (fun _ => True) (fun _ => condition = true) (assert condition) :=
  ends_check True.intro condition

theorem signalled_ends (signals : Signals) (s : State) :
    Ends (fun _ => True) (Arrived signals s) (signalled signals s) := by
  refine (ends_assert _).bind fun _ _ => ?_
  refine (ends_assert _).bind fun _ _ => ?_
  exact Ends.ok ⟨rfl, rfl, rfl, rfl, rfl, rfl, rfl⟩

theorem Arrived.settled (arrived : Arrived signals s s') (settled : Settled s) : Settled s' where
  serializing := by
    rw [arrived.serializeInst, arrived.status, arrived.resumeSerialize]
    exact settled.serializing
  awake := by
    rw [arrived.serializeInst]
    exact settled.awake
  resumes := by
    rw [arrived.status, arrived.resumeSerialize]
    exact settled.resumes
  unblocking := arrived.resumeUnblocking.trans settled.unblocking
  skidding := by
    rw [arrived.skidBuffer, arrived.status]
    exact settled.skidding

theorem Arrived.flow_eq (arrived : Arrived signals s s') :
    flow s' = flow s ++ alive signals.fromDecode := by
  simp only [flow, held, arrived.sent, arrived.serializeInst, arrived.skidBuffer, arrived.insts,
    alive_append, List.append_assoc]

structure Ticked (signals : Signals) (s s' : State) : Prop where
  settled : Settled s'
  sublist : (flow s').Sublist (flow s ++ alive signals.fromDecode)
  kept : ∀ number ∈ flow s ++ alive signals.fromDecode,
    (signals.squash = true → number ≤ signals.doneSeqNum) → number ∈ flow s'

theorem tick_ends (settled : Settled s) (spared : Spared s signals) :
    Ends (fun _ => True) (Ticked signals s) (tick config signals s) := by
  have signalledFirst : tick config signals s =
      signalled signals s >>= fun s₁ => updateStatus config signals s₁ >>= fun s₂ =>
        rename config signals s₂ >>= fun s₃ =>
          assert (0 ≤ s₃.instsInProgress - signals.dispatched) >>= fun _ =>
            .ok { s₃ with instsInProgress := s₃.instsInProgress - signals.dispatched } := by
    unfold tick checkSignalsAndUpdate
    exact bind_assoc _ _ _
  rw [signalledFirst]
  cases read : signalled signals s with
  | error stop => trivial
  | ok s₁ =>
      have arrived := (signalled_ends signals s).of_ok read
      have updates : Ends (fun _ => True) (Updated signals s₁) (updateStatus config signals s₁) := by
        refine updateStatus_ends (arrived.settled settled) ?_ ?_ ?_
        · rw [arrived.skidBuffer, arrived.insts, alive_append, ← List.append_assoc]
          exact spared.squash
        · rw [arrived.skidBuffer, arrived.status]
          exact spared.robSquashing
        · rw [arrived.status, arrived.resumeSerialize]
          exact fun isSquash isRob status resumes =>
            spared.resume isSquash isRob status resumes s₁ read
      refine updates.bind fun s₂ updated => ?_
      refine (rename_ends updated.midway).bind ?_
      rintro s₃ ⟨settled₃, same₃⟩
      refine (ends_assert _).bind fun _ _ => ?_
      have same : flow s₃ = flow s₂ := same₃
      have received := arrived.flow_eq
      refine Ends.ok ⟨⟨settled₃.serializing, settled₃.awake, settled₃.resumes, settled₃.unblocking,
        settled₃.skidding⟩, ?_, ?_⟩
      · change (flow s₃).Sublist _
        rw [same, ← received]
        exact updated.sublist
      · change ∀ number ∈ _, _ → number ∈ flow s₃
        rw [same, ← received]
        exact updated.kept

def received (inputs : List Signals) : List Nat :=
  (inputs.flatMap Signals.fromDecode).map DynInst.seqNum

theorem received_cons (signals : Signals) (inputs : List Signals) :
    received (signals :: inputs) = signals.fromDecode.map DynInst.seqNum ++ received inputs := by
  simp [received]

theorem alive_sublist (insts : List DynInst) : (alive insts).Sublist (insts.map DynInst.seqNum) :=
  List.filter_sublist.map DynInst.seqNum

theorem mem_cover {uncovered : List Nat} {number : Nat} :
    number ∈ cover uncovered signals ↔ number ∈ uncovered ++ alive signals.fromDecode ∧
      (signals.squash = true → number ≤ signals.doneSeqNum) := by
  unfold cover
  cases isSquash : signals.squash <;> simp [or_and_right]

/-- By induction on the inputs: the flow and what is still to come stay in order, and nothing that is
uncovered leaves the flow. -/
theorem run_flows {inputs : List Signals} {reached : State} {uncovered : List Nat}
    (settled : Settled s)
    (ordered : (flow s ++ received inputs).Pairwise (· < ·))
    (present : ∀ number ∈ uncovered, number ∈ flow s)
    (each : EachStep (step config) Spared inputs s)
    (ran : run (step config) inputs s = some reached) :
    Settled reached ∧ (flow reached).Pairwise (· < ·) ∧
      ∀ number ∈ inputs.foldl cover uncovered, number ∈ flow reached := by
  induction inputs generalizing s uncovered with
  | nil =>
      cases ran
      exact ⟨settled, by simpa [received] using ordered, present⟩
  | cons signals inputs ih =>
      obtain ⟨next, stepped, ran⟩ := Option.bind_eq_some_iff.mp ran
      obtain ⟨spared, later⟩ := (eachStep_cons_iff Spared signals inputs s).mp each next stepped
      have ticked : Ticked signals s next := 
        (tick_ends settled spared).of_ok (eq_ok_of_toOption stepped)
      refine ih ticked.settled ?_ ?_ later ran
      · rw [received_cons, ← List.append_assoc] at ordered
        exact ordered.sublist ((ticked.sublist.trans
          ((List.Sublist.refl _).append (alive_sublist _))).append (List.Sublist.refl _))
      · intro number member
        obtain ⟨member, covered⟩ := mem_cover.mp member
        refine ticked.kept number ?_ covered
        exact List.mem_append.mpr ((List.mem_append.mp member).imp_left (present number))

theorem resetStage_settled (robEntries iqEntries lsqEntries : Nat) :
    Settled (resetStage robEntries iqEntries lsqEntries) :=
  ⟨by simp [resetStage], by simp [resetStage], by simp [resetStage], rfl, by simp [resetStage]⟩

/-- Every instruction is sent once and in order, or waits with all that is younger behind it, as long as
the signals come where the stage keeps track. -/
theorem rename_forwards (config : Config) (robEntries iqEntries lsqEntries : Nat)
    (inputs : List Signals)
    (increasing : (received inputs).Pairwise (· < ·))
    (spared : EachStep (step config) Spared inputs (resetStage robEntries iqEntries lsqEntries)) :
    ∀ before after reached, inputs = before ++ after →
      run (step config) before (resetStage robEntries iqEntries lsqEntries) = some reached →
        Forwarded (before.foldl cover []) reached := by
  rintro before after reached rfl ran
  have ordered : (flow (resetStage robEntries iqEntries lsqEntries) ++ received before).Pairwise
      (· < ·) := by
    have part : (received before).Sublist (received (before ++ after)) := by
      simp only [received, List.flatMap_append, List.map_append, List.sublist_append_left]
    exact increasing.sublist part
  have nothing : ∀ number ∈ ([] : List Nat),
      number ∈ flow (resetStage robEntries iqEntries lsqEntries) := by simp
  obtain ⟨settled, order, present⟩ :=
    run_flows (resetStage_settled _ _ _) ordered nothing spared.initial ran
  refine ⟨order, fun number member => ?_⟩
  rcases List.mem_append.mp (present number member) with inSent | inHeld
  · exact .inl inSent
  · exact .inr (settled.sendable inHeld)

end Runs

section SmallRuns

def quietCycle (fromDecode : List DynInst) : Signals where
  -- a cycle without signals and with enough free entries for any instruction
  fromDecode := fromDecode
  iewBlock := false
  iewUnblock := false
  usedIQ := false
  freeIQEntries := 0
  usedLSQ := false
  freeLSQEntries := 0
  dispatched := 0
  dispatchedToLSQ := 0
  commitBlock := false
  commitUnblock := false
  usedROB := false
  freeROBEntries := 0
  emptyROB := false
  squash := false
  robSquashing := false
  doneSeqNum := 0
  numFreeEntries := 8
  numFreeEntriesFor := fun _ => 8

def smallInst (seqNum : Nat) (serializing : Bool) : DynInst where
  seqNum := seqNum
  numDestRegs := 1
  iprAccess := false
  storeConditional := false
  staticSerializeBefore := serializing
  staticSerializeAfter := false
  squashed := false
  serializeBefore := false
  serializeAfter := false
  serializeHandled := false

def smallConfig : Config := ⟨8, 16⟩

def serializeThenSquash : List Signals :=
  [quietCycle [smallInst 1 false, smallInst 2 true], { quietCycle [] with dispatched := 1 },
    { quietCycle [] with squash := true, doneSeqNum := 2 }]

def resumedRun : List Signals :=
  serializeThenSquash ++ [quietCycle [], quietCycle [smallInst 3 false]]

def stalledRun : List Signals :=
  -- IEW blocks rename in the cycle after the squash
  serializeThenSquash ++
    [{ quietCycle [smallInst 3 false] with iewBlock := true },
      { quietCycle [] with iewUnblock := true }]

theorem resumedRun_spared : EachStep (step smallConfig) Spared resumedRun (resetStage 8 8 8) := by
  have quiet : ∀ s signals, signals.squash = false → signals.robSquashing = false →
      (s.status = .squashing → s.resumeSerialize = true →
        ∀ s', signalled signals s = .ok s' → checkStall signals s' = false) → Spared s signals :=
    fun s signals noSquash noRob resumes => ⟨by simp [noSquash], by simp [noRob], fun _ _ => resumes⟩
  unfold resumedRun serializeThenSquash
  refine (eachStep_cons_iff _ _ _ _).mpr ?_
  rintro _ ⟨⟩
  refine ⟨quiet _ _ rfl rfl (by rintro ⟨⟩), (eachStep_cons_iff _ _ _ _).mpr ?_⟩
  rintro _ ⟨⟩
  refine ⟨quiet _ _ rfl rfl (by rintro ⟨⟩), (eachStep_cons_iff _ _ _ _).mpr ?_⟩
  -- the squash, of an empty queue
  rintro _ ⟨⟩
  refine ⟨⟨fun _ => by decide, by rintro ⟨⟩, by rintro ⟨⟩⟩, (eachStep_cons_iff _ _ _ _).mpr ?_⟩
  -- no stall when the stage is to resume
  rintro _ ⟨⟩
  refine ⟨quiet _ _ rfl rfl ?_, (eachStep_cons_iff _ _ _ _).mpr ?_⟩
  · rintro - - _ ⟨⟩
    rfl
  · rintro _ ⟨⟩
    exact ⟨quiet _ _ rfl rfl (by rintro ⟨⟩), eachStep_nil _ _⟩

theorem small_rename_forwards :
    (received resumedRun).Pairwise (· < ·) ∧
    ∃ reached, run (step smallConfig) resumedRun (resetStage 8 8 8) = some reached ∧
      reached.sent.map DynInst.seqNum = [1, 2, 3] ∧
        Forwarded (resumedRun.foldl cover []) reached := by
  have increasing : (received resumedRun).Pairwise (· < ·) := by decide
  refine ⟨increasing, _, rfl, rfl, ?_⟩
  exact rename_forwards smallConfig 8 8 8 resumedRun increasing resumedRun_spared resumedRun [] _
    (List.append_nil _).symm rfl

/-- Blocked in the cycle after the squash, the stage keeps instruction 2 and sends instruction 3. -/
theorem stalled_resume_is_overtaken :
    ¬ ∀ (config : Config) (robEntries iqEntries lsqEntries : Nat) (inputs : List Signals),
      (received inputs).Pairwise (· < ·) →
      ∀ before after reached, inputs = before ++ after →
        run (step config) before (resetStage robEntries iqEntries lsqEntries) = some reached →
          Forwarded (before.foldl cover []) reached := by
  intro forwards
  have forwarded := forwards smallConfig 8 8 8 stalledRun (by decide) stalledRun [] _
    (List.append_nil _).symm rfl
  exact absurd forwarded.ordered (by decide)

end SmallRuns

end GemFi.RenameOrder
