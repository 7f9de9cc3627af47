import GemFi.Outcomes
import Mathlib.Data.List.Basic

/-!
The rename stage of the out-of-order CPU, cpu/o3/rename_impl.hh, for one thread: its
status, the instructions it holds, and what one cycle does with the signals it
reads. The renaming of registers itself is elsewhere; here only the free entries of the rename map
are read.
-/

namespace GemFi.RenameStage

open Outcomes (Stop assert)

inductive ThreadStatus where
  | running | idle | startSquash | squashing | blocked | unblocking | serializeStall
  deriving DecidableEq, Repr

/-- What the stage reads of an instruction. The fields after `staticSerializeAfter` are bits of its
status. -/
structure DynInst where
  seqNum : Nat
  numDestRegs : Nat
  iprAccess : Bool
  storeConditional : Bool
  staticSerializeBefore : Bool
  staticSerializeAfter : Bool
  squashed : Bool
  serializeBefore : Bool
  serializeAfter : Bool
  serializeHandled : Bool
  deriving DecidableEq, Repr

namespace DynInst

def isSerializeBefore (inst : DynInst) : Bool := inst.staticSerializeBefore || inst.serializeBefore
def isSerializeAfter (inst : DynInst) : Bool := inst.staticSerializeAfter || inst.serializeAfter
def isTempSerializeBefore (inst : DynInst) : Bool := inst.serializeBefore
def setSerializeBefore (inst : DynInst) : DynInst := { inst with serializeBefore := true }
def clearSerializeBefore (inst : DynInst) : DynInst := { inst with serializeBefore := false }
def setSerializeHandled (inst : DynInst) : DynInst := { inst with serializeHandled := true }

end DynInst

structure Signals where
  -- what the stage reads in a cycle: the instructions from decode, the signals of IEW and commit,
  -- and the free entries of the rename map, for the stall check and for each instruction
  fromDecode : List DynInst
  iewBlock : Bool
  iewUnblock : Bool
  usedIQ : Bool
  freeIQEntries : Nat
  usedLSQ : Bool
  freeLSQEntries : Nat
  dispatched : Nat
  dispatchedToLSQ : Nat
  commitBlock : Bool
  commitUnblock : Bool
  usedROB : Bool
  freeROBEntries : Nat
  emptyROB : Bool
  squash : Bool
  robSquashing : Bool
  doneSeqNum : Nat
  numFreeEntries : Nat
  numFreeEntriesFor : Nat → Nat

structure Config where
  renameWidth : Nat
  skidBufferMax : Nat

structure State where
  -- the stage, with what it tells decode in this cycle and, in the order of sending, all
  -- instructions it has sent to IEW
  status : ThreadStatus
  insts : List DynInst
  skidBuffer : List DynInst
  serializeInst : Option DynInst
  serializeOnNextInst : Bool
  resumeSerialize : Bool
  resumeUnblocking : Bool
  robEntries : Int
  iqEntries : Int
  lsqEntries : Int
  emptyROB : Bool
  stallIew : Bool
  stallCommit : Bool
  instsInProgress : Int
  renameBlock : Bool
  renameUnblock : Bool
  sent : List DynInst

section Signals

variable (signals : Signals)

def sortInsts (s : State) : State := { s with insts := s.insts ++ signals.fromDecode }

def readFreeEntries (s : State) : State :=
  { s with
    iqEntries := if signals.usedIQ then signals.freeIQEntries else s.iqEntries
    lsqEntries := if signals.usedLSQ then signals.freeLSQEntries else s.lsqEntries
    robEntries := if signals.usedROB then signals.freeROBEntries else s.robEntries
    emptyROB := if signals.usedROB then signals.emptyROB else s.emptyROB }

def readStallSignals (s : State) : Except Stop State := do
  let iew := s.stallIew || signals.iewBlock
  assert (!signals.iewUnblock || iew)
  let commit := s.stallCommit || signals.commitBlock
  assert (!signals.commitUnblock || commit)
  .ok { s with
    stallIew := iew && !signals.iewUnblock
    stallCommit := commit && !signals.commitUnblock }

def calcFreeROBEntries (s : State) : Int := s.robEntries - (s.instsInProgress - signals.dispatched)
def calcFreeIQEntries (s : State) : Int := s.iqEntries - (s.instsInProgress - signals.dispatched)
def calcFreeLSQEntries (s : State) : Int :=
  s.lsqEntries - (s.instsInProgress - signals.dispatchedToLSQ)

def checkStall (s : State) : Bool :=
  s.stallIew || s.stallCommit || calcFreeROBEntries signals s ≤ 0 ||
    calcFreeIQEntries signals s ≤ 0 ||
    calcFreeLSQEntries signals s ≤ 0 || signals.numFreeEntries == 0 ||
    (s.status == .serializeStall && (!s.emptyROB || s.instsInProgress != 0))

def validInsts : Nat := (signals.fromDecode.filter fun inst => !inst.squashed).length

end Signals

section Blocking

variable (config : Config)

def skidInsert (s : State) : Except Stop State :=
  if (s.skidBuffer ++ s.insts).length > config.skidBufferMax then
    .error .panic  -- the skid buffer is full
  else .ok { s with skidBuffer := s.skidBuffer ++ s.insts, insts := [] }

def block (s : State) : Except Stop State := do
  let s ← skidInsert config s
  if s.status = .blocked then .ok s
  else
    let s := if s.resumeUnblocking || s.status ≠ .unblocking then
        { s with renameBlock := true, renameUnblock := false } else s
    .ok (if s.status = .serializeStall then s else { s with status := .blocked })

def unblock (s : State) : State :=
  if s.skidBuffer = [] ∧ s.status ≠ .serializeStall then
    { s with renameUnblock := true, status := .running }
  else s

/-- `DefaultRename::squash`. The instructions from decode that it marks are among those it clears. -/
def squash (squashSeqNum : Nat) (s : State) : Except Stop State := do
  let s ← match s.status with
    | .blocked | .unblocking =>
        .ok { s with renameUnblock := true, resumeSerialize := false, serializeInst := none }
    | .serializeStall =>
        match s.serializeInst with
        | none => .error .nullPointer
        | some inst =>
            if inst.seqNum ≤ squashSeqNum then .ok { s with resumeSerialize := true }
            else .ok { s with resumeSerialize := false, renameUnblock := true, serializeInst := none }
    | _ => .ok s
  .ok { s with status := .squashing, insts := [], skidBuffer := [] }

end Blocking

section Renaming

structure Pass where
  -- what the loop of renameInsts works on and leaves: the queue, the instructions sent in this
  -- cycle, the instruction it stops at to serialize, and how many are still available
  queue : List DynInst
  sent : List DynInst
  serializeInst : Option DynInst
  serializeOnNextInst : Bool
  blockThisCycle : Bool
  available : Nat

/-- `serializeAfter`, on the queue and serializeOnNextInst. -/
def serializeAfter (queue : List DynInst) (onNext : Bool) : List DynInst × Bool :=
  match queue with
  | [] => ([], true)
  | front :: rest => (front.setSerializeBefore :: rest, onNext)

def renameLoop (config : Config) (signals : Signals) : Nat → Pass → Except Stop Pass
  | 0, pass => .ok { pass with available := 0 }
  | available + 1, pass =>
      if pass.sent.length < config.renameWidth then
        match pass.queue with
        | [] => .error .assertion
        | inst :: rest =>
            if inst.squashed then
              renameLoop config signals available { pass with queue := rest }
            else if signals.numFreeEntriesFor inst.seqNum < inst.numDestRegs then
              .ok { pass with blockThisCycle := true, available := available + 1 }
            else if (inst.iprAccess || inst.isSerializeBefore) && !inst.serializeHandled then
              let inst := if inst.isTempSerializeBefore then inst else inst.setSerializeHandled
              .ok { pass with
                queue := rest
                serializeInst := some inst
                blockThisCycle := true
                available := available + 1 }
            else if (inst.storeConditional || inst.isSerializeAfter) && !inst.serializeHandled then
              let (rest, onNext) := serializeAfter rest pass.serializeOnNextInst
              renameLoop config signals available { pass with
                queue := rest
                serializeOnNextInst := onNext
                sent := pass.sent ++ [inst.setSerializeHandled] }
            else
              renameLoop config signals available { pass with
                queue := rest
                sent := pass.sent ++ [inst] }
      else .ok { pass with available := available + 1 }

def serializeNext (s : State) (queue : List DynInst) : List DynInst × Bool :=
  if s.serializeOnNextInst then
    if s.emptyROB && s.instsInProgress == 0 then (queue, false)
    else match queue with
      | [] => ([], true)
      | front :: rest => (front.setSerializeBefore :: rest, true)
  else (queue, false)

def instsToRename (s : State) : List DynInst :=
  if s.status = .unblocking then s.skidBuffer else s.insts

def setInstsToRename (s : State) (queue : List DynInst) : State :=
  if s.status = .unblocking then { s with skidBuffer := queue } else { s with insts := queue }

def finishPass (s : State) (pass : Pass) : State :=
  -- what the loop has left, written back
  let s := { setInstsToRename s pass.queue with
    sent := s.sent ++ pass.sent
    serializeOnNextInst := pass.serializeOnNextInst
    instsInProgress := s.instsInProgress + pass.sent.length }
  match pass.serializeInst with
  | none => s
  | some inst => { s with status := .serializeStall, serializeInst := some inst }

def renameInsts (config : Config) (signals : Signals) (s : State) : Except Stop State := do
  let instsAvailable := (instsToRename s).length
  if instsAvailable = 0 then .ok s
  else
    let minFreeEntries :=
      min (calcFreeROBEntries signals s)
        (min (calcFreeIQEntries signals s) (calcFreeLSQEntries signals s))
    if minFreeEntries ≤ 0 then block config s
    else
      let short := minFreeEntries < instsAvailable
      let (queue, onNext) := serializeNext s (instsToRename s)
      let pass ← renameLoop config signals (if short then minFreeEntries.toNat else instsAvailable)
        ⟨queue, [], none, onNext, short, 0⟩
      let s := finishPass s pass
      if pass.blockThisCycle || pass.available ≠ 0 then do
        let s ← block config s
        .ok { s with renameUnblock := false }
      else .ok s

end Renaming

section Cycles

variable (config : Config) (signals : Signals)

def blockResumed (s : State) : Except Stop State :=
  match s.status with
  | .serializeStall =>
      if s.resumeSerialize then do
        let s ← block config { s with resumeSerialize := false }
        .ok { s with renameUnblock := false }
      else .ok s
  | .unblocking =>
      if s.resumeUnblocking then do
        let s ← block config s
        .ok { s with resumeUnblocking := false, renameUnblock := false }
      else .ok s
  | _ => .ok s

def skidInsertValid (s : State) : Except Stop State :=
  if validInsts signals ≠ 0 then skidInsert config s else .ok s

/-- `DefaultRename::rename`. -/
def rename (s : State) : Except Stop State := do
  let s ← blockResumed config s
  match s.status with
  | .running | .idle => renameInsts config signals s
  | .unblocking => do
      let s ← renameInsts config signals s
      let s ← skidInsertValid config signals s
      .ok (unblock s)
  | _ => .ok s

def resumeInst (s : State) : Except Stop State :=
  match s.serializeInst with
  | none => .error .nullPointer
  | some inst =>
      let s := unblock { s with status := .unblocking }
      let s := if s.skidBuffer ≠ [] then { s with skidBuffer := inst.clearSerializeBefore :: s.skidBuffer }
        else { s with insts := inst.clearSerializeBefore :: s.insts }
      .ok { s with serializeInst := none }

def updateStatus (s : State) : Except Stop State :=
  -- the part of checkSignalsAndUpdate after the free entries and the stall signals are read
  if signals.squash then squash signals.doneSeqNum s
  else if signals.robSquashing then .ok { s with status := .squashing }
  else if checkStall signals s then block config s
  else match s.status with
    | .blocked => .ok (unblock { s with status := .unblocking })
    | .squashing =>
        if s.resumeSerialize then .ok { s with status := .serializeStall }
        else if s.resumeUnblocking then .ok { s with status := .unblocking }
        else .ok { s with status := .running }
    | .serializeStall => resumeInst s
    | _ => .ok s

/-- `DefaultRename::checkSignalsAndUpdate`. -/
def checkSignalsAndUpdate (s : State) : Except Stop State := do
  let s ← readStallSignals signals (readFreeEntries signals s)
  updateStatus config signals s

/-- `DefaultRename::tick`. The wires to decode are those of a new cycle. -/
def tick (s : State) : Except Stop State := do
  let s := sortInsts signals { s with renameBlock := false, renameUnblock := false }
  let s ← checkSignalsAndUpdate config signals s
  let s ← rename config signals s
  let inProgress := s.instsInProgress - signals.dispatched
  assert (0 ≤ inProgress)
  .ok { s with instsInProgress := inProgress }

def step (config : Config) (s : State) (signals : Signals) : Option State :=
  (tick config signals s).toOption

end Cycles

def resetStage (robEntries iqEntries lsqEntries : Nat) : State where
  status := .idle
  insts := []
  skidBuffer := []
  serializeInst := none
  serializeOnNextInst := false
  resumeSerialize := false
  resumeUnblocking := false
  robEntries := robEntries
  iqEntries := iqEntries
  lsqEntries := lsqEntries
  emptyROB := true
  stallIew := false
  stallCommit := false
  instsInProgress := 0
  renameBlock := false
  renameUnblock := false
  sent := []

end GemFi.RenameStage
