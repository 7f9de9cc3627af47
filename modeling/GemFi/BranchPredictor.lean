import GemFi.Transitions
import Mathlib.Data.BitVec
import Mathlib.Logic.Function.Basic

/-!
The branch predictor of the out-of-order CPU (cpu/pred/bpred_unit_impl.hh) with its tournament
predictor (cpu/pred/tournament.cc), target buffer (cpu/pred/btb.cc) and return address stack
(cpu/pred/ras.cc), for one thread. What a prediction changes in the histories and in the stack at once
is put back from the record of the branch when the branch is squashed.
-/

namespace GemFi.BranchPredictor

open Transitions

abbrev Addr := BitVec 64

section Model

structure PCState where
  pc : Addr
  npc : Addr
  deriving DecidableEq, Repr

namespace PCState

def set (val : Addr) : PCState := ⟨val, val + 4⟩

def advance (state : PCState) : PCState := ⟨state.npc, state.npc + 4⟩

end PCState

def buildRetPC (callPC : PCState) : PCState := callPC.advance

/-! ### The return address stack -/

structure ReturnAddrStack where
  addrStack : ℕ → PCState
  numEntries : ℕ
  usedEntries : ℕ
  tos : ℕ

namespace ReturnAddrStack

def init (numEntries : ℕ) : ReturnAddrStack := ⟨fun _ => .set 0, numEntries, 0, 0⟩

def top (ras : ReturnAddrStack) : PCState := ras.addrStack ras.tos

def incrTos (ras : ReturnAddrStack) : ReturnAddrStack :=
  { ras with tos := if ras.tos + 1 = ras.numEntries then 0 else ras.tos + 1 }

def decrTos (ras : ReturnAddrStack) : ReturnAddrStack :=
  { ras with tos := if ras.tos = 0 then ras.numEntries - 1 else ras.tos - 1 }

def push (ras : ReturnAddrStack) (returnAddr : PCState) : ReturnAddrStack :=
  { ras.incrTos with
    addrStack := Function.update ras.addrStack ras.incrTos.tos returnAddr
    usedEntries := if ras.usedEntries ≠ ras.numEntries then ras.usedEntries + 1 else ras.usedEntries }

def pop (ras : ReturnAddrStack) : ReturnAddrStack :=
  { ras.decrTos with usedEntries := if ras.usedEntries > 0 then ras.usedEntries - 1 else ras.usedEntries }

def restore (ras : ReturnAddrStack) (topEntryIdx : ℕ) (restored : PCState) : ReturnAddrStack :=
  { ras with tos := topEntryIdx, addrStack := Function.update ras.addrStack topEntryIdx restored }

@[simp] theorem numEntries_push (ras : ReturnAddrStack) (returnAddr : PCState) :
    (ras.push returnAddr).numEntries = ras.numEntries := rfl

@[simp] theorem numEntries_pop (ras : ReturnAddrStack) : ras.pop.numEntries = ras.numEntries := rfl

theorem tos_push (ras : ReturnAddrStack) (returnAddr : PCState) :
    (ras.push returnAddr).tos = if ras.tos + 1 = ras.numEntries then 0 else ras.tos + 1 := rfl

theorem tos_pop (ras : ReturnAddrStack) :
    ras.pop.tos = if ras.tos = 0 then ras.numEntries - 1 else ras.tos - 1 := rfl

end ReturnAddrStack

/-! ### The branch target buffer -/

structure BTBEntry where
  tag : Addr
  target : PCState
  valid : Bool

structure DefaultBTB where
  btb : Addr → BTBEntry
  idxMask : Addr
  tagMask : Addr
  instShiftAmt : ℕ
  tagShiftAmt : ℕ

namespace DefaultBTB

def construct (entriesBits tagBits instShiftAmt : ℕ) : DefaultBTB where
  -- the number of entries is a power of two, which the constructor checks, and is given by its
  -- exponent
  btb := fun _ => ⟨0, .set 0, false⟩
  idxMask := BitVec.ofNat 64 (2 ^ entriesBits - 1)
  tagMask := BitVec.ofNat 64 (2 ^ tagBits - 1)
  instShiftAmt := instShiftAmt
  tagShiftAmt := instShiftAmt + entriesBits

def getIndex (btb : DefaultBTB) (instPC : Addr) :
    Addr := (instPC >>> btb.instShiftAmt) &&& btb.idxMask

def getTag (btb : DefaultBTB) (instPC : Addr) : Addr := (instPC >>> btb.tagShiftAmt) &&& btb.tagMask

def valid (btb : DefaultBTB) (instPC : Addr) : Bool :=
  (btb.btb (btb.getIndex instPC)).valid && btb.getTag instPC == (btb.btb (btb.getIndex instPC)).tag

def lookup (btb : DefaultBTB) (instPC : Addr) : PCState :=
  if btb.valid instPC then (btb.btb (btb.getIndex instPC)).target else .set 0

def update (btb : DefaultBTB) (instPC : Addr) (target : PCState) : DefaultBTB :=
  { btb with btb := Function.update btb.btb (btb.getIndex instPC) ⟨btb.getTag instPC, target, true⟩ }

theorem lookup_update (btb : DefaultBTB) (instPC : Addr) (target : PCState) :
    (btb.update instPC target).lookup instPC = target := by
  simp [lookup, valid, update, getIndex, getTag]

end DefaultBTB

/-! ### The tournament predictor -/

structure TournamentParams where
  -- the sizes are powers of two, which the constructor checks, and are given by their exponents
  localPredictorBits : Fin 32
  localHistoryTableBits : Fin 32
  globalPredictorBits : Fin 32
  choicePredictorBits : Fin 32
  localCtrBits : ℕ
  globalCtrBits : ℕ
  choiceCtrBits : ℕ
  instShiftAmt : ℕ

def mask (nbits : Fin 32) : BitVec 32 := BitVec.ofNat 32 (2 ^ nbits.val - 1)

namespace TournamentParams

def localPredictorMask (params : TournamentParams) : BitVec 32 := mask params.localPredictorBits

def globalHistoryMask (params : TournamentParams) : BitVec 32 := mask params.globalPredictorBits

def choiceHistoryMask (params : TournamentParams) : BitVec 32 := mask params.choicePredictorBits

def historyRegisterMask (params : TournamentParams) : BitVec 32 :=
  mask (if params.globalPredictorBits > params.choicePredictorBits then params.globalPredictorBits
    else params.choicePredictorBits)

def threshold (ctrBits : ℕ) : ℕ := 2 ^ (ctrBits - 1) - 1

def maxVal (ctrBits : ℕ) : ℕ := (2 ^ ctrBits - 1) % 2 ^ 8

end TournamentParams

/-- `SatCounter::increment`, for a counter of so many bits. -/
def SatCounter.increment (ctrBits counter : ℕ) : ℕ :=
  if counter < TournamentParams.maxVal ctrBits then counter + 1 else counter

/-- `SatCounter::decrement`. -/
def SatCounter.decrement (counter : ℕ) : ℕ := if counter > 0 then counter - 1 else counter

structure TournamentBP where
  localCtrs : BitVec 32 → ℕ
  localHistoryTable : BitVec 32 → BitVec 32
  globalCtrs : BitVec 32 → ℕ
  globalHistory : BitVec 32
  choiceCtrs : BitVec 32 → ℕ

structure BPHistory where
  globalHistory : BitVec 32
  localHistory : BitVec 32
  localPredTaken : Bool
  globalPredTaken : Bool
  globalUsed : Bool
  deriving DecidableEq, Repr

def invalidPredictorIndex : BitVec 32 := BitVec.allOnes 32

def shifted (history : BitVec 32) (taken : Bool) : BitVec 32 :=
  if taken then (history <<< 1) ||| 1 else history <<< 1

namespace TournamentBP

variable (params : TournamentParams)

def calcLocHistIdx (branchAddr : Addr) : BitVec 32 :=
  (branchAddr >>> params.instShiftAmt).truncate 32 &&& mask params.localHistoryTableBits

/-- `updateGlobalHistTaken` and `updateGlobalHistNotTaken`. -/
def updateGlobalHist (bp : TournamentBP) (taken : Bool) : TournamentBP :=
  { bp with globalHistory := shifted bp.globalHistory taken &&& params.historyRegisterMask }

/-- `updateLocalHistTaken` and `updateLocalHistNotTaken`. -/
def updateLocalHist (bp : TournamentBP) (localHistoryIdx : BitVec 32) (taken : Bool) :
    TournamentBP :=
  { bp with
    localHistoryTable := Function.update bp.localHistoryTable localHistoryIdx
      (shifted (bp.localHistoryTable localHistoryIdx) taken) }

def btbUpdate (bp : TournamentBP) (branchAddr : Addr) : TournamentBP :=
  { bp with
    globalHistory := bp.globalHistory &&& (params.historyRegisterMask &&& ~~~1)
    localHistoryTable := Function.update bp.localHistoryTable (calcLocHistIdx params branchAddr)
      (bp.localHistoryTable (calcLocHistIdx params branchAddr) &&& (params.localPredictorMask &&& ~~~1)) }

def lookup (bp : TournamentBP) (branchAddr : Addr) : Bool × BPHistory × TournamentBP :=
  let localHistoryIdx := calcLocHistIdx params branchAddr
  let localPredictorIdx := bp.localHistoryTable localHistoryIdx &&& params.localPredictorMask
  let localPrediction := decide (bp.localCtrs localPredictorIdx > TournamentParams.threshold params.localCtrBits)
  let globalPrediction :=
    decide (bp.globalCtrs (bp.globalHistory &&& params.globalHistoryMask) >
      TournamentParams.threshold params.globalCtrBits)
  let choicePrediction :=
    decide (bp.choiceCtrs (bp.globalHistory &&& params.choiceHistoryMask) >
      TournamentParams.threshold params.choiceCtrBits)
  let taken := if choicePrediction then globalPrediction else localPrediction
  (taken, ⟨bp.globalHistory, localPredictorIdx, localPrediction, globalPrediction, choicePrediction⟩,
    (bp.updateGlobalHist params taken).updateLocalHist localHistoryIdx taken)

def uncondBranch (bp : TournamentBP) : BPHistory × TournamentBP :=
  (⟨bp.globalHistory, invalidPredictorIndex, true, true, true⟩, bp.updateGlobalHist params true)

def train (bp : TournamentBP) (taken : Bool) (history : BPHistory) : TournamentBP :=
  let choiceIdx := history.globalHistory &&& params.choiceHistoryMask
  let globalIdx := history.globalHistory &&& params.globalHistoryMask
  let localIdx := history.localHistory &&& params.localPredictorMask
  { bp with
    choiceCtrs :=
      if history.localPredTaken = history.globalPredTaken then bp.choiceCtrs
      else if history.localPredTaken = taken then
        Function.update bp.choiceCtrs choiceIdx (SatCounter.decrement (bp.choiceCtrs choiceIdx))
      else
        Function.update bp.choiceCtrs choiceIdx
          (SatCounter.increment params.choiceCtrBits (bp.choiceCtrs choiceIdx))
    globalCtrs := Function.update bp.globalCtrs globalIdx
      (if taken then SatCounter.increment params.globalCtrBits (bp.globalCtrs globalIdx)
      else SatCounter.decrement (bp.globalCtrs globalIdx))
    localCtrs :=
      if history.localHistory = invalidPredictorIndex then bp.localCtrs
      else Function.update bp.localCtrs localIdx
        (if taken then SatCounter.increment params.localCtrBits (bp.localCtrs localIdx)
        else SatCounter.decrement (bp.localCtrs localIdx)) }

def update (bp : TournamentBP) (branchAddr : Addr) (taken : Bool) (history : BPHistory) (squashed : Bool) :
    TournamentBP :=
  let historyPred := if history.globalUsed then history.globalPredTaken else history.localPredTaken
  let trained := if historyPred ≠ taken ∨ squashed = false then bp.train params taken history else bp
  if squashed then
    { trained with
      globalHistory := shifted history.globalHistory taken &&& params.historyRegisterMask
      localHistoryTable :=
        if history.localHistory = invalidPredictorIndex then trained.localHistoryTable
        else Function.update trained.localHistoryTable (calcLocHistIdx params branchAddr)
          (shifted history.localHistory taken) }
  else trained

def squash (bp : TournamentBP) (history : BPHistory) : TournamentBP :=
  { bp with globalHistory := history.globalHistory }

end TournamentBP

/-! ### The predictor -/

structure PredictorHistory where
  seqNum : ℕ
  pc : Addr
  bpHistory : BPHistory
  rasTarget : PCState
  rasIndex : ℕ
  predTaken : Bool
  usedRAS : Bool
  pushedRAS : Bool
  wasCall : Bool
  wasReturn : Bool
  deriving DecidableEq, Repr

structure StaticInst where
  isUncondCtrl : Bool
  isReturn : Bool
  isCall : Bool
  deriving DecidableEq, Repr

/-- The newest branch is at the front of `predHist`. -/
structure BPredUnit where
  bp : TournamentBP
  btb : DefaultBTB
  ras : ReturnAddrStack
  predHist : List PredictorHistory

namespace BPredUnit

variable (params : TournamentParams)

def predict (unit : BPredUnit) (inst : StaticInst) (seqNum : ℕ) (pc : PCState) :
    Bool × PCState × BPredUnit :=
  -- the prediction, the predicted PC and the predictor after it
  let (predTaken, history, bp) :=
    if inst.isUncondCtrl then (true, unit.bp.uncondBranch params) else unit.bp.lookup params pc.pc
  let record : PredictorHistory :=
    { seqNum := seqNum, pc := pc.pc, bpHistory := history, rasTarget := .set 0, rasIndex := 0,
      predTaken := predTaken, usedRAS := false, pushedRAS := false, wasCall := false, wasReturn := false }
  if predTaken then
    if inst.isReturn then
      (true, buildRetPC unit.ras.top, { unit with
        bp := bp
        ras := unit.ras.pop
        predHist := { record with
          wasReturn := true, usedRAS := true, rasIndex := unit.ras.tos, rasTarget := unit.ras.top } ::
            unit.predHist })
    else
      let ras := if inst.isCall then unit.ras.push pc else unit.ras
      let called := { record with pushedRAS := inst.isCall, wasCall := inst.isCall }
      -- without a target the branch is predicted not taken, though its record says taken
      if unit.btb.valid pc.pc then
        (true, unit.btb.lookup pc.pc, { unit with bp := bp, ras := ras, predHist := called :: unit.predHist })
      else if inst.isCall = false then
        (false, pc.advance, { unit with
          bp := bp.btbUpdate params pc.pc, ras := ras, predHist := called :: unit.predHist })
      else if inst.isUncondCtrl = false then
        (false, pc.advance, { unit with
          bp := bp, ras := ras.pop, predHist := { called with pushedRAS := false } :: unit.predHist })
      else (false, pc.advance, { unit with bp := bp, ras := ras, predHist := called :: unit.predHist })
  else
    (false, pc.advance, { unit with
      bp := bp, predHist := { record with wasReturn := inst.isReturn } :: unit.predHist })

def update (unit : BPredUnit) (done : ℕ) : BPredUnit :=
  let committed := (unit.predHist.reverse.takeWhile fun record => decide (record.seqNum ≤ done))
  { unit with
    bp := committed.foldl (fun bp record => bp.update params record.pc record.predTaken record.bpHistory false) unit.bp
    predHist := (unit.predHist.reverse.dropWhile fun record => decide (record.seqNum ≤ done)).reverse }

def rewindRAS (ras : ReturnAddrStack) (record : PredictorHistory) : ReturnAddrStack :=
  -- the stack before a branch was predicted
  if record.usedRAS then ras.restore record.rasIndex record.rasTarget
  else if record.wasCall && record.pushedRAS then ras.pop
  else ras

def squashFrom (squashed : ℕ) : List PredictorHistory → TournamentBP → ReturnAddrStack →
    List PredictorHistory × TournamentBP × ReturnAddrStack
  -- the branches behind an instruction leave the history from its new end
  | [], bp, ras => ([], bp, ras)
  | record :: rest, bp, ras =>
      if record.seqNum > squashed then
        squashFrom squashed rest (bp.squash record.bpHistory) (rewindRAS ras record)
      else (record :: rest, bp, ras)

def squash (unit : BPredUnit) (squashed : ℕ) : BPredUnit :=
  let (predHist, bp, ras) := squashFrom squashed unit.predHist unit.bp unit.ras
  { unit with bp := bp, ras := ras, predHist := predHist }

def squashMispredicted (unit : BPredUnit) (squashed : ℕ) (corrTarget : PCState) (actuallyTaken : Bool) :
    Option BPredUnit :=
  -- the squash of what is behind a branch that was mispredicted
  let unit := unit.squash squashed
  match unit.predHist with
  -- there may be no record where the squash is for a system call
  | [] => some unit
  | record :: rest =>
      if record.seqNum = squashed then
        let bp := unit.bp.update params record.pc actuallyTaken record.bpHistory true
        if actuallyTaken then
          some { unit with
            bp := bp
            btb := unit.btb.update record.pc corrTarget
            ras := if record.wasReturn && !record.usedRAS then unit.ras.pop else unit.ras
            predHist := rest }
        else some { unit with bp := bp, ras := rewindRAS unit.ras record, predHist := rest }
      else none

def init (btb : DefaultBTB) (rasSize : ℕ) : BPredUnit where
  bp := ⟨fun _ => 0, fun _ => 0, fun _ => 0, 0, fun _ => 0⟩
  btb := btb
  ras := .init rasSize
  predHist := []

end BPredUnit

inductive Action where
  | predict (inst : StaticInst) (seqNum : ℕ) (pc : PCState)
  | update (done : ℕ)
  | squash (squashed : ℕ)
  | squashMispredicted (squashed : ℕ) (corrTarget : PCState) (actuallyTaken : Bool)
  deriving DecidableEq, Repr

def step (params : TournamentParams) (unit : BPredUnit) : Action → Option BPredUnit
  | .predict inst seqNum pc => some (unit.predict params inst seqNum pc).2.2
  | .update done => some (unit.update params done)
  | .squash squashed => some (unit.squash squashed)
  | .squashMispredicted squashed corrTarget actuallyTaken =>
      unit.squashMispredicted params squashed corrTarget actuallyTaken

end Model

end GemFi.BranchPredictor
