import GemFi.FreeRegisters
import GemFi.Transitions

/-!
Out-of-order execution on renamed registers, for one thread and instructions on registers: renaming
with its scoreboard (cpu/o3/rename_impl.hh, scoreboard.hh), execution and writeback
(cpu/o3/iew_impl.hh, regfile.hh), commits and squashes (cpu/o3/commit_impl.hh). Which instruction
executes or is written back next is left open.
-/

namespace GemFi.OutOfOrder

open RegisterRename FreeRegisters

/-- An instruction that is decoded: `tc` flattens its registers, and `execute` gives the value of each
destination from those of the sources. -/
structure StaticInst (isa : Isa) (Value : Type) where
  tc : ThreadContext isa
  srcRegs : List RegIndex
  destRegs : List RegIndex
  execute : List Value → ℕ → Value

structure DestReg where
  -- a destination that is renamed, with its entries in _flatDestRegIdx, _destRegIdx and
  -- _prevDestRegIdx
  flat : RegIndex
  renamed : PhysRegIndex
  prev : PhysRegIndex
  deriving DecidableEq, Repr

/-- `srcRegs` is _srcRegIdx. -/
structure DynInst (isa : Isa) (Value : Type) where
  staticInst : StaticInst isa Value
  srcRegs : List PhysRegIndex
  dests : List DestReg
  readySrcRegIdx : ℕ → Bool
  readyRegs : ℕ
  canIssue : Bool
  executed : Bool
  canCommit : Bool
  squashed : Bool

structure Cpu where
  isa : Isa
  file : PhysRegFile
  numMiscRegs : ℕ

abbrev RenameMap := RegClass × RegIndex → PhysRegIndex

/-- `insts` are the instruction objects, by their sequence numbers; `rob` has those that are renamed
and neither committed nor squashed, and `retired` those that are committed, in order. -/
structure State (cpu : Cpu) (Value : Type) where
  globalSeqNum : ℕ
  insts : ℕ → DynInst cpu.isa Value
  rename : RegisterRename.State
  scoreboard : PhysRegIndex → Bool
  rob : List ℕ
  regFile : PhysRegIndex → Value
  commitRenameMap : RenameMap
  retired : List (StaticInst cpu.isa Value)

variable {Value : Type}

namespace DynInst

variable {isa : Isa}

def create (inst : StaticInst isa Value) : DynInst isa Value :=
  ⟨inst, [], [], fun _ => false, 0, inst.srcRegs = [], false, false, false⟩

def destRegs (inst : DynInst isa Value) : List PhysRegIndex := inst.dests.map (·.renamed)

def markSrcRegReady (inst : DynInst isa Value) : DynInst isa Value :=
  { inst with
    readyRegs := inst.readyRegs + 1
    canIssue := inst.canIssue || inst.readyRegs + 1 == inst.staticInst.srcRegs.length }

/-- The other `markSrcRegReady`, which knows the source. -/
def markSrcRegReadyAt (inst : DynInst isa Value) (srcIdx : ℕ) : DynInst isa Value :=
  { inst with readySrcRegIdx := Function.update inst.readySrcRegIdx srcIdx true }.markSrcRegReady

end DynInst

section Scoreboard

variable (cpu : Cpu)

def getReg (scoreboard : PhysRegIndex → Bool) (reg : PhysRegIndex) : Option Bool :=
  if reg < cpu.file.totalNumRegs + cpu.numMiscRegs then
    if reg ≥ cpu.file.totalNumRegs then some true
    else if reg = cpu.isa.zeroReg ∧ scoreboard reg = false then none
    else some (scoreboard reg)
  else none

def setReg (scoreboard : PhysRegIndex → Bool) (reg : PhysRegIndex) : Option (PhysRegIndex → Bool) :=
  if reg < cpu.file.totalNumRegs + cpu.numMiscRegs then
    some (if reg ≥ cpu.file.totalNumRegs then scoreboard else Function.update scoreboard reg true)
  else none

def unsetReg (scoreboard : PhysRegIndex → Bool) (reg : PhysRegIndex) :
    Option (PhysRegIndex → Bool) :=
  if reg < cpu.file.totalNumRegs + cpu.numMiscRegs then
    some (if reg ≥ cpu.file.totalNumRegs ∨ reg = cpu.isa.zeroReg then scoreboard
      else Function.update scoreboard reg false)
  else none

end Scoreboard

variable {cpu : Cpu}

namespace State

section Renaming

def renameSrcReg (scoreboard : PhysRegIndex → Bool) (map : RenameMap) (inst : DynInst cpu.isa Value)
    (srcReg : RegIndex) : Option (DynInst cpu.isa Value) :=
  (cpu.isa.regIdxToClass srcReg).toOption.bind fun (c, reg) =>
    let renamedReg := match c with
      | .misc => lookupMisc cpu.file reg
      | c => map (c, inst.staticInst.tc.flatten c reg)
    (getReg cpu scoreboard renamedReg).map fun ready =>
      let srcIdx := inst.srcRegs.length
      let inst := { inst with srcRegs := inst.srcRegs ++ [renamedReg] }
      if ready then inst.markSrcRegReadyAt srcIdx else inst

def renameDest (seqNum : ℕ) (s : RegisterRename.State × (PhysRegIndex → Bool) × DynInst cpu.isa Value)
    (destReg : RegIndex) :
    Option (RegisterRename.State × (PhysRegIndex → Bool) × DynInst cpu.isa Value) :=
  -- the body of the loop of renameDestRegs, where the newest entry of the history is what the map
  -- answers
  (renameDestReg cpu.isa cpu.file s.2.2.staticInst.tc seqNum s.1 destReg).toOption.bind fun rename =>
    rename.history.head?.bind fun entry =>
      (unsetReg cpu s.2.1 entry.newPhysReg).map fun scoreboard =>
        (rename, scoreboard,
          { s.2.2 with dests := s.2.2.dests ++ [⟨entry.archReg, entry.newPhysReg, entry.prevPhysReg⟩] })

def renameInst (s : State cpu Value) (seqNum : ℕ) (inst : StaticInst cpu.isa Value) :
    Option (State cpu Value) :=
  (inst.srcRegs.foldlM (renameSrcReg s.scoreboard s.rename.map) (DynInst.create inst)).bind fun dyn =>
    (inst.destRegs.foldlM (renameDest seqNum) (s.rename, s.scoreboard, dyn)).map fun (rename, scoreboard, dyn) =>
      { s with
        globalSeqNum := seqNum + 1
        insts := Function.update s.insts seqNum dyn
        rename := rename
        scoreboard := scoreboard
        rob := s.rob ++ [seqNum] }

end Renaming

section Writeback

def setOperand (cpu : Cpu) (regFile : PhysRegIndex → Value) (destReg : PhysRegIndex) (value : Value) :
    PhysRegIndex → Value :=
  -- setting a destination register: that of the integer register zero does not change
  if destReg = cpu.isa.zeroReg then regFile else Function.update regFile destReg value

def execute (inst : DynInst cpu.isa Value) (regFile : PhysRegIndex → Value) :
    PhysRegIndex → Value :=
  let values := inst.staticInst.execute (inst.srcRegs.map regFile)
  inst.destRegs.zipIdx.foldl (fun regFile (destReg, destIdx) =>
    setOperand cpu regFile destReg (values destIdx)) regFile

def executeInst (s : State cpu Value) (seqNum : ℕ) : State cpu Value :=
  let inst := s.insts seqNum
  if inst.squashed then
    { s with insts := Function.update s.insts seqNum { inst with executed := true, canCommit := true } }
  else
    { s with
      insts := Function.update s.insts seqNum { inst with executed := true }
      regFile := execute inst s.regFile }

def writebackInst (s : State cpu Value) (seqNum : ℕ) : Option (State cpu Value) :=
  let inst := s.insts seqNum
  if inst.squashed then some s
  else
    (if inst.executed then inst.destRegs.foldlM (setReg cpu) s.scoreboard else some s.scoreboard).map
      fun scoreboard =>
        { s with
          scoreboard := scoreboard
          insts := Function.update s.insts seqNum { inst with canCommit := true } }

end Writeback

section Commit

/-- `UnifiedRenameMap::setEntry` of the commit map. -/
def setCommitEntry (cpu : Cpu) (map : RenameMap) (dest : DestReg) : Option RenameMap :=
  (setEntry cpu.isa cpu.file dest.flat dest.renamed ⟨fun _ => [], map, []⟩).toOption.map (·.map)

def commit (s : State cpu Value) (done : ℕ) : Option (State cpu Value) :=
  -- the instructions up to `done` are committed, and rename is told
  let committed := (s.rob.takeWhile fun seqNum => decide (seqNum ≤ done)).map s.insts
  ((committed.flatMap (·.dests)).foldlM (setCommitEntry cpu) s.commitRenameMap).bind fun commitRenameMap =>
      (removeFromHistory cpu.file done s.rename).toOption.map fun rename =>
        { s with
          commitRenameMap := commitRenameMap
          rename := rename
          rob := s.rob.dropWhile fun seqNum => decide (seqNum ≤ done)
          retired := s.retired ++ committed.map (·.staticInst) }

def squash (s : State cpu Value) (squashed : ℕ) : Option (State cpu Value) :=
  -- a squash of what is younger than `squashed`, in the reorder buffer and in rename
  (doSquash cpu.isa cpu.file squashed s.rename).toOption.map fun rename =>
    { s with
      insts := fun seqNum =>
        if seqNum ∈ s.rob ∧ squashed < seqNum then { s.insts seqNum with squashed := true } else s.insts seqNum
      rename := rename
      rob := s.rob.filter fun seqNum => decide (seqNum ≤ squashed) }

end Commit

end State

/-! ## Steps -/

/-- What rename asks of an instruction: no misc registers, and no zero register of the floating point
among the destinations, of which the decoders make no-ops. -/
structure Renamable (inst : StaticInst cpu.isa Value) : Prop where
  srcs : ∀ reg ∈ inst.srcRegs, reg < cpu.isa.maxRegIndex ∧ (cpu.isa.classify reg).1 ≠ .misc
  dests : ∀ reg ∈ inst.destRegs, reg < cpu.isa.maxRegIndex ∧ (cpu.isa.classify reg).1 ≠ .misc ∧
    flat inst.tc reg ≠ (.float, cpu.isa.fpZeroReg)

inductive Action (isa : Isa) (Value : Type) where
  | rename (seqNum : ℕ) (inst : StaticInst isa Value)
  | execute (seqNum : ℕ)
  | writeback (seqNum : ℕ)
  | commit (done : ℕ)
  | squash (squashed : ℕ)

instance (inst : StaticInst cpu.isa Value) : Decidable (Renamable inst) :=
  decidable_of_iff ((∀ reg ∈ inst.srcRegs, reg < cpu.isa.maxRegIndex ∧ (cpu.isa.classify reg).1 ≠ .misc) ∧
    ∀ reg ∈ inst.destRegs, reg < cpu.isa.maxRegIndex ∧ (cpu.isa.classify reg).1 ≠ .misc ∧
      flat inst.tc reg ≠ (.float, cpu.isa.fpZeroReg))
    ⟨fun ⟨srcs, dests⟩ => ⟨srcs, dests⟩, fun ⟨srcs, dests⟩ => ⟨srcs, dests⟩⟩

namespace State

def step (s : State cpu Value) : Action cpu.isa Value → Option (State cpu Value)
  | .rename seqNum inst => s.renameInst seqNum inst
  | .execute seqNum => some (s.executeInst seqNum)
  | .writeback seqNum => s.writebackInst seqNum
  | .commit done => s.commit done
  | .squash squashed => s.squash squashed

def Ready (s : State cpu Value) : Action cpu.isa Value → Prop
  -- what each stage waits for: rename for free registers, execution for the sources, and commit for
  -- the instructions that are written back
  | .rename seqNum inst => s.globalSeqNum ≤ seqNum ∧ Renamable inst ∧
      ∀ c, needs inst.tc inst.destRegs c ≤ (s.rename.free c).length
  | .execute seqNum => (s.insts seqNum).executed = false ∧
      ((s.insts seqNum).squashed = true ∨
        seqNum ∈ s.rob ∧ ∀ reg ∈ (s.insts seqNum).srcRegs, s.scoreboard reg = true)
  | .writeback seqNum => (s.insts seqNum).squashed = true ∨ seqNum ∈ s.rob ∧ (s.insts seqNum).executed = true
  | .commit done => ∀ seqNum ∈ s.rob, seqNum ≤ done → (s.insts seqNum).canCommit = true
  | .squash _ => True

instance (s : State cpu Value) (action : Action cpu.isa Value) : Decidable (s.Ready action) :=
  match action with
  | .rename seqNum inst =>
      decidable_of_iff (s.globalSeqNum ≤ seqNum ∧ Renamable inst ∧ ∀ c ∈ [RegClass.int, .float, .cc, .misc],
        needs inst.tc inst.destRegs c ≤ (s.rename.free c).length)
        ⟨fun ⟨later, renamable, enough⟩ => ⟨later, renamable, fun c => enough c (by cases c <;> simp)⟩,
          fun ⟨later, renamable, enough⟩ => ⟨later, renamable, fun c _ => enough c⟩⟩
  | .execute i => inferInstanceAs (Decidable ((s.insts i).executed = false ∧ ((s.insts i).squashed = true ∨
      i ∈ s.rob ∧ ∀ reg ∈ (s.insts i).srcRegs, s.scoreboard reg = true)))
  | .writeback i => inferInstanceAs (Decidable ((s.insts i).squashed = true ∨ i ∈ s.rob ∧ (s.insts i).executed = true))
  | .commit done => inferInstanceAs (Decidable (∀ i ∈ s.rob, i ≤ done → (s.insts i).canCommit = true))
  | .squash _ => inferInstanceAs (Decidable True)

/-- The core behind its constructors: every physical register counts as ready, and nothing is in
flight. `insts` are the objects that no instruction has yet. -/
def init (cpu : Cpu) (rename : RegisterRename.State) (regFile : PhysRegIndex → Value)
    (insts : ℕ → DynInst cpu.isa Value) : State cpu Value where
  globalSeqNum := 1
  insts := insts
  rename := rename
  scoreboard := fun _ => true
  rob := []
  regFile := regFile
  commitRenameMap := rename.map
  retired := []

end State

end GemFi.OutOfOrder
