import GemFi.Outcomes
import GemFi.UndoLogs

/-!
Register renaming in the out-of-order CPU, for one thread: the free lists, the rename
maps and the history buffer of cpu/o3/rename_impl.hh, rename_map.cc and free_list.hh, with the
register classes of cpu/reg_class.hh and the physical register file of regfile.hh.
-/

namespace GemFi.RegisterRename

open Outcomes (Stop assert)

abbrev RegIndex := Nat
abbrev PhysRegIndex := Nat

inductive RegClass where
  | int | float | cc | misc
  deriving DecidableEq, Repr

structure Isa where
  numIntRegs : Nat
  numFloatRegs : Nat
  numCCRegs : Nat
  fpRegBase : Nat
  ccRegBase : Nat
  miscRegBase : Nat
  maxRegIndex : Nat
  zeroReg : RegIndex
  fpZeroReg : RegIndex
  intFits : numIntRegs ≤ fpRegBase
  floatFits : fpRegBase + numFloatRegs ≤ ccRegBase
  ccFits : ccRegBase + numCCRegs ≤ miscRegBase
  miscFits : miscRegBase ≤ maxRegIndex

namespace Isa

def numRegs (isa : Isa) : RegClass → Nat
  | .int => isa.numIntRegs
  | .float => isa.numFloatRegs
  | .cc => isa.numCCRegs
  | .misc => 0

def zeroOf (isa : Isa) : RegClass → Option RegIndex
  | .int => some isa.zeroReg
  | .float => some isa.fpZeroReg
  | .cc | .misc => none

def base (isa : Isa) : RegClass → Nat
  | .int => 0
  | .float => isa.fpRegBase
  | .cc => isa.ccRegBase
  | .misc => isa.miscRegBase

def classify (isa : Isa) (reg : Nat) : RegClass × RegIndex :=
  if reg < isa.fpRegBase then (.int, reg)
  else if reg < isa.ccRegBase then (.float, reg - isa.fpRegBase)
  else if reg < isa.miscRegBase then (.cc, reg - isa.ccRegBase)
  else (.misc, reg - isa.miscRegBase)

/-- `regIdxToClass`. -/
def regIdxToClass (isa : Isa) (reg : Nat) : Except Stop (RegClass × RegIndex) := do
  assert (reg < isa.maxRegIndex)
  .ok (isa.classify reg)

end Isa

structure ThreadContext (isa : Isa) where
  -- the flattening of indices by the ISA, in the context of an instruction. Misc registers are not
  -- flattened.
  flatten : RegClass → RegIndex → RegIndex
  inRange : ∀ reg, (isa.classify reg).1 ≠ .misc →
    flatten (isa.classify reg).1 (isa.classify reg).2 < isa.numRegs (isa.classify reg).1

structure PhysRegFile where
  baseFloatRegIndex : Nat
  baseCCRegIndex : Nat
  totalNumRegs : Nat
  floatFits : baseFloatRegIndex ≤ baseCCRegIndex
  ccFits : baseCCRegIndex ≤ totalNumRegs

namespace PhysRegFile

def isIntPhysReg (file : PhysRegFile) (reg : Nat) : Bool := reg < file.baseFloatRegIndex

def isFloatPhysReg (file : PhysRegFile) (reg : Nat) : Bool :=
  file.baseFloatRegIndex ≤ reg && reg < file.baseCCRegIndex

def isCCPhysReg (file : PhysRegFile) (reg : Nat) : Bool :=
  file.baseCCRegIndex ≤ reg && reg < file.totalNumRegs

def isPhysReg (file : PhysRegFile) : RegClass → PhysRegIndex → Bool
  | .int, reg => file.isIntPhysReg reg
  | .float, reg => file.isFloatPhysReg reg
  | .cc, reg => file.isCCPhysReg reg
  | .misc, _ => false

end PhysRegFile

structure RenameHistory where
  instSeqNum : Nat
  archReg : RegIndex
  newPhysReg : PhysRegIndex
  prevPhysReg : PhysRegIndex
  deriving DecidableEq, Repr

/-- `free` holds intList, floatList and ccList, `map` holds intMap, floatMap and ccMap. -/
structure State where
  free : RegClass → List PhysRegIndex
  map : RegClass × RegIndex → PhysRegIndex
  history : List RenameHistory

section FreeLists

/-- `SimpleFreeList::getReg`. -/
def getReg (c : RegClass) (s : State) : Except Stop (PhysRegIndex × State) :=
  match s.free c with
  | [] => .error .assertion
  | reg :: rest => .ok (reg, { s with free := Function.update s.free c rest })

/-- `SimpleFreeList::addReg`. -/
def addSimpleReg (c : RegClass) (reg : PhysRegIndex) (s : State) : State :=
  { s with free := Function.update s.free c (s.free c ++ [reg]) }

/-- `UnifiedFreeList::addReg`. -/
def addReg (file : PhysRegFile) (reg : PhysRegIndex) (s : State) : Except Stop State :=
  if file.isIntPhysReg reg then .ok (addSimpleReg .int reg s)
  else if file.isFloatPhysReg reg then .ok (addSimpleReg .float reg s)
  else do
    assert (file.isCCPhysReg reg)
    .ok (addSimpleReg .cc reg s)

end FreeLists

section Maps

/-- `SimpleRenameMap::setEntry`. -/
def setSimpleEntry (c : RegClass) (reg : RegIndex) (phys : PhysRegIndex) (s : State) : State :=
  { s with map := Function.update s.map (c, reg) phys }

/-- `SimpleRenameMap::rename`, with the new and the previous physical register. -/
def renameSimple (isa : Isa) (c : RegClass) (reg : RegIndex) (s : State) :
    Except Stop ((PhysRegIndex × PhysRegIndex) × State) :=
  let prev := s.map (c, reg)
  if isa.zeroOf c ≠ some reg then do
    let (renamed, s) ← getReg c s
    .ok ((renamed, prev), setSimpleEntry c reg renamed s)
  else do
    assert (prev == reg)
    .ok ((reg, prev), s)

def renameClass (isa : Isa) (file : PhysRegFile) (c : RegClass) (reg : RegIndex) (s : State) :
    Except Stop ((PhysRegIndex × PhysRegIndex) × State) := do
  let (info, s) ← renameSimple isa c reg s
  assert (file.isPhysReg c info.1)
  .ok (info, s)

def renameInt (isa : Isa) (file : PhysRegFile) := renameClass isa file .int
def renameFloat (isa : Isa) (file : PhysRegFile) := renameClass isa file .float
def renameCC (isa : Isa) (file : PhysRegFile) := renameClass isa file .cc

def lookupMisc (file : PhysRegFile) (reg : RegIndex) : PhysRegIndex := reg + file.totalNumRegs

def renameMisc (file : PhysRegFile) (reg : RegIndex) (s : State) :
    (PhysRegIndex × PhysRegIndex) × State :=
  ((lookupMisc file reg, lookupMisc file reg), s)

/-- `UnifiedRenameMap::setEntry`, with setIntEntry, setFloatEntry and setCCEntry. -/
def setEntry (isa : Isa) (file : PhysRegFile) (archReg : RegIndex) (phys : PhysRegIndex) (s : State) :
    Except Stop State := do
  let (c, reg) ← isa.regIdxToClass archReg
  match c with
  | .misc =>
      assert (phys == lookupMisc file reg)
      .ok s
  | c =>
      assert (file.isPhysReg c phys)
      .ok (setSimpleEntry c reg phys s)

end Maps

section Renaming

variable (isa : Isa) (file : PhysRegFile)

def renameDestReg (tc : ThreadContext isa) (seqNum : Nat) (s : State) (destReg : RegIndex) :
    Except Stop State := do
  let (c, reg) ← isa.regIdxToClass destReg
  let ((new, prev), s) ← match c with
    | .int => renameInt isa file (tc.flatten .int reg) s
    | .float => renameFloat isa file (tc.flatten .float reg) s
    | .cc => renameCC isa file (tc.flatten .cc reg) s
    | .misc => .ok (renameMisc file reg s)
  let flatReg := match c with
    | .misc => reg + isa.miscRegBase
    | c => tc.flatten c reg + isa.base c
  .ok { s with history := ⟨seqNum, flatReg, new, prev⟩ :: s.history }

/-- `DefaultRename::renameDestRegs`. -/
def renameDestRegs (tc : ThreadContext isa) (seqNum : Nat) (destRegs : List RegIndex)
    (s : State) : Except Stop State :=
  destRegs.foldlM (renameDestReg isa file tc seqNum) s

def undoEntry (entry : RenameHistory) (s : State) : Except Stop State :=
  if entry.newPhysReg ≠ entry.prevPhysReg then do
    let s ← setEntry isa file entry.archReg entry.prevPhysReg s
    addReg file entry.newPhysReg s
  else .ok s

def undoHistory (squashed : Nat) : List RenameHistory → State → Except Stop State
  | [], s => .ok s
  | entry :: older, s =>
      if entry.instSeqNum > squashed then do
        let s ← undoEntry isa file entry s
        undoHistory squashed older { s with history := older }
      else .ok s

/-- `DefaultRename::doSquash`. -/
def doSquash (squashed : Nat) (s : State) : Except Stop State :=
  undoHistory isa file squashed s.history s

def freeEntry (entry : RenameHistory) (s : State) : Except Stop State :=
  if entry.newPhysReg ≠ entry.prevPhysReg then addReg file entry.prevPhysReg s else .ok s

def freeHistory (done : Nat) : List RenameHistory → State → Except Stop State
  | [], s => .ok s
  | entry :: newer, s =>
      if entry.instSeqNum ≤ done then do
        let s ← freeEntry file entry s
        freeHistory done newer { s with history := s.history.dropLast }
      else .ok s

/-- `DefaultRename::removeFromHistory`. -/
def removeFromHistory (done : Nat) (s : State) : Except Stop State :=
  match s.history.getLast? with
  | none => .ok s
  | some oldest =>
      if oldest.instSeqNum > done then .ok s else freeHistory file done s.history.reverse s

inductive Action where
  | rename (tc : ThreadContext isa) (seqNum : Nat) (destRegs : List RegIndex)
  | commit (done : Nat)
  | squash (squashed : Nat)

def act (s : State) : Action isa → Except Stop State
  | .rename tc seqNum destRegs => renameDestRegs isa file tc seqNum destRegs s
  | .commit done => removeFromHistory file done s
  | .squash squashed => doSquash isa file squashed s

def step (s : State) (action : Action isa) : Option State := (act isa file s action).toOption

end Renaming

section Constructor

/-- `PhysRegFile::initFreeList`: every register is free. -/
def initFreeList (file : PhysRegFile) : State where
  free
    | .int => List.range' 0 file.baseFloatRegIndex
    | .float => List.range' file.baseFloatRegIndex (file.baseCCRegIndex - file.baseFloatRegIndex)
    | .cc => List.range' file.baseCCRegIndex (file.totalNumRegs - file.baseCCRegIndex)
    | .misc => []
  map _ := 0
  history := []

def mapReg (file : PhysRegFile) (s : State) (arch : RegClass × RegIndex) : Except Stop State := do
  let (phys, s) ← getReg arch.1 s
  assert (file.isPhysReg arch.1 phys)
  .ok (setSimpleEntry arch.1 arch.2 phys s)

def archRegs (isa : Isa) : List (RegClass × RegIndex) :=
  -- the registers of the rename maps, in the order of the constructor
  [RegClass.int, .float, .cc].flatMap fun c => (List.range (isa.numRegs c)).map (Prod.mk c)

def constructed (isa : Isa) (file : PhysRegFile) : Except Stop State :=
  (archRegs isa).foldlM (mapReg file) (initFreeList file)

end Constructor

end GemFi.RegisterRename
