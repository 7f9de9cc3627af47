import GemFi.Outcomes
import GemFi.Rings

/-!
The load and store queues of a thread (cpu/o3/lsq_unit.hh, lsq_unit_impl.hh). Both are
rings with one slot that stays free. A load leaves its queue when it commits; a store is
marked when it commits, is written back some time later, and leaves the queue when the
memory system has answered.

Accesses are not split, as in an ISA without unaligned ones. What the translation, the cache
and the other stages answer is an argument of the operation that asks them.
-/

namespace GemFi.LsqUnit

open Outcomes (Stop assert)
open Rings

abbrev Addr := BitVec 64
abbrev Byte := BitVec 8

abbrev InstSeqNum := Nat

structure Request where
  vaddr : Addr
  size : Nat
  uncacheable : Bool
  mmappedIpr : Bool
  cacheBlockZero : Bool
  deriving DecidableEq

/-- The test of `TLB::translateData`: an access that is not aligned to its size faults. -/
def Request.aligned (req : Request) : Bool :=
  decide (req.vaddr &&& (BitVec.ofNat 64 req.size - 1) = 0)

structure DynInst where
  isLoad : Bool
  isStoreConditional : Bool
  isDataPrefetch : Bool
  squashed : Bool
  lqIdx : Nat
  /-- `none` is the `-1` of a load that entered beside no store. -/
  sqIdx : Option Nat
  effAddr : Addr
  /-- A `uint8_t`. -/
  effSize : Nat
  effAddrValid : Bool
  uncacheable : Bool
  possibleLoadViolation : Bool
  hitExternalSnoop : Bool
  deriving DecidableEq

structure SQEntry where
  data : Nat → Byte
  inst : Option InstSeqNum
  req : Option Request
  /-- A `uint8_t`; zero until the store has executed. -/
  size : Nat
  canWB : Bool
  committed : Bool
  completed : Bool
  isAllZeros : Bool

def SQEntry.new (inst : Option InstSeqNum) : SQEntry where
  -- a fresh entry, for an instruction or for none
  data := fun _ => 0
  inst := inst
  req := none
  size := 0
  canWB := false
  committed := false
  completed := false
  isAllZeros := false

structure LSQUnit where
  LQEntries : Nat
  SQEntries : Nat
  depCheckShift : Nat
  checkLoads : Bool
  needsTSO : Bool
  insts : InstSeqNum → DynInst
  loadQueue : Nat → Option InstSeqNum
  storeQueue : Nat → SQEntry
  loads : Int
  stores : Int
  storesToWB : Int
  loadHead : Nat
  loadTail : Nat
  storeHead : Nat
  storeWBIdx : Nat
  storeTail : Nat
  stalled : Bool
  stallingStoreIsn : InstSeqNum
  stallingLoadIdx : Nat
  isStoreBlocked : Bool
  isLoadBlocked : Bool
  loadBlockedHandled : Bool
  storeInFlight : Bool
  blockedLoadSeqNum : InstSeqNum
  memDepViolator : Option InstSeqNum

def deref {α : Type} : Option α → Except Stop α
  | none => .error .nullPointer
  | some a => .ok a

namespace LSQUnit

/-- `init` and `resetState`, over the instructions that are to come. -/
def init (maxLQEntries maxSQEntries depCheckShift : Nat) (checkLoads needsTSO : Bool)
    (insts : InstSeqNum → DynInst) : LSQUnit where
  LQEntries := maxLQEntries + 1
  SQEntries := maxSQEntries + 1
  depCheckShift := depCheckShift
  checkLoads := checkLoads
  needsTSO := needsTSO
  insts := insts
  loadQueue := fun _ => none
  storeQueue := fun _ => SQEntry.new none
  loads := 0
  stores := 0
  storesToWB := 0
  loadHead := 0
  loadTail := 0
  storeHead := 0
  storeWBIdx := 0
  storeTail := 0
  stalled := false
  stallingStoreIsn := 0
  stallingLoadIdx := 0
  isStoreBlocked := false
  isLoadBlocked := false
  loadBlockedHandled := false
  storeInFlight := false
  blockedLoadSeqNum := 0
  memDepViolator := none

variable (u : LSQUnit)

def incrLdIdx (load_idx : Nat) : Nat := next u.LQEntries load_idx
def decrLdIdx (load_idx : Nat) : Nat := previous u.LQEntries load_idx
def incrStIdx (store_idx : Nat) : Nat := next u.SQEntries store_idx
def decrStIdx (store_idx : Nat) : Nat := previous u.SQEntries store_idx

def setInst (inst : InstSeqNum) (value : DynInst) : LSQUnit :=
  { u with insts := Function.update u.insts inst value }

def setEntry (store_idx : Nat) (entry : SQEntry) : LSQUnit :=
  { u with storeQueue := Function.update u.storeQueue store_idx entry }

def markStore (store_idx : Nat) : LSQUnit :=
  { u.setEntry store_idx { u.storeQueue store_idx with canWB := true } with
    storesToWB := u.storesToWB + 1 }

def markCompleted (store_idx : Nat) : LSQUnit :=
  { u.setEntry store_idx { u.storeQueue store_idx with completed := true } with
    storesToWB := u.storesToWB - 1 }

def popStore : LSQUnit :=
  { u with storeHead := u.incrStIdx u.storeHead, stores := u.stores - 1 }

def setStoreWBIdx (store_idx : Nat) : LSQUnit := { u with storeWBIdx := store_idx }

def setStoreBlocked (isStoreBlocked : Bool) : LSQUnit := { u with isStoreBlocked := isStoreBlocked }

def setStoreInFlight (storeInFlight : Bool) : LSQUnit :=
  -- only a memory system with a total store order keeps track of the store in flight
  if u.needsTSO then { u with storeInFlight := storeInFlight } else u

/-! Insertion. -/

def insertLoad (load_inst : InstSeqNum) : Except Stop LSQUnit := do
  assert ((u.loadTail + 1) % u.LQEntries ≠ u.loadHead)
  assert (u.loads < u.LQEntries)
  let value := { u.insts load_inst with
    lqIdx := u.loadTail
    sqIdx := if u.stores = 0 then none else some u.storeTail }
  .ok { u.setInst load_inst value with
    loadQueue := Function.update u.loadQueue u.loadTail (some load_inst)
    loadTail := u.incrLdIdx u.loadTail
    loads := u.loads + 1 }

def insertStore (store_inst : InstSeqNum) : Except Stop LSQUnit := do
  assert ((u.storeTail + 1) % u.SQEntries ≠ u.storeHead)
  assert (u.stores < u.SQEntries)
  let value := { u.insts store_inst with
    sqIdx := some u.storeTail
    lqIdx := u.loadTail }
  .ok { u.setInst store_inst value with
    storeQueue := Function.update u.storeQueue u.storeTail (SQEntry.new (some store_inst))
    storeTail := u.incrStIdx u.storeTail
    stores := u.stores + 1 }

/-! The check for ordering violations. -/

def lastByte (inst : DynInst) : Addr := inst.effAddr + BitVec.ofNat 64 inst.effSize - 1

def overlaps (inst ld_inst : DynInst) : Bool :=
  -- the comparison of two accesses after the shift
  decide (ld_inst.effAddr >>> u.depCheckShift ≤ lastByte inst >>> u.depCheckShift ∧
    inst.effAddr >>> u.depCheckShift ≤ lastByte ld_inst >>> u.depCheckShift)

def violatorYields (ld_inst : InstSeqNum) : Bool :=
  match u.memDepViolator with
  | none => true
  | some violator => decide (ld_inst < violator)

def violatorStands (ld_inst : InstSeqNum) : Bool :=
  match u.memDepViolator with
  | none => false
  | some violator => decide (violator < ld_inst)

/-- The loop of `checkViolations`; whether it returned a fault. -/
def checkViolationsLoop (inst : InstSeqNum) : Nat → Nat → LSQUnit → Except Stop (Bool × LSQUnit)
  | 0, _, _ => .error .endless
  | fuel + 1, load_idx, u =>
      if load_idx = u.loadTail then .ok (false, u)
      else do
        let ld_inst ← deref (u.loadQueue load_idx)
        if !(u.insts ld_inst).effAddrValid || (u.insts ld_inst).uncacheable then
          checkViolationsLoop inst fuel (u.incrLdIdx load_idx) u
        else if u.overlaps (u.insts inst) (u.insts ld_inst) then
          if (u.insts inst).isLoad then
            -- two loads are out of order only where a snoop came in between
            if (u.insts ld_inst).hitExternalSnoop && u.violatorYields ld_inst then
              .ok (true, { u with memDepViolator := some ld_inst })
            else
              checkViolationsLoop inst fuel (u.incrLdIdx load_idx)
                (u.setInst ld_inst { u.insts ld_inst with possibleLoadViolation := true })
          -- the older violator will squash this load as well
          else if u.violatorStands ld_inst then .ok (false, u)
          else .ok (true, { u with memDepViolator := some ld_inst })
        else checkViolationsLoop inst fuel (u.incrLdIdx load_idx) u

def checkViolations (load_idx : Nat) (inst : InstSeqNum) : Except Stop (Bool × LSQUnit) :=
  checkViolationsLoop inst u.LQEntries load_idx u

/-! A load. -/

inductive Search where
  | nothing
  | forward (store_idx : Nat)
  | mismatch (store_idx : Nat)
  deriving DecidableEq

def covers (entry : SQEntry) (store : DynInst) (req : Request) : Bool :=
  decide (store.effAddr ≤ req.vaddr ∧
    req.vaddr + BitVec.ofNat 64 req.size ≤ store.effAddr + BitVec.ofNat 64 entry.size)

def touches (entry : SQEntry) (store : DynInst) (req : Request) : Bool :=
  -- the store has part of it: the three overlap conditions after the first
  let store_has_lower_limit := decide (store.effAddr ≤ req.vaddr)
  let store_has_upper_limit :=
    decide (req.vaddr + BitVec.ofNat 64 req.size ≤ store.effAddr + BitVec.ofNat 64 entry.size)
  let lower_load_has_store_part := decide (req.vaddr < store.effAddr + BitVec.ofNat 64 entry.size)
  let upper_load_has_store_part := decide (store.effAddr < req.vaddr + BitVec.ofNat 64 req.size)
  (store_has_lower_limit && lower_load_has_store_part) ||
    (store_has_upper_limit && upper_load_has_store_part) ||
    (lower_load_has_store_part && upper_load_has_store_part)

/-- The loop of `read` over the stores, from the youngest older one to the first that is not
yet written back. -/
def searchStoresLoop (req : Request) : Nat → Nat → Except Stop Search
  | 0, _ => .error .endless
  | fuel + 1, store_idx =>
      if store_idx = u.storeWBIdx then .ok .nothing
      else
        let store_idx := u.decrStIdx store_idx
        let entry := u.storeQueue store_idx
        match entry.inst with
        | none => .error .assertion
        | some store_inst =>
            -- a store that has not executed has no size yet
            if entry.size = 0 then searchStoresLoop req fuel store_idx
            else if (u.insts store_inst).uncacheable then searchStoresLoop req fuel store_idx
            else if !(u.insts store_inst).effAddrValid then .error .assertion
            else if covers entry (u.insts store_inst) req then .ok (.forward store_idx)
            else if touches entry (u.insts store_inst) req then
              -- "Should not check one of these"
              if entry.completed then .error .panic else .ok (.mismatch store_idx)
            else searchStoresLoop req fuel store_idx

def searchStores (req : Request) : Option Nat → Except Stop Search
  | none => .ok .nothing
  | some store_idx => u.searchStoresLoop req u.SQEntries store_idx

inductive ReadResult where
  /-- An uncacheable load that may not go yet: a fault. -/
  | refused
  | ipr
  | forwarded (data : List Byte)
  | rescheduled
  | memory
  deriving DecidableEq

/-- The bytes that are copied out of a store; `shift_amt` is an `int`. -/
def forwardedData (entry : SQEntry) (store : DynInst) (req : Request) : List Byte :=
  let shift_amt := ((req.vaddr - store.effAddr).setWidth 32).toNat
  (List.range req.size).map fun k => if entry.isAllZeros then 0 else entry.data (shift_amt + k)

def recordStall (load_inst : InstSeqNum) (load_idx store_idx : Nat) : Except Stop LSQUnit := do
  let store_inst ← deref (u.storeQueue store_idx).inst
  let stalling := { u with
    stalled := true
    stallingStoreIsn := store_inst
    stallingLoadIdx := load_idx }
  if u.stalled then
    let other ← deref (u.loadQueue u.stallingLoadIdx)
    .ok (if load_inst < other then stalling else u)
  else .ok stalling

def accessMemory (load_inst : InstSeqNum) (cacheBlocked : Bool) : LSQUnit :=
  -- the access to memory; `cacheBlocked` after it was tried
  if cacheBlocked then
    if u.isLoadBlocked && decide (u.blockedLoadSeqNum < load_inst) then u
    else { u with isLoadBlocked := true, loadBlockedHandled := false, blockedLoadSeqNum := load_inst }
  else u

def read (req : Request) (load_idx : Nat) (isAtCommit cacheBlocked : Bool) :
    Except Stop (ReadResult × LSQUnit) := do
  let load_inst ← deref (u.loadQueue load_idx)
  -- uncacheable accesses go from the head of the queue and at commit only
  if req.uncacheable && (decide (load_idx ≠ u.loadHead) || !isAtCommit) then .ok (.refused, u)
  else if req.mmappedIpr then .ok (.ipr, u)
  else
    match ← u.searchStores req (u.insts load_inst).sqIdx with
    | .forward store_idx => do
        let store_inst ← deref (u.storeQueue store_idx).inst
        .ok (.forwarded (forwardedData (u.storeQueue store_idx) (u.insts store_inst) req), u)
    | .mismatch store_idx => do
        let stalling ← u.recordStall load_inst load_idx store_idx
        .ok (.rescheduled, stalling)
    | .nothing => .ok (.memory, u.accessMemory load_inst cacheBlocked)

inductive LoadAccess where
  | delayed
  | faulted
  | predicatedFalse
  | translated (req : Request) (isAtCommit cacheBlocked : Bool)
  deriving DecidableEq

def LoadAccess.aligned : LoadAccess → Bool
  | .translated req _ _ => req.aligned
  | _ => true

/-- The address of an access that is translated (`readMem`, `writeMem`). -/
def setAddress (inst : InstSeqNum) (req : Request) : LSQUnit :=
  u.setInst inst { u.insts inst with
    effAddr := req.vaddr
    effSize := req.size % 256
    effAddrValid := true
    uncacheable := req.uncacheable }

def executeLoad (inst : InstSeqNum) : LoadAccess → Except Stop (Bool × LSQUnit)
  -- whether the load faults, and the state after it
  | .delayed => do
      assert (!(u.insts inst).squashed)
      .ok (false, u)
  | .faulted => do
      assert (!(u.insts inst).squashed)
      .ok (true, u)
  | .predicatedFalse => do
      assert (!(u.insts inst).squashed)
      .ok (false, u)
  | .translated req isAtCommit cacheBlocked => do
      assert (!(u.insts inst).squashed)
      let (result, u) ← (u.setAddress inst req).read req (u.insts inst).lqIdx isAtCommit cacheBlocked
      if result = .refused then .ok (true, u)
      -- the cache did not take the access, and the load will be replayed
      else if u.isLoadBlocked then .ok (false, u)
      else if u.checkLoads then u.checkViolations (u.incrLdIdx (u.insts inst).lqIdx) inst
      else .ok (false, u)

/-! A store. -/

def written (entry : SQEntry) (req : Request) (data : Nat → Byte) : SQEntry :=
  -- the entry of a store that is written; a block of zeros brings no data
  { entry with
    req := some req
    size := req.size % 256
    isAllZeros := req.cacheBlockZero
    data := if req.cacheBlockZero then entry.data
      else fun k => if k < req.size then data k else entry.data k }

def write (req : Request) (data : Nat → Byte) (store_idx : Nat) : Except Stop LSQUnit := do
  assert (u.storeQueue store_idx).inst.isSome
  assert (decide (req.size ≤ 16) || req.cacheBlockZero)
  .ok (u.setEntry store_idx (written (u.storeQueue store_idx) req data))

inductive StoreAccess where
  | delayed
  | faulted
  | predicatedFalse
  | written (req : Request) (data : Nat → Byte)

def StoreAccess.fault : StoreAccess → Bool
  | .faulted => true
  | _ => false

def StoreAccess.readPredicate : StoreAccess → Bool
  | .predicatedFalse => false
  | _ => true

def StoreAccess.aligned : StoreAccess → Bool
  | .written req _ => req.aligned
  | _ => true

/-- `initiateAcc` of a store. -/
def initiateStore (inst : InstSeqNum) (store_idx : Nat) : StoreAccess → Except Stop LSQUnit
  | .written req data => (u.setAddress inst req).write req data store_idx
  | _ => .ok u

def readyConditional (inst : InstSeqNum) (store_idx : Nat) : LSQUnit :=
  if (u.insts inst).isStoreConditional then u.markStore store_idx else u

/-- `executeStore` after `initiateAcc`, where the translation is not delayed. -/
def finishStore (inst : InstSeqNum) (store_idx load_idx : Nat) (access : StoreAccess) :
    Except Stop (Bool × LSQUnit) :=
  if (u.storeQueue store_idx).size = 0 then .ok (access.fault, u)
  else if !access.readPredicate then .ok (access.fault, u)
  else do
    assert (!access.fault)
    (u.readyConditional inst store_idx).checkViolations load_idx inst

def executeStore (store_inst : InstSeqNum) (access : StoreAccess) : Except Stop (Bool × LSQUnit) := do
  assert (u.stores ≠ 0)
  let store_idx ← deref (u.insts store_inst).sqIdx
  assert (!(u.insts store_inst).squashed)
  let load_idx := (u.insts store_inst).lqIdx
  match access with
  | .delayed => .ok (false, u)
  | access => do
      let started ← u.initiateStore store_inst store_idx access
      started.finishStore store_inst store_idx load_idx access

/-! Commit. -/

def commitLoad : Except Stop LSQUnit := do
  assert (u.loadQueue u.loadHead).isSome
  .ok { u with
    loadQueue := Function.update u.loadQueue u.loadHead none
    loadHead := u.incrLdIdx u.loadHead
    loads := u.loads - 1 }

def commitLoadsLoop (youngest_inst : InstSeqNum) : Nat → LSQUnit → Except Stop LSQUnit
  | 0, _ => .error .endless
  | fuel + 1, u =>
      if u.loads = 0 then .ok u
      else do
        let inst ← deref (u.loadQueue u.loadHead)
        if inst ≤ youngest_inst then
          let after ← u.commitLoad
          commitLoadsLoop youngest_inst fuel after
        else .ok u

def commitLoads (youngest_inst : InstSeqNum) : Except Stop LSQUnit := do
  assert (decide (u.loads = 0) || (u.loadQueue u.loadHead).isSome)
  commitLoadsLoop youngest_inst u.LQEntries u

def commitStoresLoop (youngest_inst : InstSeqNum) : Nat → Nat → LSQUnit → Except Stop LSQUnit
  | 0, _, _ => .error .endless
  | fuel + 1, store_idx, u =>
      if store_idx = u.storeTail then .ok u
      else
        match (u.storeQueue store_idx).inst with
        | none => .error .assertion
        | some inst =>
            -- store conditionals were marked when they executed
            if (u.storeQueue store_idx).canWB then
              commitStoresLoop youngest_inst fuel (u.incrStIdx store_idx) u
            else if youngest_inst < inst then .ok u
            else
              commitStoresLoop youngest_inst fuel (u.incrStIdx store_idx) (u.markStore store_idx)

def commitStores (youngest_inst : InstSeqNum) : Except Stop LSQUnit := do
  assert (decide (u.stores = 0) || (u.storeQueue u.storeHead).inst.isSome)
  commitStoresLoop youngest_inst u.SQEntries u.storeHead u

/-! Writing back. -/

def unstall (inst : InstSeqNum) : LSQUnit :=
  if u.stalled && decide (inst = u.stallingStoreIsn) then
    { u with stalled := false, stallingStoreIsn := 0 }
  else u

def storePostSend : Except Stop LSQUnit := do
  let inst ← deref (u.storeQueue u.storeWBIdx).inst
  .ok (((u.unstall inst).setStoreInFlight true).setStoreWBIdx (u.incrStIdx u.storeWBIdx))

/-- The `do ... while` loop that frees the completed stores at the head. -/
def popCompleted : Nat → LSQUnit → Except Stop LSQUnit
  | 0, _ => .error .endless
  | fuel + 1, u =>
      if (u.storeQueue u.popStore.storeHead).completed && decide (u.popStore.storeHead ≠ u.storeTail)
      then popCompleted fuel u.popStore
      else .ok u.popStore

def popFrom (store_idx : Nat) : Except Stop LSQUnit :=
  -- the stores that an answer for the one at `store_idx` sets free
  if store_idx = u.storeHead then popCompleted u.SQEntries u else .ok u

def completeStore (store_idx : Nat) : Except Stop LSQUnit :=
  match (u.storeQueue store_idx).inst with
  | none => .error .assertion
  | some inst => do
      let popped ← (u.markCompleted store_idx).popFrom store_idx
      .ok ((popped.unstall inst).setStoreInFlight false)

def completeAtOnce : Except Stop LSQUnit := do
  let completed ← u.completeStore u.storeWBIdx
  .ok (completed.setStoreWBIdx (u.incrStIdx u.storeWBIdx))

structure SendAttempt where
  cacheBlocked : Bool
  /-- `handleLockedWrite` of a store conditional. -/
  lockedWrite : Bool
  sent : Bool
  deriving DecidableEq

/-- The conditions of the loop of `writebackStores`; the cache ports only bound how often it
runs in a cycle. -/
def mayWriteBack : Bool :=
  decide (0 < u.storesToWB) && decide (u.storeWBIdx ≠ u.storeTail) &&
    (u.storeQueue u.storeWBIdx).inst.isSome && (u.storeQueue u.storeWBIdx).canWB &&
    (!u.needsTSO || !u.storeInFlight)

def sendToMemory (inst : InstSeqNum) (attempt : SendAttempt) : Except Stop LSQUnit :=
  match (u.storeQueue u.storeWBIdx).req with
  | none => .error .assertion
  | some req => do
      assert (!(u.storeQueue u.storeWBIdx).committed)
      let handed := u.setEntry u.storeWBIdx { u.storeQueue u.storeWBIdx with committed := true }
      -- a store conditional that has lost its lock fails without an access
      if (u.insts inst).isStoreConditional && !attempt.lockedWrite then handed.completeAtOnce
      else if req.mmappedIpr then do
        assert (!(u.insts inst).isStoreConditional)
        handed.completeAtOnce
      else if attempt.sent then handed.storePostSend
      else .ok (handed.setStoreBlocked true)

/-- One pass of the loop of `writebackStores`. -/
def writebackStore (attempt : SendAttempt) : Except Stop LSQUnit :=
  if !u.mayWriteBack || u.isStoreBlocked || attempt.cacheBlocked then .ok u
  -- a store that faulted or was predicated false has nothing to write
  else if (u.storeQueue u.storeWBIdx).size = 0 then u.completeAtOnce
  else do
    let inst ← deref (u.storeQueue u.storeWBIdx).inst
    -- a prefetch is passed over, but nothing completes it
    if (u.insts inst).isDataPrefetch then
      .ok (u.setStoreWBIdx (u.incrStIdx u.storeWBIdx))
    else u.sendToMemory inst attempt

def recvRetry (sent : Bool) : Except Stop LSQUnit :=
  if u.isStoreBlocked && sent then do
    let posted ← u.storePostSend
    .ok (posted.setStoreBlocked false)
  else .ok u

/-! Squash. -/

def unstallAt (load_idx : Nat) : LSQUnit :=
  if u.stalled && decide (load_idx = u.stallingLoadIdx) then
    { u with stalled := false, stallingStoreIsn := 0, stallingLoadIdx := 0 }
  else u

def removeLoad (load_inst : InstSeqNum) (load_idx : Nat) : LSQUnit :=
  { u.setInst load_inst { u.insts load_inst with squashed := true } with
    loadQueue := Function.update u.loadQueue load_idx none
    loads := u.loads - 1
    loadTail := load_idx }

def squashLoads (squashed_num : InstSeqNum) : Nat → Nat → LSQUnit → Except Stop LSQUnit
  | 0, _, _ => .error .endless
  | fuel + 1, load_idx, u =>
      if u.loads = 0 then .ok u
      else do
        let load_inst ← deref (u.loadQueue load_idx)
        if squashed_num < load_inst then
          squashLoads squashed_num fuel (u.decrLdIdx load_idx)
            ((u.unstallAt load_idx).removeLoad load_inst load_idx)
        else .ok u

def removeStore (store_inst : InstSeqNum) (store_idx : Nat) : LSQUnit :=
  { (u.setInst store_inst { u.insts store_inst with squashed := true }).setEntry store_idx
      { u.storeQueue store_idx with inst := none, canWB := false, req := none } with
    stores := u.stores - 1
    storeTail := store_idx }

def squashStores (squashed_num : InstSeqNum) : Nat → Nat → LSQUnit → Except Stop LSQUnit
  | 0, _, _ => .error .endless
  | fuel + 1, store_idx, u =>
      if u.stores = 0 then .ok u
      else do
        let store_inst ← deref (u.storeQueue store_idx).inst
        -- a marked store is committed, and has to be written
        if squashed_num < store_inst && !(u.storeQueue store_idx).canWB then
          -- the load that waits is younger, and its squash came first
          if u.stalled && decide (store_inst = u.stallingStoreIsn) then .error .panic
          else
            squashStores squashed_num fuel (u.decrStIdx store_idx)
              (u.removeStore store_inst store_idx)
        else .ok u

def clearBlocked (squashed_num : InstSeqNum) : LSQUnit :=
  if u.isLoadBlocked && decide (squashed_num < u.blockedLoadSeqNum) then
    { u with isLoadBlocked := false, loadBlockedHandled := false, blockedLoadSeqNum := 0 }
  else u

def clearViolator (squashed_num : InstSeqNum) : LSQUnit :=
  { u with memDepViolator := u.memDepViolator.filter fun violator => decide (violator ≤ squashed_num) }

def squash (squashed_num : InstSeqNum) : Except Stop LSQUnit := do
  let loaded ← squashLoads squashed_num u.LQEntries (u.decrLdIdx u.loadTail) u
  let cleared := (loaded.clearBlocked squashed_num).clearViolator squashed_num
  squashStores squashed_num u.SQEntries (cleared.decrStIdx cleared.storeTail) cleared

/-! The flags that other stages touch. -/

def getMemDepViolator : Option InstSeqNum × LSQUnit :=
  (u.memDepViolator, { u with memDepViolator := none })

def clearLoadBlocked : LSQUnit := { u with isLoadBlocked := false }

def setLoadBlockedHandled : LSQUnit := { u with loadBlockedHandled := true }

def snoopHit (load_inst : InstSeqNum) : LSQUnit :=
  -- what a snoop leaves behind in a load that it hits
  u.setInst load_inst { u.insts load_inst with hitExternalSnoop := true }

end LSQUnit

/-! What the queues hold. -/

def SQEntry.seqNum (entry : SQEntry) : InstSeqNum := entry.inst.getD 0

def SQEntry.pending (entry : SQEntry) : Bool := entry.canWB && !entry.completed

def LSQUnit.loadSlots (u : LSQUnit) : List (Option InstSeqNum) :=
  contents u.loadQueue u.LQEntries u.loadHead u.loads.toNat

def LSQUnit.storeSlots (u : LSQUnit) : List SQEntry :=
  contents u.storeQueue u.SQEntries u.storeHead u.stores.toNat

def LSQUnit.sentCount (u : LSQUnit) : Nat :=
  -- how many of the stores are written back
  (((u.storeWBIdx : Int) - u.storeHead) % u.SQEntries).toNat

/-! The queues and the pipeline around them. -/

structure Machine where
  lsq : LSQUnit
  doneSeqNum : InstSeqNum

inductive Action where
  | insertLoad (inst : InstSeqNum)
  | insertStore (inst : InstSeqNum)
  | executeLoad (inst : InstSeqNum) (access : LSQUnit.LoadAccess)
  | executeStore (inst : InstSeqNum) (access : LSQUnit.StoreAccess)
  | commitLoads (youngest_inst : InstSeqNum)
  | commitStores (youngest_inst : InstSeqNum)
  | writebackStore (attempt : LSQUnit.SendAttempt)
  | recvRetry (sent : Bool)
  | completeStore (store_idx : Nat)
  | squash (squashed_num : InstSeqNum)
  | getMemDepViolator
  | clearLoadBlocked
  | setLoadBlockedHandled
  | snoopHit (inst : InstSeqNum)

def perform (u : LSQUnit) : Action → Except Stop LSQUnit
  | .insertLoad inst => u.insertLoad inst
  | .insertStore inst => u.insertStore inst
  | .executeLoad inst access => (u.executeLoad inst access).map Prod.snd
  | .executeStore inst access => (u.executeStore inst access).map Prod.snd
  | .commitLoads youngest_inst => u.commitLoads youngest_inst
  | .commitStores youngest_inst => u.commitStores youngest_inst
  | .writebackStore attempt => u.writebackStore attempt
  | .recvRetry sent => u.recvRetry sent
  | .completeStore store_idx => u.completeStore store_idx
  | .squash squashed_num => u.squash squashed_num
  | .getMemDepViolator => .ok u.getMemDepViolator.2
  | .clearLoadBlocked => .ok u.clearLoadBlocked
  | .setLoadBlockedHandled => .ok u.setLoadBlockedHandled
  | .snoopHit inst => .ok (u.snoopHit inst)

def doneAfter (doneSeqNum : InstSeqNum) : Action → InstSeqNum
  | .commitLoads youngest_inst => max doneSeqNum youngest_inst
  | .commitStores youngest_inst => max doneSeqNum youngest_inst
  | _ => doneSeqNum

def step (m : Machine) (action : Action) : Option Machine :=
  (perform m.lsq action).toOption.map fun lsq => ⟨lsq, doneAfter m.doneSeqNum action⟩

def Youngest (u : LSQUnit) (inst : InstSeqNum) : Prop :=
  (∀ slot ∈ u.loadSlots, ∀ load ∈ slot, load < inst) ∧ ∀ entry ∈ u.storeSlots, entry.seqNum < inst

def BelowStalled (u : LSQUnit) (youngest_inst : InstSeqNum) : Prop :=
  u.stalled = true → ∀ waiting ∈ u.loadQueue u.stallingLoadIdx, youngest_inst < waiting

def MayWrite (m : Machine) (inst : InstSeqNum) : LSQUnit.StoreAccess → Prop
  -- the data of a store fits, and a store conditional is the oldest instruction that is not
  -- committed
  | .written req _ =>
      (req.size ≤ 16 ∨ req.cacheBlockZero = true) ∧
        ((m.lsq.insts inst).isStoreConditional = true →
          req.mmappedIpr = false ∧
          (∀ slot ∈ m.lsq.loadSlots, ∀ load ∈ slot, load ≤ inst → load ≤ m.doneSeqNum) ∧
          ∀ entry ∈ m.lsq.storeSlots, entry.seqNum < inst → entry.canWB = true)
  | _ => True

def Orderly (m : Machine) : Action → Prop
  -- what the pipeline promises about its calls. A store writes once and before it commits. An
  -- access that is translated is aligned. The memory system answers for a store that it was sent,
  -- and once.
  | .insertLoad inst => m.lsq.loads < m.lsq.LQEntries - 1 ∧ Youngest m.lsq inst
  | .insertStore inst =>
      m.lsq.stores < m.lsq.SQEntries - 1 ∧ Youngest m.lsq inst ∧
        (m.lsq.insts inst).isDataPrefetch = false
  | .executeLoad inst access =>
      some inst ∈ m.lsq.loadSlots ∧ m.doneSeqNum < inst ∧ (m.lsq.insts inst).squashed = false ∧
        access.aligned = true
  | .executeStore inst access =>
      (∃ entry ∈ m.lsq.storeSlots,
        entry.inst = some inst ∧ entry.size = 0 ∧ entry.canWB = false) ∧
      m.doneSeqNum < inst ∧ (m.lsq.insts inst).isLoad = false ∧
        (m.lsq.insts inst).squashed = false ∧ MayWrite m inst access ∧ access.aligned = true
  | .commitLoads youngest_inst => BelowStalled m.lsq youngest_inst
  | .commitStores youngest_inst => BelowStalled m.lsq youngest_inst
  | .completeStore store_idx =>
      (∃ offset < m.lsq.sentCount, store_idx = slot m.lsq.SQEntries m.lsq.storeHead offset) ∧
        (m.lsq.storeQueue store_idx).completed = false
  | .squash squashed_num => m.doneSeqNum ≤ squashed_num
  | _ => True

instance (u : LSQUnit) (inst : InstSeqNum) : Decidable (Youngest u inst) :=
  inferInstanceAs (Decidable (_ ∧ _))

instance (u : LSQUnit) (youngest_inst : InstSeqNum) : Decidable (BelowStalled u youngest_inst) :=
  inferInstanceAs (Decidable (_ → _))

instance (m : Machine) (inst : InstSeqNum) (access : LSQUnit.StoreAccess) :
    Decidable (MayWrite m inst access) :=
  match access with
  | .written _ _ => inferInstanceAs (Decidable (_ ∧ _))
  | .delayed => isTrue True.intro
  | .faulted => isTrue True.intro
  | .predicatedFalse => isTrue True.intro

instance (m : Machine) (action : Action) : Decidable (Orderly m action) :=
  match action with
  | .insertLoad _ => inferInstanceAs (Decidable (_ ∧ _))
  | .insertStore _ => inferInstanceAs (Decidable (_ ∧ _))
  | .executeLoad _ _ => inferInstanceAs (Decidable (_ ∧ _))
  | .executeStore _ _ => inferInstanceAs (Decidable (_ ∧ _))
  | .commitLoads youngest_inst => inferInstanceAs (Decidable (BelowStalled m.lsq youngest_inst))
  | .commitStores youngest_inst => inferInstanceAs (Decidable (BelowStalled m.lsq youngest_inst))
  | .completeStore _ => inferInstanceAs (Decidable (_ ∧ _))
  | .squash squashed_num => inferInstanceAs (Decidable (m.doneSeqNum ≤ squashed_num))
  | .writebackStore _ => isTrue True.intro
  | .recvRetry _ => isTrue True.intro
  | .getMemDepViolator => isTrue True.intro
  | .clearLoadBlocked => isTrue True.intro
  | .setLoadBlockedHandled => isTrue True.intro
  | .snoopHit _ => isTrue True.intro

end GemFi.LsqUnit
