import GemFi.NodeLists
import GemFi.Outcomes

/-!
The queue of miss status registers (mem/cache/mshr_queue.cc, mshr.cc, mshr.hh). A register is
free or allocated, and an allocated one is ready until it is in service. Registers are named by
their places in the vector; the lists have nodes, and each register keeps the iterators of its
own nodes.
-/

namespace GemFi.MshrQueue

open Outcomes (Stop assert)
open NodeLists

abbrev Addr := BitVec 64
abbrev Tick := Nat

structure Packet where
  needsExclusive : Bool
  isUpgrade : Bool
  isStoreCond : Bool
  isHardPF : Bool
  needsResponse : Bool
  isSecure : Bool
  isUncacheable : Bool
  sharedAsserted : Bool
  memInhibitAsserted : Bool
  deriving DecidableEq

inductive Source where
  | fromCPU
  | fromSnoop
  | fromPrefetcher
  deriving DecidableEq

structure Target where
  pkt : Packet
  readyTime : Tick
  order : Nat
  source : Source
  markedPending : Bool
  deriving DecidableEq

structure TargetList where
  targets : List Target
  needsExclusive : Bool
  hasUpgrade : Bool
  deriving DecidableEq

namespace TargetList

def new : TargetList := ⟨[], false, false⟩

def resetFlags (list : TargetList) : TargetList := ⟨list.targets, false, false⟩

def isReset (list : TargetList) : Bool := !list.needsExclusive && !list.hasUpgrade

def add (list : TargetList) (pkt : Packet) (readyTime : Tick) (order : Nat) (source : Source)
    (markPending : Bool) : TargetList where
  targets := list.targets ++ [⟨pkt, readyTime, order, source, markPending⟩]
  needsExclusive := list.needsExclusive || (source != .fromSnoop && pkt.needsExclusive)
  hasUpgrade := list.hasUpgrade || (source != .fromSnoop && (pkt.isUpgrade || pkt.isStoreCond))

end TargetList

structure MSHR where
  readyTime : Tick
  isUncacheable : Bool
  downstreamPending : Bool
  pendingDirty : Bool
  postInvalidate : Bool
  postDowngrade : Bool
  order : Nat
  addr : Addr
  size : Int
  isSecure : Bool
  inService : Bool
  isForward : Bool
  threadNum : Int
  /-- `none` is an iterator that was never set. -/
  readyIter : Option Nat
  allocIter : Option Nat
  targets : TargetList
  deferredTargets : TargetList

namespace MSHR

def new : MSHR where
  readyTime := 0
  isUncacheable := false
  downstreamPending := false
  pendingDirty := false
  postInvalidate := false
  postDowngrade := false
  order := 0
  addr := 0
  size := 0
  isSecure := false
  inService := false
  isForward := false
  threadNum := -1
  readyIter := none
  allocIter := none
  targets := TargetList.new
  deferredTargets := TargetList.new

variable (mshr : MSHR)

def getNumTargets : Nat := mshr.targets.targets.length + mshr.deferredTargets.targets.length

def allocate (addr : Addr) (size : Int) (target : Packet) (whenReady : Tick) (order : Nat) :
    Except Stop MSHR := do
  assert mshr.targets.isReset
  assert mshr.deferredTargets.isReset
  .ok { mshr with
    addr := addr
    size := size
    isSecure := target.isSecure
    readyTime := whenReady
    order := order
    isForward := false
    isUncacheable := target.isUncacheable
    inService := false
    downstreamPending := false
    threadNum := 0
    targets := mshr.targets.add target whenReady order
      (if target.isHardPF then .fromPrefetcher else .fromCPU) true }

def isForwardNoResponse : Except Stop Bool :=
  if mshr.getNumTargets ≠ 1 then .ok false
  else
    -- the only target may be a deferred one, and then there is no front
    match mshr.targets.targets with
    | [] => .error .noElement
    | tgt :: _ => .ok (tgt.source == .fromCPU && !tgt.pkt.needsResponse)

def popTarget : Except Stop MSHR :=
  match mshr.targets.targets with
  | [] => .error .noElement
  | _ :: rest => .ok { mshr with targets := { mshr.targets with targets := rest } }

def markInService (pkt : Packet) : Except Stop (Bool × MSHR) := do
  assert (!mshr.inService)
  if ← mshr.isForwardNoResponse then do
    assert (mshr.getNumTargets = 1)
    -- the packet was forwarded, and no response will come for its target
    let popped ← mshr.popTarget
    .ok (true, popped)
  else
    .ok (false, { mshr with
      inService := true
      pendingDirty := mshr.targets.needsExclusive || (!pkt.sharedAsserted && pkt.memInhibitAsserted)
      postInvalidate := false
      postDowngrade := false })

def deallocate : Except Stop MSHR := do
  assert mshr.targets.targets.isEmpty
  assert mshr.deferredTargets.isReset
  .ok { mshr with targets := mshr.targets.resetFlags, inService := false }

def promoteDeferredTargets (curTick : Tick) : Except Stop (Bool × MSHR) := do
  assert mshr.targets.targets.isEmpty
  match mshr.deferredTargets.targets with
  | [] => .ok (false, mshr)
  | front :: _ => .ok (true, { mshr with
      targets := mshr.deferredTargets
      deferredTargets := mshr.targets.resetFlags
      order := front.order
      readyTime := max curTick front.readyTime })

def retarget (targets deferredTargets : TargetList) (postInvalidate postDowngrade : Bool) : MSHR :=
  { mshr with
    targets := targets
    deferredTargets := deferredTargets
    postInvalidate := postInvalidate
    postDowngrade := postDowngrade }

end MSHR

structure MSHRQueue where
  numEntries : Nat
  registers : Nat → MSHR
  allocatedList : NodeList Nat
  readyList : NodeList Nat
  freeList : List Nat
  /-- Nodes from here on were never used. -/
  nextNode : Nat
  /-- Someone waits for the queue to drain. -/
  drainManager : Bool
  allocated : Int
  inServiceEntries : Int

namespace MSHRQueue

def init (num_entries reserve : Nat) : MSHRQueue where
  -- the constructor, which makes `num_entries + reserve - 1` registers
  numEntries := num_entries + reserve - 1
  registers := fun _ => MSHR.new
  allocatedList := []
  readyList := []
  freeList := List.range (num_entries + reserve - 1)
  nextNode := 0
  drainManager := false
  allocated := 0
  inServiceEntries := 0

variable (queue : MSHRQueue)

def setMSHR (r : Nat) (mshr : MSHR) : MSHRQueue :=
  { queue with registers := Function.update queue.registers r mshr }

def insertReady (before after : NodeList Nat) (r : Nat) : MSHRQueue :=
  { queue.setMSHR r { queue.registers r with readyIter := some queue.nextNode } with
    readyList := before ++ (queue.nextNode, r) :: after
    nextNode := queue.nextNode + 1 }

def insertAllocated (r : Nat) : MSHRQueue :=
  { queue.setMSHR r { queue.registers r with allocIter := some queue.nextNode } with
    allocatedList := queue.allocatedList ++ [(queue.nextNode, r)]
    nextNode := queue.nextNode + 1 }

def readyTime (r : Nat) : Tick := (queue.registers r).readyTime

def goesLast (r : Nat) : Bool :=
  match queue.readyList.getLast? with
  | none => true
  | some back => decide (queue.readyTime back.2 ≤ queue.readyTime r)

def isPassed (r : Nat) (entry : Nat × Nat) : Bool :=
  decide (queue.readyTime entry.2 ≤ queue.readyTime r)

def addToReadyList (r : Nat) : Except Stop MSHRQueue :=
  if queue.goesLast r then .ok (queue.insertReady queue.readyList [] r)
  else
    match queue.readyList.dropWhile (queue.isPassed r) with
    -- the last one is ready later than this, so the search stops before the end
    | [] => .error .unreachable
    | later => .ok (queue.insertReady (queue.readyList.takeWhile (queue.isPassed r)) later r)

def eraseReady (r : Nat) : Except Stop MSHRQueue :=
  match erase queue.readyList (queue.registers r).readyIter with
  | none => .error .noElement
  | some readyList => .ok { queue with readyList := readyList }

def eraseAllocated (r : Nat) : Except Stop MSHRQueue :=
  match erase queue.allocatedList (queue.registers r).allocIter with
  | none => .error .noElement
  | some allocatedList => .ok { queue with allocatedList := allocatedList }

def allocate (addr : Addr) (size : Int) (pkt : Packet) (whenReady : Tick) (order : Nat) :
    Except Stop (Nat × MSHRQueue) :=
  match queue.freeList with
  | [] => .error .assertion
  | r :: freeList => do
      assert ((queue.registers r).getNumTargets = 0)
      let mshr ← (queue.registers r).allocate addr size pkt whenReady order
      let listed ← (({ queue with freeList := freeList }.setMSHR r mshr).insertAllocated r).addToReadyList r
      .ok (r, { listed with allocated := listed.allocated + 1 })

def signalDrain : MSHRQueue :=
  if queue.drainManager && decide (queue.allocated = 0) then { queue with drainManager := false }
  else queue

def release (r : Nat) : Except Stop MSHRQueue := do
  let erased ← queue.eraseAllocated r
  let freed := { erased with
    freeList := r :: erased.freeList
    allocated := erased.allocated - 1 }
  -- a register in service has left the ready list before
  if (freed.registers r).inService then
    .ok { freed with inServiceEntries := freed.inServiceEntries - 1 }
  else freed.eraseReady r

def deallocateOne (r : Nat) : Except Stop MSHRQueue := do
  let released ← queue.release r
  let mshr ← (released.registers r).deallocate
  .ok (released.setMSHR r mshr).signalDrain

def deallocate (r : Nat) : Except Stop MSHRQueue := queue.deallocateOne r

def moveToFront (r : Nat) : Except Stop MSHRQueue :=
  if !(queue.registers r).inService then
    match deref queue.readyList (queue.registers r).readyIter with
    | none => .error .noElement
    | some found => do
        assert (found = r)
        let erased ← queue.eraseReady r
        .ok (erased.insertReady [] erased.readyList r)
  else .ok queue

def markInService (r : Nat) (pkt : Packet) : Except Stop MSHRQueue := do
  let (gone, mshr) ← (queue.registers r).markInService pkt
  let marked := queue.setMSHR r mshr
  -- the flag is not set here, so `deallocate` takes the register out of the ready list
  if gone then marked.deallocate r
  else do
    let erased ← marked.eraseReady r
    .ok { erased with inServiceEntries := erased.inServiceEntries + 1 }

def markPending (r : Nat) : Except Stop MSHRQueue := do
  assert (queue.registers r).inService
  let pending := { queue.setMSHR r { queue.registers r with inService := false } with
    inServiceEntries := queue.inServiceEntries - 1 }
  pending.addToReadyList r

/-- `drain` of a queue, from when on someone waits unless it is empty. -/
def drain : MSHRQueue :=
  if queue.allocated = 0 then queue else { queue with drainManager := true }

def endResponse (r : Nat) (curTick : Tick) : Except Stop MSHRQueue := do
  let (promoted, mshr) ← (queue.registers r).promoteDeferredTargets curTick
  let answered := queue.setMSHR r mshr
  if promoted then answered.markPending r else answered.deallocate r

end MSHRQueue

inductive Action where
  | allocate (addr : Addr) (size : Int) (pkt : Packet) (whenReady : Tick) (order : Nat)
  | deallocate (r : Nat)
  | moveToFront (r : Nat)
  | markInService (r : Nat) (pkt : Packet)
  | markPending (r : Nat)
  | drain
  /-- What the cache does to the targets of a register between these. -/
  | retarget (r : Nat) (targets deferredTargets : TargetList) (postInvalidate postDowngrade : Bool)
  | endResponse (r : Nat) (curTick : Tick)

def perform (queue : MSHRQueue) : Action → Except Stop MSHRQueue
  | .allocate addr size pkt whenReady order =>
      (queue.allocate addr size pkt whenReady order).map Prod.snd
  | .deallocate r => queue.deallocate r
  | .moveToFront r => queue.moveToFront r
  | .markInService r pkt => queue.markInService r pkt
  | .markPending r => queue.markPending r
  | .drain => .ok queue.drain
  | .retarget r targets deferredTargets postInvalidate postDowngrade =>
      .ok (queue.setMSHR r
        ((queue.registers r).retarget targets deferredTargets postInvalidate postDowngrade))
  | .endResponse r curTick => queue.endResponse r curTick

def step (queue : MSHRQueue) (action : Action) : Option MSHRQueue := (perform queue action).toOption

end GemFi.MshrQueue
