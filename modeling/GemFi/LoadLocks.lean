import GemFi.Outcomes
import Mathlib.Data.BitVec

/-!
The load locks of a cache block (mem/cache/blk.hh). A load-locked records its range; a write
clears the records that it overlaps, and a store-conditional looks for one of its own first.
-/

namespace GemFi.LoadLocks

open Outcomes (Stop)

abbrev Addr := BitVec 64

structure Request where
  contextId : Int
  paddr : Addr
  size : Nat
  deriving DecidableEq

structure Packet where
  isLLSC : Bool
  req : Request
  deriving DecidableEq

def Request.high (req : Request) : Addr := req.paddr + BitVec.ofNat 64 req.size - 1

structure Lock where
  contextId : Int
  lowAddr : Addr
  highAddr : Addr
  deriving DecidableEq

namespace Lock

def ofRequest (req : Request) : Lock := ⟨req.contextId, req.paddr, req.high⟩

def matchesContext (lock : Lock) (req : Request) : Bool :=
  decide (lock.contextId = req.contextId ∧ lock.lowAddr ≤ req.paddr ∧ req.high ≤ lock.highAddr)

def overlapping (lock : Lock) (req : Request) : Bool :=
  decide (req.paddr ≤ lock.highAddr ∧ lock.lowAddr ≤ req.high)

end Lock

structure CacheBlk where
  status : BitVec 32
  isTouched : Bool
  lockList : List Lock
  deriving DecidableEq

namespace CacheBlk

variable (blk : CacheBlk)

def new : CacheBlk := ⟨0, false, []⟩

def trackLoadLocked (pkt : Packet) : Except Stop CacheBlk :=
  if pkt.isLLSC then .ok { blk with lockList := Lock.ofRequest pkt.req :: blk.lockList }
  else .error .assertion

def clearLoadLocks : Option Request → CacheBlk
  | none => { blk with lockList := [] }
  | some req => { blk with lockList := blk.lockList.filter fun lock => !lock.overlapping req }

def invalidate : CacheBlk := { blk with status := 0, isTouched := false }.clearLoadLocks none

def checkWrite (pkt : Packet) : Bool × CacheBlk :=
  if pkt.isLLSC then
    -- the locks go whether or not one of them matches
    (blk.lockList.any fun lock => lock.matchesContext pkt.req, blk.clearLoadLocks (some pkt.req))
  else (true, blk.clearLoadLocks (some pkt.req))

theorem checkWrite_eq (pkt : Packet) :
    blk.checkWrite pkt =
      (!pkt.isLLSC || blk.lockList.any fun lock => lock.matchesContext pkt.req,
        blk.clearLoadLocks (some pkt.req)) := by
  rw [checkWrite]
  cases pkt.isLLSC <;> rfl

end CacheBlk

inductive Action where
  | loadLocked (pkt : Packet)
  | write (pkt : Packet)
  | invalidate
  deriving DecidableEq

inductive Event where
  | loadLocked (req : Request)
  | performed (req : Request)
  | failed (req : Request)
  | invalidated
  deriving DecidableEq

structure Machine where
  blk : CacheBlk
  events : List Event
  deriving DecidableEq

def Machine.start : Machine := ⟨CacheBlk.new, []⟩

def step (m : Machine) : Action → Option Machine
  | .loadLocked pkt => (m.blk.trackLoadLocked pkt).toOption.map fun blk =>
      ⟨blk, m.events ++ [.loadLocked pkt.req]⟩
  | .write pkt =>
      let (success, blk) := m.blk.checkWrite pkt
      some ⟨blk, m.events ++ [if success then .performed pkt.req else .failed pkt.req]⟩
  | .invalidate => some ⟨m.blk.invalidate, m.events ++ [.invalidated]⟩

end GemFi.LoadLocks
