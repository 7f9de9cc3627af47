import GemFi.Outcomes
import Mathlib.Data.BitVec
import Mathlib.Data.List.Basic
import Mathlib.Logic.Function.Basic

/-!
One set of the LRU tags (mem/cache/tags/cacheset.hh, lru.cc, mem/cache/blk.hh), and the two places
of the cache that fill a block of it (mem/cache/cache_impl.hh). Pointers to blocks are their places
in the array that the constructor allots to the set. Statistics are left out, and so are the fields
of a block that only they use.
-/

namespace GemFi.LruSet

open Outcomes (Stop assert)

abbrev Addr := BitVec 64
abbrev Status := BitVec 32
abbrev Tick := Nat
abbrev Cycles := Nat
abbrev MasterID := BitVec 16

def BlkValid : Status := 0x01
def BlkWritable : Status := 0x02
def BlkReadable : Status := 0x04
def BlkDirty : Status := 0x08
def BlkSecure : Status := 0x40

def invldMasterId : MasterID := 0xffff

structure CacheBlk where
  tag : Addr
  status : Status
  whenReady : Tick
  srcMasterId : MasterID
  deriving DecidableEq

namespace CacheBlk

variable (blk : CacheBlk)

def isValid : Bool := blk.status &&& BlkValid != 0

def isSecure : Bool := blk.status &&& BlkSecure != 0

def invalidate : CacheBlk := { blk with status := 0 }

/-- `status |= bits`, where the condition holds. -/
def set (condition : Bool) (bits : Status) : CacheBlk :=
  if condition then { blk with status := blk.status ||| bits } else blk

end CacheBlk

structure Config where
  hitLatency : Cycles
  clockPeriod : Tick
  maxMasters : Nat

structure Packet where
  tag : Addr
  isSecure : Bool
  masterId : MasterID

/-- `blks`, most recently used first, and the blocks. -/
structure CacheSet where
  blks : List Nat
  blocks : Nat → CacheBlk

section Moves

/-- The loop of the moves over the pointers that are left: `next` is written over each, and what
was there goes next, until this is `blk` again. The number is how often the body runs. -/
def swapUntil (blk next : Nat) : List Nat → Except Stop (List Nat × Nat)
  -- `assert(i < assoc)`, `assert(i >= 0)`
  | [] => .error .assertion
  | tmp :: rest =>
      if tmp = blk then .ok (next :: rest, 1)
      else (swapUntil blk tmp rest).map fun moved => (next :: moved.1, moved.2 + 1)

def moveToHead (blks : List Nat) (blk : Nat) : Except Stop (List Nat × Nat) :=
  match blks.head? with
  | none => .error .noElement
  | some head => if head = blk then .ok (blks, 0) else swapUntil blk blk blks

def moveToTail (blks : List Nat) (blk : Nat) : Except Stop (List Nat × Nat) :=
  match blks.getLast? with
  | none => .error .noElement
  | some tail =>
      if tail = blk then .ok (blks, 0)
      else (swapUntil blk blk blks.reverse).map fun moved => (moved.1.reverse, moved.2)

end Moves

namespace CacheSet

variable (set : CacheSet)

def update (blk : Nat) (change : CacheBlk → CacheBlk) : CacheSet :=
  { set with blocks := Function.update set.blocks blk (change (set.blocks blk)) }

def matching (tag : Addr) (is_secure : Bool) (blk : Nat) : Bool :=
  (set.blocks blk).tag == tag && (set.blocks blk).isValid && (set.blocks blk).isSecure == is_secure

def findBlk (tag : Addr) (is_secure : Bool) : Option Nat :=
  set.blks.find? (set.matching tag is_secure)

def init (assoc : Nat) : CacheSet where
  -- the set after the constructor of LRU
  blks := List.range assoc
  blocks j := ⟨BitVec.ofNat 64 j, 0, 0, invldMasterId⟩

end CacheSet

variable (cfg : Config)

/-- `ticksToCycles`. -/
def ticksToCycles (t : Tick) : Cycles := (t + cfg.clockPeriod - 1) / cfg.clockPeriod

/-- `LRU::accessBlock`: the block, the latency, and the set. -/
def accessBlock (tag : Addr) (is_secure : Bool) (curTick : Tick) (set : CacheSet) :
    Except Stop (Option Nat × Cycles × CacheSet) :=
  match set.findBlk tag is_secure with
  | none => .ok (none, cfg.hitLatency, set)
  | some blk =>
      (moveToHead set.blks blk).map fun moved =>
        let whenReady := (set.blocks blk).whenReady
        let lat :=
          if whenReady > curTick ∧ ticksToCycles cfg (whenReady - curTick) > cfg.hitLatency then
            ticksToCycles cfg (whenReady - curTick)
          else cfg.hitLatency
        (some blk, lat, { set with blks := moved.1 })

/-- `LRU::findVictim`. -/
def findVictim (set : CacheSet) : Except Stop Nat :=
  match set.blks.getLast? with
  | none => .error .noElement
  | some blk => .ok blk

def evict (blk : CacheBlk) : Except Stop CacheBlk :=
  -- a valid block is evicted before a new one comes in its place
  if blk.isValid then
    (assert (decide (blk.srcMasterId.toNat < cfg.maxMasters))).map fun _ => blk.invalidate
  else .ok blk

/-- `LRU::insertBlock`. -/
def insertBlock (pkt : Packet) (blk : Nat) (set : CacheSet) : Except Stop CacheSet := do
  let evicted ← evict cfg (set.blocks blk)
  let tagged := { evicted with tag := pkt.tag }
  let inserted := tagged.set pkt.isSecure BlkSecure
  assert (decide (pkt.masterId.toNat < cfg.maxMasters))
  let moved ← moveToHead set.blks blk
  .ok { blks := moved.1
        blocks := Function.update set.blocks blk { inserted with srcMasterId := pkt.masterId } }

/-- `LRU::invalidate`, and then `CacheBlk::invalidate`. -/
def invalidate (blk : Nat) (set : CacheSet) : Except Stop CacheSet := do
  assert (set.blocks blk).isValid
  assert (decide ((set.blocks blk).srcMasterId.toNat < cfg.maxMasters))
  let moved ← moveToTail set.blks blk
  .ok { blks := moved.1
        blocks := Function.update set.blocks blk
          { (set.blocks blk).invalidate with srcMasterId := invldMasterId } }

/-- What `handleFill` does to the block. -/
def fillStatus (pkt : Packet) (sharedAsserted memInhibitAsserted : Bool) (whenReady : Tick)
    (blk : CacheBlk) : CacheBlk :=
  let secured := blk.set pkt.isSecure BlkSecure
  let valid := secured.set true (BlkValid ||| BlkReadable)
  let writable := valid.set (!sharedAsserted) BlkWritable
  { writable.set (!sharedAsserted && memInhibitAsserted) BlkDirty with whenReady := whenReady }

/-- `findBlock`, and `handleFill` with its result. The block that was filled comes with the set,
if there was none for the address. -/
def handleFill (pkt : Packet) (sharedAsserted memInhibitAsserted : Bool) (whenReady : Tick)
    (set : CacheSet) : Except Stop (Option Nat × CacheSet) :=
  match set.findBlk pkt.tag pkt.isSecure with
  | some blk =>
      .ok (none, set.update blk (fillStatus pkt sharedAsserted memInhibitAsserted whenReady))
  | none => do
      let blk ← findVictim set
      let inserted ← insertBlock cfg pkt blk set
      assert (!(inserted.blocks blk).isValid)
      .ok (some blk, inserted.update blk (fillStatus pkt sharedAsserted memInhibitAsserted whenReady))

/-- What `access` does to the block of a writeback. -/
def writebackStatus (isSupplyExclusive : Bool) (blk : CacheBlk) : CacheBlk :=
  (blk.set true BlkDirty).set isSupplyExclusive BlkWritable

/-- `access`, for a writeback. The block that was hit or filled comes with the set. -/
def writeback (pkt : Packet) (isSupplyExclusive : Bool) (curTick : Tick) (set : CacheSet) :
    Except Stop (Nat × CacheSet) := do
  let accessed ← accessBlock cfg pkt.tag pkt.isSecure curTick set
  match accessed.1 with
  | some blk => .ok (blk, accessed.2.2.update blk (writebackStatus isSupplyExclusive))
  | none => do
      let blk ← findVictim accessed.2.2
      let inserted ← insertBlock cfg pkt blk accessed.2.2
      -- the status is not extended but replaced
      let filled := inserted.update blk fun block => { block with status := BlkValid ||| BlkReadable }
      .ok (blk, filled.update blk (writebackStatus isSupplyExclusive))

inductive Action where
  | access (tag : Addr) (isSecure : Bool) (curTick : Tick)
  | handleFill (pkt : Packet) (sharedAsserted memInhibitAsserted : Bool) (whenReady : Tick)
  | writeback (pkt : Packet) (isSupplyExclusive : Bool) (curTick : Tick)
  /-- A block of the set. -/
  | invalidate (blk : Nat)

def perform (set : CacheSet) : Action → Except Stop (Option Nat × CacheSet)
  | .access tag isSecure curTick =>
      (accessBlock cfg tag isSecure curTick set).map fun accessed => (accessed.1, accessed.2.2)
  | .handleFill pkt sharedAsserted memInhibitAsserted whenReady =>
      handleFill cfg pkt sharedAsserted memInhibitAsserted whenReady set
  | .writeback pkt isSupplyExclusive curTick =>
      (writeback cfg pkt isSupplyExclusive curTick set).map fun result => (some result.1, result.2)
  | .invalidate blk => (invalidate cfg blk set).map fun invalidated => (none, invalidated)

structure Watched where
  set : CacheSet
  now : Nat
  last : Nat → Nat

namespace Watched

def init (assoc : Nat) : Watched where
  set := CacheSet.init assoc
  now := 0
  last _ := 0

def after (watched : Watched) (result : Option Nat × CacheSet) : Watched where
  set := result.2
  now := watched.now + 1
  last :=
    match result.1 with
    | none => watched.last
    | some blk => Function.update watched.last blk (watched.now + 1)

end Watched

def step (watched : Watched) (action : Action) : Option Watched :=
  ((perform cfg watched.set action).map watched.after).toOption

end GemFi.LruSet
