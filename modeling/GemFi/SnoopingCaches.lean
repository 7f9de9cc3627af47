import Mathlib.Data.List.FinRange
import Mathlib.Logic.Function.Basic
import GemFi.Transitions

/-!
Caches on a coherent bus in atomic mode (mem/cache/cache_impl.hh, mem/cache/blk.hh,
mem/coherent_bus.cc, mem/abstract_mem.cc): top-level caches, one for each slave port of the bus,
and one memory behind it. An access runs to its end, with its snoops and its writebacks, before
the next one begins.

A tag store keeps the blocks of a cache by their lines; the block that it gives up for a new one
is its own choice, and so is the order in which it visits its blocks. Uncacheable and secure
accesses, prefetches, error responses, statistics and latencies are left out, and so are the
queues that stay empty in atomic mode.
-/

namespace GemFi.SnoopingCaches

abbrev Data (blkSize : ℕ) := Fin blkSize → UInt8

namespace Data

variable {blkSize : ℕ}

def read (data : Data blkSize) (offset size : ℕ) : List UInt8 :=
  (List.range size).map fun k => if inside : offset + k < blkSize then data ⟨offset + k, inside⟩ else 0

def write (data : Data blkSize) (offset : ℕ) (bytes : List UInt8) : Data blkSize :=
  fun k => if offset ≤ k then (bytes[k - offset]?).getD (data k) else data k

end Data

/-! ## Packets -/

/-- `MemCmd::Command`, as far as it is used here. -/
inductive MemCmd where
  | ReadReq | ReadResp | WriteReq | WriteResp | Writeback | UpgradeReq | SCUpgradeReq | UpgradeResp
  | ReadExReq | ReadExResp | LoadLockedReq | StoreCondReq | StoreCondResp | SwapReq | SwapResp
  deriving DecidableEq, Repr

namespace MemCmd

def isRead : MemCmd → Bool
  | .ReadReq | .ReadResp | .ReadExReq | .ReadExResp | .LoadLockedReq | .SwapReq | .SwapResp => true
  | _ => false

def isWrite : MemCmd → Bool
  | .WriteReq | .WriteResp | .Writeback | .StoreCondReq | .StoreCondResp | .SwapReq | .SwapResp => true
  | _ => false

def isUpgrade : MemCmd → Bool
  | .UpgradeReq | .SCUpgradeReq | .UpgradeResp => true
  | _ => false

def isInvalidate : MemCmd → Bool
  | .UpgradeReq | .SCUpgradeReq | .ReadExReq => true
  | _ => false

def needsExclusive : MemCmd → Bool
  | .ReadReq | .ReadResp | .LoadLockedReq => false
  | _ => true

def isResponse : MemCmd → Bool
  | .ReadResp | .WriteResp | .UpgradeResp | .ReadExResp | .StoreCondResp | .SwapResp => true
  | _ => false

def isRequest (cmd : MemCmd) : Bool := !cmd.isResponse

def needsResponse : MemCmd → Bool
  | .Writeback => false
  | cmd => cmd.isRequest

def isLLSC : MemCmd → Bool
  | .SCUpgradeReq | .LoadLockedReq | .StoreCondReq | .StoreCondResp => true
  | _ => false

def hasData : MemCmd → Bool
  | .ReadResp | .WriteReq | .Writeback | .ReadExResp | .StoreCondReq | .SwapReq | .SwapResp => true
  | _ => false

/-- `commandInfo[cmd].response`, for the commands that need one. -/
def responseCommand : MemCmd → MemCmd
  | .ReadReq | .LoadLockedReq => .ReadResp
  | .WriteReq => .WriteResp
  | .UpgradeReq | .SCUpgradeReq => .UpgradeResp
  | .ReadExReq => .ReadExResp
  | .StoreCondReq => .StoreCondResp
  | .SwapReq => .SwapResp
  | cmd => cmd

end MemCmd

structure Request where
  -- the request behind a packet: who makes it, and what a conditional access compares or finds
  contextId : ℕ
  isInstFetch : Bool
  isCondSwap : Bool
  extraData : ℕ
  deriving DecidableEq, Repr

/-- `line` and `offset` are the two parts of the address. -/
structure Packet (Line : Type) where
  cmd : MemCmd
  line : Line
  offset : ℕ
  size : ℕ
  data : List UInt8
  memInhibit : Bool
  shared : Bool
  supplyExclusive : Bool
  req : Request
  deriving DecidableEq, Repr

namespace Packet

variable {Line : Type} {blkSize : ℕ}

def setDataFromBlock (pkt : Packet Line) (data : Data blkSize) : Packet Line :=
  { pkt with data := data.read pkt.offset pkt.size }

def writeDataToBlock (pkt : Packet Line) (data : Data blkSize) : Data blkSize :=
  data.write pkt.offset pkt.data

def makeAtomicResponse (pkt : Packet Line) : Option (Packet Line) :=
  if pkt.cmd.needsResponse ∧ pkt.cmd.isRequest then
    some { pkt with cmd := pkt.cmd.responseCommand }
  else none

def ofBlock (blkSize : ℕ) (req : Request) (cmd : MemCmd) (line : Line) : Packet Line :=
  ⟨cmd, line, 0, blkSize, List.replicate blkSize 0, false, false, false, req⟩

/-- What `memcmp` compares the bytes of the block with. -/
def condition (pkt : Packet Line) : List UInt8 :=
  (List.range pkt.size).map fun k => UInt8.ofNat (pkt.req.extraData >>> (8 * k))

def overwrite (pkt : Packet Line) (bytes : List UInt8) : Option Bool :=
  -- whether the bytes are written; a conditional swap of another size stops the simulator
  if pkt.req.isCondSwap then
    if pkt.size = 8 ∨ pkt.size = 4 then some (pkt.condition = bytes) else none
  else some true

end Packet

/-! ## Blocks -/

structure Lock where
  contextId : ℕ
  lowAddr : ℕ
  highAddr : ℕ
  deriving DecidableEq, Repr

structure CacheBlk (blkSize : ℕ) where
  isWritable : Bool
  isReadable : Bool
  isDirty : Bool
  data : Data blkSize
  lockList : List Lock

namespace Lock

variable {Line : Type}

def ofPacket (pkt : Packet Line) :
    Lock := ⟨pkt.req.contextId, pkt.offset, pkt.offset + pkt.size - 1⟩

def matchesContext (lock : Lock) (pkt : Packet Line) : Bool :=
  lock.contextId = pkt.req.contextId ∧ lock.lowAddr ≤ pkt.offset ∧
    pkt.offset + pkt.size - 1 ≤ lock.highAddr

def overlapping (lock : Lock) (pkt : Packet Line) : Bool :=
  pkt.offset ≤ lock.highAddr ∧ lock.lowAddr ≤ pkt.offset + pkt.size - 1

end Lock

namespace CacheBlk

variable {Line : Type} {blkSize : ℕ}

def empty : CacheBlk blkSize := ⟨false, false, false, fun _ => 0, []⟩

def trackLoadLocked (blk : CacheBlk blkSize) (pkt : Packet Line) : CacheBlk blkSize :=
  { blk with lockList := Lock.ofPacket pkt :: blk.lockList }

def clearLoadLocks (blk : CacheBlk blkSize) (pkt : Packet Line) : CacheBlk blkSize :=
  { blk with lockList := blk.lockList.filter fun lock => !lock.overlapping pkt }

def checkWrite (blk : CacheBlk blkSize) (pkt : Packet Line) :
    Bool × Packet Line × CacheBlk blkSize :=
  if pkt.cmd.isLLSC then
    let success := blk.lockList.any fun lock => lock.matchesContext pkt
    (success, { pkt with req := { pkt.req with extraData := if success then 1 else 0 } },
      blk.clearLoadLocks pkt)
  else (true, pkt, blk.clearLoadLocks pkt)

end CacheBlk

/-! ## A cache -/

abbrev Cache (Line : Type) (blkSize : ℕ) := Line → Option (CacheBlk blkSize)

section

variable {Line : Type} {blkSize : ℕ}

def cmpAndSwap (blk : CacheBlk blkSize) (pkt : Packet Line) :
    Option (Packet Line × CacheBlk blkSize) :=
  if pkt.size ≤ 8 then
    let bytes := blk.data.read pkt.offset pkt.size
    (pkt.overwrite bytes).map fun overwrite_mem =>
      ({ pkt with data := bytes },
        if overwrite_mem then { blk with data := pkt.writeDataToBlock blk.data, isDirty := true } else blk)
  else none

/-- Without a deferred response and a pending downgrade. The block is `none` when it was given up. -/
def satisfyCpuSideRequest (isTopLevel : Bool) (pkt : Packet Line) (blk : CacheBlk blkSize) :
    Option (Packet Line × Option (CacheBlk blkSize)) :=
  if pkt.offset + pkt.size ≤ blkSize then
    if pkt.cmd = .SwapReq then (cmpAndSwap blk pkt).map fun result => (result.1, some result.2)
    else if pkt.cmd.isWrite then
      let (success, pkt, blk) := blk.checkWrite pkt
      if success then some (pkt, some { blk with data := pkt.writeDataToBlock blk.data, isDirty := true })
      else some (pkt, some blk)
    else if pkt.cmd.isRead then
      let blk := if pkt.cmd.isLLSC then blk.trackLoadLocked pkt else blk
      let pkt := pkt.setDataFromBlock blk.data
      if pkt.size = blkSize then
        if pkt.cmd.needsExclusive then
          some ({ pkt with memInhibit := pkt.memInhibit || blk.isDirty }, none)
        else if blk.isWritable && !pkt.shared && !pkt.req.isInstFetch then
          if blk.isDirty then
            if isTopLevel then some ({ pkt with shared := true }, some blk)
            else some ({ pkt with memInhibit := true }, some { blk with isDirty := false })
          else some (pkt, some blk)
        else some ({ pkt with shared := true }, some blk)
      else some (pkt, some blk)
    else if pkt.cmd.isUpgrade then some (pkt, none)
    else none
  else none

def writebackBlk (line : Line) (blk : CacheBlk blkSize) : Packet Line :=
  { cmd := .Writeback, line, offset := 0, size := blkSize, data := blk.data.read 0 blkSize
    memInhibit := false, shared := false, supplyExclusive := blk.isWritable, req := ⟨0, false, false, 0⟩ }

variable [DecidableEq Line]

/-- `victim` is the line of the block that the tag store chose, if that block is valid. -/
def allocateBlock (cache : Cache Line blkSize) (victim : Option Line) :
    Cache Line blkSize × List (Packet Line) :=
  match victim with
  | none => (cache, [])
  | some line =>
      match cache line with
      | none => (cache, [])
      | some blk =>
          (Function.update cache line none, if blk.isDirty then [writebackBlk line blk] else [])

def access (isTopLevel : Bool) (cache : Cache Line blkSize) (victim : Option Line) (pkt : Packet Line) :
    Option (Bool × Packet Line × Cache Line blkSize × List (Packet Line)) :=
  let hit := (cache pkt.line).filter fun blk =>
    if pkt.cmd.needsExclusive then blk.isWritable else blk.isReadable
  match hit with
  | some blk => (satisfyCpuSideRequest isTopLevel pkt blk).map fun (response, blk) =>
      (true, response, Function.update cache pkt.line blk, [])
  | none =>
      if pkt.cmd = .Writeback then
        if pkt.size = blkSize then
          let (cache, blk, writebacks) := match cache pkt.line with
            | some blk => (cache, blk, [])
            | none =>
                let (cache, writebacks) := allocateBlock cache victim
                (cache, { CacheBlk.empty with isReadable := true }, writebacks)
          let blk := { blk with
            data := pkt.writeDataToBlock blk.data
            isDirty := true
            isWritable := blk.isWritable || pkt.supplyExclusive }
          some (true, pkt, Function.update cache pkt.line (some blk), writebacks)
        else none
      else if (cache pkt.line).isNone && pkt.cmd.isLLSC && pkt.cmd.isWrite then
        -- a complete miss of a store conditional gives up
        some (true, { pkt with req := { pkt.req with extraData := 0 } }, cache, [])
      else some (false, pkt, cache, [])

/-- The inner `none` is a packet that just goes through. -/
def getBusPacket (pkt : Packet Line) (blk : Option (CacheBlk blkSize)) :
    Option (Option (Packet Line)) :=
  match blk with
  | none =>
      if pkt.cmd = .Writeback ∨ pkt.cmd.isUpgrade then some none
      else if pkt.cmd.needsResponse then
        let cmd := if pkt.cmd.needsExclusive then .ReadExReq else .ReadReq
        some (some (.ofBlock blkSize pkt.req cmd pkt.line))
      else none
  | some blk =>
      if pkt.cmd.needsResponse ∧ pkt.cmd.needsExclusive ∧ !blk.isWritable then
        let cmd := if pkt.cmd.isLLSC then .SCUpgradeReq else .UpgradeReq
        some (some (.ofBlock blkSize pkt.req cmd pkt.line))
      else none

def fillBlk (pkt : Packet Line) (blk : CacheBlk blkSize) : CacheBlk blkSize :=
  { blk with
    isReadable := true
    isWritable := blk.isWritable || !pkt.shared
    isDirty := blk.isDirty || (!pkt.shared && pkt.memInhibit)
    data := if pkt.cmd.isRead then pkt.writeDataToBlock blk.data else blk.data }

def handleFill (cache : Cache Line blkSize) (victim : Option Line) (pkt : Packet Line) :
    Option (CacheBlk blkSize × Cache Line blkSize × List (Packet Line)) :=
  match cache pkt.line with
  | some blk => some (fillBlk pkt blk, cache, [])
  | none =>
      if pkt.cmd.hasData then
        let (cache, writebacks) := allocateBlock cache victim
        some (fillBlk pkt CacheBlk.empty, cache, writebacks)
      else none

def handleSnoop (pkt : Packet Line) :
    Option (CacheBlk blkSize) → Option (Packet Line × Option (CacheBlk blkSize))
  | none => some (pkt, none)
  | some blk =>
      let respond := blk.isDirty && pkt.cmd.needsResponse
      let invalidate := pkt.cmd.isInvalidate
      let read := pkt.cmd.isRead && !invalidate
      if read ∧ pkt.cmd.needsExclusive then none
      else
        let snooped := { pkt with shared := pkt.shared || read }
        let left := if read then { blk with isWritable := false } else blk
        let left := if invalidate then none else some left
        if respond then
          if snooped.memInhibit then none
          else
            let supplied := { snooped with
              memInhibit := true
              supplyExclusive := snooped.supplyExclusive || blk.isWritable }
            supplied.makeAtomicResponse.map fun pkt => (pkt.setDataFromBlock blk.data, left)
        else some (snooped, left)

def recvAtomicSnoop (cache : Cache Line blkSize) (pkt : Packet Line) :
    Option (Packet Line × Cache Line blkSize) :=
  if pkt.cmd = .Writeback then some (pkt, cache)
  else (handleSnoop pkt (cache pkt.line)).map fun (snooped, blk) =>
    (snooped, Function.update cache pkt.line blk)

end

/-! ## The memory -/

section

variable {Line : Type} {blkSize : ℕ} [DecidableEq Line]

/-- `AbstractMemory::access`. No packet of a cache is locked, so there are no locked addresses. -/
def memoryAccess (memory : Line → Data blkSize) (pkt : Packet Line) :
    Option (Packet Line × (Line → Data blkSize)) :=
  let respond (pkt : Packet Line) : Option (Packet Line) :=
    if pkt.cmd.needsResponse then pkt.makeAtomicResponse else some pkt
  if pkt.memInhibit then some (pkt, memory)
  else if pkt.cmd = .SwapReq then
    if pkt.size ≤ 8 then
      let bytes := (memory pkt.line).read pkt.offset pkt.size
      (pkt.overwrite bytes).bind fun overwrite_mem =>
        let memory := if overwrite_mem then
          Function.update memory pkt.line (pkt.writeDataToBlock (memory pkt.line)) else memory
        (respond { pkt with data := bytes }).map fun pkt => (pkt, memory)
    else none
  else if pkt.cmd.isRead then
    (respond (pkt.setDataFromBlock (memory pkt.line))).map fun pkt => (pkt, memory)
  else if pkt.cmd.isWrite then
    if pkt.cmd.isLLSC then
      (respond { pkt with req := { pkt.req with extraData := 0 } }).map fun pkt => (pkt, memory)
    else
      (respond pkt).map fun pkt =>
        (pkt, Function.update memory pkt.line (pkt.writeDataToBlock (memory pkt.line)))
  else if pkt.cmd.isInvalidate then (respond pkt).map fun pkt => (pkt, memory)
  else none

end

/-! ## The bus and the system -/

structure Completion (Line : Type) (n : ℕ) where
  self : Fin n
  pkt : Packet Line
  response : Packet Line

/-- `n` caches, each behind its slave port, and the accesses that were completed. -/
structure System (Line : Type) (blkSize n : ℕ) where
  caches : Fin n → Cache Line blkSize
  memory : Line → Data blkSize
  completed : List (Completion Line n)

section

variable {Line : Type} {blkSize n : ℕ} [DecidableEq Line]

structure Snoop (Line : Type) (blkSize n : ℕ) where
  caches : Fin n → Cache Line blkSize
  pkt : Packet Line
  response : Option MemCmd

/-- One turn of the loop of `CoherentBus::forwardAtomic`. -/
def Snoop.next (exclude : Option (Fin n)) (snoop : Snoop Line blkSize n) (port : Fin n) :
    Option (Snoop Line blkSize n) :=
  if exclude = some port then some snoop
  else
    let orig_cmd := snoop.pkt.cmd
    (recvAtomicSnoop (snoop.caches port) snoop.pkt).bind fun (pkt, cache) =>
      let caches := Function.update snoop.caches port cache
      if pkt.cmd.isResponse then
        if pkt.cmd ≠ orig_cmd ∧ pkt.memInhibit ∧ snoop.response.isNone then
          some ⟨caches, { pkt with cmd := orig_cmd }, some pkt.cmd⟩
        else none
      else some ⟨caches, pkt, snoop.response⟩

def forwardAtomic (caches : Fin n → Cache Line blkSize) (pkt : Packet Line) (exclude : Option (Fin n)) :
    Option (Snoop Line blkSize n) :=
  (List.finRange n).foldlM (Snoop.next exclude) ⟨caches, pkt, none⟩

namespace System

/-- `CoherentBus::recvAtomic`. Also after a snooper responded, the access goes on to the memory. -/
def busAtomic (system : System Line blkSize n) (pkt : Packet Line) (self : Fin n) :
    Option (Packet Line × System Line blkSize n) :=
  (forwardAtomic system.caches pkt (some self)).bind fun snoop =>
    (memoryAccess system.memory snoop.pkt).bind fun (pkt, memory) =>
      let system := { system with caches := snoop.caches, memory }
      match snoop.response with
      | none => some (pkt, system)
      | some cmd => if pkt.cmd.isResponse then none else some ({ pkt with cmd }, system)

def busWritebacks (system : System Line blkSize n) (self : Fin n) (writebacks : List (Packet Line)) :
    Option (System Line blkSize n) :=
  writebacks.foldlM (fun system pkt => (system.busAtomic pkt self).map Prod.snd) system

def withCache (system : System Line blkSize n) (self : Fin n) (cache : Cache Line blkSize) :
    System Line blkSize n :=
  { system with caches := Function.update system.caches self cache }

def fill (system : System Line blkSize n) (self : Fin n) (victim : Option Line) (pkt busPkt : Packet Line) :
    Option (Packet Line × System Line blkSize n × List (Packet Line)) :=
  if pkt.cmd.needsResponse then
    if busPkt.cmd.isResponse then
      if busPkt.cmd.isRead ∨ busPkt.cmd = .UpgradeResp then
        (handleFill (system.caches self) victim busPkt).bind fun (blk, cache, writebacks) =>
          (satisfyCpuSideRequest true pkt blk).map fun (pkt, blk) =>
            (pkt, system.withCache self (Function.update cache busPkt.line blk), writebacks)
      else pkt.makeAtomicResponse.map fun pkt => (pkt, system, [])
    else none
  else some (pkt, system, [])

def miss (system : System Line blkSize n) (self : Fin n) (victim : Option Line) (pkt : Packet Line)
    (writebacks : List (Packet Line)) :
    Option (Packet Line × System Line blkSize n × List (Packet Line)) :=
  -- the miss of an access, before its writebacks
  (getBusPacket pkt (system.caches self pkt.line)).bind fun
    | none => (system.busAtomic pkt self).map fun (pkt, system) => (pkt, system, writebacks)
    | some busPkt => (system.busAtomic busPkt self).bind fun (busPkt, system) =>
        (system.fill self victim pkt busPkt).map fun (pkt, system, evicted) =>
          (pkt, system, writebacks ++ evicted)

def finish (self : Fin n) (moved : Packet Line × System Line blkSize n × List (Packet Line)) :
    Option (Packet Line × System Line blkSize n) :=
  (moved.2.1.busWritebacks self moved.2.2).bind fun system =>
    if moved.1.cmd.needsResponse then moved.1.makeAtomicResponse.map fun pkt => (pkt, system)
    else some (moved.1, system)

/-- `Cache::recvAtomic` of a top-level cache. -/
def recvAtomic (system : System Line blkSize n) (self : Fin n) (victim : Option Line) (pkt : Packet Line) :
    Option (Packet Line × System Line blkSize n) :=
  if pkt.memInhibit then
    if pkt.cmd.isInvalidate then
      let cache := Function.update (system.caches self) pkt.line none
      (system.withCache self cache).busAtomic pkt self
    else some (pkt, system)
  else
    (access true (system.caches self) victim pkt).bind fun (satisfied, pkt, cache, writebacks) =>
      let system := system.withCache self cache
      let moved := if satisfied then some (pkt, system, writebacks)
        else system.miss self victim pkt writebacks
      moved.bind (finish self)

/-! ### Functional accesses -/

end System

/-- `Cache::functionalAccess` of a packet that lies in one block: a read is answered by the owner
of the block only, and a write goes on. -/
def functionalAccess (cache : Cache Line blkSize) (pkt : Packet Line) :
    Option (Packet Line × Cache Line blkSize) :=
  match cache pkt.line with
  | none => some (pkt, cache)
  | some blk =>
      if pkt.cmd.isRead then
        let pkt := pkt.setDataFromBlock blk.data
        if blk.isDirty then pkt.makeAtomicResponse.map fun pkt => (pkt, cache) else some (pkt, cache)
      else if pkt.cmd.isWrite then
        let blk := { blk with data := pkt.writeDataToBlock blk.data }
        some (pkt, Function.update cache pkt.line (some blk))
      else none

/-- One turn of the loop of `CoherentBus::forwardFunctional`, which ends with a response. -/
def forwardFunctional (self : Fin n) (state : Packet Line × (Fin n → Cache Line blkSize)) (port : Fin n) :
    Option (Packet Line × (Fin n → Cache Line blkSize)) :=
  if state.1.cmd.isResponse ∨ port = self then some state
  else (functionalAccess (state.2 port) state.1).map fun (pkt, cache) =>
    (pkt, Function.update state.2 port cache)

/-- `AbstractMemory::functionalAccess`. -/
def memoryFunctional (memory : Line → Data blkSize) (pkt : Packet Line) :
    Option (Packet Line × (Line → Data blkSize)) :=
  if pkt.cmd.isRead then
    (pkt.setDataFromBlock (memory pkt.line)).makeAtomicResponse.map fun pkt => (pkt, memory)
  else if pkt.cmd.isWrite then
    pkt.makeAtomicResponse.map fun response =>
      (response, Function.update memory pkt.line (pkt.writeDataToBlock (memory pkt.line)))
  else none

namespace System

/-- `CoherentBus::recvFunctional`. -/
def busFunctional (system : System Line blkSize n) (pkt : Packet Line) (self : Fin n) :
    Option (Packet Line × System Line blkSize n) :=
  ((List.finRange n).foldlM (forwardFunctional self) (pkt, system.caches)).bind fun (pkt, caches) =>
    let system := { system with caches }
    if pkt.cmd.isResponse then some (pkt, system)
    else (memoryFunctional system.memory pkt).map fun (pkt, memory) => (pkt, { system with memory })

def functional (system : System Line blkSize n) (self : Fin n) (pkt : Packet Line) :
    Option (Packet Line × System Line blkSize n) :=
  (functionalAccess (system.caches self) pkt).bind fun (pkt, cache) =>
    let system := system.withCache self cache
    if pkt.cmd.isResponse then some (pkt, system) else system.busFunctional pkt self

def cleaning (line : Line) (blk : CacheBlk blkSize) : Packet Line :=
  { Packet.ofBlock blkSize ⟨0, false, false, 0⟩ .WriteReq line with data := blk.data.read 0 blkSize }

def writebackVisitor (self : Fin n) (system : System Line blkSize n) (line : Line) :
    Option (System Line blkSize n) :=
  match system.caches self line with
  | none => some system
  | some blk =>
      if blk.isDirty then
        (system.busFunctional (cleaning line blk) self).map fun (_, system) =>
          let clean := { blk with isDirty := false }
          system.withCache self (Function.update (system.caches self) line (some clean))
      else some system

def invalidateVisitor (self : Fin n) (system : System Line blkSize n) (line : Line) :
    Option (System Line blkSize n) :=
  match system.caches self line with
  | none => some system
  | some blk =>
      if blk.isDirty then none
      else some (system.withCache self (Function.update (system.caches self) line none))

/-- `lines` are the blocks of the cache in the order in which the tag store visits them. -/
def memWriteback (system : System Line blkSize n) (self : Fin n) (lines : List Line) :
    Option (System Line blkSize n) := lines.foldlM (writebackVisitor self) system

def memInvalidate (system : System Line blkSize n) (self : Fin n) (lines : List Line) :
    Option (System Line blkSize n) := lines.foldlM (invalidateVisitor self) system

end System

/-! ### Runs -/

/-- A packet as a processor makes it. -/
structure FromCpu (blkSize : ℕ) (pkt : Packet Line) : Prop where
  cmd : pkt.cmd = .ReadReq ∨ pkt.cmd = .LoadLockedReq ∨ pkt.cmd = .WriteReq ∨
    pkt.cmd = .StoreCondReq ∨ pkt.cmd = .SwapReq
  positive : 0 < pkt.size
  inside : pkt.offset + pkt.size ≤ blkSize
  length : pkt.data.length = pkt.size
  memInhibit : pkt.memInhibit = false
  shared : pkt.shared = false
  swap : pkt.cmd = .SwapReq → pkt.size ≤ 8
  condSwap : pkt.cmd = .SwapReq → pkt.req.isCondSwap → pkt.size = 8 ∨ pkt.size = 4

instance (blkSize : ℕ) (pkt : Packet Line) : Decidable (FromCpu blkSize pkt) :=
  decidable_of_iff ((pkt.cmd = .ReadReq ∨ pkt.cmd = .LoadLockedReq ∨ pkt.cmd = .WriteReq ∨
      pkt.cmd = .StoreCondReq ∨ pkt.cmd = .SwapReq) ∧ 0 < pkt.size ∧ pkt.offset + pkt.size ≤ blkSize ∧
      pkt.data.length = pkt.size ∧ pkt.memInhibit = false ∧ pkt.shared = false ∧
      (pkt.cmd = .SwapReq → pkt.size ≤ 8) ∧
      (pkt.cmd = .SwapReq → pkt.req.isCondSwap → pkt.size = 8 ∨ pkt.size = 4))
    ⟨fun ⟨a, b, c, d, e, f, g, h⟩ => ⟨a, b, c, d, e, f, g, h⟩,
      fun ⟨a, b, c, d, e, f, g, h⟩ => ⟨a, b, c, d, e, f, g, h⟩⟩

inductive Action (Line : Type) (n : ℕ) where
  | access (self : Fin n) (pkt : Packet Line) (victim : Option Line)
  | functional (self : Fin n) (pkt : Packet Line)
  | memWriteback (self : Fin n) (lines : List Line)
  | memInvalidate (self : Fin n) (lines : List Line)

def Ready (blkSize : ℕ) : Action Line n → Prop
  | .access _ pkt _ => FromCpu blkSize pkt
  | .functional _ pkt => FromCpu blkSize pkt ∧ (pkt.cmd = .ReadReq ∨ pkt.cmd = .WriteReq)
  | .memWriteback _ _ | .memInvalidate _ _ => True

instance (blkSize : ℕ) : DecidablePred (Ready blkSize : Action Line n → Prop)
  | .access _ pkt _ => inferInstanceAs (Decidable (FromCpu blkSize pkt))
  | .functional _ pkt =>
      inferInstanceAs (Decidable (FromCpu blkSize pkt ∧ (pkt.cmd = .ReadReq ∨ pkt.cmd = .WriteReq)))
  | .memWriteback _ _ => inferInstanceAs (Decidable True)
  | .memInvalidate _ _ => inferInstanceAs (Decidable True)

namespace System

def init (memory : Line → Data blkSize) : System Line blkSize n := ⟨fun _ _ => none, memory, []⟩

def complete (system : System Line blkSize n) (self : Fin n) (pkt response : Packet Line) :
    System Line blkSize n :=
  { system with completed := system.completed ++ [⟨self, pkt, response⟩] }

def perform (system : System Line blkSize n) : Action Line n → Option (System Line blkSize n)
  | .access self pkt victim => (system.recvAtomic self victim pkt).map fun (response, system) =>
      system.complete self pkt response
  | .functional self pkt => (system.functional self pkt).map fun (response, system) =>
      system.complete self pkt response
  | .memWriteback self lines => system.memWriteback self lines
  | .memInvalidate self lines => system.memInvalidate self lines

def step (system : System Line blkSize n) (action : Action Line n) :
    Option (System Line blkSize n) :=
  if Ready blkSize action then system.perform action else none

end System

end

end GemFi.SnoopingCaches
