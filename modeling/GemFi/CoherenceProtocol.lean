import Mathlib.Data.Finset.Card
import Mathlib.Data.Fintype.Basic
import Mathlib.Data.Multiset.Filter
import Mathlib.Logic.Function.Basic
import GemFi.Transitions

/-!
The cache coherence protocol of the Ruby memory system (mem/protocol/MI_example-cache.sm,
MI_example-dir.sm, MI_example-msg.sm), for one line. Any number of L1 caches share the line with
the directory and with DMA devices. The tables of transitions are those of the two machines; a pair
that is not in a table stops the simulator, as a failed assertion does.

A message buffer is the collection of its messages in flight: the networks have delays of their
own, and a recycled request goes behind those that came later, so any of them may be the next one
at the head. The state of a DMA controller is shared by all its lines; here its requests may come
at any time. Latencies, statistics and the other lines are left out.
-/

namespace GemFi.CoherenceProtocol

/-- `DataBlock` (mem/ruby/common/DataBlock.hh) of a line with `size` bytes. -/
abbrev DataBlock (size : ℕ) := Fin size → UInt8

namespace DataBlock

variable {size : ℕ}

def clear : DataBlock size := fun _ => 0

def setData (block : DataBlock size) (data : List UInt8) (offset : ℕ) : DataBlock size :=
  fun k => if offset ≤ k then (data[k - offset]?).getD (block k) else block k

def copyPartial (block dblk : DataBlock size) (offset len : ℕ) : DataBlock size :=
  fun k => if offset ≤ k ∧ k < offset + len then dblk k else block k

end DataBlock

inductive AccessPermission where
  | Read_Write | Busy | Invalid | NotPresent
  deriving DecidableEq, Repr

inductive RubyRequestType where
  | LD | IFETCH | ST | ATOMIC
  deriving DecidableEq, Repr

/-- What the processor asks for; `data` is what a store writes at `offset` of the line. -/
structure RubyRequest where
  type : RubyRequestType
  offset : ℕ
  data : List UInt8
  deriving DecidableEq

def RubyRequest.isLoad (request : RubyRequest) : Bool :=
  request.type = .LD ∨ request.type = .IFETCH

/-- `RequestMsg` on the way to the directory. -/
inductive RequestMsg (Cache : Type) (size : ℕ) where
  | GETX (requestor : Cache)
  | PUTX (requestor : Cache) (dataBlk : DataBlock size)
  deriving DecidableEq

/-- `RequestMsg` from the directory to a cache. -/
inductive ForwardMsg (Cache : Type) where
  | GETX (requestor : Cache)
  | WB_ACK | WB_NACK | INV
  deriving DecidableEq

inductive MemoryRequestType where
  | MEMORY_READ | MEMORY_WB
  deriving DecidableEq

structure MemoryMsg (Cache : Type) (size : ℕ) where
  type : MemoryRequestType
  originalRequestorMachId : Option Cache
  dataBlk : DataBlock size
  deriving DecidableEq

inductive DMARequestType where
  | READ | WRITE
  deriving DecidableEq

/-- `offset` is the place of the physical address in its line. -/
structure DMARequestMsg (Device : Type) (size : ℕ) where
  type : DMARequestType
  offset : ℕ
  len : ℕ
  requestor : Device
  dataBlk : DataBlock size
  deriving DecidableEq

inductive Callback (size : ℕ) where
  | read (dataBlk : DataBlock size)
  | write (offset : ℕ) (data : List UInt8)
  deriving DecidableEq

inductive Completion (Cache Device : Type) (size : ℕ) where
  | cache (self : Cache) (callback : Callback size)
  | dmaData (device : Device) (dataBlk : DataBlock size)
  | dmaAck (device : Device) (offset len : ℕ) (dataBlk : DataBlock size)
  deriving DecidableEq

/-! ## The L1 cache -/

inductive CacheState where
  | I | II | M | MI | MII | IS | IM
  deriving DecidableEq, Repr

inductive CacheEvent where
  | Load | Ifetch | Store | Data | Fwd_GETX | Inv | Replacement | Writeback_Ack | Writeback_Nack
  deriving DecidableEq, Repr

structure Entry (size : ℕ) where
  cacheState : CacheState
  dataBlk : DataBlock size
  deriving DecidableEq

structure TBE (size : ℕ) where
  tbeState : CacheState
  dataBlk : DataBlock size
  deriving DecidableEq

/-- `requestTable` is the request that the sequencer has for the line, until its callback. -/
structure L1Cache (Cache : Type) (size : ℕ) where
  cacheEntry : Option (Entry size)
  tbe : Option (TBE size)
  requestTable : Option RubyRequest
  mandatoryQueue : Option RubyRequest
  requestFromCache : Multiset (RequestMsg Cache size)
  forwardToCache : Multiset (ForwardMsg Cache)
  responseToCache : Multiset (DataBlock size)

inductive CacheAction where
  | a_issueRequest | b_issuePUT | e_sendData | ee_sendDataFromTBE | i_allocateL1CacheBlock
  | h_deallocateL1CacheBlock | m_popMandatoryQueue | n_popResponseQueue
  | o_popForwardedRequestQueue | r_load_hit | rx_load_hit | s_store_hit | sx_store_hit
  | u_writeDataToCache | v_allocateTBE | w_deallocateTBE | x_copyDataFromCacheToTBE | z_stall
  deriving DecidableEq

open CacheAction in
/-- The transitions of `machine(L1Cache)`, without their profiling. -/
def cacheTransition : CacheState → CacheEvent → Option (List CacheAction × CacheState)
  | .IS, .Load | .IS, .Ifetch | .IS, .Store | .IS, .Replacement => some ([z_stall], .IS)
  | .IM, .Load | .IM, .Ifetch | .IM, .Store | .IM, .Replacement => some ([z_stall], .IM)
  | .MI, .Load | .MI, .Ifetch | .MI, .Store | .MI, .Replacement => some ([z_stall], .MI)
  | .II, .Load | .II, .Ifetch | .II, .Store | .II, .Replacement => some ([z_stall], .II)
  | .MII, .Load | .MII, .Ifetch | .MII, .Store | .MII, .Replacement => some ([z_stall], .MII)
  | .IS, .Fwd_GETX | .IS, .Inv => some ([z_stall], .IS)
  | .IM, .Fwd_GETX | .IM, .Inv => some ([z_stall], .IM)
  | .MI, .Inv => some ([o_popForwardedRequestQueue], .MI)
  | .M, .Store => some ([s_store_hit, m_popMandatoryQueue], .M)
  | .M, .Load | .M, .Ifetch => some ([r_load_hit, m_popMandatoryQueue], .M)
  | .I, .Inv => some ([o_popForwardedRequestQueue], .I)
  | .I, .Store =>
      some ([v_allocateTBE, i_allocateL1CacheBlock, a_issueRequest, m_popMandatoryQueue], .IM)
  | .I, .Load | .I, .Ifetch =>
      some ([v_allocateTBE, i_allocateL1CacheBlock, a_issueRequest, m_popMandatoryQueue], .IS)
  | .IS, .Data => some ([u_writeDataToCache, rx_load_hit, w_deallocateTBE, n_popResponseQueue], .M)
  | .IM, .Data => some ([u_writeDataToCache, sx_store_hit, w_deallocateTBE, n_popResponseQueue], .M)
  | .M, .Fwd_GETX => some ([e_sendData, o_popForwardedRequestQueue], .I)
  | .I, .Replacement => some ([h_deallocateL1CacheBlock], .I)
  | .M, .Replacement | .M, .Inv =>
      some ([v_allocateTBE, b_issuePUT, x_copyDataFromCacheToTBE, h_deallocateL1CacheBlock], .MI)
  | .MI, .Writeback_Ack => some ([w_deallocateTBE, o_popForwardedRequestQueue], .I)
  | .MI, .Fwd_GETX => some ([ee_sendDataFromTBE, o_popForwardedRequestQueue], .II)
  | .MI, .Writeback_Nack => some ([o_popForwardedRequestQueue], .MII)
  | .MII, .Fwd_GETX => some ([ee_sendDataFromTBE, w_deallocateTBE, o_popForwardedRequestQueue], .I)
  | .II, .Writeback_Nack => some ([w_deallocateTBE, o_popForwardedRequestQueue], .I)
  | _, _ => none

def CacheState.permission : CacheState → AccessPermission
  | .I => .Invalid
  | .M => .Read_Write
  | .II | .MI | .MII | .IS | .IM => .Busy

inductive CacheInput (Cache : Type) (size : ℕ) where
  | mandatory (request : RubyRequest)
  | victim
  | forward (msg : ForwardMsg Cache)
  | response (dataBlk : DataBlock size)

def RubyRequest.event (request : RubyRequest) : CacheEvent :=
  match request.type with
  | .LD => .Load
  | .IFETCH => .Ifetch
  | .ST | .ATOMIC => .Store

def CacheInput.event {Cache : Type} {size : ℕ} : CacheInput Cache size → CacheEvent
  | .mandatory request => request.event
  | .victim => .Replacement
  | .forward (.GETX _) => .Fwd_GETX
  | .forward .WB_ACK => .Writeback_Ack
  | .forward .WB_NACK => .Writeback_Nack
  | .forward .INV => .Inv
  | .response _ => .Data

namespace L1Cache

variable {Cache : Type} {size : ℕ}

def getState (node : L1Cache Cache size) : CacheState :=
  match node.tbe, node.cacheEntry with
  | some tbe, _ => tbe.tbeState
  | none, some entry => entry.cacheState
  | none, none => .I

def setState (node : L1Cache Cache size) (state : CacheState) : L1Cache Cache size :=
  { node with
    tbe := node.tbe.map fun tbe => { tbe with tbeState := state }
    cacheEntry := node.cacheEntry.map fun entry => { entry with cacheState := state } }

def getAccessPermission (node : L1Cache Cache size) : AccessPermission :=
  match node.tbe, node.cacheEntry with
  | some tbe, _ => tbe.tbeState.permission
  | none, some entry => entry.cacheState.permission
  | none, none => .NotPresent

def getDataBlock (node : L1Cache Cache size) : Option (DataBlock size) :=
  match node.tbe with
  | some tbe => some tbe.dataBlk
  | none => node.cacheEntry.map Entry.dataBlk

structure Work (Cache : Type) (size : ℕ) where
  node : L1Cache Cache size
  responses : List (Finset Cache × DataBlock size)
  completed : List (Callback size)

/-- `Sequencer::readCallback`, which takes the request out of the table of reads. -/
def readCallback (dataBlk : DataBlock size) (work : Work Cache size) :
    Option (Work Cache size) :=
  match work.node.requestTable with
  | some request =>
      if request.isLoad then
        some { work with
          node := { work.node with requestTable := none }
          completed := work.completed ++ [.read dataBlk] }
      else none
  | none => none

/-- `Sequencer::writeCallback`, which writes the bytes of the store into the entry. -/
def writeCallback (entry : Entry size) (work : Work Cache size) :
    Option (Work Cache size) :=
  match work.node.requestTable with
  | some request =>
      if request.isLoad then none
      else
        let dataBlk := DataBlock.setData entry.dataBlk request.data request.offset
        some { work with
          node := { work.node with
            requestTable := none
            cacheEntry := some { entry with dataBlk := dataBlk } }
          completed := work.completed ++ [.write request.offset request.data] }
  | none => none

/-- One action of `machine(L1Cache)`; `none` is a failed assertion. -/
def act (self : Cache) [DecidableEq Cache] (input : CacheInput Cache size)
    (work : Work Cache size) : CacheAction → Option (Work Cache size)
  | .a_issueRequest =>
      let requests := .GETX self ::ₘ work.node.requestFromCache
      some { work with node := { work.node with requestFromCache := requests } }
  | .b_issuePUT =>
      work.node.cacheEntry.map fun entry =>
        let requests := .PUTX self entry.dataBlk ::ₘ work.node.requestFromCache
        { work with node := { work.node with requestFromCache := requests } }
  | .e_sendData =>
      match input, work.node.cacheEntry with
      | .forward (.GETX requestor), some entry =>
          some { work with responses := work.responses ++ [({requestor}, entry.dataBlk)] }
      | _, _ => none
  | .ee_sendDataFromTBE =>
      match input, work.node.tbe with
      | .forward (.GETX requestor), some tbe =>
          some { work with responses := work.responses ++ [({requestor}, tbe.dataBlk)] }
      | _, _ => none
  | .i_allocateL1CacheBlock =>
      match work.node.cacheEntry with
      | some _ => some work
      | none => some { work with node := { work.node with cacheEntry := some ⟨.I, DataBlock.clear⟩ } }
  | .h_deallocateL1CacheBlock => some { work with node := { work.node with cacheEntry := none } }
  | .m_popMandatoryQueue => some { work with node := { work.node with mandatoryQueue := none } }
  | .n_popResponseQueue =>
      match input with
      | .response dataBlk =>
          let responses := work.node.responseToCache.erase dataBlk
          some { work with node := { work.node with responseToCache := responses } }
      | _ => none
  | .o_popForwardedRequestQueue =>
      match input with
      | .forward msg =>
          let forwards := work.node.forwardToCache.erase msg
          some { work with node := { work.node with forwardToCache := forwards } }
      | _ => none
  | .r_load_hit | .rx_load_hit =>
      match work.node.cacheEntry with
      | some entry => readCallback entry.dataBlk work
      | none => none
  | .s_store_hit | .sx_store_hit =>
      match work.node.cacheEntry with
      | some entry => writeCallback entry work
      | none => none
  | .u_writeDataToCache =>
      match input, work.node.cacheEntry with
      | .response dataBlk, some entry =>
          some { work with node := { work.node with cacheEntry := some { entry with dataBlk := dataBlk } } }
      | _, _ => none
  | .v_allocateTBE =>
      if work.node.tbe.isSome then none
      else some { work with node := { work.node with tbe := some ⟨.I, DataBlock.clear⟩ } }
  | .w_deallocateTBE =>
      if work.node.tbe.isNone then none
      else some { work with node := { work.node with tbe := none } }
  | .x_copyDataFromCacheToTBE =>
      match work.node.cacheEntry, work.node.tbe with
      | some entry, some tbe =>
          some { work with node := { work.node with tbe := some { tbe with dataBlk := entry.dataBlk } } }
      | _, _ => none
  | .z_stall => some work

/-- `doTransition` of the controller that is generated from the table. -/
def doTransition (self : Cache) [DecidableEq Cache] (node : L1Cache Cache size)
    (input : CacheInput Cache size) : Option (Work Cache size) :=
  match cacheTransition node.getState input.event with
  | none => none
  | some (actions, next) =>
      if .z_stall ∈ actions then some ⟨node, [], []⟩
      else
        (actions.foldlM (act self input) ⟨node, [], []⟩).map fun work =>
          { work with node := work.node.setState next }

/-- `Sequencer::makeRequest`: a request for a line with an outstanding one is refused. -/
def makeRequest (node : L1Cache Cache size) (request : RubyRequest) : L1Cache Cache size :=
  if node.requestTable.isSome then node
  else { node with requestTable := some request, mandatoryQueue := some request }

end L1Cache

/-! ## The directory -/

inductive DirState where
  | I | M | M_DRD | M_DWR | M_DWRI | M_DRDI | IM | MI | ID | ID_W
  deriving DecidableEq, Repr

inductive DirEvent where
  | GETX | PUTX | PUTX_NotOwner | DMA_READ | DMA_WRITE | Memory_Data | Memory_Ack
  deriving DecidableEq, Repr

structure DirEntry (Cache : Type) (size : ℕ) where
  -- the sharers of an entry are never written and stay empty
  directoryState : DirState
  dataBlk : DataBlock size
  owner : Finset Cache

/-- `offset` is the place of the physical address in its line. -/
structure DirTBE (Device : Type) (size : ℕ) where
  tbeState : DirState
  offset : ℕ
  dataBlk : DataBlock size
  len : ℕ
  dmaRequestor : Option Device

structure Directory (Cache Device : Type) (size : ℕ) where
  entry : DirEntry Cache size
  tbe : Option (DirTBE Device size)
  memBuffer : Multiset (MemoryMsg Cache size)
  dmaRequestToDir : Multiset (DMARequestMsg Device size)

inductive DirAction where
  | l_sendWriteBackAck | b_sendWriteBackNack | c_clearOwner | d_sendData | dr_sendDMAData
  | drp_sendDMAData | da_sendDMAAck | e_ownerIsRequestor | f_forwardRequest
  | inv_sendCacheInvalidate | i_popIncomingRequestQueue | p_popIncomingDMARequestQueue
  | l_writeDataToMemory | dwt_writeDMADataFromTBE | v_allocateTBE | r_allocateTbeForDmaRead
  | v_allocateTBEFromRequestNet | w_deallocateTBE | z_recycleRequestQueue
  | y_recycleDMARequestQueue | qf_queueMemoryFetchRequest | qf_queueMemoryFetchRequestDMA
  | qw_queueMemoryWBRequest_partial | qw_queueMemoryWBRequest_partialTBE | l_queueMemoryWBRequest
  | l_popMemQueue | w_writeDataToMemoryFromTBE
  deriving DecidableEq

open DirAction in
/-- The transitions of `machine(Directory)`. -/
def dirTransition : DirState → DirEvent → Option (List DirAction × DirState)
  | .M_DRD, .GETX => some ([z_recycleRequestQueue], .M_DRD)
  | .M_DWR, .GETX => some ([z_recycleRequestQueue], .M_DWR)
  | .M_DWRI, .GETX => some ([z_recycleRequestQueue], .M_DWRI)
  | .M_DRDI, .GETX => some ([z_recycleRequestQueue], .M_DRDI)
  | .IM, .GETX | .IM, .PUTX | .IM, .PUTX_NotOwner => some ([z_recycleRequestQueue], .IM)
  | .MI, .GETX | .MI, .PUTX | .MI, .PUTX_NotOwner => some ([z_recycleRequestQueue], .MI)
  | .ID, .GETX | .ID, .PUTX | .ID, .PUTX_NotOwner => some ([z_recycleRequestQueue], .ID)
  | .ID_W, .GETX | .ID_W, .PUTX | .ID_W, .PUTX_NotOwner => some ([z_recycleRequestQueue], .ID_W)
  | .IM, .DMA_READ | .IM, .DMA_WRITE => some ([y_recycleDMARequestQueue], .IM)
  | .MI, .DMA_READ | .MI, .DMA_WRITE => some ([y_recycleDMARequestQueue], .MI)
  | .ID, .DMA_READ | .ID, .DMA_WRITE => some ([y_recycleDMARequestQueue], .ID)
  | .ID_W, .DMA_READ | .ID_W, .DMA_WRITE => some ([y_recycleDMARequestQueue], .ID_W)
  | .I, .GETX =>
      some ([qf_queueMemoryFetchRequest, e_ownerIsRequestor, i_popIncomingRequestQueue], .IM)
  | .IM, .Memory_Data => some ([d_sendData, l_popMemQueue], .M)
  | .I, .DMA_READ =>
      some ([r_allocateTbeForDmaRead, qf_queueMemoryFetchRequestDMA, p_popIncomingDMARequestQueue], .ID)
  | .ID, .Memory_Data => some ([dr_sendDMAData, w_deallocateTBE, l_popMemQueue], .I)
  | .I, .DMA_WRITE =>
      some ([v_allocateTBE, qw_queueMemoryWBRequest_partial, p_popIncomingDMARequestQueue], .ID_W)
  | .ID_W, .Memory_Ack =>
      some ([dwt_writeDMADataFromTBE, da_sendDMAAck, w_deallocateTBE, l_popMemQueue], .I)
  | .M, .DMA_READ =>
      some ([v_allocateTBE, inv_sendCacheInvalidate, p_popIncomingDMARequestQueue], .M_DRD)
  | .M_DRD, .PUTX =>
      some ([l_writeDataToMemory, drp_sendDMAData, c_clearOwner, l_queueMemoryWBRequest,
        i_popIncomingRequestQueue], .M_DRDI)
  | .M_DRDI, .Memory_Ack => some ([l_sendWriteBackAck, w_deallocateTBE, l_popMemQueue], .I)
  | .M, .DMA_WRITE =>
      some ([v_allocateTBE, inv_sendCacheInvalidate, p_popIncomingDMARequestQueue], .M_DWR)
  | .M_DWR, .PUTX =>
      some ([l_writeDataToMemory, qw_queueMemoryWBRequest_partialTBE, c_clearOwner,
        i_popIncomingRequestQueue], .M_DWRI)
  | .M_DWRI, .Memory_Ack =>
      some ([w_writeDataToMemoryFromTBE, l_sendWriteBackAck, da_sendDMAAck, w_deallocateTBE,
        l_popMemQueue], .I)
  | .M, .GETX => some ([f_forwardRequest, e_ownerIsRequestor, i_popIncomingRequestQueue], .M)
  | .M, .PUTX =>
      some ([c_clearOwner, v_allocateTBEFromRequestNet, l_queueMemoryWBRequest,
        i_popIncomingRequestQueue], .MI)
  | .MI, .Memory_Ack =>
      some ([w_writeDataToMemoryFromTBE, l_sendWriteBackAck, w_deallocateTBE, l_popMemQueue], .I)
  | .M, .PUTX_NotOwner => some ([b_sendWriteBackNack, i_popIncomingRequestQueue], .M)
  | .I, .PUTX_NotOwner => some ([b_sendWriteBackNack, i_popIncomingRequestQueue], .I)
  | _, _ => none

def DirState.permission : DirState → AccessPermission
  | .I => .Read_Write
  | .M => .Invalid
  | .M_DRD | .M_DWR | .M_DWRI | .M_DRDI | .IM | .MI | .ID | .ID_W => .Busy

inductive DirInput (Cache Device : Type) (size : ℕ) where
  | request (msg : RequestMsg Cache size)
  | dma (msg : DMARequestMsg Device size)
  | memory (msg : MemoryMsg Cache size)

namespace Directory

variable {Cache Device : Type} {size : ℕ}

def getState (dir : Directory Cache Device size) : DirState :=
  match dir.tbe with
  | some tbe => tbe.tbeState
  | none => dir.entry.directoryState

/-- `none` is a failed assertion. The block stays in memory when it is invalidated, since the
memory of the directory is not a sparse one. -/
def setState (dir : Directory Cache Device size) (state : DirState) :
    Option (Directory Cache Device size) :=
  if state = .M ∧ dir.entry.owner.card ≠ 1 ∨ state = .I ∧ dir.entry.owner.card ≠ 0 then none
  else
    some { dir with
      tbe := dir.tbe.map fun tbe => { tbe with tbeState := state }
      entry := { dir.entry with directoryState := state } }

def getAccessPermission (dir : Directory Cache Device size) : AccessPermission :=
  dir.getState.permission

def getDataBlock (dir : Directory Cache Device size) : DataBlock size :=
  match dir.tbe with
  | some tbe => tbe.dataBlk
  | none => dir.entry.dataBlk

structure Work (Cache Device : Type) (size : ℕ) where
  -- a transition of the directory under way: the directory, the request it has taken from a cache,
  -- what it sends and what it reports
  dir : Directory Cache Device size
  popped : Option (RequestMsg Cache size)
  forwards : List (Finset Cache × ForwardMsg Cache)
  responses : List (Finset Cache × DataBlock size)
  completed : List (Completion Cache Device size)

namespace Work

def enqueueMemory (work : Work Cache Device size) (msg : MemoryMsg Cache size) :
    Work Cache Device size :=
  { work with dir := { work.dir with memBuffer := msg ::ₘ work.dir.memBuffer } }

def setOwner (work : Work Cache Device size) (owner : Finset Cache) : Work Cache Device size :=
  { work with dir := { work.dir with entry := { work.dir.entry with owner := owner } } }

def setDataBlk (work : Work Cache Device size) (dataBlk : DataBlock size) :
    Work Cache Device size :=
  { work with dir := { work.dir with entry := { work.dir.entry with dataBlk := dataBlk } } }

def allocate (work : Work Cache Device size) (tbe : DirTBE Device size) :
    Option (Work Cache Device size) :=
  if work.dir.tbe.isSome then none
  else some { work with dir := { work.dir with tbe := some tbe } }

def answer (work : Work Cache Device size)
    (completion : DirTBE Device size → Device → Completion Cache Device size) :
    Option (Work Cache Device size) :=
  work.dir.tbe.bind fun tbe => tbe.dmaRequestor.map fun device =>
    { work with completed := work.completed ++ [completion tbe device] }

end Work

def partialBlock (dataBlk : DataBlock size) (offset len : ℕ) : DataBlock size :=
  DataBlock.copyPartial DataBlock.clear dataBlk offset len

/-- One action of `machine(Directory)`; `none` is a failed assertion. -/
def act [DecidableEq Cache] [DecidableEq Device] (input : DirInput Cache Device size)
    (work : Work Cache Device size) : DirAction → Option (Work Cache Device size)
  | .l_sendWriteBackAck =>
      match input with
      | .memory msg =>
          msg.originalRequestorMachId.map fun requestor =>
            { work with forwards := work.forwards ++ [({requestor}, .WB_ACK)] }
      | _ => none
  | .b_sendWriteBackNack =>
      match input with
      | .request (.PUTX requestor _) =>
          some { work with forwards := work.forwards ++ [({requestor}, .WB_NACK)] }
      | _ => none
  | .c_clearOwner => some (work.setOwner ∅)
  | .d_sendData =>
      match input with
      | .memory msg =>
          msg.originalRequestorMachId.map fun requestor =>
            { work with responses := work.responses ++ [({requestor}, msg.dataBlk)] }
      | _ => none
  | .dr_sendDMAData =>
      match input with
      | .memory msg => work.answer fun _ device => .dmaData device msg.dataBlk
      | _ => none
  | .drp_sendDMAData =>
      match input with
      | .request (.PUTX _ dataBlk) => work.answer fun _ device => .dmaData device dataBlk
      | _ => none
  | .da_sendDMAAck => work.answer fun tbe device => .dmaAck device tbe.offset tbe.len tbe.dataBlk
  | .e_ownerIsRequestor =>
      match input with
      | .request (.GETX requestor) => some (work.setOwner {requestor})
      | _ => none
  | .f_forwardRequest =>
      match input with
      | .request (.GETX requestor) =>
          some { work with forwards := work.forwards ++ [(work.dir.entry.owner, .GETX requestor)] }
      | _ => none
  | .inv_sendCacheInvalidate =>
      some { work with forwards := work.forwards ++ [(work.dir.entry.owner, .INV)] }
  | .i_popIncomingRequestQueue =>
      match input with
      | .request msg => some { work with popped := some msg }
      | _ => none
  | .p_popIncomingDMARequestQueue =>
      match input with
      | .dma msg =>
          let requests := work.dir.dmaRequestToDir.erase msg
          some { work with dir := { work.dir with dmaRequestToDir := requests } }
      | _ => none
  | .l_writeDataToMemory =>
      match input with
      | .request (.PUTX _ dataBlk) => some (work.setDataBlk dataBlk)
      | _ => none
  | .dwt_writeDMADataFromTBE =>
      work.dir.tbe.map fun tbe =>
        work.setDataBlk (DataBlock.copyPartial work.dir.entry.dataBlk tbe.dataBlk tbe.offset tbe.len)
  | .v_allocateTBE =>
      match input with
      | .dma msg => work.allocate ⟨.I, msg.offset, msg.dataBlk, msg.len, some msg.requestor⟩
      | _ => none
  | .r_allocateTbeForDmaRead =>
      match input with
      | .dma msg => work.allocate ⟨.I, 0, DataBlock.clear, 0, some msg.requestor⟩
      | _ => none
  | .v_allocateTBEFromRequestNet =>
      match input with
      | .request (.PUTX _ dataBlk) => work.allocate ⟨.I, 0, dataBlk, 0, none⟩
      | _ => none
  | .w_deallocateTBE =>
      if work.dir.tbe.isNone then none
      else some { work with dir := { work.dir with tbe := none } }
  | .z_recycleRequestQueue | .y_recycleDMARequestQueue => some work
  | .qf_queueMemoryFetchRequest =>
      match input with
      | .request (.GETX requestor) =>
          some (work.enqueueMemory ⟨.MEMORY_READ, some requestor, work.dir.entry.dataBlk⟩)
      | _ => none
  | .qf_queueMemoryFetchRequestDMA =>
      some (work.enqueueMemory ⟨.MEMORY_READ, none, work.dir.entry.dataBlk⟩)
  | DirAction.qw_queueMemoryWBRequest_partial =>
      match input with
      | .dma msg =>
          some (work.enqueueMemory ⟨.MEMORY_WB, none, partialBlock msg.dataBlk msg.offset msg.len⟩)
      | _ => none
  | .qw_queueMemoryWBRequest_partialTBE =>
      match input, work.dir.tbe with
      | .request (.PUTX requestor _), some tbe =>
          let dataBlk := partialBlock tbe.dataBlk tbe.offset tbe.len
          some (work.enqueueMemory ⟨.MEMORY_WB, some requestor, dataBlk⟩)
      | _, _ => none
  | .l_queueMemoryWBRequest =>
      match input with
      | .request (.PUTX requestor dataBlk) =>
          some (work.enqueueMemory ⟨.MEMORY_WB, some requestor, dataBlk⟩)
      | _ => none
  | .l_popMemQueue =>
      match input with
      | .memory msg =>
          some { work with dir := { work.dir with memBuffer := work.dir.memBuffer.erase msg } }
      | _ => none
  | .w_writeDataToMemoryFromTBE => work.dir.tbe.map fun tbe => work.setDataBlk tbe.dataBlk

def event [DecidableEq Cache] (dir : Directory Cache Device size) :
    DirInput Cache Device size → DirEvent
  | .request (.GETX _) => .GETX
  | .request (.PUTX requestor _) => if requestor ∈ dir.entry.owner then .PUTX else .PUTX_NotOwner
  | .dma msg =>
      match msg.type with
      | .READ => .DMA_READ
      | .WRITE => .DMA_WRITE
  | .memory msg =>
      match msg.type with
      | .MEMORY_READ => .Memory_Data
      | .MEMORY_WB => .Memory_Ack

def doTransition [DecidableEq Cache] [DecidableEq Device] (dir : Directory Cache Device size)
    (input : DirInput Cache Device size) : Option (Work Cache Device size) :=
  match dirTransition dir.getState (dir.event input) with
  | none => none
  | some (actions, next) =>
      (actions.foldlM (act input) ⟨dir, none, [], [], []⟩).bind fun work =>
        (work.dir.setState next).map fun dir => { work with dir := dir }

end Directory

/-! ## The system -/

/-- `completed` is the history of what was reported. -/
structure System (Cache Device : Type) (size : ℕ) where
  nodes : Cache → L1Cache Cache size
  dir : Directory Cache Device size
  completed : List (Completion Cache Device size)

inductive Action (Cache Device : Type) (size : ℕ) where
  /-- The processor of `cache` makes a request. -/
  | makeRequest (cache : Cache) (request : RubyRequest)
  /-- An in-port of `cache` is ready. -/
  | cache (self : Cache) (input : CacheInput Cache size)
  /-- A DMA device sends a request. -/
  | dmaRequest (msg : DMARequestMsg Device size)
  /-- An in-port of the directory is ready. -/
  | directory (input : DirInput Cache Device size)

variable {Cache Device : Type} {size : ℕ} [DecidableEq Cache]

/-- A message to each of `destination` goes under way. -/
def sendForward (nodes : Cache → L1Cache Cache size) (out : Finset Cache × ForwardMsg Cache) :
    Cache → L1Cache Cache size := fun cache =>
  if cache ∈ out.1 then
    { nodes cache with forwardToCache := out.2 ::ₘ (nodes cache).forwardToCache }
  else nodes cache

def sendResponse (nodes : Cache → L1Cache Cache size) (out : Finset Cache × DataBlock size) :
    Cache → L1Cache Cache size := fun cache =>
  if cache ∈ out.1 then
    { nodes cache with responseToCache := out.2 ::ₘ (nodes cache).responseToCache }
  else nodes cache

def RequestMsg.requestor : RequestMsg Cache size → Cache
  | .GETX requestor => requestor
  | .PUTX requestor _ => requestor

def popRequest (nodes : Cache → L1Cache Cache size) (msg : RequestMsg Cache size) :
    Cache → L1Cache Cache size := fun cache =>
  if cache = msg.requestor then
    { nodes cache with requestFromCache := (nodes cache).requestFromCache.erase msg }
  else nodes cache

namespace System

def init (dataBlk : DataBlock size) : System Cache Device size where
  nodes _ := ⟨none, none, none, none, 0, 0, 0⟩
  dir := ⟨⟨.I, dataBlk, ∅⟩, none, 0, 0⟩
  completed := []

def Ready (system : System Cache Device size) : Action Cache Device size → Prop
  | .makeRequest _ _ | .dmaRequest _ => True
  | .cache self (.mandatory request) => (system.nodes self).mandatoryQueue = some request
  | .cache self .victim => (system.nodes self).cacheEntry.isSome
  | .cache self (.forward msg) => msg ∈ (system.nodes self).forwardToCache
  | .cache self (.response dataBlk) => dataBlk ∈ (system.nodes self).responseToCache
  | .directory (.request msg) => msg ∈ (system.nodes msg.requestor).requestFromCache
  | .directory (.dma msg) => msg ∈ system.dir.dmaRequestToDir
  | .directory (.memory msg) => msg ∈ system.dir.memBuffer

def afterCache (system : System Cache Device size) (self : Cache)
    (work : L1Cache.Work Cache size) : System Cache Device size :=
  { system with
    nodes := work.responses.foldl sendResponse (Function.update system.nodes self work.node)
    completed := system.completed ++ work.completed.map (.cache self) }

def afterDirectory (system : System Cache Device size) (work : Directory.Work Cache Device size) :
    System Cache Device size :=
  { nodes := work.responses.foldl sendResponse
      (work.forwards.foldl sendForward (work.popped.toList.foldl popRequest system.nodes))
    dir := work.dir
    completed := system.completed ++ work.completed }

variable [DecidableEq Device]

instance (system : System Cache Device size) : DecidablePred system.Ready
  | .makeRequest _ _ | .dmaRequest _ => inferInstanceAs (Decidable True)
  | .cache self (.mandatory request) =>
      inferInstanceAs (Decidable ((system.nodes self).mandatoryQueue = some request))
  | .cache self .victim => inferInstanceAs (Decidable ((system.nodes self).cacheEntry.isSome = true))
  | .cache self (.forward msg) => inferInstanceAs (Decidable (msg ∈ (system.nodes self).forwardToCache))
  | .cache self (.response dataBlk) =>
      inferInstanceAs (Decidable (dataBlk ∈ (system.nodes self).responseToCache))
  | .directory (.request msg) =>
      inferInstanceAs (Decidable (msg ∈ (system.nodes msg.requestor).requestFromCache))
  | .directory (.dma msg) => inferInstanceAs (Decidable (msg ∈ system.dir.dmaRequestToDir))
  | .directory (.memory msg) => inferInstanceAs (Decidable (msg ∈ system.dir.memBuffer))

/-- What happens when the port is ready; `none` is where the simulator stops. -/
def trigger (system : System Cache Device size) :
    Action Cache Device size → Option (System Cache Device size)
  | .makeRequest cache request =>
      let node := (system.nodes cache).makeRequest request
      some { system with nodes := Function.update system.nodes cache node }
  | .cache self input => ((system.nodes self).doTransition self input).map (system.afterCache self)
  | .dmaRequest msg =>
      let requests := msg ::ₘ system.dir.dmaRequestToDir
      some { system with dir := { system.dir with dmaRequestToDir := requests } }
  | .directory input => (system.dir.doTransition input).map system.afterDirectory

def step (system : System Cache Device size) (action : Action Cache Device size) :
    Option (System Cache Device size) :=
  if system.Ready action then system.trigger action else none

end System

end GemFi.CoherenceProtocol
