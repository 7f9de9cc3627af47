import GemFi.Outcomes
import GemFi.SortedMaps
import Mathlib.Data.BitVec
import Mathlib.Logic.Function.Basic

/-!
The translation buffer (arch/alpha/tlb.cc, tlb.hh, pagetable.hh): an array that is filled in
turn, a multimap from page numbers to places in the array, and a cache of three pointers into it.
Pointers to entries are places. The multimap is the red-black tree of the C++ library, whose
`find` gives the first of the entries with the key and whose `insert` goes behind them.
-/

namespace GemFi.AlphaTlb

open Outcomes (Stop assert)
open SortedMaps

abbrev Addr := BitVec 64

def PageShift : Nat := 13
def ImplBits : Nat := 43
def ImplMask : Addr := (1 <<< ImplBits) - 1

/-- `VAddr::vpn`. -/
def vpn (addr : Addr) : Addr := (addr &&& ImplMask) >>> PageShift

structure TlbEntry where
  tag : Addr
  ppn : Addr
  xre : BitVec 8
  xwe : BitVec 8
  asn : BitVec 8
  asma : Bool
  fonr : Bool
  fonw : Bool
  valid : Bool
  deriving DecidableEq

namespace TlbEntry

/-- What `memset` leaves. -/
def zero : TlbEntry where
  tag := 0
  ppn := 0
  xre := 0
  xwe := 0
  asn := 0
  asma := false
  fonr := false
  fonw := false
  valid := false

variable (entry : TlbEntry)

def serves (page : Addr) (asn : BitVec 8) : Bool :=
  page == entry.tag && (entry.asma || entry.asn == asn)

def invalidated : TlbEntry := { entry with valid := false }

end TlbEntry

structure EntryCache where
  slot0 : Option Nat
  slot1 : Option Nat
  slot2 : Option Nat
  deriving DecidableEq

def EntryCache.empty : EntryCache := ⟨none, none, none⟩

/-- `lookupTable`, in the order of its keys. -/
abbrev PageTable := List (Addr × Nat)

def less (a b : Addr) : Bool := decide (a < b)

structure TLB where
  size : Nat
  /-- The entry that is replaced next. -/
  nlu : Nat
  table : Nat → TlbEntry
  lookupTable : PageTable
  entryCache : EntryCache

/-- The walk of `lookup` over the entries of a page. -/
def walk (table : Nat → TlbEntry) (page : Addr) (asn : BitVec 8) : PageTable → Except Stop (Option Nat)
  -- the end of the multimap is read as if it were an entry
  | [] => .error .noElement
  | (key, index) :: later =>
      if key ≠ page then .ok none
      else do
        assert (table index).valid
        if (table index).serves page asn then .ok (some index)
        else walk table page asn later

/-- The search of `insert` for the pair of the entry that it replaces, which is erased. -/
def evict (table : Nat → TlbEntry) (nlu : Nat) (oldvpn : Addr) : PageTable → Except Stop PageTable
  | [] => .error .noElement
  | (key, index) :: later =>
      if index = nlu then .ok later
      -- "TLB entry not found in lookupTable"
      else if (table index).tag ≠ oldvpn then .error .panic
      else (evict table nlu oldvpn later).map fun kept => (key, index) :: kept

def sweep (wanted : Addr → Bool) (leaves : TlbEntry → Bool) :
    PageTable → (Nat → TlbEntry) → Except Stop (PageTable × (Nat → TlbEntry))
  -- the loop of the flushes: as long as the keys are wanted, entries that leave are invalidated,
  -- and their pairs are erased
  | [], table => .ok ([], table)
  | (key, index) :: later, table =>
      if !wanted key then .ok ((key, index) :: later, table)
      else do
        assert (table index).valid
        if leaves (table index) then
          -- the next pair is taken before this one is erased
          sweep wanted leaves later (Function.update table index (table index).invalidated)
        else
          let (kept, swept) ← sweep wanted leaves later table
          .ok ((key, index) :: kept, swept)

namespace TLB

def init (size : Nat) : TLB where
  size := size
  nlu := 0
  table := fun _ => TlbEntry.zero
  lookupTable := []
  entryCache := EntryCache.empty

variable (tlb : TLB)

def nextnlu : TLB := { tlb with nlu := if tlb.nlu + 1 ≥ tlb.size then 0 else tlb.nlu + 1 }

def flushCache : TLB := { tlb with entryCache := EntryCache.empty }

def updateCache (entry : Nat) : TLB :=
  { tlb with entryCache := ⟨some entry, tlb.entryCache.slot0, tlb.entryCache.slot1⟩ }

def cached (page : Addr) (asn : BitVec 8) : Option Nat :=
  match tlb.entryCache.slot0 with
  | none => none
  | some first =>
      if (tlb.table first).serves page asn then some first
      else
        match tlb.entryCache.slot1 with
        | none => none
        | some second =>
            if (tlb.table second).serves page asn then some second
            else
              match tlb.entryCache.slot2 with
              | none => none
              | some third => if (tlb.table third).serves page asn then some third else none

/-- The entry that is found, and the buffer. When the walk comes to the end of the multimap, it
reads `past` there; if this is another page, nothing is found. -/
def lookup (page : Addr) (asn : BitVec 8) (past : Addr) : Except Stop (Option Nat × TLB) :=
  match tlb.cached page asn with
  | some entry => .ok (some entry, tlb)
  | none =>
      match find less page tlb.lookupTable with
      | [] => .ok (none, tlb)
      | first :: later =>
          match walk tlb.table page asn (first :: later) with
          | .ok none => .ok (none, tlb)
          | .ok (some entry) => .ok (some entry, tlb.updateCache entry)
          | .error .noElement => if past = page then .error .noElement else .ok (none, tlb)
          | .error stop => .error stop

def dropReplaced : Except Stop TLB :=
  -- only a valid entry has a pair
  if !(tlb.table tlb.nlu).valid then .ok tlb
  else
    let oldvpn := (tlb.table tlb.nlu).tag
    match find less oldvpn tlb.lookupTable with
    | [] => .error .panic
    | first :: later => do
        let kept ← evict tlb.table tlb.nlu oldvpn (first :: later)
        .ok { tlb with lookupTable := below less oldvpn tlb.lookupTable ++ kept }

def put (page : Addr) (entry : TlbEntry) : TLB :=
  { tlb with
    table := Function.update tlb.table tlb.nlu { entry with tag := page, valid := true }
    lookupTable := place less (page, tlb.nlu) tlb.lookupTable }

def insert (addr : Addr) (entry : TlbEntry) : Except Stop TLB := do
  let dropped ← tlb.flushCache.dropReplaced
  .ok (dropped.put (vpn addr) entry).nextnlu

def flushAll : TLB :=
  { tlb.flushCache with table := fun _ => TlbEntry.zero, lookupTable := [], nlu := 0 }

def flushProcesses : Except Stop TLB := do
  let (kept, swept) ← sweep (fun _ => true) (fun entry => !entry.asma) tlb.lookupTable tlb.table
  .ok { tlb.flushCache with table := swept, lookupTable := kept }

def flushAddr (addr : Addr) (asn : BitVec 8) : Except Stop TLB :=
  match find less (vpn addr) tlb.lookupTable with
  | [] => .ok tlb.flushCache
  | first :: later => do
      let (kept, swept) ← sweep (fun key => key == vpn addr) (fun entry => entry.serves (vpn addr) asn)
        (first :: later) tlb.table
      .ok { tlb.flushCache with
        table := swept
        lookupTable := below less (vpn addr) tlb.lookupTable ++ kept }

/-- `demapPage`. -/
def demapPage (addr : Addr) (asn : BitVec 64) : Except Stop TLB := do
  assert (decide (asn.toNat < 1 <<< 8))
  tlb.flushAddr addr (asn.setWidth 8)

/-- `index`: the next entry, which is read, and the buffer. -/
def index (advance : Bool) : TlbEntry × TLB :=
  (tlb.table tlb.nlu, if advance then tlb.nextnlu else tlb)

end TLB

inductive Action where
  | insert (addr : Addr) (entry : TlbEntry)
  | flushAll
  | flushProcesses
  | flushAddr (addr : Addr) (asn : BitVec 8)
  | lookup (page : Addr) (asn : BitVec 8) (past : Addr)
  | demapPage (addr : Addr) (asn : BitVec 64)
  | index (advance : Bool)

def perform (tlb : TLB) : Action → Except Stop TLB
  | .insert addr entry => tlb.insert addr entry
  | .flushAll => .ok tlb.flushAll
  | .flushProcesses => tlb.flushProcesses
  | .flushAddr addr asn => tlb.flushAddr addr asn
  | .lookup page asn past => (tlb.lookup page asn past).map Prod.snd
  | .demapPage addr asn => tlb.demapPage addr asn
  | .index advance => .ok (tlb.index advance).2

def step (tlb : TLB) (action : Action) : Option TLB := (perform tlb action).toOption

end GemFi.AlphaTlb
