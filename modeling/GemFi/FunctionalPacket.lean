import GemFi.Outcomes
import Mathlib.Data.BitVec

/-!
A functional packet is checked against the values that lie on its way (`checkFunctional` in
mem/packet.cc). A read takes what bytes a value has of it; a range of offsets says which bytes
were taken so far, and both of its ends are zero before any was.
-/

namespace GemFi.FunctionalPacket

open Outcomes (Stop)

abbrev Addr := BitVec 64
abbrev Byte := BitVec 8

structure Packet where
  addr : Addr
  isSecure : Bool
  size : Nat
  isPrint : Bool
  isRead : Bool
  isWrite : Bool
  data : Nat → Byte
  /-- A `uint16_t`. -/
  bytesValidStart : Nat
  /-- A `uint16_t`. -/
  bytesValidEnd : Nat

structure Value where
  addr : Addr
  isSecure : Bool
  size : Nat
  data : Option (Nat → Byte)

def toInt (a : Addr) : Int := (a.setWidth 32).toInt

/-- An `int`, as a `uint16_t`. -/
def toUInt16 (i : Int) : Nat := (i % 2 ^ 16).toNat

/-- `size` bytes, from `src_at` on, to `dest_at`. -/
def memcpy (dest : Nat → Byte) (dest_at : Int) (src : Nat → Byte) (src_at size : Int) : Nat → Byte :=
  fun k => if dest_at ≤ k ∧ k < dest_at + size then src (src_at + (k - dest_at)).toNat else dest k

def endOf (start : Addr) (size : Nat) : Addr := start + BitVec.ofNat 64 size - 1

structure Part where
  func_offset : Int
  val_offset : Int
  overlap_size : Int

namespace Packet

variable (pkt : Packet) (v : Value)

def misses : Bool :=
  v.isSecure != pkt.isSecure || decide (endOf v.addr v.size < pkt.addr) ||
    decide (endOf pkt.addr pkt.size < v.addr)

def within : Bool :=
  decide (v.addr ≤ pkt.addr ∧ endOf pkt.addr pkt.size ≤ endOf v.addr v.size)

def part : Except Stop Part :=
  if v.addr < pkt.addr ∧ endOf v.addr v.size ≤ endOf pkt.addr pkt.size then
    .ok ⟨0, toInt (pkt.addr - v.addr), toInt (endOf v.addr v.size - pkt.addr)⟩
  else if pkt.addr ≤ v.addr ∧ endOf pkt.addr pkt.size < endOf v.addr v.size then
    .ok ⟨toInt (v.addr - pkt.addr), 0, toInt (endOf pkt.addr pkt.size - v.addr)⟩
  else if pkt.addr ≤ v.addr ∧ endOf v.addr v.size ≤ endOf pkt.addr pkt.size then
    .ok ⟨toInt (v.addr - pkt.addr), 0, v.size⟩
  else .error .panic

def join (o : Part) (data : Nat → Byte) : Except Stop (Packet × Part) :=
  -- how much of the part is copied, so that bytes found before are not overwritten, and the range
  -- of the bytes found after that
  if pkt.bytesValidStart = 0 ∧ pkt.bytesValidEnd = 0 then
    .ok ({ pkt with
        bytesValidStart := toUInt16 o.func_offset
        bytesValidEnd := toUInt16 (o.func_offset + o.overlap_size) }, o)
  else
    let a := o.func_offset - pkt.bytesValidStart
    let b := o.func_offset + o.overlap_size - pkt.bytesValidEnd
    let c := o.func_offset - pkt.bytesValidEnd
    let d := o.func_offset + o.overlap_size - pkt.bytesValidStart
    if 0 ≤ a ∧ b ≤ 0 then
      -- the bytes found before are a superset
      .ok (pkt, { o with overlap_size := 0 })
    else if a < 0 ∧ 0 ≤ d ∧ b ≤ 0 then
      .ok ({ pkt with bytesValidStart := toUInt16 o.func_offset },
        { o with overlap_size := pkt.bytesValidStart - o.func_offset })
    else if 0 < b ∧ c ≤ 0 ∧ 0 ≤ a then
      .ok ({ pkt with bytesValidEnd := toUInt16 (pkt.bytesValidEnd + b) },
        ⟨pkt.bytesValidEnd, o.val_offset + (pkt.bytesValidEnd - o.func_offset), b⟩)
    else if a < 0 ∧ 0 < b then
      -- the bytes found before are a subset: the first half is copied here
      .ok ({ pkt with
          data := memcpy pkt.data o.func_offset data o.val_offset (pkt.bytesValidStart - o.func_offset)
          bytesValidStart := toUInt16 o.func_offset
          bytesValidEnd := toUInt16 (pkt.bytesValidEnd + b) },
        ⟨pkt.bytesValidEnd, o.val_offset + (pkt.bytesValidEnd - o.func_offset), b⟩)
    else if (0 < c ∧ 0 < b) ∨ (a < 0 ∧ d < 0) then .error .panic
    else .ok (pkt, o)

def readPart (data : Nat → Byte) : Except Stop (Bool × Packet) := do
  let o ← pkt.part v
  let (joined, rest) ← pkt.join o data
  if joined.bytesValidEnd ≤ pkt.size then
    .ok (decide (joined.bytesValidStart = 0 ∧ joined.bytesValidEnd = pkt.size),
      { joined with
        data := memcpy joined.data rest.func_offset data rest.val_offset rest.overlap_size })
  else .error .assertion

def writeTo (data : Nat → Byte) : Nat → Byte :=
  -- the data of the value after a write
  let func_end := endOf pkt.addr pkt.size
  let val_end := endOf v.addr v.size
  let last := if val_end < func_end then val_end else func_end
  let offset := toInt (pkt.addr - v.addr)
  if 0 ≤ offset then memcpy data offset pkt.data 0 (last - pkt.addr + 1).toNat
  else memcpy data 0 pkt.data (-offset) (last - v.addr + 1).toNat

def checkFunctional : Except Stop (Bool × Packet × Value) :=
  if pkt.misses v then .ok (false, pkt, v)
  else if pkt.isPrint then .ok (false, pkt, v)
  else
    match v.data with
    | none => .ok (false, pkt, v)
    | some data =>
        if pkt.isRead then
          if pkt.within v then
            .ok (true, { pkt with
              data := memcpy pkt.data 0 data (toInt (pkt.addr - v.addr)) pkt.size }, v)
          else (pkt.readPart v data).map fun result => (result.1, result.2, v)
        else if pkt.isWrite then .ok (false, pkt, { v with data := some (pkt.writeTo v data) })
        else .error .panic

def checkAll (vs : List Value) : Except Stop Packet :=
  -- the packet after it was checked against these values in turn
  vs.foldlM (fun pkt v => (pkt.checkFunctional v).map fun result => result.2.1) pkt

end Packet

end GemFi.FunctionalPacket
