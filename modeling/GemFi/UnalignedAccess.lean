import GemFi.ByteManipulation
import GemFi.MemoryTemplates

/-!
Unaligned loads and stores: ldq_u and stq_u, which drop the lower address bits, around the
byte-manipulation instructions. The two quadwords of a datum are one and the same when it
does not cross an 8-byte boundary.
-/

namespace GemFi.UnalignedAccess

open ThreadInfo FaultQueue Corruption Activation Hooks OperandBytes MemoryTemplates BitFields
open QuietHooks ByteManipulation

abbrev Memory := Addr → Byte

def read (n : Nat) (m : Memory) (ea : Addr) : Word :=
  -- the `n` bytes from `ea` on as a little-endian number
  ofBytes 8 (List.ofFn fun i : Fin n => m (ea + BitVec.ofNat 64 i))

def write (n : Nat) (m : Memory) (ea : Addr) (data : Word) : Memory := fun x =>
  if (x - ea).toNat < n then data.extractLsb' (8 * (x - ea).toNat) 8 else m x

def byteMemory : MemorySystem Memory Unit where
  read _ ea m := some (m, .uint64 (read 8 m ea))
  write
    | _, ea, .uint64 data, m => some (write 8 m ea data, 0)
    | _, _, _, _ => none
  clearFailures := id

structure Operands where
  ra : Word
  rb : Word

/-- `x & ~7`. -/
def quadword (x : Addr) : Addr := x &&& ~~~(7 : Addr)

/-- `EA = (Rb + disp) & ~7`. -/
def quadwordAddress (disp : Word) (regs : Operands) : Addr := quadword (regs.rb + disp)

/-- `Ra = Mem_uq`. -/
def setRa : Operand → Operands → Operands
  | .uint64 mem, regs => { regs with ra := mem }
  | _, regs => regs

def ldqU (disp : Word) : MemoryInst Operands Unit where
  kind := ()
  fpEnabled _ := true
  address := quadwordAddress disp
  hooked := true
  format := .load setRa

def stqU (disp : Word) : MemoryInst Operands Unit where
  kind := ()
  fpEnabled _ := true
  address := quadwordAddress disp
  hooked := true
  format := .store fun regs => .uint64 regs.ra

structure AccessSite where
  split : Bool
  fuel : Nat
  tc : ThreadContext
  ea : HookCall
  data : HookCall
  fi : FiSystem

namespace AccessSite

variable (site : AccessSite)

def run (inst : MemoryInst Operands Unit) (regs : Operands) (m : Memory) :
    Option (ExecState Operands Memory) :=
  let access := if site.split then splitAccess site.fuel site.tc byteMemory
    else atomicAccess site.fuel site.tc byteMemory
  access ⟨site.fi, regs, m, 0, []⟩ ⟨inst, site.ea, site.data⟩

/-- What `ldq_u` leaves in Ra. -/
def load (m : Memory) (disp rb : Word) : Option Word :=
  (site.run (ldqU disp) ⟨0, rb⟩ m).map fun s => s.regs.ra

/-- The memory after `stq_u`. -/
def store (m : Memory) (disp ra rb : Word) : Option Memory :=
  (site.run (stqU disp) ⟨ra, rb⟩ m).map fun s => s.memory

/-- Neither hook of the access fires a fault. -/
def NothingDue : Prop :=
  ∃ fi', (∃ value value', iewFault site.fuel site.tc site.ea value site.fi = some (fi', value', [])) ∧
    (fi'.gate .loadStore = true →
      ∃ value fi'' value', ldsFault site.fuel site.tc site.data value fi' = some (fi'', value', []))

end AccessSite

section Quiet

variable {site : AccessSite}

theorem eaCode_quiet {fi' : FiSystem} {value value' : Operand} {a : Access Operands Unit}
    {s : ExecState Operands Memory} {fuel : Nat} {tc : ThreadContext} (hooked : a.inst.hooked = true)
    (returned : iewFault fuel tc a.ea value s.fi = some (fi', value', [])) :
    eaCode fuel tc a s = some ({ s with fi := fi' }, a.inst.address s.regs) := by
  unfold eaCode
  rw [if_pos hooked]
  exact Option.bind_eq_some_iff.mpr ⟨_, operandFault_quiet returned _, rfl⟩

theorem ldsCode_quiet {a : Access Operands Unit} {s : ExecState Operands Memory} {fuel : Nat}
    {tc : ThreadContext} (mem : Operand)
    (quiet : s.fi.gate .loadStore = true →
      ∃ value fi' value', ldsFault fuel tc a.data value s.fi = some (fi', value', [])) :
    ∃ s', ldsCode fuel tc a mem s = some (s', mem) ∧ s'.regs = s.regs ∧ s'.memory = s.memory := by
  unfold ldsCode
  by_cases isOpen : s.fi.gate .loadStore = true
  · obtain ⟨_, _, _, returned⟩ := quiet isOpen
    rw [if_pos isOpen]
    exact ⟨_, Option.bind_eq_some_iff.mpr ⟨_, operandFault_quiet returned mem, rfl⟩, rfl, rfl⟩
  · rw [if_neg isOpen]
    exact ⟨s, rfl, rfl, rfl⟩

theorem AccessSite.NothingDue.load (quiet : site.NothingDue) (m : Memory) (disp rb : Word) :
    site.load m disp rb = some (read 8 m (quadword (rb + disp))) := by
  obtain ⟨fi', ⟨value, value', returned⟩, data⟩ := quiet
  have addressed := eaCode_quiet (a := ⟨ldqU disp, site.ea, site.data⟩)
    (s := ⟨site.fi, ⟨0, rb⟩, m, 0, []⟩) rfl returned
  unfold AccessSite.load AccessSite.run
  cases site.split with
  | false =>
      have executed : execute site.fuel site.tc byteMemory ⟨ldqU disp, site.ea, site.data⟩
          ⟨site.fi, ⟨0, rb⟩, m, 0, []⟩ =
          some ⟨fi', ⟨read 8 m (quadword (rb + disp)), rb⟩, m, 0, []⟩ :=
        Option.bind_eq_some_iff.mpr ⟨_, addressed, rfl⟩
      exact Option.map_eq_some_iff.mpr ⟨_, Option.bind_eq_some_iff.mpr ⟨_, executed, rfl⟩, rfl⟩
  | true =>
      obtain ⟨s, hooked, regs, _⟩ := ldsCode_quiet (a := ⟨ldqU disp, site.ea, site.data⟩)
        (s := ⟨fi', ⟨0, rb⟩, m, 0, []⟩) (.uint64 (read 8 m (quadword (rb + disp)))) data
      have initiated : initiateAcc site.fuel site.tc ⟨ldqU disp, site.ea, site.data⟩
          ⟨site.fi, ⟨0, rb⟩, m, 0, []⟩ =
          some (⟨fi', ⟨0, rb⟩, m, 0, []⟩, .read (quadword (rb + disp))) :=
        Option.bind_eq_some_iff.mpr ⟨_, addressed, rfl⟩
      have completed : completeAcc site.fuel site.tc byteMemory ⟨ldqU disp, site.ea, site.data⟩
          ⟨.uint64 (read 8 m (quadword (rb + disp))), 0⟩ ⟨fi', ⟨0, rb⟩, m, 0, []⟩ =
          some { s with regs := setRa (.uint64 (read 8 m (quadword (rb + disp)))) s.regs } :=
        Option.bind_eq_some_iff.mpr ⟨_, hooked, rfl⟩
      exact Option.map_eq_some_iff.mpr ⟨_, Option.bind_eq_some_iff.mpr ⟨_, initiated,
        Option.bind_eq_some_iff.mpr ⟨_, rfl, Option.bind_eq_some_iff.mpr ⟨_, completed, rfl⟩⟩⟩, rfl⟩

theorem AccessSite.NothingDue.store (quiet : site.NothingDue) (m : Memory) (disp ra rb : Word) :
    site.store m disp ra rb = some (write 8 m (quadword (rb + disp)) ra) := by
  obtain ⟨fi', ⟨value, value', returned⟩, data⟩ := quiet
  have addressed := eaCode_quiet (a := ⟨stqU disp, site.ea, site.data⟩)
    (s := ⟨site.fi, ⟨ra, rb⟩, m, 0, []⟩) rfl returned
  obtain ⟨s, hooked, regs, memory⟩ := ldsCode_quiet (a := ⟨stqU disp, site.ea, site.data⟩)
    (s := ⟨fi', ⟨ra, rb⟩, m, 0, []⟩) (.uint64 ra) data
  unfold AccessSite.store AccessSite.run
  cases site.split with
  | false =>
      have executed : execute site.fuel site.tc byteMemory ⟨stqU disp, site.ea, site.data⟩
          ⟨site.fi, ⟨ra, rb⟩, m, 0, []⟩ =
          some { s with memory := write 8 s.memory (quadword (rb + disp)) ra } :=
        Option.bind_eq_some_iff.mpr ⟨_, addressed, Option.bind_eq_some_iff.mpr ⟨_, hooked, rfl⟩⟩
      rw [memory] at executed
      exact Option.map_eq_some_iff.mpr ⟨_, Option.bind_eq_some_iff.mpr ⟨_, executed, rfl⟩, rfl⟩
  | true =>
      have initiated : initiateAcc site.fuel site.tc ⟨stqU disp, site.ea, site.data⟩
          ⟨site.fi, ⟨ra, rb⟩, m, 0, []⟩ = some (s, .write (quadword (rb + disp)) (.uint64 ra)) :=
        Option.bind_eq_some_iff.mpr ⟨_, addressed, Option.bind_eq_some_iff.mpr ⟨_, hooked, rfl⟩⟩
      refine Option.map_eq_some_iff.mpr ⟨_, Option.bind_eq_some_iff.mpr ⟨_, initiated,
        Option.bind_eq_some_iff.mpr ⟨_, rfl, rfl⟩⟩, ?_⟩
      rw [memory]

end Quiet

section Bytes

variable {n : Nat} (m : Memory) (ea : Addr) (width : Width) (lo hi v rb : Word)

def byte (x : Word) (k : Nat) : Byte := x.extractLsb' (8 * k) 8

theorem byte_bit (x : Word) (k : Nat) {j : Nat} (inside : j < 8) :
    (byte x k).getLsbD j = x.getLsbD (8 * k + j) := by
  simp [byte, inside]

theorem read_bit (few : n ≤ 8) (i : Nat) : (read n m ea).getLsbD i =
    (decide (i < 8 * n) && (m (ea + BitVec.ofNat 64 (i / 8))).getLsbD (i % 8)) := by
  by_cases inside : i < 8 * n
  · have place : i / 8 < n := by omega
    rw [read, ofBytes_getLsbD _ (by omega)]
    simp [inside, place, List.getD_eq_getElem?_getD]
  · by_cases word : i < 64
    · have place : ¬ i / 8 < n := by omega
      rw [read, ofBytes_getLsbD _ (by omega)]
      simp [inside, place, List.getD_eq_getElem?_getD]
    · rw [BitVec.getLsbD_of_ge _ i (by omega)]
      simp [inside]

theorem read_byte {k : Nat} (inside : k < 8) : byte (read 8 m ea) k = m (ea + BitVec.ofNat 64 k) := by
  apply BitVec.eq_of_getLsbD_eq
  intro j small
  have low : 8 * k + j < 8 * 8 := by omega
  have place : (8 * k + j) / 8 = k := by omega
  have offset : (8 * k + j) % 8 = j := by omega
  rw [byte_bit _ _ small, read_bit m ea (Nat.le_refl 8), place, offset]
  simp [low]

theorem stored_low {k : Nat} (inside : k < 8) :
    byte (mskLow (8 * width.bytes) lo rb ||| insLow width.cut v rb) k =
      if bv rb ≤ k ∧ k - bv rb < width.bytes then byte v (k - bv rb) else byte lo k := by
  apply BitVec.eq_of_getLsbD_eq
  intro j small
  have word : 8 * k + j < 64 := by omega
  have start : 8 * bv rb ≤ 8 * k + j ↔ bv rb ≤ k := by omega
  have stop : bv rb ≤ k → (8 * k + j - 8 * bv rb < 8 * width.bytes ↔ k - bv rb < width.bytes) := by
    omega
  rw [byte_bit _ _ small, BitVec.getLsbD_or, mskLow_bit width lo rb word, insLow_bit width v rb word]
  by_cases covered : bv rb ≤ k ∧ k - bv rb < width.bytes
  · have place : 8 * k + j - 8 * bv rb = 8 * (k - bv rb) + j := by omega
    have within : 8 * (k - bv rb) + j < 8 * width.bytes := by omega
    rw [if_pos covered, byte_bit _ _ small]
    simp [start.mpr covered.1, place, within]
  · rw [if_neg covered, byte_bit _ _ small]
    by_cases first : bv rb ≤ k
    · have beyond : ¬ 8 * k + j - 8 * bv rb < 8 * width.bytes := fun less =>
        covered ⟨first, (stop first).mp less⟩
      simp [beyond]
    · simp [start, first]

theorem stored_high {k : Nat} (inside : k < 8) :
    byte (mskHigh (8 * width.bytes) hi rb ||| insHigh width.cut v rb) k =
      if 8 - bv rb + k < width.bytes then byte v (8 - bv rb + k) else byte hi k := by
  apply BitVec.eq_of_getLsbD_eq
  intro j small
  have offset := bv_eq rb
  have word : 8 * k + j < 64 := by omega
  have place : 64 - 8 * bv rb + (8 * k + j) = 8 * (8 - bv rb + k) + j := by omega
  have stop : 8 * (8 - bv rb + k) + j < 8 * width.bytes ↔ 8 - bv rb + k < width.bytes := by omega
  rw [byte_bit _ _ small, BitVec.getLsbD_or, mskHigh_bit width hi rb word, insHigh_bit]
  simp only [place, stop]
  by_cases covered : 8 - bv rb + k < width.bytes
  · rw [if_pos covered, byte_bit _ _ small]
    simp [covered]
  · rw [if_neg covered, byte_bit _ _ small]
    simp [covered]

end Bytes

section Addresses

theorem quadword_toNat (x : Addr) : (quadword x).toNat = x.toNat / 8 * 8 := by
  have shifted : quadword x = (x >>> 3) <<< 3 := by
    apply BitVec.eq_of_getLsbD_eq
    intro i inside
    have low : (7 : Addr).getLsbD i = decide (i < 3) := mask_getLsbD (show 3 ≤ 64 by omega) i
    rw [quadword, BitVec.getLsbD_and, BitVec.getLsbD_not, low, BitVec.getLsbD_shiftLeft,
      BitVec.getLsbD_ushiftRight]
    by_cases below : i < 3
    · simp [below]
    · have place : 3 + (i - 3) = i := by omega
      simp [below, inside, place]
  have bound := x.isLt
  rw [shifted, BitVec.toNat_shiftLeft, BitVec.toNat_ushiftRight, Nat.shiftLeft_eq,
    Nat.shiftRight_eq_div_pow]
  omega

variable (width : Width) (a : Addr)

def lastByte : Addr := a + BitVec.ofNat 64 (width.bytes - 1)

theorem same_quadword (inside : bv a + width.bytes ≤ 8) :
    quadword (lastByte width a) = quadword a := by
  have offset := bv_eq a
  have bound := a.isLt
  have few := bytes_le width
  have first := quadword_toNat a
  have last := quadword_toNat (lastByte width a)
  apply BitVec.eq_of_toNat_eq
  rw [last, first, lastByte, BitVec.toNat_add, BitVec.toNat_ofNat]
  omega

theorem next_quadword (crosses : ¬ bv a + width.bytes ≤ 8) :
    quadword (lastByte width a) = quadword a + 8 := by
  have offset := bv_eq a
  have bound := a.isLt
  have few := bytes_le width
  have first := quadword_toNat a
  have last := quadword_toNat (lastByte width a)
  apply BitVec.eq_of_toNat_eq
  rw [last, BitVec.toNat_add, first, lastByte, BitVec.toNat_add, BitVec.toNat_ofNat]
  show _ = (a.toNat / 8 * 8 + 8) % 2 ^ 64
  omega

theorem first_place (k : Nat) : quadword a + BitVec.ofNat 64 (bv a + k) = a + BitVec.ofNat 64 k := by
  have offset := bv_eq a
  have first := quadword_toNat a
  apply BitVec.eq_of_toNat_eq
  rw [BitVec.toNat_add, BitVec.toNat_add, BitVec.toNat_ofNat, BitVec.toNat_ofNat, first]
  omega

theorem next_place {k : Nat} (beyond : 8 ≤ bv a + k) :
    quadword a + 8 + BitVec.ofNat 64 (bv a + k - 8) = a + BitVec.ofNat 64 k := by
  have place : (8 : Addr) + BitVec.ofNat 64 (bv a + k - 8) = BitVec.ofNat 64 (bv a + k) := by
    have eight : (8 : Addr) = BitVec.ofNat 64 8 := rfl
    rw [eight, ← BitVec.ofNat_add]
    congr 1
    omega
  rw [BitVec.add_assoc, place, first_place]

end Addresses

section Sequences

variable (width : Width) (m : Memory) (a v : Word)

/-- Either part of the loaded value is zero where the other holds a byte, or both parts
come from the same byte. -/
theorem loaded_value :
    extLow width.cut (read 8 m (quadword a)) a |||
        extHigh width.cut (read 8 m (quadword (lastByte width a))) a =
      read width.bytes m a := by
  have few := bytes_le width
  have offset := bv_eq a
  apply BitVec.eq_of_getLsbD_eq
  intro i word
  rw [BitVec.getLsbD_or, extLow_bit, extHigh_bit width _ _ word, read_bit _ _ (Nat.le_refl 8),
    read_bit _ _ (Nat.le_refl 8), read_bit _ _ few]
  by_cases inside : i < 8 * width.bytes
  · have place : (8 * bv a + i) / 8 = bv a + i / 8 := by omega
    have bit : (8 * bv a + i) % 8 = i % 8 := by omega
    rw [place, bit, first_place]
    by_cases aligned : bv a = 0
    · -- the count 64 became zero, and both quadwords are the one at the address
      have same := same_quadword width a (by omega)
      have zero : (64 - 8 * bv a) % 64 = 0 := by omega
      have start : quadword a + BitVec.ofNat 64 (i / 8) = a + BitVec.ofNat 64 (i / 8) := by
        have first := first_place a (i / 8)
        rwa [aligned, Nat.zero_add] at first
      rw [same, zero, Nat.sub_zero, start]
      simp [inside, aligned, word]
    · have count : (64 - 8 * bv a) % 64 = 64 - 8 * bv a := Nat.mod_eq_of_lt (by omega)
      rw [count]
      by_cases low : 8 * bv a + i < 8 * 8
      · have none : ¬ 64 - 8 * bv a ≤ i := by omega
        simp [inside, low, none]
      · have reached : 64 - 8 * bv a ≤ i := by omega
        have within : i - (64 - 8 * bv a) < 8 * 8 := by omega
        have high : (i - (64 - 8 * bv a)) / 8 = bv a + i / 8 - 8 := by omega
        have rest : (i - (64 - 8 * bv a)) % 8 = i % 8 := by omega
        rw [next_quadword width a (by omega), high, rest, next_place a (by omega)]
        simp [inside, low, reached, within]
  · simp [inside]

theorem place_of_offset (x q : Addr) : q + BitVec.ofNat 64 (x - q).toNat = x := by
  rw [BitVec.ofNat_toNat, BitVec.setWidth_eq, BitVec.add_comm, BitVec.sub_add_cancel]

theorem offset_in_datum (x : Addr) :
    (x - a).toNat = ((x - quadword a).toNat + (2 ^ 64 - bv a)) % 2 ^ 64 := by
  have offset := bv_eq a
  have first := quadword_toNat a
  have bound := a.isLt
  rw [BitVec.toNat_sub, BitVec.toNat_sub, first]
  omega

theorem offset_in_next (x : Addr) :
    (x - (quadword a + 8)).toNat = ((x - quadword a).toNat + (2 ^ 64 - 8)) % 2 ^ 64 := by
  have bound := (quadword a).isLt
  have eight : (8 : Addr).toNat = 8 := rfl
  rw [BitVec.toNat_sub, BitVec.toNat_sub, BitVec.toNat_add, eight]
  omega

/-- The bytes of the datum in the first quadword come from the second store, those in
the next quadword from the first; every other byte is stored back as it was loaded. -/
theorem stored_datum :
    write 8
        (write 8 m (quadword (lastByte width a))
          (mskHigh (8 * width.bytes) (read 8 m (quadword (lastByte width a))) a |||
            insHigh width.cut v a))
        (quadword a)
        (mskLow (8 * width.bytes) (read 8 m (quadword a)) a ||| insLow width.cut v a) =
      write width.bytes m a v := by
  have few := bytes_le width
  have offset := bv_eq a
  funext x
  have datum := offset_in_datum a x
  have bound := (x - quadword a).isLt
  unfold write
  by_cases first : (x - quadword a).toNat < 8
  · have stored := stored_low width (read 8 m (quadword a)) v a first
    rw [read_byte m (quadword a) first, place_of_offset] at stored
    rw [if_pos first]
    refine stored.trans ?_
    by_cases covered : bv a ≤ (x - quadword a).toNat ∧
        (x - quadword a).toNat - bv a < width.bytes
    · have place : (x - a).toNat = (x - quadword a).toNat - bv a := by omega
      rw [if_pos covered, if_pos (by omega), place]
      rfl
    · rw [if_neg covered, if_neg (by omega)]
  · rw [if_neg first]
    by_cases inside : bv a + width.bytes ≤ 8
    · rw [same_quadword width a inside, if_neg first, if_neg (by omega)]
    · have next := offset_in_next a x
      rw [next_quadword width a inside]
      by_cases second : (x - (quadword a + 8)).toNat < 8
      · have stored := stored_high width (read 8 m (quadword a + 8)) v a second
        rw [read_byte m (quadword a + 8) second, place_of_offset] at stored
        rw [if_pos second]
        refine stored.trans ?_
        by_cases covered : 8 - bv a + (x - (quadword a + 8)).toNat < width.bytes
        · have place : (x - a).toNat = 8 - bv a + (x - (quadword a + 8)).toNat := by omega
          rw [if_pos covered, if_pos (by omega), place]
          rfl
        · rw [if_neg covered, if_neg (by omega)]
      · rw [if_neg second, if_neg (by omega)]

end Sequences

section Runs

structure QuadwordSites where
  lo : AccessSite
  hi : AccessSite

structure LoadSites extends QuadwordSites where
  extl : HookSite
  exth : HookSite

structure StoreSites extends QuadwordSites where
  mskl : HookSite
  mskh : HookSite
  insl : HookSite
  insh : HookSite
  atLast : AccessSite
  atFirst : AccessSite

variable (width : Width) (m : Memory) (a v : Word)

def lastDisp : Word := BitVec.ofNat 64 (width.bytes - 1)

def loadSequence (sites : LoadSites) : Option Word := do
  let lo ← sites.lo.load m 0 a
  let hi ← sites.hi.load m (lastDisp width) a
  let (_, low) ← width.extl sites.extl lo a
  let (_, high) ← width.exth sites.exth hi a
  some (low ||| high)

def storeSequence (sites : StoreSites) : Option Memory := do
  let lo ← sites.lo.load m 0 a
  let hi ← sites.hi.load m (lastDisp width) a
  let (_, keptHigh) ← width.mskh sites.mskh hi a
  let (_, newHigh) ← width.insh sites.insh v a
  let (_, keptLow) ← width.mskl sites.mskl lo a
  let (_, newLow) ← width.insl sites.insl v a
  let m ← sites.atLast.store m (lastDisp width) (keptHigh ||| newHigh) a
  sites.atFirst.store m 0 (keptLow ||| newLow) a

structure QuadwordSites.NothingDue (sites : QuadwordSites) : Prop where
  lo : sites.lo.NothingDue
  hi : sites.hi.NothingDue

structure LoadSites.NothingDue (sites : LoadSites) : Prop extends
    sites.toQuadwordSites.NothingDue where
  extl : sites.extl.NothingDue
  exth : sites.exth.NothingDue

structure StoreSites.NothingDue (sites : StoreSites) : Prop extends
    sites.toQuadwordSites.NothingDue where
  mskl : sites.mskl.NothingDue
  mskh : sites.mskh.NothingDue
  insl : sites.insl.NothingDue
  insh : sites.insh.NothingDue
  atLast : sites.atLast.NothingDue
  atFirst : sites.atFirst.NothingDue

theorem no_disp : a + (0 : Word) = a := BitVec.add_zero a

theorem quadwords_loaded {sites : QuadwordSites} (quiet : sites.NothingDue) :
    sites.lo.load m 0 a = some (read 8 m (quadword a)) ∧
      sites.hi.load m (lastDisp width) a = some (read 8 m (quadword (lastByte width a))) := by
  refine ⟨?_, quiet.hi.load m (lastDisp width) a⟩
  rw [quiet.lo.load, no_disp]

theorem loadSequence_returns {sites : LoadSites} (quiet : sites.NothingDue) :
    loadSequence width m a sites = some (read width.bytes m a) := by
  obtain ⟨lo, hi⟩ := quadwords_loaded width m a quiet.toNothingDue
  obtain ⟨_, low⟩ := extl_quiet width (read 8 m (quadword a)) a quiet.extl
  obtain ⟨_, high⟩ := exth_quiet width (read 8 m (quadword (lastByte width a))) a quiet.exth
  unfold loadSequence
  simp only [lo, hi, low, high, Option.bind_eq_bind, Option.bind_some]
  rw [loaded_value]

theorem storeSequence_returns {sites : StoreSites} (quiet : sites.NothingDue) :
    storeSequence width m a v sites = some (write width.bytes m a v) := by
  obtain ⟨lo, hi⟩ := quadwords_loaded width m a quiet.toNothingDue
  obtain ⟨_, mskh⟩ := mskh_quiet width (read 8 m (quadword (lastByte width a))) a quiet.mskh
  obtain ⟨_, insh⟩ := insh_quiet width v a quiet.insh
  obtain ⟨_, mskl⟩ := mskl_quiet width (read 8 m (quadword a)) a quiet.mskl
  obtain ⟨_, insl⟩ := insl_quiet width v a quiet.insl
  unfold storeSequence
  simp only [lo, hi, mskh, insh, mskl, insl, Option.bind_eq_bind, Option.bind_some,
    quiet.atLast.store, quiet.atFirst.store, no_disp]
  exact congrArg some (stored_datum width m a v)

/-- For every memory, address and width: the loads give the datum, and the stores change
its bytes and nothing else. The addresses may wrap around. -/
theorem unaligned_sequences (loads : LoadSites) (stores : StoreSites)
    (quietLoads : loads.NothingDue) (quietStores : stores.NothingDue) :
    loadSequence width m a loads = some (read width.bytes m a) ∧
      storeSequence width m a v stores = some (write width.bytes m a v) :=
  ⟨loadSequence_returns width m a quietLoads, storeSequence_returns width m a v quietStores⟩

def startedAccess (split : Bool) : AccessSite :=
  ⟨split, startedSite.fuel, startedSite.tc, startedSite.call, startedSite.call, startedSite.fi⟩

theorem startedAccess_quiet (split : Bool) : (startedAccess split).NothingDue := by
  obtain ⟨value, fi', value', returned⟩ := startedSite_quiet
  refine ⟨fi', ⟨value, value', returned⟩, fun isOpen => ?_⟩
  have hook : Hooks.iewFault startedSite.fuel startedSite.tc startedSite.call value startedSite.fi =
      some (fi', value', []) := returned
  have gate : fi'.gate = startedSite.fi.gate := (operandFault_frame hook).2.2
  have shut : startedSite.fi.gate .loadStore = false := rfl
  rw [gate, shut] at isOpen
  cases isOpen

theorem crossing_longword :
    let loads : LoadSites :=
      ⟨⟨startedAccess true, startedAccess false⟩, startedSite, startedSite⟩
    let stores : StoreSites := ⟨⟨startedAccess true, startedAccess false⟩, startedSite, startedSite,
      startedSite, startedSite, startedAccess false, startedAccess true⟩
    let m : Memory := fun x => x.setWidth 8
    loadSequence .longword m 0x1006 loads = some (read 4 m 0x1006) ∧
      storeSequence .longword m 0x1006 0xdeadbeef stores = some (write 4 m 0x1006 0xdeadbeef) :=
  unaligned_sequences .longword _ 0x1006 0xdeadbeef _ _
    ⟨⟨startedAccess_quiet true, startedAccess_quiet false⟩, startedSite_quiet, startedSite_quiet⟩
    ⟨⟨startedAccess_quiet true, startedAccess_quiet false⟩, startedSite_quiet, startedSite_quiet,
      startedSite_quiet, startedSite_quiet, startedAccess_quiet false, startedAccess_quiet true⟩

end Runs

end GemFi.UnalignedAccess
