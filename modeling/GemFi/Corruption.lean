import GemFi.FaultQueue

/-!
What a fault does to the value it is fired on: the byte loops of `manifest` in
fi/faultq.hh and the `process` functions of the fault classes. A value of any
operand type is the list of its bytes in memory order; the host is little
endian, as the simulated machine is. `none` is a failed assertion, a division
by zero or a write outside the value.
-/

namespace GemFi.Corruption

open ThreadInfo FaultQueue

abbrev Byte := BitVec 8
abbrev MachInst := BitVec 32
abbrev RegIndex := BitVec 8

def bytesOf (size : Nat) (x : BitVec (8 * size)) : List Byte :=
  List.ofFn fun i : Fin size => x.extractLsb' (8 * i) 8

def ofBytes (size : Nat) (bytes : List Byte) : BitVec (8 * size) :=
  BitVec.ofNat (8 * size) (bytes.foldr (fun byte rest => byte.toNat + 256 * rest) 0)

/-- The bytes of the fault's value that the loops of `XOR` and `IMMD` pair with
those of the operand: both count down from the last byte. -/
def topBytes (size : Nat) (out : Word) : List Byte := (bytesOf 8 out).drop (8 - size)

def xor (input : List Byte) (out : Word) : List Byte :=
  List.zipWith (· ^^^ ·) input (topBytes input.length out)

def immd (input : List Byte) (out : Word) : List Byte :=
  List.zipWith (fun _ byte => byte) input (topBytes input.length out)

def flip (input : List Byte) (out : Word) : Option (List Byte) :=
  -- the quotient goes through an `int`, so it may come out negative
  if out = 0 then some input
  else
    let quotient := (((out - 1) / 8).setWidth 32).toInt
    let remainder := ((out - 1) % 8).toNat
    if quotient > (input.length : Int) - 1 then some input
    else if quotient < 0 then none
    else some (input.modify quotient.toNat (· ^^^ (1 <<< remainder)))

def all (input : List Byte) (out : Word) : Option (List Byte) :=
  if out = 0 then some (input.map fun _ => 0x00)
  else if out = 1 then some (input.map fun _ => 0xFF)
  else none

def manifest (input : List Byte) (out : Word) : ValueType → Option (List Byte)
  | .immediate => some (immd input out)
  | .mask => some (xor input out)
  | .flipBit => flip input out
  | .all => all input out

/-- `manifest` at an unsigned type of `size` bytes. -/
def manifestWord (size : Nat) (input : BitVec (8 * size)) (out : Word) (type : ValueType) :
    Option (BitVec (8 * size)) :=
  (manifest (bytesOf size input) out type).map (ofBytes size)

structure StaticInst where
  srcRegIdx : List RegIndex
  destRegIdx : List RegIndex

inductive Operand where
  -- the operand types the execute and load/store hooks are called with. Those for which a class has
  -- an overload of its own are told apart.
  | condition (v : Bool)
  | uint32 (v : BitVec 32)
  | uint64 (v : Word)
  | other (bytes : List Byte)

abbrev StageValue : StageQueue → Type
  -- what the hook of each stage passes to the faults of its queue. Faults of the main queue work on
  -- the registers of the CPU.
  | .main => Unit
  | .fetchStage => MachInst
  | .decodeStage => StaticInst
  | .iewStage | .loadStore => Operand

/-- `GeneralFetchInjectedFault::process`. It is not virtual, so fetch_fault calls
it on OpCodeInjectedFault objects too. -/
def GeneralFetchInjectedFault.process (p : InjectedFault) (inst : MachInst) : Option MachInst :=
  manifestWord 4 inst p.value p.valueType

def alterFlipBit (size : Nat) (p : InjectedFault) : InjectedFault :=
  if p.valueType = .flipBit ∧ p.value > BitVec.ofNat 64 (size * 8) then
    { p with value := p.value % BitVec.ofNat 64 (size * 8) + 1 }
  else p

/-- The template `process` of IEWStageInjectedFault and LoadStoreInjectedFault. -/
def processBytes (p : InjectedFault) (bytes : List Byte) :
    Option (InjectedFault × List Byte) := do
  let p := alterFlipBit bytes.length p
  let bytes ← manifest bytes p.value p.valueType
  some (p, bytes)

/-- `IEWStageInjectedFault::process`: a condition is inverted, a `uint64_t` has
an overload without the check of the bit number. -/
def IEWStageInjectedFault.process (p : InjectedFault) :
    Operand → Option (InjectedFault × Operand)
  | .condition v => some (p, .condition !v)
  | .uint64 v => do
      let v ← manifestWord 8 v p.value p.valueType
      some (p, .uint64 v)
  | .uint32 v => do
      let (p, bytes) ← processBytes p (bytesOf 4 v)
      some (p, .uint32 (ofBytes 4 bytes))
  | .other bytes => do
      let (p, bytes) ← processBytes p bytes
      some (p, .other bytes)

/-- `LoadStoreInjectedFault::process`. For a `uint32_t` the overload on MachInst
is chosen, whose body is `assert(0)`. -/
def LoadStoreInjectedFault.process (p : InjectedFault) :
    Operand → Option (InjectedFault × Operand)
  | .condition v => do
      let (p, bytes) ← processBytes p [if v then 1 else 0]
      some (p, .other bytes)
  | .uint64 v => do
      let (p, bytes) ← processBytes p (bytesOf 8 v)
      some (p, .uint64 (ofBytes 8 bytes))
  | .uint32 _ => none
  | .other bytes => do
      let (p, bytes) ← processBytes p bytes
      some (p, .other bytes)

def fpRegBase : Nat := 40

def changeRegister (p : InjectedFault) (regs : List RegIndex) :
    Option (InjectedFault × List RegIndex) :=
  -- the assignment into one register list. `Int.tmod` is the remainder of C.
  if regs.length = 0 then none
  else
    let rTc := p.regToChange.tmod regs.length
    if rTc < 0 then none
    else do
      let old ← regs[rTc.toNat]?
      let p := if fpRegBase ≤ old.toNat then
          { p with changeToReg := (p.changeToReg + fpRegBase).bmod (2 ^ 32) }
        else p
      some (p, regs.set rTc.toNat (BitVec.ofInt 8 p.changeToReg))

def RegisterDecodingInjectedFault.process (p : InjectedFault) (staticInst : StaticInst) :
    Option (InjectedFault × StaticInst) :=
  match p.srcOrDst with
  | .src => do
      let (p, regs) ← changeRegister p staticInst.srcRegIdx
      some (p, { staticInst with srcRegIdx := regs })
  | .dst => do
      let (p, regs) ← changeRegister p staticInst.destRegIdx
      some (p, { staticInst with destRegIdx := regs })

/-- The class `process` that the hook of each stage calls, up to its call of
check4reschedule: the fault as it leaves it, and the value it returns. -/
def process : (q : StageQueue) → InjectedFault → StageValue q →
    Option (InjectedFault × StageValue q)
  | .main, p, v => some (p, v)
  | .fetchStage, p, inst => (GeneralFetchInjectedFault.process p inst).map (Prod.mk p)
  | .decodeStage, p, inst => RegisterDecodingInjectedFault.process p inst
  | .iewStage, p, operand => IEWStageInjectedFault.process p operand
  | .loadStore, p, operand => LoadStoreInjectedFault.process p operand

structure SameSchedule (p p' : InjectedFault) : Prop where
  nxt : p'.nxt = p.nxt
  prv : p'.prv = p.prv
  queue : p'.queue = p.queue
  faultType : p'.faultType = p.faultType
  timingType : p'.timingType = p.timingType
  timing : p'.timing = p.timing
  where_ : p'.where_ = p.where_
  thread : p'.thread = p.thread
  occurrence : p'.occurrence = p.occurrence
  manifested : p'.manifested = p.manifested

theorem SameSchedule.refl (p : InjectedFault) : SameSchedule p p := by
  constructor <;> rfl

theorem alterFlipBit_schedule (size : Nat) (p : InjectedFault) :
    SameSchedule p (alterFlipBit size p) := by
  unfold alterFlipBit
  split
  · constructor <;> rfl
  · exact SameSchedule.refl p

theorem processBytes_schedule {p p' : InjectedFault} {bytes bytes' : List Byte}
    (returned : processBytes p bytes = some (p', bytes')) : SameSchedule p p' := by
  obtain ⟨_, _, result⟩ := Option.bind_eq_some_iff.mp returned
  cases result
  exact alterFlipBit_schedule bytes.length p

theorem changeRegister_schedule {p p' : InjectedFault} {regs regs' : List RegIndex}
    (returned : changeRegister p regs = some (p', regs')) : SameSchedule p p' := by
  unfold changeRegister at returned
  split at returned
  · cases returned
  · dsimp only at returned
    split at returned
    · cases returned
    · obtain ⟨old, _, result⟩ := Option.bind_eq_some_iff.mp returned
      cases result
      split
      · constructor <;> rfl
      · exact SameSchedule.refl p

theorem decoding_process_cases {p p' : InjectedFault} {inst inst' : StaticInst}
    (returned : RegisterDecodingInjectedFault.process p inst = some (p', inst')) :
    (p.srcOrDst = .src ∧ ∃ regs, changeRegister p inst.srcRegIdx = some (p', regs) ∧
      inst' = { inst with srcRegIdx := regs }) ∨
    (p.srcOrDst = .dst ∧ ∃ regs, changeRegister p inst.destRegIdx = some (p', regs) ∧
      inst' = { inst with destRegIdx := regs }) := by
  unfold RegisterDecodingInjectedFault.process at returned
  split at returned
  · rename_i side
    obtain ⟨⟨_, regs⟩, changed, result⟩ := Option.bind_eq_some_iff.mp returned
    cases result
    exact Or.inl ⟨side, regs, changed, rfl⟩
  · rename_i side
    obtain ⟨⟨_, regs⟩, changed, result⟩ := Option.bind_eq_some_iff.mp returned
    cases result
    exact Or.inr ⟨side, regs, changed, rfl⟩

theorem process_schedule {q : StageQueue} {p p' : InjectedFault} {v v' : StageValue q}
    (returned : process q p v = some (p', v')) : SameSchedule p p' := by
  cases q with
  | main =>
      cases returned
      exact SameSchedule.refl p
  | fetchStage =>
      obtain ⟨_, _, result⟩ := Option.map_eq_some_iff.mp returned
      cases result
      exact SameSchedule.refl p
  | decodeStage =>
      rcases decoding_process_cases returned with ⟨_, _, changed, _⟩ | ⟨_, _, changed, _⟩
      · exact changeRegister_schedule changed
      · exact changeRegister_schedule changed
  | iewStage =>
      cases v with
      | condition v =>
          cases returned
          exact SameSchedule.refl p
      | uint64 v =>
          obtain ⟨_, _, result⟩ := Option.bind_eq_some_iff.mp returned
          cases result
          exact SameSchedule.refl p
      | uint32 _ | other _ =>
          obtain ⟨⟨_, _⟩, processed, result⟩ := Option.bind_eq_some_iff.mp returned
          cases result
          exact processBytes_schedule processed
  | loadStore =>
      cases v with
      | uint32 v => cases returned
      | condition _ | uint64 _ | other _ =>
          obtain ⟨⟨_, _⟩, processed, result⟩ := Option.bind_eq_some_iff.mp returned
          cases result
          exact processBytes_schedule processed

end GemFi.Corruption
