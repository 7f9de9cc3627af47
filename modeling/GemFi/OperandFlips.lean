import GemFi.ByteLoops
import GemFi.FaultRuns

/-!
Bit flips at the execute and load/store stages. The operand type selects the
`process` that runs: IEWStageInjectedFault has its own for a condition and for
`uint64_t`, LoadStoreInjectedFault has its own for MachInst, a `uint32_t`, and
everything else goes to the template, which first brings the bit number into
the operand.
-/

namespace GemFi.OperandFlips

open ThreadInfo FaultQueue QueueRepresentation Corruption FaultScan FaultRuns OperandBytes
open ByteLoops

inductive OperandStage where
  | iew | loadStore
  deriving DecidableEq, Repr

def OperandStage.queue : OperandStage → StageQueue
  | .iew => .iewStage
  | .loadStore => .loadStore

def OperandStage.process : OperandStage → InjectedFault → Operand →
    Option (InjectedFault × Operand)
  | .iew => IEWStageInjectedFault.process
  | .loadStore => LoadStoreInjectedFault.process

/-- The body of the loop in `iew_fault` and `lds_fault`. -/
def fireOperand (fuel : Nat) (stage : OperandStage) (clockEdge : Word) (f : FaultPtr)
    (operand : Operand) (s : FaultStore) : Option (FaultStore × Operand) :=
  match stage with
  | .iew => fire fuel .iewStage clockEdge f operand s
  | .loadStore => fire fuel .loadStore clockEdge f operand s

def Integral : Operand → Prop
  -- a condition or an integer of 8, 16, 32 or 64 bits, signed or not
  | .other bytes => ∃ type : UnsignedType, bytes.length = type.size
  | _ => True

def OneBitApart : Operand → Operand → Prop
  -- the two operands differ in exactly one bit. The template returns a condition as the byte it is
  -- stored in.
  | .condition v, .condition v' => v' = !v
  | .condition v, .other bytes => bytes = [if v then 0 else 1]
  | .uint32 v, .uint32 v' => ∃ bit < 32, v' = v ^^^ BitVec.twoPow 32 bit
  | .uint64 v, .uint64 v' => ∃ bit < 64, v' = v ^^^ BitVec.twoPow 64 bit
  | .other bytes, .other bytes' =>
      ∃ index < bytes.length, ∃ bit < 8, bytes' = bytes.modify index (· ^^^ (1 <<< bit))
  | _, _ => False

/-- One occurrence of the fault is used up: on its last one it leaves the queue,
else the count, an `int`, goes down by one and the queue keeps it. -/
def OccurrenceConsumed (s s' : FaultStore) (q : StageQueue) (f : FaultPtr)
    (lists : StageQueue → List FaultPtr) : Prop :=
  if (s.mem f).occurrence = 1 then
    Represents s' (Function.update lists q ((lists q).erase f))
  else
    Represents s' lists ∧ (s'.mem f).occurrence = ((s.mem f).occurrence - 1).bmod (2 ^ 32)

/-- The operands on which a flip of bit `v` hits: the unsigned 64-bit overload of
the execute stage needs a number that the quotient of FLIP finds inside, a
condition at the load/store stage one that the template turns into bit one, and
a `uint32_t` there fails the assertion of the MachInst overload. -/
def Hit (v : Word) : OperandStage → Operand → Prop
  | .iew, .uint64 _ => quotientBits v < 8
  | .loadStore, .uint32 _ => False
  | .loadStore, .condition _ => v = 1 ∨ (8 < v.toNat ∧ v.toNat % 8 = 0)
  | _, _ => True

section Consuming

variable {fuel : Nat} {q : StageQueue} {f : FaultPtr} {s : FaultStore}
  {lists : StageQueue → List FaultPtr} (clockEdge : Word)

/-- Whatever the processing wrote into the fault, check4reschedule consumes one
occurrence. -/
theorem check4reschedule_consumes {p : InjectedFault} (held : Represents s lists)
    (member : f ∈ lists q) (enough : (lists q).length < fuel)
    (kept : SameSchedule (s.mem f) p) :
    ∃ s', check4reschedule fuel clockEdge f (s.write f fun _ => p) = some s' ∧
      OccurrenceConsumed s s' q f lists := by
  have held' : Represents (s.write f fun _ => p) lists := held.write kept.nxt kept.prv kept.queue
  have written : (s.write f fun _ => p).mem f = p := by simp [FaultStore.write]
  unfold check4reschedule OccurrenceConsumed
  rw [written, kept.occurrence]
  by_cases last : (s.mem f).occurrence = 1
  · obtain ⟨s', removed⟩ := remove_returns (held'.linked q) member enough
    rw [if_pos last, held'.owned q f member]
    refine ⟨s', removed, ?_⟩
    rw [if_pos last]
    exact remove_represents held' member removed
  · rw [if_neg last]
    refine ⟨_, rfl, ?_⟩
    rw [if_neg last]
    refine ⟨held'.write rfl rfl rfl, ?_⟩
    simp [FaultStore.write, rescheduled, kept.occurrence]

theorem fire_consumes {v v' : StageValue q} {p : InjectedFault} (held : Represents s lists)
    (member : f ∈ lists q) (enough : (lists q).length < fuel)
    (processed : process q (s.mem f) v = some (p, v')) :
    ∃ s', fire fuel q clockEdge f v s = some (s', v') ∧ OccurrenceConsumed s s' q f lists := by
  obtain ⟨s', checked, consumed⟩ :=
    check4reschedule_consumes clockEdge held member enough (process_schedule processed)
  refine ⟨s', ?_, consumed⟩
  unfold fire
  rw [processed]
  exact congrArg (Option.bind · fun s => some (s, v')) checked

end Consuming

section Processing

variable {p : InjectedFault}

def alteredBit (size v : Nat) : Nat := if size * 8 < v then v % (size * 8) + 1 else v

theorem alteredBit_range (type : UnsignedType) (v : Nat) (numbered : v ≠ 0) :
    1 ≤ alteredBit type.size v ∧ alteredBit type.size v ≤ type.bits := by
  have width : type.bits = 8 * type.size := rfl
  unfold alteredBit
  by_cases outside : type.size * 8 < v
  · have below := Nat.mod_lt v (show 0 < type.size * 8 by cases type <;> decide)
    rw [if_pos outside]
    omega
  · rw [if_neg outside]
    omega

theorem alterFlipBit_value (type : UnsignedType) (flips : p.valueType = .flipBit) :
    (alterFlipBit type.size p).value.toNat = alteredBit type.size p.value.toNat ∧
      (alterFlipBit type.size p).valueType = .flipBit := by
  have short := type.size_le
  have width : (BitVec.ofNat 64 (type.size * 8)).toNat = type.size * 8 := by
    rw [BitVec.toNat_ofNat, Nat.mod_eq_of_lt (by omega)]
  have above : p.value > BitVec.ofNat 64 (type.size * 8) ↔ type.size * 8 < p.value.toNat := by
    rw [gt_iff_lt, BitVec.lt_def, width]
  unfold alterFlipBit alteredBit
  by_cases outside : type.size * 8 < p.value.toNat
  · have below := Nat.mod_lt p.value.toNat (show 0 < type.size * 8 by cases type <;> decide)
    have one : (1 : Word).toNat = 1 := rfl
    rw [if_pos ⟨flips, above.mpr outside⟩, if_pos outside]
    refine ⟨?_, flips⟩
    dsimp only
    rw [BitVec.toNat_add, BitVec.toNat_umod, width, one, Nat.mod_eq_of_lt (by omega)]
  · rw [if_neg (fun both => outside (above.mp both.2)), if_neg outside]
    exact ⟨rfl, flips⟩

theorem processBytes_flips (type : UnsignedType) (bytes : List Byte)
    (length : bytes.length = type.size) (flips : p.valueType = .flipBit)
    (numbered : p.value ≠ 0) :
    processBytes p bytes = some (alterFlipBit bytes.length p,
      bytes.modify ((alteredBit type.size p.value.toNat - 1) / 8)
        (· ^^^ (1 <<< ((alteredBit type.size p.value.toNat - 1) % 8)))) := by
  obtain ⟨value, kind⟩ := alterFlipBit_value type flips
  have short := type.size_le
  obtain ⟨least, most⟩ := alteredBit_range type p.value.toNat
    (fun zero => numbered (BitVec.eq_of_toNat_eq zero))
  have width : type.bits = 8 * type.size := rfl
  have positive : (alterFlipBit type.size p).value ≠ 0 := by
    intro zero
    rw [zero] at value
    have none' : (0 : Word).toNat = 0 := rfl
    omega
  have small : quotientBits (alterFlipBit type.size p).value =
      (alteredBit type.size p.value.toNat - 1) / 8 := by
    rw [quotientBits, value, Nat.mod_eq_of_lt (by omega)]
  have flipped := flip_bytes _ bytes (by omega) positive
  rw [small, if_pos (by omega), value] at flipped
  unfold processBytes
  dsimp only
  rw [length, kind, manifest, flipped]
  rfl

/-- The overload of the execute stage for `uint64_t` hands the number to FLIP as
it is. -/
theorem process_uint64 (x : Word) (flips : p.valueType = .flipBit) (numbered : p.value ≠ 0) :
    IEWStageInjectedFault.process p (.uint64 x) =
      if quotientBits p.value < 8 then
        some (p, .uint64 (x ^^^
          BitVec.twoPow 64 (8 * quotientBits p.value + (p.value.toNat - 1) % 8)))
      else if quotientBits p.value < 2 ^ 31 then some (p, .uint64 x)
      else none := by
  have word : manifestWord 8 x p.value p.valueType =
      (Corruption.flip (bytesOf 8 x) p.value).map (ofBytes 8) := by
    rw [flips]
    rfl
  simp only [IEWStageInjectedFault.process, word, flip_eq x p.value (Nat.le_refl 8) numbered]
  split
  · rfl
  · split <;> rfl

theorem template_apart (type : UnsignedType) (bytes : List Byte)
    (length : bytes.length = type.size) (flips : p.valueType = .flipBit)
    (numbered : p.value ≠ 0) :
    ∃ index < type.size, ∃ bit < 8, processBytes p bytes =
      some (alterFlipBit bytes.length p, bytes.modify index (· ^^^ (1 <<< bit))) := by
  obtain ⟨least, most⟩ := alteredBit_range type p.value.toNat
    (fun zero => numbered (BitVec.eq_of_toNat_eq zero))
  have width : type.bits = 8 * type.size := rfl
  exact ⟨_, by omega, _, Nat.mod_lt _ (by decide),
    processBytes_flips type bytes length flips numbered⟩

theorem template_word (type : UnsignedType) (x : BitVec (8 * type.size))
    (flips : p.valueType = .flipBit) (numbered : p.value ≠ 0) :
    ∃ bit < type.bits, processBytes p (bytesOf type.size x) =
      some (alterFlipBit type.size p,
        bytesOf type.size (x ^^^ BitVec.twoPow (8 * type.size) bit)) := by
  obtain ⟨index, inside, bit, small, processed⟩ :=
    template_apart type (bytesOf type.size x) (length_bytesOf _ x) flips numbered
  have width : type.bits = 8 * type.size := rfl
  rw [bytesOf_modify x index bit small, length_bytesOf] at processed
  exact ⟨8 * index + bit, by omega, processed⟩

theorem condition_byte_iff : ∀ (v : Bool) (bit : Fin 8),
    [(if v then 1 else 0 : Byte)].modify 0 (· ^^^ ((1 <<< bit.val : Nat) : Byte)) =
      [if v then 0 else 1] ↔ bit = 0 := by
  decide

theorem condition_hit_iff (v : Bool) (flips : p.valueType = .flipBit) (numbered : p.value ≠ 0) :
    (∃ p' operand, LoadStoreInjectedFault.process p (.condition v) = some (p', operand) ∧
      OneBitApart (.condition v) operand) ↔ Hit p.value .loadStore (.condition v) := by
  obtain ⟨least, most⟩ := alteredBit_range .uint8 p.value.toNat
    (fun zero => numbered (BitVec.eq_of_toNat_eq zero))
  have width : UnsignedType.uint8.bits = 8 := rfl
  have processed := processBytes_flips .uint8 [if v then 1 else 0] rfl flips numbered
  have first : (alteredBit UnsignedType.uint8.size p.value.toNat - 1) / 8 = 0 := by omega
  have place := condition_byte_iff v
    ⟨(alteredBit UnsignedType.uint8.size p.value.toNat - 1) % 8, Nat.mod_lt _ (by decide)⟩
  have number : alteredBit UnsignedType.uint8.size p.value.toNat = 1 ↔
      p.value = 1 ∨ (8 < p.value.toNat ∧ p.value.toNat % 8 = 0) := by
    have one : p.value = 1 ↔ p.value.toNat = 1 := by rw [← BitVec.toNat_inj]; rfl
    rw [one]
    unfold alteredBit
    by_cases outside : UnsignedType.uint8.size * 8 < p.value.toNat
    · have eight : UnsignedType.uint8.size * 8 = 8 := rfl
      rw [if_pos outside, eight]
      omega
    · have eight : UnsignedType.uint8.size * 8 = 8 := rfl
      rw [if_neg outside]
      omega
  have returned : LoadStoreInjectedFault.process p (.condition v) =
      some (alterFlipBit 1 p, .other ([if v then 1 else 0].modify 0 (· ^^^ (1 <<<
        ((alteredBit UnsignedType.uint8.size p.value.toNat - 1) % 8))))) := by
    rw [first] at processed
    simp only [LoadStoreInjectedFault.process, processed]
    rfl
  have apart : (∃ p' operand, LoadStoreInjectedFault.process p (.condition v) = some (p', operand) ∧
      OneBitApart (.condition v) operand) ↔
      (alteredBit UnsignedType.uint8.size p.value.toNat - 1) % 8 = 0 := by
    rw [returned]
    constructor
    · rintro ⟨_, _, ⟨⟩, inverted⟩
      exact congrArg Fin.val (place.mp inverted)
    · intro zero
      exact ⟨_, _, rfl, place.mpr (Fin.ext zero)⟩
  refine apart.trans ?_
  rw [Hit, ← number]
  omega

/-- The value that the process function of the class returns is a hit, or is
not, by the operand's type and the bit number alone. -/
theorem process_hits_iff (stage : OperandStage) (operand : Operand) (integral : Integral operand)
    (flips : p.valueType = .flipBit) (numbered : p.value ≠ 0) :
    (∃ p' operand', stage.process p operand = some (p', operand') ∧
      OneBitApart operand operand') ↔ Hit p.value stage operand := by
  -- the template runs for these operands in either class
  have template : ∀ bytes, (∃ type : UnsignedType, bytes.length = type.size) →
      ∃ p' operand', ((processBytes p bytes).bind fun result =>
        some (result.1, Operand.other result.2)) = some (p', operand') ∧
          OneBitApart (.other bytes) operand' := by
    rintro bytes ⟨type, length⟩
    obtain ⟨index, inside, bit, small, processed⟩ :=
      template_apart type bytes length flips numbered
    rw [processed]
    exact ⟨_, _, rfl, index, length ▸ inside, bit, small, rfl⟩
  cases stage with
  | iew =>
      cases operand with
      | condition v => exact iff_of_true ⟨p, .condition !v, rfl, rfl⟩ trivial
      | uint64 x =>
          rw [Hit]
          simp only [OperandStage.process, process_uint64 x flips numbered]
          by_cases inside : quotientBits p.value < 8
          · rw [if_pos inside]
            have rest := Nat.mod_lt (p.value.toNat - 1) (show 0 < 8 by decide)
            exact iff_of_true ⟨_, _, rfl, _, by omega, rfl⟩ inside
          · rw [if_neg inside]
            refine iff_of_false ?_ inside
            rintro ⟨p', operand', returned, apart⟩
            split at returned
            · cases returned
              obtain ⟨bit, low, same⟩ := apart
              exact xor_twoPow_ne x bit low same.symm
            · cases returned
      | uint32 x =>
          obtain ⟨bit, low, processed⟩ := template_word .uint32 x flips numbered
          have word : processBytes p (bytesOf 4 x) = _ := processed
          refine iff_of_true ⟨alterFlipBit 4 p, .uint32 (x ^^^ BitVec.twoPow 32 bit), ?_,
            bit, low, rfl⟩ trivial
          simp only [OperandStage.process, IEWStageInjectedFault.process, word]
          exact congrArg (fun y => some (alterFlipBit 4 p, Operand.uint32 y)) (ofBytes_bytesOf 4 _)
      | other bytes => exact iff_of_true (template bytes integral) trivial
  | loadStore =>
      cases operand with
      | condition v => exact condition_hit_iff v flips numbered
      | uint64 x =>
          obtain ⟨bit, low, processed⟩ := template_word .uint64 x flips numbered
          have word : processBytes p (bytesOf 8 x) = _ := processed
          refine iff_of_true ⟨alterFlipBit 8 p, .uint64 (x ^^^ BitVec.twoPow 64 bit), ?_,
            bit, low, rfl⟩ trivial
          simp only [OperandStage.process, LoadStoreInjectedFault.process, word]
          exact congrArg (fun y => some (alterFlipBit 8 p, Operand.uint64 y)) (ofBytes_bytesOf 8 _)
      | uint32 x =>
          refine iff_of_false ?_ (fun no => no)
          rintro ⟨_, _, returned, _⟩
          cases returned
      | other bytes => exact iff_of_true (template bytes integral) trivial

end Processing

section Hooks

variable {fuel : Nat} {f : FaultPtr} {s : FaultStore} {lists : StageQueue → List FaultPtr}

/-- The hook returns what the process function makes of the operand, and then
one occurrence is consumed. -/
theorem fireOperand_iff (stage : OperandStage) (clockEdge : Word) (operand : Operand)
    (held : Represents s lists) (member : f ∈ lists stage.queue)
    (enough : (lists stage.queue).length < fuel) (operand' : Operand) :
    (∃ s', fireOperand fuel stage clockEdge f operand s = some (s', operand') ∧
        OccurrenceConsumed s s' stage.queue f lists) ↔
      ∃ p, stage.process (s.mem f) operand = some (p, operand') := by
  cases stage with
  | iew | loadStore =>
      constructor
      · rintro ⟨s', fired, _⟩
        obtain ⟨⟨p, value⟩, processed, rest⟩ := Option.bind_eq_some_iff.mp fired
        obtain ⟨_, _, result⟩ := Option.bind_eq_some_iff.mp rest
        cases result
        exact ⟨p, processed⟩
      · rintro ⟨p, processed⟩
        exact fire_consumes clockEdge held member enough processed

/-- A flip hits an operand and uses up one occurrence except at three places:
an unsigned 64-bit operand of the execute stage and a bit number beyond it, a
`uint32_t` at the load/store stage, and there also a condition whose altered
bit is not its first. -/
theorem operand_flips_hit_iff (fuel : Nat) (stage : OperandStage) (clockEdge : Word)
    (f : FaultPtr) (operand : Operand) (s : FaultStore) (lists : StageQueue → List FaultPtr)
    (held : Represents s lists) (member : f ∈ lists stage.queue)
    (enough : (lists stage.queue).length < fuel) (flips : (s.mem f).valueType = .flipBit)
    (numbered : (s.mem f).value ≠ 0) (integral : Integral operand) :
    (∃ s' operand', fireOperand fuel stage clockEdge f operand s = some (s', operand') ∧
        OneBitApart operand operand' ∧ OccurrenceConsumed s s' stage.queue f lists) ↔
      Hit (s.mem f).value stage operand := by
  rw [← process_hits_iff stage operand integral flips numbered]
  constructor
  · rintro ⟨s', operand', fired, apart, consumed⟩
    obtain ⟨p, processed⟩ :=
      (fireOperand_iff stage clockEdge operand held member enough operand').mp
        ⟨s', fired, consumed⟩
    exact ⟨p, operand', processed, apart⟩
  · rintro ⟨p, operand', processed, apart⟩
    obtain ⟨s', fired, consumed⟩ :=
      (fireOperand_iff stage clockEdge operand held member enough operand').mpr ⟨p, processed⟩
    exact ⟨s', operand', fired, apart, consumed⟩

end Hooks

def flipRecord (faultType : FaultType) (v : Word) : FaultRecord :=
  -- a line of the fault file for bit `v` of one operand
  ⟨faultType, .instruction, .flipBit, 1, v, "all", "all", 1, .src, 0, 0⟩

theorem addition_flip_hits :
    ∃ s' operand', fireOperand 2 .iew 1000 0 (.uint32 5) (singleFault (flipRecord .execution 3)) =
        some (s', operand') ∧
      OneBitApart (.uint32 5) operand' ∧
      OccurrenceConsumed (singleFault (flipRecord .execution 3)) s' .iewStage 0
        (Function.update (fun _ => []) .iewStage [0]) :=
  (operand_flips_hit_iff 2 .iew 1000 0 (.uint32 5) (singleFault (flipRecord .execution 3))
    (Function.update (fun _ => []) .iewStage [0])
    (singleFault_holds (flipRecord .execution 3)).held (by decide) (by decide) rfl (by decide)
    trivial).mpr trivial

/-- A 32-bit store is passed as a `uint32_t`, and the program stops. -/
theorem stored_word_flip_asserts :
    Represents (singleFault (flipRecord .loadStore 1))
        (Function.update (fun _ => []) .loadStore [0]) ∧
      ((singleFault (flipRecord .loadStore 1)).mem 0).valueType = .flipBit ∧
      ((singleFault (flipRecord .loadStore 1)).mem 0).value = 1 ∧
      Integral (.uint32 5) ∧
      ¬ ∃ s' operand', fireOperand 2 .loadStore 1000 0 (.uint32 5)
          (singleFault (flipRecord .loadStore 1)) = some (s', operand') ∧
        OneBitApart (.uint32 5) operand' := by
  refine ⟨(singleFault_holds (flipRecord .loadStore 1)).held, rfl, rfl, trivial, ?_⟩
  rintro ⟨s', operand', fired, _⟩
  cases fired

end GemFi.OperandFlips
