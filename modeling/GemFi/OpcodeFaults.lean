import GemFi.BitFields
import GemFi.ByteLoops
import GemFi.FaultSpecs
import GemFi.Hooks

/-!
Opcode faults. They wait in the queue of the fetch stage together with the
faults on whole instruction words, and fetch_fault takes every fault of that
queue for a GeneralFetchInjectedFault. `process` is not virtual in any of the
classes, so the body of OpCodeInjectedFault, which replaces bits 31 to 26, is
never reached; the word goes through the byte loops of `manifest` instead.
-/

namespace GemFi.OpcodeFaults

open BitFields ThreadInfo FaultQueue Corruption ByteLoops FaultScan FaultSpecs Activation
open Activation.FiSystem Hooks

/-- `insertBits` at a 32-bit type, with a bit value of 64 bits. -/
def insertBits (val : MachInst) (first last : Nat) (bitVal : Word) : MachInst :=
  let tBitVal : MachInst := bitVal.setWidth 32
  let bmask : MachInst := (mask (first - last + 1) <<< last).setWidth 32
  ((tBitVal <<< last) &&& bmask) ||| (val &&& ~~~bmask)

/-- `OpCodeInjectedFault::process`, as the class has it. -/
def OpCodeInjectedFault.process (p : InjectedFault) (inst : MachInst) : Option MachInst :=
  match p.valueType with
  | .immediate => some (insertBits inst 31 26 p.value)
  | .mask => some (insertBits inst 31 26 ((bits inst 31 26).setWidth 64 ^^^ p.value))
  | .flipBit | .all => none

def opcode (inst : MachInst) : BitVec 6 := inst.extractLsb' 26 6

def operandBits (inst : MachInst) : BitVec 26 := inst.extractLsb' 0 26

/-- Only the opcode differs, and by what the fault says. -/
structure OpcodeChanged (p : InjectedFault) (inst inst' : MachInst) : Prop where
  operands : operandBits inst' = operandBits inst
  immediate : p.valueType = .immediate → opcode inst' = p.value.setWidth 6
  mask : p.valueType = .mask → opcode inst' = opcode inst ^^^ p.value.setWidth 6

/-- A fault whose value fits in an opcode: what=Immd:v or what=Mask:v. -/
structure ForOpcode (p : InjectedFault) : Prop where
  kind : p.valueType = .immediate ∨ p.valueType = .mask
  small : p.value < 64

theorem insertBits_fields (inst : MachInst) (v : Word) :
    opcode (insertBits inst 31 26 v) = v.setWidth 6 ∧
      operandBits (insertBits inst 31 26 v) = operandBits inst := by
  have upper : ((mask (31 - 26 + 1) <<< 26).setWidth 32 : MachInst).extractLsb' 26 6 = BitVec.allOnes _ := by
    decide
  have lower : ((mask (31 - 26 + 1) <<< 26).setWidth 32 : MachInst).extractLsb' 0 26 = 0 := by
    decide
  have shifted : ((v.setWidth 32 : MachInst) <<< 26).extractLsb' 26 6 = v.setWidth 6 := by
    ext i small
    have inside : 26 + i < 32 := by omega
    simp [inside]
  have upper' : (~~~((mask (31 - 26 + 1) <<< 26).setWidth 32 : MachInst)).extractLsb' 26 6 = 0 := by
    decide
  have lower' : (~~~((mask (31 - 26 + 1) <<< 26).setWidth 32 : MachInst)).extractLsb' 0 26 = BitVec.allOnes _ := by
    decide
  unfold opcode operandBits insertBits
  dsimp only
  rw [BitVec.extractLsb'_or, BitVec.extractLsb'_and, BitVec.extractLsb'_and, BitVec.extractLsb'_or,
    BitVec.extractLsb'_and, BitVec.extractLsb'_and, upper, lower, upper', lower', shifted,
    BitVec.and_allOnes, BitVec.and_allOnes]
  simp

theorem bits_opcode (inst : MachInst) : (bits inst 31 26).setWidth 6 = opcode inst := by
  have all : (mask (31 - 26 + 1)).setWidth 6 = BitVec.allOnes 6 := by decide
  unfold bits opcode
  rw [BitVec.setWidth_setWidth_of_le _ (by decide), BitVec.setWidth_and, all, BitVec.and_allOnes]
  ext i small
  have inside : 26 + i < 64 := by omega
  simp [inside]

theorem opCode_process_changes_opcode {p : InjectedFault} (inst : MachInst) (asked : ForOpcode p) :
    ∃ inst', OpCodeInjectedFault.process p inst = some inst' ∧ OpcodeChanged p inst inst' := by
  rcases asked.kind with immediate | masked
  · refine ⟨insertBits inst 31 26 p.value, by simp [OpCodeInjectedFault.process, immediate], ?_⟩
    obtain ⟨changed, kept⟩ := insertBits_fields inst p.value
    refine ⟨kept, fun _ => changed, fun isMask => ?_⟩
    rw [immediate] at isMask
    cases isMask
  · refine ⟨insertBits inst 31 26 ((bits inst 31 26).setWidth 64 ^^^ p.value),
      by simp [OpCodeInjectedFault.process, masked], ?_⟩
    obtain ⟨changed, kept⟩ := insertBits_fields inst ((bits inst 31 26).setWidth 64 ^^^ p.value)
    refine ⟨kept, fun isImmediate => ?_, fun _ => ?_⟩
    · rw [masked] at isImmediate
      cases isImmediate
    · rw [changed, BitVec.setWidth_xor, BitVec.setWidth_setWidth_of_le _ (by decide), bits_opcode]

def wordLeft (p : InjectedFault) (inst : MachInst) : MachInst :=
  -- what the byte loops make of a word under a fault that fits in an opcode: the small value has
  -- nothing in the bytes that are used
  if p.valueType = .mask then inst else 0

theorem process_forOpcode {p : InjectedFault} (inst : MachInst) (asked : ForOpcode p) :
    GeneralFetchInjectedFault.process p inst = some (wordLeft p inst) := by
  -- the loops pair the operand with the upper four bytes of the value, all zero here
  have below : p.value.toNat < 2 ^ UnsignedType.uint32.bits :=
    Nat.lt_trans (BitVec.lt_def.mp asked.small) (by decide)
  have upper : upperPart 4 p.value = 0 := upperPart_eq .uint32 p.value below
  unfold GeneralFetchInjectedFault.process wordLeft
  rcases asked.kind with immediate | masked
  · have stored : manifestWord 4 inst p.value .immediate = some (upperPart 4 p.value) :=
      manifest_immediate _ _ (by decide)
    rw [immediate, stored, upper]
    rfl
  · have changed : manifestWord 4 inst p.value .mask = some (inst ^^^ upperPart 4 p.value) :=
      manifest_mask _ _ (by decide)
    rw [masked, changed, upper, if_pos rfl]
    exact congrArg some BitVec.xor_zero

theorem process_again {p : InjectedFault} (inst : MachInst) :
    wordLeft p (wordLeft p inst) = wordLeft p inst := by
  unfold wordLeft
  split <;> rfl

theorem ForOpcode.congr {p p' : InjectedFault} (same : SameSpec p p') (asked : ForOpcode p) :
    ForOpcode p' :=
  ⟨same.valueType ▸ asked.kind, same.value ▸ asked.small⟩

theorem wordLeft_congr {p p' : InjectedFault} (same : SameSpec p p') (inst : MachInst) :
    wordLeft p' inst = wordLeft p inst := by
  unfold wordLeft
  rw [same.valueType]

theorem fire_fetch_spec {fuel : Nat} {clockEdge : Word} {f : FaultPtr} {inst inst' : MachInst}
    {s s' : FaultStore} (fires : fire fuel .fetchStage clockEdge f inst s = some (s', inst')) :
    GeneralFetchInjectedFault.process (s.mem f) inst = some inst' ∧
      SameSpec (s.mem f) (s'.mem f) := by
  have kept := @fire_spec fuel .fetchStage f s s' inst clockEdge inst' fires
  obtain ⟨⟨p, word⟩, processed, rest⟩ := Option.bind_eq_some_iff.mp fires
  obtain ⟨_, _, result⟩ := Option.bind_eq_some_iff.mp rest
  obtain ⟨_, computed, same⟩ := Option.map_eq_some_iff.mp processed
  cases same
  cases result
  exact ⟨computed, kept.mpr fun no => no⟩

/-- However often the loop of fetch_fault fires the fault, the word is what the
first time makes of it. -/
theorem fireLoop_wordLeft {fuel : Nat} {c : ScanContext} {call : HookCall} {f : FaultPtr}
    (rounds : Nat) (inst inst' : MachInst) (fi fi' : FiSystem) (fired : List FaultPtr)
    (asked : ForOpcode (fi.store.mem f)) (only : ∀ g ∈ fired, g = f)
    (returned : fireLoop fuel .fetchStage c call rounds inst fi = some (fi', inst', fired)) :
    inst' = if fired = [] then inst else wordLeft (fi.store.mem f) inst := by
  induction rounds generalizing inst fi fired with
  | zero => cases returned
  | succ rounds ih =>
      obtain ⟨⟨store, found⟩, scanned, rest⟩ := Option.bind_eq_some_iff.mp returned
      cases found with
      | none =>
          cases rest
          rfl
      | some g =>
          rw [fireLoop_found scanned] at returned
          obtain ⟨⟨store', inst''⟩, fires, rest⟩ := Option.bind_eq_some_iff.mp returned
          obtain ⟨⟨fi'', word, later⟩, looped, result⟩ := Option.bind_eq_some_iff.mp rest
          cases result
          have isF : g = f := only g List.mem_cons_self
          subst isF
          have before := scan_spec g scanned
          obtain ⟨word', after⟩ := fire_fetch_spec fires
          have asked' := asked.congr before
          rw [process_forOpcode inst asked', wordLeft_congr before] at word'
          cases word'
          have same : (firedOne fi .fetchStage call g store').store.mem g = store'.mem g := by
            rw [firedOne_store]
          have later' := ih _ _ _ (same ▸ asked'.congr after)
            (fun g' member => only g' (List.mem_cons_of_mem g member)) looped
          -- a second firing finds the word as the first one left it
          rw [same, wordLeft_congr after, wordLeft_congr before, process_again] at later'
          simpa using later'

theorem fetchFault_wordLeft {fuel : Nat} {tc : ThreadContext} {ptr : ThreadPtr} {call : HookCall}
    {inst inst' : MachInst} {fi fi' : FiSystem} {fired : List FaultPtr} {f : FaultPtr}
    (asked : ForOpcode (fi.store.mem f)) (due : fired ≠ []) (only : ∀ g ∈ fired, g = f)
    (returned : fetchFault fuel tc ptr call inst fi = some (fi', inst', fired)) :
    inst' = wordLeft (fi.store.mem f) inst := by
  obtain ⟨thread, _, rest⟩ := Option.bind_eq_some_iff.mp returned
  split at rest
  · cases rest
    exact absurd rfl due
  · dsimp only at rest
    split at rest
    · cases rest
      exact absurd rfl due
    · split at rest
      · obtain ⟨counted, both, fires⟩ := Option.bind_eq_some_iff.mp rest
        obtain ⟨c, _, looped⟩ := Option.bind_eq_some_iff.mp fires
        have store := countBoth_store both
        have result := fireLoop_wordLeft _ _ _ _ _ _ (f := f) (store ▸ asked) only looped
        rwa [if_neg due, store] at result
      · cases rest
        exact absurd rfl due

theorem opcodeChanged_wordLeft_iff {p : InjectedFault} (asked : ForOpcode p) (inst : MachInst) :
    OpcodeChanged p inst (wordLeft p inst) ↔
      p.value = 0 ∧ (p.valueType = .mask ∨ operandBits inst = 0) := by
  have below : p.value.toNat < 64 := BitVec.lt_def.mp asked.small
  have narrow : p.value.setWidth 6 = 0 ↔ p.value = 0 := by
    constructor
    · intro zero
      have number := congrArg BitVec.toNat zero
      rw [BitVec.toNat_setWidth, Nat.mod_eq_of_lt (by simpa using below)] at number
      exact BitVec.eq_of_toNat_eq number
    · intro zero
      rw [zero]
      rfl
  rcases asked.kind with immediate | masked
  -- the whole word is cleared, so that the operands survive only when they were zero
  · have zeroed : wordLeft p inst = 0 := by simp [wordLeft, immediate]
    rw [zeroed]
    constructor
    · intro changed
      refine ⟨narrow.mp (changed.immediate immediate).symm, Or.inr changed.operands.symm⟩
    · rintro ⟨zero, isMask | clear⟩
      · rw [immediate] at isMask
        cases isMask
      · refine ⟨clear.symm, fun _ => (narrow.mpr zero).symm, fun isMask => ?_⟩
        rw [immediate] at isMask
        cases isMask
  · have same : wordLeft p inst = inst := by simp [wordLeft, masked]
    rw [same]
    constructor
    · intro changed
      refine ⟨narrow.mp ?_, Or.inl masked⟩
      have unchanged := changed.mask masked
      have cancelled : opcode inst ^^^ opcode inst = opcode inst ^^^
          (opcode inst ^^^ p.value.setWidth 6) := congrArg (opcode inst ^^^ ·) unchanged
      rw [← BitVec.xor_assoc, BitVec.xor_self, BitVec.zero_xor] at cancelled
      exact cancelled.symm
    · rintro ⟨zero, _⟩
      refine ⟨rfl, fun isImmediate => ?_, fun _ => ?_⟩
      · rw [masked] at isImmediate
        cases isImmediate
      · rw [narrow.mpr zero]
        exact (BitVec.xor_zero).symm

/-- The word that fetch_fault returns when it fired an opcode fault: only the
opcode differs, and as the fault says, just when the fault asks for nothing. -/
theorem opcode_fault_iff (fuel : Nat) (tc : ThreadContext) (ptr : ThreadPtr) (call : HookCall)
    (inst inst' : MachInst) (fi fi' : FiSystem) (fired : List FaultPtr) (f : FaultPtr)
    (asked : ForOpcode (fi.store.mem f)) (due : fired ≠ []) (only : ∀ g ∈ fired, g = f)
    (returned : fetchFault fuel tc ptr call inst fi = some (fi', inst', fired)) :
    OpcodeChanged (fi.store.mem f) inst inst' ↔
      (fi.store.mem f).value = 0 ∧
        ((fi.store.mem f).valueType = .mask ∨ operandBits inst = 0) := by
  rw [fetchFault_wordLeft asked due only returned]
  exact opcodeChanged_wordLeft_iff asked inst

def opcodeSystem (valueType : ValueType) (value : Word) : FiSystem :=
  let record : FaultRecord :=
    ⟨.opCode, .instruction, valueType, 1, value, "all", "all", 1, .src, 0, 0⟩
  let fi : FiSystem := { bootedMachine.fi with
    store := (load 9 record QueueHistory.clearMemory).getD QueueHistory.clearMemory }
  (fi.startFi (bootedMachine.contexts 0) 0).1

def firstCall : HookCall := ⟨0, 0, 1000, 0⟩

theorem empty_mask_keeps_word :
    OpcodeChanged ((opcodeSystem .mask 0).store.mem 0) 0x47ff041f 0x47ff041f ↔
      ((opcodeSystem .mask 0).store.mem 0).value = 0 ∧
        (((opcodeSystem .mask 0).store.mem 0).valueType = .mask ∨
          operandBits 0x47ff041f = 0) :=
  opcode_fault_iff 9 (bootedMachine.contexts 0) 0 firstCall 0x47ff041f _ (opcodeSystem .mask 0) _
    [0] 0 ⟨Or.inr rfl, by decide⟩ (by decide) (by decide) rfl

/-- what=Immd:24 on a bis instruction: the word fetched is cleared altogether. -/
theorem immediate_opcode_clears_word :
    ((fetchFault 9 (bootedMachine.contexts 0) 0 firstCall 0x47ff041f
        (opcodeSystem .immediate 24)).map fun result => (result.2.1, result.2.2)) =
      some (0, [0]) ∧
    ¬ OpcodeChanged ((opcodeSystem .immediate 24).store.mem 0) 0x47ff041f 0 := by
  refine ⟨rfl, fun changed => ?_⟩
  have opcodes : (0 : BitVec 6) = 24 := changed.immediate rfl
  exact absurd opcodes (by decide)

end GemFi.OpcodeFaults
