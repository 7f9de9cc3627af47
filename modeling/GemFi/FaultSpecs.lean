import GemFi.FaultRuns
import GemFi.OperandBytes

/-!
What a fault file writes about a corruption, and what is left of it after the
fault was fired on one value after another. The `process` functions read the
specification from the fault object, and two of them write it back changed: the
templates of the execute and load/store classes move a bit number that lies
outside the operand, and the decoding class adds FP_Reg_Base to the replacement
register when the register it replaces is a floating-point one.
-/

namespace GemFi.FaultSpecs

open ThreadInfo Transitions FaultQueue QueueHistory Corruption FaultScan OperandBytes

structure Registers where
  -- the registers of the hardware context that a fault of the main queue works on. A floating-point
  -- register is the bit pattern of its value.
  intReg : Int → Word
  floatReg : Int → Word
  miscReg : Int → Word
  pc : Addr

inductive CpuFault where
  -- what distinguishes the faults of the main queue: a register fault has the kind of register and
  -- its number
  | intReg (register : Int)
  | floatReg (register : Int)
  | miscReg (register : Int)
  | pc

/-- `RegisterInjectedFault::process` and `PCInjectedFault::process`. -/
def CpuFault.process (p : InjectedFault) (regs : Registers) : CpuFault → Option Registers
  | .intReg r => do
      let mask ← manifestWord 8 (regs.intReg r) p.value p.valueType
      some { regs with intReg := Function.update regs.intReg r mask }
  | .floatReg r => do
      let mask ← manifestWord 8 (regs.floatReg r) p.value p.valueType
      some { regs with floatReg := Function.update regs.floatReg r mask }
  | .miscReg r => do
      let mask ← manifestWord 8 (regs.miscReg r) p.value p.valueType
      some { regs with miscReg := Function.update regs.miscReg r mask }
  | .pc => do
      let mask ← manifestWord 8 regs.pc p.value p.valueType
      some { regs with pc := mask }

abbrev Victim : StageQueue → Type
  | .main => CpuFault × Registers
  | .fetchStage => MachInst
  | .decodeStage => StaticInst
  | .iewStage | .loadStore => Operand

def corrupt : (q : StageQueue) → InjectedFault → Victim q → Option (Victim q)
  | .main, p, (cpuFault, regs) => (cpuFault.process p regs).map (Prod.mk cpuFault)
  | .fetchStage, p, v => (process .fetchStage p v).map Prod.snd
  | .decodeStage, p, v => (process .decodeStage p v).map Prod.snd
  | .iewStage, p, v => (process .iewStage p v).map Prod.snd
  | .loadStore, p, v => (process .loadStore p v).map Prod.snd

def Victim.stageValue : (q : StageQueue) → Victim q → StageValue q
  | .main, _ => ()
  | .fetchStage, v => v
  | .decodeStage, v => v
  | .iewStage, v => v
  | .loadStore, v => v

structure Firing (q : StageQueue) where
  victim : Victim q
  clockEdge : Word

def strike (fuel : Nat) (q : StageQueue) (f : FaultPtr) (s : FaultStore) (firing : Firing q) :
    Option (FaultStore × Victim q) := do
  let struck ← corrupt q (s.mem f) firing.victim
  let (s, _) ← fire fuel q firing.clockEdge f (firing.victim.stageValue q) s
  some (s, struck)

def strikeStep (fuel : Nat) (q : StageQueue) (f : FaultPtr) (s : FaultStore)
    (firing : Firing q) : Option FaultStore :=
  (strike fuel q f s firing).map Prod.fst

structure SameSpec (p p' : InjectedFault) : Prop where
  value : p'.value = p.value
  valueType : p'.valueType = p.valueType
  srcOrDst : p'.srcOrDst = p.srcOrDst
  regToChange : p'.regToChange = p.regToChange
  changeToReg : p'.changeToReg = p.changeToReg

theorem SameSpec.refl (p : InjectedFault) : SameSpec p p := by
  constructor <;> rfl

theorem SameSpec.symm {p p' : InjectedFault} (same : SameSpec p p') : SameSpec p' p := by
  constructor
  · exact same.value.symm
  · exact same.valueType.symm
  · exact same.srcOrDst.symm
  · exact same.regToChange.symm
  · exact same.changeToReg.symm

theorem SameSpec.trans {p p' p'' : InjectedFault} (first : SameSpec p p')
    (second : SameSpec p' p'') : SameSpec p p'' := by
  constructor
  · exact second.value.trans first.value
  · exact second.valueType.trans first.valueType
  · exact second.srcOrDst.trans first.srcOrDst
  · exact second.regToChange.trans first.regToChange
  · exact second.changeToReg.trans first.changeToReg

def Outside (size : Nat) (p : InjectedFault) : Prop :=
  -- the flipped bit lies outside a value of `size` bytes
  p.valueType = .flipBit ∧ p.value > BitVec.ofNat 64 (size * 8)

def selected (p : InjectedFault) (inst : StaticInst) : Option RegIndex :=
  let regs := match p.srcOrDst with
    | .src => inst.srcRegIdx
    | .dst => inst.destRegIdx
  regs[(p.regToChange.tmod regs.length).toNat]?

def Rewrites : (q : StageQueue) → InjectedFault → Victim q → Prop
  | .main, _, _ => False
  | .fetchStage, _, _ => False
  | .decodeStage, p, inst => ∃ old, selected p inst = some old ∧ fpRegBase ≤ old.toNat
  | .iewStage, p, operand =>
      match operand with
      | .condition _ => False
      | .uint64 _ => False
      | .uint32 _ => Outside 4 p
      | .other bytes => Outside bytes.length p
  | .loadStore, p, operand =>
      match operand with
      | .condition _ => Outside 1 p
      | .uint64 _ => Outside 8 p
      | .uint32 _ => False  -- the assertion fails before anything is written
      | .other bytes => Outside bytes.length p

theorem alterFlipBit_spec (size : Nat) (p : InjectedFault) :
    SameSpec p (alterFlipBit size p) ↔ ¬ Outside size p := by
  unfold alterFlipBit
  split
  · rename_i outside
    refine iff_of_false (fun same => ?_) (fun inside => inside outside)
    -- the new bit number is at most the width that the old one exceeds
    have moved : (p.value % BitVec.ofNat 64 (size * 8) + 1).toNat = p.value.toNat :=
      congrArg BitVec.toNat same.value
    have above : (BitVec.ofNat 64 (size * 8)).toNat < p.value.toNat :=
      BitVec.lt_def.mp outside.2
    have one : (1 : Word).toNat = 1 := rfl
    rw [BitVec.toNat_add, BitVec.toNat_umod, one] at moved
    by_cases empty : (BitVec.ofNat 64 (size * 8)).toNat = 0
    · rw [empty, Nat.mod_zero] at moved
      omega
    · have below := Nat.mod_lt p.value.toNat (Nat.pos_of_ne_zero empty)
      omega
  · rename_i inside
    exact iff_of_true (SameSpec.refl p) inside

theorem processBytes_spec {p p' : InjectedFault} {bytes bytes' : List Byte}
    (returned : processBytes p bytes = some (p', bytes')) :
    SameSpec p p' ↔ ¬ Outside bytes.length p := by
  obtain ⟨_, _, result⟩ := Option.bind_eq_some_iff.mp returned
  cases result
  exact alterFlipBit_spec bytes.length p

theorem changeRegister_spec {p p' : InjectedFault} {regs regs' : List RegIndex}
    (returned : changeRegister p regs = some (p', regs')) :
    SameSpec p p' ↔ ¬ ∃ old, regs[(p.regToChange.tmod regs.length).toNat]? = some old ∧
      fpRegBase ≤ old.toNat := by
  unfold changeRegister at returned
  split at returned
  · cases returned
  · dsimp only at returned
    split at returned
    · cases returned
    · obtain ⟨old, found, result⟩ := Option.bind_eq_some_iff.mp returned
      cases result
      split
      · rename_i floating
        refine iff_of_false (fun same => ?_) (fun none' => none' ⟨old, found, floating⟩)
        -- FP_Reg_Base is no multiple of 2^32, so the sum is never the old number
        have shifted : (p.changeToReg + fpRegBase).bmod (2 ^ 32) = p.changeToReg := same.changeToReg
        have congruent : (p.changeToReg + fpRegBase).bmod (2 ^ 32) % ((2 ^ 32 : Nat) : Int) =
            (p.changeToReg + fpRegBase) % ((2 ^ 32 : Nat) : Int) := Int.bmod_emod
        rw [shifted] at congruent
        unfold fpRegBase at congruent
        omega
      · rename_i integer
        refine iff_of_true (SameSpec.refl p) ?_
        rintro ⟨old', found', floating⟩
        rw [found] at found'
        cases found'
        exact integer floating

/-- Each process function keeps the specification exactly where it is not one of
those that rewrite it. -/
theorem process_spec {q : StageQueue} {p p' : InjectedFault} {victim : Victim q}
    {v' : StageValue q} (returned : process q p (victim.stageValue q) = some (p', v')) :
    SameSpec p p' ↔ ¬ Rewrites q p victim := by
  cases q with
  | main =>
      cases returned
      exact iff_of_true (SameSpec.refl p) (fun no => no)
  | fetchStage =>
      obtain ⟨_, _, result⟩ := Option.map_eq_some_iff.mp returned
      cases result
      exact iff_of_true (SameSpec.refl p) (fun no => no)
  | decodeStage =>
      simp only [Rewrites, selected]
      rcases decoding_process_cases returned with ⟨side, _, changed, _⟩ | ⟨side, _, changed, _⟩
      · rw [side]
        exact changeRegister_spec changed
      · rw [side]
        exact changeRegister_spec changed
  | iewStage =>
      cases victim with
      | condition v =>
          cases returned
          exact iff_of_true (SameSpec.refl p) (fun no => no)
      | uint64 v =>
          obtain ⟨_, _, result⟩ := Option.bind_eq_some_iff.mp returned
          cases result
          exact iff_of_true (SameSpec.refl p) (fun no => no)
      | uint32 v =>
          obtain ⟨⟨_, _⟩, processed, result⟩ := Option.bind_eq_some_iff.mp returned
          cases result
          have kept := processBytes_spec processed
          rw [length_bytesOf] at kept
          exact kept
      | other bytes =>
          obtain ⟨⟨_, _⟩, processed, result⟩ := Option.bind_eq_some_iff.mp returned
          cases result
          exact processBytes_spec processed
  | loadStore =>
      cases victim with
      | uint32 v => cases returned
      | condition _ | other _ =>
          obtain ⟨⟨_, _⟩, processed, result⟩ := Option.bind_eq_some_iff.mp returned
          cases result
          exact processBytes_spec processed
      | uint64 v =>
          obtain ⟨⟨_, _⟩, processed, result⟩ := Option.bind_eq_some_iff.mp returned
          cases result
          have kept := processBytes_spec processed
          rw [length_bytesOf] at kept
          exact kept

theorem sameSpec_of_data {f : FaultPtr} {s s' : FaultStore} (same : s'.data f = s.data f) :
    SameSpec (s.mem f) (s'.mem f) := by
  have field : ∀ {α : Type} (g : InjectedFault → α), g (s'.data f) = g (s.data f) :=
    fun g => congrArg g same
  constructor
  · exact field InjectedFault.value
  · exact field InjectedFault.valueType
  · exact field InjectedFault.srcOrDst
  · exact field InjectedFault.regToChange
  · exact field InjectedFault.changeToReg

theorem check4reschedule_spec {fuel : Nat} {clockEdge : Word} {f : FaultPtr} {s s' : FaultStore}
    (returned : check4reschedule fuel clockEdge f s = some s') :
    SameSpec (s.mem f) (s'.mem f) := by
  unfold check4reschedule at returned
  split at returned
  · obtain ⟨q, _, removed⟩ := Option.bind_eq_some_iff.mp returned
    exact sameSpec_of_data (congrFun (FaultStore.remove_frame removed).1 f)
  · cases returned
    constructor <;> simp [FaultStore.write, rescheduled]

theorem scan_spec {fuel : Nat} {q : StageQueue} {c : ScanContext} {s s' : FaultStore}
    {found : Option FaultPtr} (f : FaultPtr) (scanned : scan fuel q c s = some (s', found)) :
    SameSpec (s.mem f) (s'.mem f) := by
  obtain ⟨left, _, rest⟩ := Option.bind_eq_some_iff.mp scanned
  cases left with
  | none =>
      cases rest
      exact SameSpec.refl _
  | some p =>
      dsimp only at rest
      split at rest
      · cases rest
        by_cases same : f = p <;> constructor <;> simp [serviced, FaultStore.write, same]
      · cases rest
        exact SameSpec.refl _

section Strikes

variable {fuel : Nat} {q : StageQueue} {f : FaultPtr} {s s' : FaultStore} {firing : Firing q}
  {victim : Victim q}

theorem fire_spec {clockEdge : Word} {v' : StageValue q}
    (returned : fire fuel q clockEdge f (victim.stageValue q) s = some (s', v')) :
    SameSpec (s.mem f) (s'.mem f) ↔ ¬ Rewrites q (s.mem f) victim := by
  obtain ⟨⟨p, _⟩, processed, rest⟩ := Option.bind_eq_some_iff.mp returned
  obtain ⟨_, checked, result⟩ := Option.bind_eq_some_iff.mp rest
  cases result
  have kept := check4reschedule_spec checked
  have written : (s.write f fun _ => p).mem f = p := by simp [FaultStore.write]
  rw [written] at kept
  rw [← process_spec processed]
  exact ⟨fun same => same.trans kept.symm, fun same => same.trans kept⟩

theorem strike_spec {struck : Victim q} (returned : strike fuel q f s firing = some (s', struck)) :
    corrupt q (s.mem f) firing.victim = some struck ∧
      (SameSpec (s.mem f) (s'.mem f) ↔ ¬ Rewrites q (s.mem f) firing.victim) := by
  obtain ⟨_, corrupted, rest⟩ := Option.bind_eq_some_iff.mp returned
  obtain ⟨⟨_, _⟩, fired, result⟩ := Option.bind_eq_some_iff.mp rest
  cases result
  exact ⟨corrupted, fire_spec fired⟩

end Strikes

theorem outside_congr {p p' : InjectedFault} (same : SameSpec p p') (size : Nat) :
    Outside size p' ↔ Outside size p := by
  unfold Outside
  rw [same.valueType, same.value]

theorem rewrites_congr {q : StageQueue} {p p' : InjectedFault} (same : SameSpec p p')
    (victim : Victim q) : Rewrites q p' victim ↔ Rewrites q p victim := by
  cases q with
  | main => exact Iff.rfl
  | fetchStage => exact Iff.rfl
  | decodeStage =>
      simp only [Rewrites, selected]
      rw [same.srcOrDst, same.regToChange]
  | iewStage =>
      cases victim with
      | condition v => exact Iff.rfl
      | uint64 v => exact Iff.rfl
      | uint32 v => exact outside_congr same 4
      | other bytes => exact outside_congr same bytes.length
  | loadStore =>
      cases victim with
      | condition v => exact outside_congr same 1
      | uint64 v => exact outside_congr same 8
      | uint32 v => exact Iff.rfl
      | other bytes => exact outside_congr same bytes.length

theorem processBytes_congr {p p' : InjectedFault} (same : SameSpec p p') (bytes : List Byte) :
    (processBytes p' bytes).map Prod.snd = (processBytes p bytes).map Prod.snd := by
  unfold processBytes alterFlipBit
  rw [same.valueType, same.value]
  split <;> simp [Option.map_bind, same.value, same.valueType]

theorem changeRegister_congr {p p' : InjectedFault} (same : SameSpec p p')
    (regs : List RegIndex) :
    (changeRegister p' regs).map Prod.snd = (changeRegister p regs).map Prod.snd := by
  unfold changeRegister
  rw [same.regToChange, same.changeToReg]
  split
  · rfl
  · dsimp only
    split
    · rfl
    · simp only [Option.bind_eq_bind, Option.map_bind, Function.comp_def, Option.map_some]
      congr 1
      funext old
      split <;> simp [same.changeToReg]

/-- A process function may wrap the value that its inner step returned. -/
theorem wrapped_congr {α β γ : Type} {inner inner' : Option (α × β)} (wrap : β → γ)
    (same : inner'.map Prod.snd = inner.map Prod.snd) :
    (inner'.bind fun r => some (r.1, wrap r.2)).map Prod.snd =
      (inner.bind fun r => some (r.1, wrap r.2)).map Prod.snd := by
  have unwrap : ∀ x : Option (α × β),
      (x.bind fun r => some (r.1, wrap r.2)).map Prod.snd = (x.map Prod.snd).map wrap := by
    intro x
    cases x <;> rfl
  rw [unwrap, unwrap, same]

/-- The corruption is decided by the specification alone. -/
theorem corrupt_congr {q : StageQueue} {p p' : InjectedFault} (same : SameSpec p p')
    (victim : Victim q) : corrupt q p' victim = corrupt q p victim := by
  cases q with
  | main =>
      obtain ⟨cpuFault, regs⟩ := victim
      cases cpuFault <;> simp only [corrupt, CpuFault.process, same.value, same.valueType]
  | fetchStage =>
      simp only [corrupt, process, GeneralFetchInjectedFault.process, same.value, same.valueType,
        Option.map_map, Function.comp_def]
  | decodeStage =>
      simp only [corrupt, process, RegisterDecodingInjectedFault.process]
      rw [same.srcOrDst]
      split
      · exact wrapped_congr (fun regs => { victim with srcRegIdx := regs })
          (changeRegister_congr same victim.srcRegIdx)
      · exact wrapped_congr (fun regs => { victim with destRegIdx := regs })
          (changeRegister_congr same victim.destRegIdx)
  | iewStage =>
      cases victim with
      | condition v => rfl
      | uint64 v =>
          simp only [corrupt, process, IEWStageInjectedFault.process, same.value, same.valueType]
          cases manifestWord 8 v p.value p.valueType <;> rfl
      | uint32 v =>
          exact wrapped_congr (fun bytes => Operand.uint32 (ofBytes 4 bytes))
            (processBytes_congr same (bytesOf 4 v))
      | other bytes =>
          exact wrapped_congr Operand.other (processBytes_congr same bytes)
  | loadStore =>
      cases victim with
      | uint32 v => rfl
      | condition v =>
          exact wrapped_congr Operand.other (processBytes_congr same [if v then 1 else 0])
      | uint64 v =>
          exact wrapped_congr (fun bytes => Operand.uint64 (ofBytes 8 bytes))
            (processBytes_congr same (bytesOf 8 v))
      | other bytes =>
          exact wrapped_congr Operand.other (processBytes_congr same bytes)

/-- This manifestation applies the corruption of `spec`, and the fault leaves it
with that specification. -/
def AsWritten (fuel : Nat) (q : StageQueue) (f : FaultPtr) (spec : InjectedFault)
    (s : FaultStore) (firing : Firing q) : Prop :=
  ∀ s' struck, strike fuel q f s firing = some (s', struck) →
    corrupt q spec firing.victim = some struck ∧ SameSpec spec (s'.mem f)

theorem strike_asWritten_iff {fuel : Nat} {q : StageQueue} {f : FaultPtr} {spec : InjectedFault}
    {s s' : FaultStore} {firing : Firing q} (current : SameSpec spec (s.mem f))
    (stepped : strikeStep fuel q f s firing = some s') :
    AsWritten fuel q f spec s firing ↔ ¬ Rewrites q spec firing.victim := by
  obtain ⟨⟨_, struck⟩, returned, rfl⟩ := Option.map_eq_some_iff.mp stepped
  obtain ⟨corrupted, keeps⟩ := strike_spec returned
  rw [rewrites_congr current] at keeps
  rw [corrupt_congr current] at corrupted
  constructor
  · intro written
    exact keeps.mp (current.symm.trans (written _ _ returned).2)
  · intro unchanged s'' struck' returned'
    rw [returned] at returned'
    cases returned'
    exact ⟨corrupted, current.trans (keeps.mpr unchanged)⟩

/-- The induction of the result below, from any state in which the fault still
has the specification `spec`. -/
theorem eachStep_asWritten_iff {fuel : Nat} {q : StageQueue} {f : FaultPtr}
    {spec : InjectedFault} (firings : List (Firing q)) (s : FaultStore)
    (current : SameSpec spec (s.mem f)) :
    EachStep (strikeStep fuel q f) (AsWritten fuel q f spec) firings s ↔
      EachStep (strikeStep fuel q f) (fun _ firing => ¬ Rewrites q spec firing.victim)
        firings s := by
  induction firings generalizing s with
  | nil => exact iff_of_true (eachStep_nil _ _) (eachStep_nil _ _)
  | cons firing rest ih =>
      rw [eachStep_cons_iff, eachStep_cons_iff]
      refine forall_congr' fun next => forall_congr' fun stepped => ?_
      have here := strike_asWritten_iff current stepped
      obtain ⟨⟨_, struck⟩, returned, rfl⟩ := Option.map_eq_some_iff.mp stepped
      constructor
      · rintro ⟨written, later⟩
        exact ⟨here.mp written, (ih _ (written _ _ returned).2).mp later⟩
      · rintro ⟨unchanged, later⟩
        have written := here.mpr unchanged
        exact ⟨written, (ih _ (written _ _ returned).2).mpr later⟩

/-- A fault of any class, fired on any sequence of values: every manifestation
applies the corruption of the fault file, and leaves it in place, exactly when
none of the values makes the process function rewrite it. -/
theorem specification_constant_iff (fuel : Nat) (q : StageQueue) (f : FaultPtr)
    (firings : List (Firing q)) (s : FaultStore) :
    EachStep (strikeStep fuel q f) (AsWritten fuel q f (s.mem f)) firings s ↔
      EachStep (strikeStep fuel q f) (fun _ firing => ¬ Rewrites q (s.mem f) firing.victim)
        firings s :=
  eachStep_asWritten_iff firings s (SameSpec.refl (s.mem f))

def flipBit40 : FaultRecord :=
  ⟨.loadStore, .instruction, .flipBit, 1, 40, "all", "all", 0, .src, 0, 0⟩

/-- Loading one byte moves the bit to 1, and the eight bytes loaded next have
that bit flipped. -/
theorem byte_load_moves_the_bit :
    ∃ s s', load 9 flipBit40 clearMemory = some s ∧
      (strike 9 .loadStore 0 s ⟨.other [0], 0⟩).map Prod.fst = some s' ∧
      (strike 9 .loadStore 0 s' ⟨.uint64 0, 0⟩).map Prod.snd = some (.uint64 1) ∧
      corrupt .loadStore (s.mem 0) (.uint64 0) = some (.uint64 0x8000000000) ∧
      ¬ EachStep (strikeStep 9 .loadStore 0) (AsWritten 9 .loadStore 0 (s.mem 0))
        [⟨.other [0], 0⟩, ⟨.uint64 0, 0⟩] s := by
  refine ⟨_, _, rfl, rfl, rfl, rfl, fun each => ?_⟩
  have written := ((eachStep_cons_iff _ _ _ _).mp each _ rfl).1
  have kept : (1 : Word) = 40 := (written _ _ rfl).2.value
  exact absurd kept (by decide)

end GemFi.FaultSpecs
