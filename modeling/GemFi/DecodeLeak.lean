import GemFi.DecodeCache
import GemFi.FaultSpecs
import GemFi.Hooks

/-!
A decoding fault and the decode cache. `decode_fault` gets the pointer that the
cache returned, and RegisterDecodingInjectedFault::process assigns into the
register lists of that object, which the cache goes on sharing with every later
decode of the same word.
-/

namespace GemFi.DecodeLeak

open ThreadInfo Transitions FaultQueue Corruption FaultScan FaultSpecs Activation Hooks DecodeCache

def writeInst {Inst : Type} (c : BasicDecodeCache Inst) (si : InstPtr) (inst : Inst) :
    BasicDecodeCache Inst :=
  -- the assignment into the object at `si`; its machInst stays
  { c with mem := Function.update c.mem si { c.mem si with inst := inst } }

section Sharing

variable {Inst : Type} {decodeInst : ExtMachInst → Inst} {c : BasicDecodeCache Inst}
  {si : InstPtr}

theorem writeInst_machInst (inst : Inst) (p : InstPtr) :
    ((writeInst c si inst).mem p).machInst = (c.mem p).machInst := by
  by_cases same : p = si
  · subst same
    simp [writeInst]
  · simp [writeInst, Function.update_of_ne same]

theorem decodeMiss_writeInst (old : si < c.fresh) (inst : Inst) (page : PagePtr)
    (word : ExtMachInst) (addr : DecodeCache.Addr) :
    (writeInst c si inst).decodeMiss decodeInst page word addr =
      (writeInst (c.decodeMiss decodeInst page word addr).1 si inst,
        (c.decodeMiss decodeInst page word addr).2) := by
  have known : (writeInst c si inst).instMap = c.instMap := rfl
  unfold BasicDecodeCache.decodeMiss
  rw [known]
  cases c.instMap word with
  | some p => rfl
  | none =>
      have other : si ≠ c.fresh := Nat.ne_of_lt old
      simp only [writeInst, Function.update_of_ne other]
      rw [Function.update_comm other]

theorem decode_writeInst (old : si < c.fresh) (inst : Inst) (word : ExtMachInst)
    (addr : DecodeCache.Addr) :
    (writeInst c si inst).decode decodeInst word addr =
      (writeInst (c.decode decodeInst word addr).1 si inst,
        (c.decode decodeInst word addr).2) := by
  have miss := @decodeMiss_writeInst Inst decodeInst
    { c with decodePages := (c.decodePages.getPage addr).1 } si old inst
    (c.decodePages.getPage addr).2 word addr
  have pages : (writeInst c si inst).decodePages = c.decodePages := rfl
  unfold BasicDecodeCache.decode
  dsimp only
  rw [pages]
  cases (c.decodePages.getPage addr).1.pages (c.decodePages.getPage addr).2 (pageOffset addr) with
  | none => exact miss
  | some p =>
      dsimp only
      rw [writeInst_machInst]
      split
      · rfl
      · exact miss

theorem run_writeInst (calls : List (ExtMachInst × DecodeCache.Addr)) (inst : Inst)
    (word : ExtMachInst) (c : BasicDecodeCache Inst) (sound : Sound decodeInst c)
    (isMapped : c.instMap word = some si) :
    run (decodeStep decodeInst) calls (writeInst c si inst) =
      (run (decodeStep decodeInst) calls c).map fun reached => writeInst reached si inst := by
  induction calls generalizing c with
  | nil => rfl
  | cons call rest ih =>
      have result := decode_result sound call.1 call.2
      simp only [run_cons, decodeStep, decode_writeInst (sound.mapped word si isMapped).1]
      exact ih _ result.sound (result.kept word si isMapped)

theorem run_kept (calls : List (ExtMachInst × DecodeCache.Addr)) (c reached : BasicDecodeCache Inst)
    (sound : Sound decodeInst c) (word : ExtMachInst) (isMapped : c.instMap word = some si)
    (ran : run (decodeStep decodeInst) calls c = some reached) :
    reached.instMap word = some si := by
  induction calls generalizing c with
  | nil =>
      cases ran
      exact isMapped
  | cons call rest ih =>
      have result := decode_result sound call.1 call.2
      exact ih _ result.sound (result.kept word si isMapped) ran

/-- A later decode returns the object of `word` exactly when it decodes that
word. -/
theorem decode_returns_iff (sound : Sound decodeInst c) (word other : ExtMachInst)
    (addr : DecodeCache.Addr) (isMapped : c.instMap word = some si) :
    (c.decode decodeInst other addr).2 = si ↔ other = word := by
  have result := decode_result sound other addr
  have object := (result.sound.mapped other _ result.returned).2
  have shared := (result.sound.mapped word si (result.kept word si isMapped)).2
  constructor
  · intro same
    rw [same, shared] at object
    exact (congrArg Decoded.machInst object).symm
  · rintro rfl
    have here := result.kept other si isMapped
    rw [result.returned] at here
    exact Option.some.inj here

end Sharing

section Leak

def written (p : InjectedFault) (old : RegIndex) : RegIndex :=
  -- the register number that a fault puts in the place of `old`
  BitVec.ofInt 8 (if fpRegBase ≤ old.toNat then (p.changeToReg + fpRegBase).bmod (2 ^ 32)
    else p.changeToReg)

/-- The instruction has the register already that the fault puts there. -/
def HasReplacement (p : InjectedFault) (inst : StaticInst) : Prop :=
  ∃ old, selected p inst = some old ∧ written p old = old

theorem changeRegister_same_iff {p p' : InjectedFault} {regs regs' : List RegIndex}
    (returned : changeRegister p regs = some (p', regs')) :
    regs' = regs ↔ ∃ old, regs[(p.regToChange.tmod regs.length).toNat]? = some old ∧
      written p old = old := by
  unfold changeRegister at returned
  split at returned
  · cases returned
  · dsimp only at returned
    split at returned
    · cases returned
    · obtain ⟨old, found, result⟩ := Option.bind_eq_some_iff.mp returned
      have put : regs' = regs.set (p.regToChange.tmod regs.length).toNat (written p old) := by
        cases result
        unfold written
        split <;> rfl
      rw [put]
      constructor
      · intro same
        refine ⟨old, found, ?_⟩
        have here := congrArg (·[(p.regToChange.tmod regs.length).toNat]?) same
        obtain ⟨below, _⟩ := List.getElem?_eq_some_iff.mp found
        simpa [List.getElem?_set_self below, found] using here
      · rintro ⟨old', found', same⟩
        rw [found] at found'
        cases found'
        rw [same]
        obtain ⟨below, isOld⟩ := List.getElem?_eq_some_iff.mp found
        rw [← isOld]
        exact List.set_getElem_self below

theorem corrupt_same_iff {p : InjectedFault} {inst inst' : StaticInst}
    (corrupted : corrupt .decodeStage p inst = some inst') :
    inst' = inst ↔ HasReplacement p inst := by
  obtain ⟨⟨p', _⟩, processed, rfl⟩ := Option.map_eq_some_iff.mp corrupted
  unfold HasReplacement selected
  rcases decoding_process_cases processed with
    ⟨side, regs, changed, rfl⟩ | ⟨side, regs, changed, rfl⟩
  · rw [side, ← changeRegister_same_iff changed]
    constructor
    · intro same
      exact congrArg StaticInst.srcRegIdx same
    · intro same
      rw [same]
  · rw [side, ← changeRegister_same_iff changed]
    constructor
    · intro same
      exact congrArg StaticInst.destRegIdx same
    · intro same
      rw [same]

/-- Where the loop of a hook fires one fault once, the value is what that fault
makes of it. -/
theorem fireLoop_once {fuel : Nat} {c : ScanContext} {call : HookCall} {f : FaultPtr}
    {rounds : Nat} {inst inst' : StaticInst} {fi fi' : FiSystem}
    (returned : fireLoop fuel .decodeStage c call rounds inst fi = some (fi', inst', [f])) :
    corrupt .decodeStage (fi.store.mem f) inst = some inst' := by
  cases rounds with
  | zero => cases returned
  | succ rounds =>
      obtain ⟨⟨store, found⟩, scanned, rest⟩ := Option.bind_eq_some_iff.mp returned
      cases found with
      | none => cases rest
      | some g =>
          rw [fireLoop_found scanned] at returned
          obtain ⟨⟨store', inst''⟩, fires, rest⟩ := Option.bind_eq_some_iff.mp returned
          obtain ⟨⟨fi'', word, later⟩, looped, result⟩ := Option.bind_eq_some_iff.mp rest
          cases result
          rw [fireLoop_silent looped, ← corrupt_congr (scan_spec f scanned)]
          obtain ⟨⟨p, _⟩, processed, rest⟩ := Option.bind_eq_some_iff.mp fires
          obtain ⟨_, _, result⟩ := Option.bind_eq_some_iff.mp rest
          cases result
          exact congrArg (Option.map Prod.snd) processed

theorem decodeFault_once {fuel : Nat} {tc : ThreadContext} {ptr : ThreadPtr} {call : HookCall}
    {f : FaultPtr} {inst inst' : StaticInst} {fi fi' : FiSystem}
    (returned : decodeFault fuel tc ptr call inst fi = some (fi', inst', [f])) :
    corrupt .decodeStage (fi.store.mem f) inst = some inst' := by
  obtain ⟨thread, _, rest⟩ := Option.bind_eq_some_iff.mp returned
  split at rest
  · cases rest
  · dsimp only at rest
    split at rest
    · cases rest
    · obtain ⟨c, _, looped⟩ := Option.bind_eq_some_iff.mp rest
      have once := fireLoop_once looped
      exact once

def registers (decodeInst : ExtMachInst → StaticInst) (c : BasicDecodeCache StaticInst)
    (call : ExtMachInst × DecodeCache.Addr) : StaticInst :=
  -- the registers of the instruction that a decode returns
  ((c.decode decodeInst call.1 call.2).1.mem (c.decode decodeInst call.1 call.2).2).inst

def SameDecodes (decodeInst : ExtMachInst → StaticInst) (c c' : BasicDecodeCache StaticInst)
    (calls : List (ExtMachInst × DecodeCache.Addr)) : Prop :=
  -- all decodes in `calls` return the same registers from both caches
  ∀ before call after reached reached', calls = before ++ call :: after →
    run (decodeStep decodeInst) before c = some reached →
    run (decodeStep decodeInst) before c' = some reached' →
    registers decodeInst reached' call = registers decodeInst reached call

theorem run_total (decodeInst : ExtMachInst → StaticInst)
    (calls : List (ExtMachInst × DecodeCache.Addr)) (c : BasicDecodeCache StaticInst) :
    ∃ reached, run (decodeStep decodeInst) calls c = some reached := by
  induction calls generalizing c with
  | nil => exact ⟨c, rfl⟩
  | cons call rest ih => exact ih _

section Written

variable {decodeInst : ExtMachInst → StaticInst} {c reached : BasicDecodeCache StaticInst}
  {si : InstPtr} {word : ExtMachInst} {before : List (ExtMachInst × DecodeCache.Addr)}

theorem registers_pristine (sound : Sound decodeInst c)
    (ran : run (decodeStep decodeInst) before c = some reached)
    (call : ExtMachInst × DecodeCache.Addr) :
    registers decodeInst reached call = decodeInst call.1 := by
  have result := decode_result (run_sound before c reached sound ran) call.1 call.2
  unfold registers
  rw [(result.sound.mapped call.1 _ result.returned).2]

theorem registers_writeInst (sound : Sound decodeInst c) (isMapped : c.instMap word = some si)
    (inst : StaticInst) (ran : run (decodeStep decodeInst) before c = some reached)
    (call : ExtMachInst × DecodeCache.Addr) :
    registers decodeInst (writeInst reached si inst) call =
      if call.1 = word then inst else registers decodeInst reached call := by
  have reachedSound := run_sound before c reached sound ran
  have reachedMapped := run_kept before c reached sound word isMapped ran
  have target := decode_returns_iff reachedSound word call.1 call.2 reachedMapped
  unfold registers
  rw [decode_writeInst (reachedSound.mapped word si reachedMapped).1]
  by_cases same : call.1 = word
  · rw [if_pos same, target.mpr same]
    simp [writeInst]
  · have other := fun isTarget => same (target.mp isTarget)
    simp [same, writeInst, Function.update_of_ne other]

/-- Writing into the object of a word shows in the later decodes of that word,
and in no others. -/
theorem sameDecodes_writeInst_iff (sound : Sound decodeInst c)
    (isMapped : c.instMap word = some si) (inst : StaticInst)
    (calls : List (ExtMachInst × DecodeCache.Addr)) :
    SameDecodes decodeInst c (writeInst c si inst) calls ↔
      (∀ call ∈ calls, call.1 ≠ word) ∨ inst = decodeInst word := by
  constructor
  · intro unaffected
    -- any decode of the word shows what was written into its object
    by_cases again : ∀ call ∈ calls, call.1 ≠ word
    · exact Or.inl again
    · right
      obtain ⟨call, member, isWord⟩ : ∃ call ∈ calls, call.1 = word := by
        simpa using again
      obtain ⟨before, after, split⟩ := List.append_of_mem member
      obtain ⟨reached, ran⟩ := run_total decodeInst before c
      have ran' := run_writeInst before inst word c sound isMapped
      rw [ran] at ran'
      have same := unaffected before call after reached _ split ran ran'
      rw [registers_writeInst sound isMapped inst ran, if_pos isWord,
        registers_pristine sound ran, isWord] at same
      exact same
  · intro harmless before call after reached reached' split ran ran'
    rw [run_writeInst before inst word c sound isMapped, ran] at ran'
    cases ran'
    rw [registers_writeInst sound isMapped inst ran]
    split
    · rename_i isWord
      rcases harmless with elsewhere | same
      · exact absurd isWord (elsewhere call (by rw [split]; simp))
      · rw [registers_pristine sound ran, isWord, same]
    · rfl

end Written

/-- One instruction of the fetch stage: it is decoded, and the hook works on the
object that the cache returned. -/
def decodeHooked (decodeInst : ExtMachInst → StaticInst) (fuel : Nat) (tc : ThreadContext)
    (ptr : ThreadPtr) (hook : HookCall) (c : BasicDecodeCache StaticInst)
    (call : ExtMachInst × DecodeCache.Addr) (fi : FiSystem) :
    Option (BasicDecodeCache StaticInst × FiSystem × List FaultPtr) := do
  let decoded := c.decode decodeInst call.1 call.2
  let (fi, inst, fired) ← decodeFault fuel tc ptr hook (decoded.1.mem decoded.2).inst fi
  some (writeInst decoded.1 decoded.2 inst, fi, fired)

/-- After any decodes a decoding fault is fired on the next one. All decodes
after that return the registers they would have returned without the fault
exactly when its word is not decoded again, or the instruction had the register
already. -/
theorem transient_decode_fault_iff (decodeInst : ExtMachInst → StaticInst)
    (mem : InstPtr → Decoded StaticInst) (before after : List (ExtMachInst × DecodeCache.Addr))
    (call : ExtMachInst × DecodeCache.Addr) (fuel : Nat) (tc : ThreadContext) (ptr : ThreadPtr)
    (hook : HookCall) (f : FaultPtr) (fi fi' : FiSystem) (c c' : BasicDecodeCache StaticInst)
    (ran : run (decodeStep decodeInst) before (BasicDecodeCache.new mem) = some c)
    (fired : decodeHooked decodeInst fuel tc ptr hook c call fi = some (c', fi', [f])) :
    SameDecodes decodeInst (c.decode decodeInst call.1 call.2).1 c' after ↔
      (∀ later ∈ after, later.1 ≠ call.1) ∨
        HasReplacement (fi.store.mem f) (decodeInst call.1) := by
  have result := decode_result (run_sound before _ c (new_sound mem) ran) call.1 call.2
  obtain ⟨⟨_, inst, _⟩, hooked, same⟩ := Option.bind_eq_some_iff.mp fired
  cases same
  rw [(result.sound.mapped call.1 _ result.returned).2] at hooked
  rw [sameDecodes_writeInst_iff result.sound result.returned inst after]
  exact or_congr Iff.rfl (corrupt_same_iff (decodeFault_once hooked))

def operateFields (word : ExtMachInst) : StaticInst :=
  ⟨[(word >>> 21).setWidth 5 |>.setWidth 8, (word >>> 16).setWidth 5 |>.setWidth 8],
    [word.setWidth 5 |>.setWidth 8]⟩

def decodingSystem (register : Int) : FiSystem :=
  -- a started thread that has fetched one instruction, and a decoding fault waiting there that
  -- replaces the first destination register
  let record : FaultRecord :=
    ⟨.registerDecoding, .instruction, .immediate, 1, 0, "all", "all", 1, .dst, 0, register⟩
  let fi : FiSystem := { bootedMachine.fi with
    store := (load 9 record QueueHistory.clearMemory).getD QueueHistory.clearMemory }
  let fi := (fi.startFi (bootedMachine.contexts 0) 0).1
  (countBoth 0 (ThreadEnabledFault.increaseFetchedInstr "system.cpu") fi).getD fi

def decodeCall : HookCall := ⟨0x120000040, 0, 1000, 0⟩

def addq : ExtMachInst × DecodeCache.Addr := (0x40220403, 0x120000040)

def addq' : ExtMachInst × DecodeCache.Addr := (0x40220404, 0x120000044)

theorem other_word_keeps_registers :
    ∃ c', (decodeHooked operateFields 9 (bootedMachine.contexts 0) 0 decodeCall
        (BasicDecodeCache.new fun _ => ⟨0, ⟨[], []⟩⟩) addq (decodingSystem 7)).map
          (fun result => (result.1, result.2.2)) = some (c', [0]) ∧
      SameDecodes operateFields
        ((BasicDecodeCache.new fun _ => ⟨0, ⟨[], []⟩⟩).decode operateFields addq.1 addq.2).1 c'
        [addq'] := by
  refine ⟨_, rfl, ?_⟩
  apply (transient_decode_fault_iff operateFields (fun _ => ⟨0, ⟨[], []⟩⟩) [] [addq'] addq 9
    (bootedMachine.contexts 0) 0 decodeCall 0 (decodingSystem 7) _ _ _ rfl rfl).mpr
  left
  intro later member
  rw [List.mem_singleton.mp member]
  decide

/-- The same word decoded again writes r7 in place of r3. -/
theorem same_word_stays_corrupted :
    ∃ c', (decodeHooked operateFields 9 (bootedMachine.contexts 0) 0 decodeCall
        (BasicDecodeCache.new fun _ => ⟨0, ⟨[], []⟩⟩) addq (decodingSystem 7)).map
          (fun result => (result.1, result.2.2)) = some (c', [0]) ∧
      (registers operateFields c' addq).destRegIdx = [7] ∧
      (operateFields addq.1).destRegIdx = [3] ∧
      ¬ SameDecodes operateFields
        ((BasicDecodeCache.new fun _ => ⟨0, ⟨[], []⟩⟩).decode operateFields addq.1 addq.2).1 c'
        [addq] := by
  refine ⟨_, rfl, rfl, rfl, fun unaffected => ?_⟩
  have same := unaffected [] addq [] _ _ rfl rfl rfl
  exact absurd (congrArg StaticInst.destRegIdx same) (by decide)

end Leak

end GemFi.DecodeLeak
