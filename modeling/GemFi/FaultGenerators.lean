import GemFi.FaultRoundTrip
import GemFi.OpcodeFaults

/-!
The two programs that write the faults of a campaign: faults_generator.py, one
file with one fetch fault for each experiment, and util/create_exp/
final_create_exp.c, one file of faults for each stage. A draw is a value the random
generator can return. Both number the bit to flip in their own way, and FLIP in
a third one: bit number n flips position n - 1, zero flips nothing, and a number
beyond the value is ignored.
-/

namespace GemFi.FaultGenerators

open ThreadInfo FaultQueue Corruption FaultScan TokenStream FaultFile FaultRecords FaultRoundTrip
open QueueHistory FaultSpecs OperandBytes ByteLoops OpcodeFaults

section Generators

/-- What `rds_liuniform(&state, lo, hi)` returns. -/
abbrev Draw (lo hi : Int) := { n : Int // lo ≤ n ∧ n < hi }

/-- A value of type `long int`. -/
abbrev CLong := { n : Int // -2 ^ 63 ≤ n ∧ n < 2 ^ 63 }

/-- The line of `generate_fault`, with an instruction of
`random.sample(range(1, 336764), num_fault)` and a bit of `random.randint(0, 31)`. -/
def generateFault (inst : Draw 1 336764) (bit : Draw 0 32) : List Char :=
  "GeneralFetchInjectedFault Inst:".toList ++ decimal inst ++ " Flip:".toList ++ decimal bit ++
    " all all 1\n".toList

/-- fault_t of final_create_exp.c. -/
structure FaultT where
  faulttype : String
  cpu : String
  thread : String
  when_ : String
  what : String
  time : Int
  tcontext : Int
  occurence : Int
  reg : Int
  bit : Int
  regdec : String

/-- The assignment of `create_random_time` to one fault. -/
def createRandomTime (range : CLong) (time : Draw 0 range) (p : FaultT) : FaultT :=
  { p with time := time }

/-- The assignments of `fill_faults` to one fault. -/
def fillFault (name : String) (range : Int) (bit : Draw 0 range) (p : FaultT) : FaultT :=
  { p with
    faulttype := name
    cpu := "all"
    thread := "all"
    what := "Flip:"
    when_ := "Inst:"
    bit := bit + 1
    tcontext := 0
    occurence := 1 }

/-- What `print_faults` appends for the two classes with fields of their own. -/
def printExtra (p : FaultT) : List Char :=
  (if p.faulttype = "RegisterInjectedFault" then
    if 8 ≤ p.reg then " float ".toList ++ decimal (p.reg - 8) else " int ".toList ++ decimal p.reg
  else []) ++
  (if p.faulttype = "RegisterDecodingInjectedFault" then ' ' :: p.regdec.toList else [])

/-- The line `print_faults` writes for one fault. -/
def printFault (p : FaultT) : List Char :=
  p.faulttype.toList ++ ' ' :: p.when_.toList ++ decimal p.time ++ ' ' :: p.what.toList ++
    decimal (p.bit + 1) ++ ' ' :: p.cpu.toList ++ ' ' :: p.thread.toList ++
    ' ' :: decimal p.occurence ++ ' ' :: decimal p.tcontext ++ printExtra p ++ ['\n']

/-- The classes final_create_exp.c writes without further fields, with the range
main passes to `fill_faults`. -/
inductive Written where
  | generalFetch | iewStage | loadStore
  deriving DecidableEq, Repr

def Written.name : Written → String
  | .generalFetch => "GeneralFetchInjectedFault"
  | .iewStage => "IEWStageInjectedFault"
  | .loadStore => "LoadStoreInjectedFault"

def Written.bits : Written → Int
  | .generalFetch => 32
  | .iewStage | .loadStore => 64

/-- A line of final_create_exp.c, from whatever `malloc` returned. -/
def createExp (class_ : Written) (range : CLong) (time : Draw 0 range)
    (bit : Draw 0 class_.bits) (memory : FaultT) : List Char :=
  printFault (fillFault class_.name class_.bits bit (createRandomTime range time memory))

end Generators

section Lines

theorem solid_all : Solid "all".toList := by decide

def everywhere : Field := ⟨"all", solid_all⟩

def Written.target : Written → Target
  | .generalFetch => .generalFetch
  | .iewStage => .iewStage
  | .loadStore => .loadStore

theorem one_fits : (-2 ^ 31 : Int) ≤ 1 ∧ (1 : Int) < 2 ^ 31 := by decide

theorem zero_fits : (-2 ^ 31 : Int) ≤ 0 ∧ (0 : Int) < 2 ^ 31 := by decide

def flipLine (target : Target) (timing : Fin (2 ^ 63)) (number : Word) : FaultLine where
  target := target
  timingType := .instruction
  timing := timing
  what := .flip number
  thread := everywhere
  where_ := everywhere
  occurrence := ⟨1, one_fits⟩
  tcontext := ⟨0, zero_fits⟩

theorem decimal_natCast (n : Nat) : decimal (n : Int) = unsigned n := by
  have positive : ¬ (n : Int) < 0 := by omega
  rw [decimal, if_neg positive, Int.natAbs_natCast]

theorem decimal_of_nonneg {n : Int} (positive : 0 ≤ n) : decimal n = unsigned n.toNat := by
  obtain ⟨k, rfl⟩ := Int.eq_ofNat_of_zero_le positive
  rw [decimal_natCast]
  rfl

def Draw.timing {range : CLong} (time : Draw 0 range) : Fin (2 ^ 63) :=
  ⟨time.val.toNat, by have := time.property; have := range.property; omega⟩

def baseFields (line : FaultLine) : List (List Char) :=
  [line.when_, line.what.text, line.thread.val.toList, line.where_.val.toList,
    decimal line.occurrence]

theorem flipLine_fields {target : Target} {timing : Fin (2 ^ 63)} {number : Word} {t n : Int}
    (timed : decimal t = unsigned timing) (numbered : decimal n = unsigned number.toNat)
    (others : List (List Char)) (rest : List Char) :
    fieldText (baseFields (flipLine target timing number) ++ others) rest =
      " Inst:".toList ++ decimal t ++ " Flip:".toList ++ decimal n ++ " all all 1".toList ++
        fieldText others rest := by
  have one : decimal 1 = ['1'] := by decide
  rw [timed, numbered]
  simp [fieldText, baseFields, FaultLine.when_, flipLine, timingKey, What.text, What.key,
    everywhere, one]

theorem text_eq_fieldText (line : FaultLine) (none : line.target.fields = []) (rest : List Char) :
    line.text ++ rest = line.target.className.toList ++
      fieldText (baseFields line ++ [decimal line.tcontext]) rest := by
  simp [FaultLine.text, FaultLine.fields, baseFields, fieldText, none]

/-- What the program writes is a record in the format of the fault file, with the
bit number raised by two. -/
theorem createExp_eq (class_ : Written) (range : CLong) (time : Draw 0 range)
    (bit : Draw 0 class_.bits) (memory : FaultT) :
    createExp class_ range time bit memory =
      (flipLine class_.target (Draw.timing time) (BitVec.ofNat 64 (bit.val.toNat + 2))).text ++
        ['\n'] := by
  have plain : printExtra (fillFault class_.name class_.bits bit
      (createRandomTime range time memory)) = [] := by
    cases class_ <;> rfl
  have name : class_.target.className = class_.name := by cases class_ <;> rfl
  have none : class_.target.fields = [] := by cases class_ <;> rfl
  have timing : decimal time.val = unsigned (Draw.timing time).val :=
    decimal_of_nonneg time.property.1
  have number : decimal (bit.val + 1 + 1) =
      unsigned (BitVec.ofNat 64 (bit.val.toNat + 2)).toNat := by
    have range := bit.property
    have small : class_.bits ≤ 64 := by cases class_ <;> decide
    rw [decimal_of_nonneg (by omega), BitVec.toNat_ofNat]
    congr 1
    omega
  have one : decimal 1 = ['1'] := by decide
  have zero : decimal 0 = ['0'] := by decide
  rw [text_eq_fieldText _ none, flipLine_fields timing number, createExp, printFault, plain]
  change _ = class_.target.className.toList ++ _
  rw [name]
  simp [fillFault, createRandomTime, one, zero, fieldText, flipLine]

end Lines

section Firing

def parseLine (asserts : Bool) (left : Leftovers) (text : List Char) : Except Halt Fault :=
  ((do let _ ← readString ""; injectedFault asserts left : FileReader Fault)
    (InputStream.start text)).map Prod.fst

def fired (asserts : Bool) (left : Leftovers) (memory : InjectedFault) (text : List Char)
    (inst : MachInst) : Option MachInst :=
  match parseLine asserts left text with
  | .ok p => GeneralFetchInjectedFault.process ((p.record .generalFetch).construct memory) inst
  | .error _ => none

def changed (inst inst' : MachInst) : Finset (Fin 32) :=
  Finset.univ.filter fun i => inst'.getLsb i ≠ inst.getLsb i

variable {asserts : Bool} {left : Leftovers} {memory : InjectedFault} {rest : List Char}

theorem parseLine_fields (line : FaultLine) (others : List (List Char))
    (ends : Delimited isSpace rest) :
    parseLine asserts left (line.target.className.toList ++
        fieldText (baseFields line ++ others) rest) =
      .ok { line.parsed left.memory with tcontext := left.memory.tcontext } := by
  have named := readString_word "" (List.forall_mem_nil _) (className_solid line.target)
    (fieldText_delimited (baseFields line ++ others) ends)
  unfold parseLine
  refine (congrArg (Except.map Prod.fst) ((Reader.bind_of_ok named).trans
    (injectedFault_fields line others ends))).trans ?_
  rfl

theorem fired_flip (timing : Fin (2 ^ 63)) (number : Word) (others : List (List Char))
    (ends : Delimited isSpace rest) (inst : MachInst) :
    fired asserts left memory (Target.generalFetch.className.toList ++
        fieldText (baseFields (flipLine .generalFetch timing number) ++ others) rest) inst =
      manifestWord 4 inst number .flipBit := by
  have parsed : parseLine asserts left (Target.generalFetch.className.toList ++
      fieldText (baseFields (flipLine .generalFetch timing number) ++ others) rest) = _ :=
    parseLine_fields (flipLine .generalFetch timing number) others ends
  unfold fired
  rw [parsed]
  rfl

theorem fired_createExp (range : CLong) (time : Draw 0 range)
    (bit : Draw 0 Written.generalFetch.bits) (garbage : FaultT) (inst : MachInst) :
    fired asserts left memory (createExp .generalFetch range time bit garbage) inst =
      manifestWord 4 inst (BitVec.ofNat 64 (bit.val.toNat + 2)) .flipBit := by
  rw [createExp_eq, text_eq_fieldText _ rfl]
  exact fired_flip (Draw.timing time) _ _ newline_ends inst

theorem fired_generateFault (inst : Draw 1 336764) (bit : Draw 0 32) (word : MachInst) :
    fired asserts left memory (generateFault inst bit) word =
      manifestWord 4 word (BitVec.ofNat 64 bit.val.toNat) .flipBit := by
  obtain ⟨timing, same⟩ : ∃ timing : Fin (2 ^ 63), decimal inst.val = unsigned timing.val := by
    have range := inst.property
    exact ⟨⟨inst.val.toNat, by omega⟩, decimal_of_nonneg (by omega)⟩
  have number : decimal bit.val = unsigned (BitVec.ofNat 64 bit.val.toNat).toNat := by
    have range := bit.property
    rw [decimal_of_nonneg range.1, BitVec.toNat_ofNat]
    congr 1
    omega
  have layout : generateFault inst bit = Target.generalFetch.className.toList ++
      fieldText (baseFields (flipLine .generalFetch timing (BitVec.ofNat 64 bit.val.toNat)) ++ [])
        ['\n'] := by
    unfold generateFault
    rw [flipLine_fields same number]
    simp [fieldText, Target.className]
  rw [layout]
  exact fired_flip timing _ [] newline_ends word

end Firing

section Flips

theorem manifest_flip (inst : MachInst) (number : Nat) (small : number < 34) :
    manifestWord 4 inst (BitVec.ofNat 64 number) .flipBit =
      some (if number = 0 ∨ number = 33 then inst
        else inst ^^^ BitVec.twoPow 32 (number - 1)) := by
  have value : (BitVec.ofNat 64 number).toNat = number := Nat.mod_eq_of_lt (by omega)
  by_cases zero : number = 0
  · subst zero
    exact congrArg some (ofBytes_bytesOf 4 inst)
  · have nonzero : BitVec.ofNat 64 number ≠ 0 := by
      intro same
      have none' := congrArg BitVec.toNat same
      rw [value] at none'
      exact zero none'
    have flipped := @flip_eq 4 inst (BitVec.ofNat 64 number) (by decide) nonzero
    have quotient : quotientBits (BitVec.ofNat 64 number) = (number - 1) / 8 := by
      rw [quotientBits, value]
      omega
    rw [manifestWord, manifest, flipped, quotient, value]
    by_cases last : number = 33
    · rw [if_neg (by omega), if_pos (by omega), if_pos (Or.inr last)]
    · have place : 8 * ((number - 1) / 8) + (number - 1) % 8 = number - 1 := by omega
      rw [if_pos (by omega), if_neg (by omega), place]

theorem changed_self (inst : MachInst) : changed inst inst = ∅ := by
  simp [changed]

theorem changed_flip (inst : MachInst) (position : Fin 32) :
    changed inst (inst ^^^ BitVec.twoPow 32 position) = {position} := by
  ext i
  rw [changed, Finset.mem_filter, Finset.mem_singleton]
  change _ ∧ (inst ^^^ BitVec.twoPow 32 position).getLsbD i ≠ inst.getLsbD i ↔ _
  rw [BitVec.getLsbD_xor, BitVec.getLsbD_twoPow]
  by_cases here : i = position
  · simp [here]
  · have apart : position.val ≠ i.val := fun same => here (Fin.ext same.symm)
    simp [here, apart]

end Flips

section Outcomes

inductive Outcome where
  | generateFault (inst : Draw 1 336764) (bit : Draw 0 32)
  | createExp (range : CLong) (time : Draw 0 range) (bit : Draw 0 Written.generalFetch.bits)
      (memory : FaultT)

def Outcome.text : Outcome → List Char
  | .generateFault inst bit => FaultGenerators.generateFault inst bit
  | .createExp range time bit memory => FaultGenerators.createExp .generalFetch range time bit memory

/-- The number behind `Flip:`. -/
def Outcome.number : Outcome → Nat
  | .generateFault _ bit => bit.val.toNat
  | .createExp _ _ bit _ => bit.val.toNat + 2

def Outcome.Inside : Outcome → Prop
  -- the draw is not at the end of its range that FLIP does not know: the lower one in Python, the
  -- upper one in C
  | .generateFault _ bit => bit.val ≠ 0
  | .createExp _ _ bit _ => bit.val ≠ 31

/-- Whatever is read and struck, the line changes exactly this position. -/
def Flips (text : List Char) (position : Fin 32) : Prop :=
  ∀ (asserts : Bool) (left : Leftovers) (memory : InjectedFault) (inst : MachInst),
    ∃ inst', fired asserts left memory text inst = some inst' ∧ changed inst inst' = {position}

theorem number_lt (outcome : Outcome) : outcome.number < 34 := by
  cases outcome with
  | generateFault inst bit =>
      have range := bit.property
      simp only [Outcome.number]
      omega
  | createExp range time bit memory =>
      have range : 0 ≤ bit.val ∧ bit.val < 32 := bit.property
      simp only [Outcome.number]
      omega

theorem inside_iff (outcome : Outcome) :
    outcome.Inside ↔ ¬ (outcome.number = 0 ∨ outcome.number = 33) := by
  cases outcome with
  | generateFault inst bit =>
      have range := bit.property
      simp only [Outcome.Inside, Outcome.number]
      omega
  | createExp range time bit memory =>
      have range : 0 ≤ bit.val ∧ bit.val < 32 := bit.property
      simp only [Outcome.Inside, Outcome.number]
      omega

/-- What becomes of a word that an outcome is fired on. -/
theorem fired_outcome (outcome : Outcome) (asserts : Bool) (left : Leftovers)
    (memory : InjectedFault) (inst : MachInst) :
    fired asserts left memory outcome.text inst =
      some (if outcome.number = 0 ∨ outcome.number = 33 then inst
        else inst ^^^ BitVec.twoPow 32 (outcome.number - 1)) := by
  rw [← manifest_flip inst outcome.number (number_lt outcome)]
  cases outcome with
  | generateFault drawn bit => exact fired_generateFault drawn bit inst
  | createExp range time bit garbage => exact fired_createExp range time bit garbage inst

theorem flips_iff (outcome : Outcome) (position : Fin 32) :
    Flips outcome.text position ↔ outcome.number = position.val + 1 := by
  have below := number_lt outcome
  constructor
  · intro flips
    obtain ⟨inst', struck, changes⟩ := flips true zeroed (clearMemory.mem 0) 0
    rw [fired_outcome] at struck
    by_cases ends : outcome.number = 0 ∨ outcome.number = 33
    · rw [if_pos ends] at struck
      cases struck
      rw [changed_self] at changes
      exact absurd changes (Finset.singleton_ne_empty position).symm
    · rw [if_neg ends] at struck
      cases struck
      have only := changed_flip 0 ⟨outcome.number - 1, by omega⟩
      rw [changes, Finset.singleton_inj] at only
      have value := congrArg Fin.val only
      simp only at value
      omega
  · intro numbered asserts left memory inst
    refine ⟨_, fired_outcome outcome asserts left memory inst, ?_⟩
    rw [if_neg (by omega), numbered]
    exact changed_flip inst position

/-- A generated fault changes exactly one bit iff its draw is inside the range FLIP
knows; faults_generator.py never strikes position 31 and final_create_exp.c never
position 0. -/
theorem generated_faults_flip_iff (outcome : Outcome) (asserts : Bool) (left : Leftovers)
    (memory : InjectedFault) (inst : MachInst) (position : Fin 32) :
    (∃ inst', fired asserts left memory outcome.text inst = some inst' ∧
      ((changed inst inst').card = 1 ↔ outcome.Inside)) ∧
    ((∃ inst bit, Flips (Outcome.generateFault inst bit).text position) ↔ position ≠ 31) ∧
    ((∃ range time bit memory, Flips (Outcome.createExp range time bit memory).text position) ↔
      position ≠ 0) := by
  have small := position.isLt
  refine ⟨?_, ?_, ?_⟩
  · refine ⟨_, fired_outcome outcome asserts left memory inst, ?_⟩
    rw [inside_iff]
    have below := number_lt outcome
    by_cases ends : outcome.number = 0 ∨ outcome.number = 33
    · simp [ends, changed_self]
    · have only := changed_flip inst ⟨outcome.number - 1, by omega⟩
      simp only at only
      rw [if_neg ends, only]
      simp [ends]
  · constructor
    · rintro ⟨inst, bit, flips⟩ rfl
      have numbered := (flips_iff _ _).mp flips
      have range := bit.property
      have same : bit.val.toNat = 32 := numbered
      omega
    · intro inside
      have less : position.val ≠ 31 := fun same => inside (Fin.ext same)
      refine ⟨⟨1, by decide⟩, ⟨(position.val + 1 : Nat), by omega⟩, ?_⟩
      exact (flips_iff _ _).mpr rfl
  · constructor
    · rintro ⟨range, time, bit, memory, flips⟩ rfl
      have numbered := (flips_iff _ _).mp flips
      have same : bit.val.toNat + 2 = 1 := numbered
      omega
    · intro inside
      have less : position.val ≠ 0 := fun same => inside (Fin.ext same)
      refine ⟨⟨1, by decide⟩, ⟨0, by decide⟩, ⟨(position.val - 1 : Nat), ?_⟩,
        ⟨"", "", "", "", "", 0, 0, 0, 0, 0, ""⟩, ?_⟩
      · change 0 ≤ ((position.val - 1 : Nat) : Int) ∧ ((position.val - 1 : Nat) : Int) < 32
        omega
      · refine (flips_iff _ _).mpr ?_
        change (position.val - 1) + 2 = position.val + 1
        omega

/-- The draws at the two ends: the instruction word is left as it was. -/
theorem end_draws_flip_nothing :
    fired true zeroed (clearMemory.mem 0)
      (Outcome.generateFault ⟨1, by decide⟩ ⟨0, by decide⟩).text 0x47FF041F = some 0x47FF041F ∧
    fired true zeroed (clearMemory.mem 0)
      (Outcome.createExp ⟨1, by decide⟩ ⟨0, by decide⟩ ⟨31, by decide⟩
        ⟨"", "", "", "", "", 0, 0, 0, 0, 0, ""⟩).text 0x47FF041F = some 0x47FF041F :=
  ⟨fired_outcome _ _ _ _ _, fired_outcome _ _ _ _ _⟩

end Outcomes

end GemFi.FaultGenerators
