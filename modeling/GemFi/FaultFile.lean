import GemFi.Activation
import GemFi.TokenStream

/-!
How `Fi_System::getFromFile` reads the fault file: the loop over the stream, the
constructors of the fault classes and the fields each of them extracts. The
boundary between two records is only where the constructor of the first stops
reading. A formatted extraction that fails leaves its target as it was: the
strings of a constructor empty, its integers without a value.
-/

namespace GemFi.FaultFile

open ThreadInfo FaultQueue FaultScan TokenStream

/-- How a run of getFromFile stops early. `outOfRounds` is the bound on its loop
below, which no file reaches. -/
inductive Halt where
  | assertion | outOfRange | outOfRounds
  deriving DecidableEq, Repr

abbrev FileReader := Reader Char Halt

/-- `os >> s` for a string. -/
def readString (old : String) : FileReader String := fun os =>
  let extracted := os.extract isSpace (word isSpace)
  .ok ((extracted.1.map String.ofList).getD old, extracted.2)

def splitDigits (input : List Char) : List Char × List Char :=
  (input.takeWhile Char.isDigit, input.dropWhile Char.isDigit)

def numeral : Splitter Char where
  -- the characters of a number: a sign and the digits behind it
  split
    | '-' :: rest => ('-' :: (splitDigits rest).1, (splitDigits rest).2)
    | '+' :: rest => ('+' :: (splitDigits rest).1, (splitDigits rest).2)
    | input => splitDigits input
  joined input := by
    split <;> simp [splitDigits]

def clampInt (long : Int) : Int := max (-2 ^ 31) (min long (2 ^ 31 - 1))

/-- `os >> n` for an `int`: no digits give zero, a number out of range its
nearest value, and both fail. -/
def readInt (old : Int) : FileReader Int := fun os =>
  match os.extract isSpace numeral with
  | (none, os) => .ok (old, os)
  | (some digits, os) =>
      let long := strtol (String.ofList digits)
      .ok (clampInt long, os.failIf (!digits.any Char.isDigit || clampInt long != long))

def strtoll (s : String) : Word := BitVec.ofInt 64 (strtol s)

def saturate (magnitude : Nat) (value : Word) : Word :=
  if magnitude < 2 ^ 64 then value else BitVec.allOnes 64

def strtoul (s : String) : Word :=
  match s.toList.dropWhile isSpace with
  | '-' :: rest => saturate (readDigits rest 0) (-BitVec.ofNat 64 (readDigits rest 0))
  | '+' :: rest => saturate (readDigits rest 0) (BitVec.ofNat 64 (readDigits rest 0))
  | rest => saturate (readDigits rest 0) (BitVec.ofNat 64 (readDigits rest 0))

/-- `s.substr(pos)`. -/
def substr (s : String) (pos : Nat) : Except Halt String :=
  if pos ≤ s.toList.length then .ok (String.ofList (s.toList.drop pos)) else .error .outOfRange

/-- `s.compare(0, n, key, 0, n) == 0` for the length `n` of `key`. -/
def hasKey (s key : String) : Bool := s.toList.take key.toList.length == key.toList

/-- `assert(0)`. The program goes on when it is built with NDEBUG. -/
def assertFalse (asserts : Bool) : Except Halt Unit :=
  if asserts then .error .assertion else .ok ()

/-- RegisterType of fi/reg_injfault.hh. -/
inductive RegisterType where
  | integer | float | misc
  deriving DecidableEq, Repr

structure Fault where
  when_ : String
  what : String
  thread : String
  where_ : String
  timingType : TimingType
  timing : Word
  valueType : ValueType
  value : Word
  occurrence : Int
  tcontext : Int
  regType : RegisterType
  register : Int
  srcOrDst : RegisterSide
  regToChange : Int
  changeToReg : Int

structure Leftovers where
  -- what an object and the integers of its constructors hold before they are set
  memory : Fault
  occ : Int
  t : Int
  k : Int

def setTiming (type : TimingType) (s : String) (p : Fault) : Except Halt Fault := do
  let digits ← substr s 5
  return { p with timingType := type, timing := strtoll digits }

def parseWhen (asserts : Bool) (s : String) (p : Fault) : Except Halt Fault :=
  if hasKey s "Inst" then setTiming .instruction s p
  else if hasKey s "Tick" then setTiming .tick s p
  else if hasKey s "Addr" then setTiming .virtualAddr s p
  else do
    assertFalse asserts
    return p

def setValue (type : ValueType) (s : String) (p : Fault) : Except Halt Fault := do
  let digits ← substr s 5
  return { p with valueType := type, value := strtoul digits }

def parseWhat (asserts : Bool) (s : String) (p : Fault) : Except Halt Fault :=
  if hasKey s "Immd" then setValue .immediate s p
  else if hasKey s "Mask" then setValue .mask s p
  else if hasKey s "Flip" then setValue .flipBit s p
  else if hasKey s "All0" then return { p with valueType := .all, value := 0 }
  else if hasKey s "All1" then return { p with valueType := .all, value := 1 }
  else do
    assertFalse asserts
    return p

def setRegType (asserts : Bool) (v : String) (p : Fault) : Except Halt Fault :=
  if v = "int" then return { p with regType := .integer }
  else if v = "float" then return { p with regType := .float }
  else if v = "misc" then return { p with regType := .misc }
  else do
    assertFalse asserts
    return p

/-- The two numbers of a decoding fault. The register to change is looked for one
character behind `Src` or `Dst`. -/
def setRegisters (side : RegisterSide) (s : String) (p : Fault) : Except Halt Fault := do
  let s2 ← substr s 4
  let regToChange := s2.toList.takeWhile (· != ':')
  -- without a colon `pos + 1` is zero again, and both are the same number
  let changeToReg :=
    if ':' ∈ s2.toList then s2.toList.drop (regToChange.length + 1) else s2.toList
  return { p with
    srcOrDst := side
    regToChange := atoi (String.ofList regToChange)
    changeToReg := atoi (String.ofList changeToReg) }

def parseRegDec (asserts : Bool) (s : String) (p : Fault) : Except Halt Fault :=
  if hasKey s "Src" then setRegisters .src s p
  else if hasKey s "Dst" then setRegisters .dst s p
  else do
    assertFalse asserts
    return p

section Constructors

variable (asserts : Bool) (left : Leftovers)

def injectedFault : FileReader Fault := do
  let when_ ← readString ""
  let what ← readString ""
  let thread ← readString ""
  let where_ ← readString ""
  let occ ← readInt left.occ
  let p : Fault := { left.memory with
    thread := thread, when_ := when_, where_ := where_, what := what }
  let p ← liftM (parseWhat asserts what p)
  let p ← liftM (parseWhen asserts when_ p)
  return { p with occurrence := occ }

def withTContext : FileReader Fault := do
  let p ← injectedFault asserts left
  let t ← readInt left.t
  return { p with tcontext := t }

def cpuInjectedFault : FileReader Fault := withTContext asserts left

def o3CpuInjectedFault : FileReader Fault := withTContext asserts left

structure Creation where
  -- a new object, the type its constructor gives it and the queue it is inserted into. The three
  -- base classes have neither.
  fault : Fault
  faultType : Option FaultType
  queue : Option StageQueue

def base (p : FileReader Fault) : FileReader Creation := do
  return ⟨← p, none, none⟩

def queued (type : FaultType) (queue : StageQueue) (p : FileReader Fault) :
    FileReader Creation := do
  return ⟨← p, some type, some queue⟩

def generalFetchInjectedFault : FileReader Creation :=
  queued .generalFetch .fetchStage (o3CpuInjectedFault asserts left)

def iewStageInjectedFault : FileReader Creation :=
  queued .execution .iewStage (o3CpuInjectedFault asserts left)

def loadStoreInjectedFault : FileReader Creation :=
  queued .loadStore .loadStore (o3CpuInjectedFault asserts left)

def opCodeInjectedFault : FileReader Creation :=
  queued .opCode .fetchStage (o3CpuInjectedFault asserts left)

def pcInjectedFault : FileReader Creation :=
  queued .pc .main (cpuInjectedFault asserts left)

def registerInjectedFault : FileReader Creation := do
  let p ← cpuInjectedFault asserts left
  let v ← readString ""
  let p ← liftM (setRegType asserts v p)
  let k ← readInt left.k
  return ⟨{ p with register := k }, some .register, some .main⟩

def registerDecodingInjectedFault : FileReader Creation := do
  let p ← o3CpuInjectedFault asserts left
  let s ← readString ""
  let p ← liftM (parseRegDec asserts s p)
  return ⟨p, some .registerDecoding, some .decodeStage⟩

def newFault : String → FileReader (Option Creation)
  -- the comparisons of getFromFile; a name it does not know is only reported
  | "CPUInjectedFault" => some <$> base (cpuInjectedFault asserts left)
  | "InjectedFault" => some <$> base (injectedFault asserts left)
  | "GeneralFetchInjectedFault" => some <$> generalFetchInjectedFault asserts left
  | "IEWStageInjectedFault" => some <$> iewStageInjectedFault asserts left
  | "O3CPUInjectedFault" => some <$> base (o3CpuInjectedFault asserts left)
  | "OpCodeInjectedFault" => some <$> opCodeInjectedFault asserts left
  | "PCInjectedFault" => some <$> pcInjectedFault asserts left
  | "RegisterInjectedFault" => some <$> registerInjectedFault asserts left
  | "RegisterDecodingInjectedFault" => some <$> registerDecodingInjectedFault asserts left
  | "LoadStoreInjectedFault" => some <$> loadStoreInjectedFault asserts left
  | _ => pure none

end Constructors

/-- The loop of getFromFile. `check` keeps its value from the round before when
nothing is extracted. -/
def readFaults (asserts : Bool) (left : Nat → Leftovers) : Nat → String → FileReader (List Creation)
  | 0, _ => fun _ => .error .outOfRounds
  | rounds + 1, check => do
      let os ← get
      if os.good then
        let check ← readString check
        let created ← newFault asserts (left rounds) check
        let others ← readFaults asserts left rounds check
        return created.toList ++ others
      else return []

/-- `Fi_System::getFromFile` on a file just opened: the objects it creates, in
order. -/
def getFromFile (asserts : Bool) (left : Nat → Leftovers) (text : List Char) :
    Except Halt (List Creation) :=
  (readFaults asserts left (text.length + 2) "" (InputStream.start text)).map Prod.fst

section Storing

def Fault.record (p : Fault) (type : FaultType) : FaultRecord where
  faultType := type
  timingType := p.timingType
  valueType := p.valueType
  timing := p.timing
  value := p.value
  where_ := p.where_
  thread := p.thread
  occurrence := p.occurrence
  srcOrDst := p.srcOrDst
  regToChange := p.regToChange
  changeToReg := p.changeToReg

def Creation.store (fuel : Nat) (c : Creation) (s : FaultStore) : Option FaultStore :=
  -- what a constructor leaves on the heap. The type of a base class is never set.
  let s' := allocate (c.fault.record (c.faultType.getD (s.mem s.fresh).faultType)) s
  match c.queue with
  | some q => s'.insert fuel q s.fresh
  | none => some s'

def storeAll (fuel : Nat) (created : List Creation) (s : FaultStore) : Option FaultStore :=
  created.foldlM (fun s c => c.store fuel s) s

/-- The effect of getFromFile on the queues; `none` when the program stops. -/
def loadFile (asserts : Bool) (left : Nat → Leftovers) (fuel : Nat) (text : List Char)
    (s : FaultStore) : Option FaultStore :=
  match getFromFile asserts left text with
  | .ok created => storeAll fuel created s
  | .error _ => none

def Creation.record? (c : Creation) : Option FaultRecord := c.faultType.map c.fault.record

/-- Reading a file is reading the records of `Activation.getFromFile`, as long as
every object of it went to the queue of its type. -/
theorem storeAll_eq {fuel : Nat} {created : List Creation} {records : List FaultRecord}
    (typed : List.Forall₂ (fun c record => c.record? = some record ∧
      c.queue = some (stageOf record.faultType)) created records) (s : FaultStore) :
    storeAll fuel created s = Activation.getFromFile fuel records s := by
  induction typed generalizing s with
  | nil => rfl
  | @cons c record created records head tail ih =>
      obtain ⟨recorded, queue⟩ := head
      obtain ⟨type, typed, rfl⟩ := Option.map_eq_some_iff.mp recorded
      have stored : c.store fuel s = load fuel (c.fault.record type) s := by
        simp only [Creation.store, queue, typed, Option.getD_some]
        rfl
      simp only [storeAll, List.foldlM_cons, stored, Activation.getFromFile]
      cases load fuel (c.fault.record type) s with
      | none => rfl
      | some s' => exact ih s'

end Storing

section Rounds

/-- The errors of the program itself. -/
def Genuine (e : Halt) : Prop := e ≠ .outOfRounds

theorem readString_within (old : String) : Reader.Within Genuine (readString old) where
  weight_le os v os' returned := by
    cases returned
    exact extract_weight_le
  error os e halted := by cases halted

theorem readInt_within (old : Int) : Reader.Within Genuine (readInt old) where
  weight_le os v os' returned := by
    have bound : (os.extract isSpace numeral).2.weight ≤ os.weight := extract_weight_le
    unfold readInt at returned
    split at returned
    · rename_i after extracted
      cases returned
      rwa [extracted] at bound
    · rename_i digits after extracted
      cases returned
      rw [extracted] at bound
      exact (InputStream.weight_failIf_le _ after).trans bound
  error os e halted := by
    unfold readInt at halted
    split at halted <;> cases halted

def Halts {β : Type} (x : Except Halt β) : Prop := ∀ e, x = .error e → Genuine e

theorem halts_ok {β : Type} (b : β) : Halts (Except.ok b) := by
  intro e halted
  cases halted

theorem halts_bind {β γ : Type} {x : Except Halt β} {f : β → Except Halt γ} (first : Halts x)
    (second : ∀ b, Halts (f b)) : Halts (x >>= f) := by
  intro e halted
  cases x with
  | error e' =>
      cases halted
      exact first e rfl
  | ok b => exact second b e halted

theorem assertFalse_halts (asserts : Bool) : Halts (assertFalse asserts) := by
  intro e halted
  cases asserts <;> cases halted
  simp [Genuine]

theorem substr_halts (s : String) (pos : Nat) : Halts (substr s pos) := by
  intro e halted
  unfold substr at halted
  split at halted <;> cases halted
  simp [Genuine]

theorem setTiming_halts (type : TimingType) (s : String) (p : Fault) :
    Halts (setTiming type s p) :=
  halts_bind (substr_halts s 5) fun _ => halts_ok _

theorem setValue_halts (type : ValueType) (s : String) (p : Fault) : Halts (setValue type s p) :=
  halts_bind (substr_halts s 5) fun _ => halts_ok _

theorem setRegisters_halts (side : RegisterSide) (s : String) (p : Fault) :
    Halts (setRegisters side s p) :=
  halts_bind (substr_halts s 4) fun _ => halts_ok _

variable (asserts : Bool) (s : String) (p : Fault)

theorem unsupported_halts : Halts (do assertFalse asserts; return p : Except Halt Fault) :=
  halts_bind (assertFalse_halts asserts) fun _ => halts_ok _

theorem parseWhen_halts : Halts (parseWhen asserts s p) := by
  unfold parseWhen
  split_ifs
  · exact setTiming_halts _ _ _
  · exact setTiming_halts _ _ _
  · exact setTiming_halts _ _ _
  · exact unsupported_halts asserts p

theorem parseWhat_halts : Halts (parseWhat asserts s p) := by
  unfold parseWhat
  split_ifs
  · exact setValue_halts _ _ _
  · exact setValue_halts _ _ _
  · exact setValue_halts _ _ _
  · exact halts_ok _
  · exact halts_ok _
  · exact unsupported_halts asserts p

theorem setRegType_halts : Halts (setRegType asserts s p) := by
  unfold setRegType
  split_ifs
  · exact halts_ok _
  · exact halts_ok _
  · exact halts_ok _
  · exact unsupported_halts asserts p

theorem parseRegDec_halts : Halts (parseRegDec asserts s p) := by
  unfold parseRegDec
  split_ifs
  · exact setRegisters_halts _ _ _
  · exact setRegisters_halts _ _ _
  · exact unsupported_halts asserts p

variable (left : Leftovers)

theorem injectedFault_within : Reader.Within Genuine (injectedFault asserts left) :=
  (readString_within "").bind fun _ => (readString_within "").bind fun _ =>
    (readString_within "").bind fun _ => (readString_within "").bind fun _ =>
      (readInt_within left.occ).bind fun _ =>
        (Reader.Within.lift (parseWhat_halts asserts _ _)).bind fun _ =>
          (Reader.Within.lift (parseWhen_halts asserts _ _)).bind fun _ => .pure _

theorem withTContext_within : Reader.Within Genuine (withTContext asserts left) :=
  (injectedFault_within asserts left).bind fun _ => (readInt_within left.t).bind fun _ => .pure _

theorem registerInjectedFault_within :
    Reader.Within Genuine (registerInjectedFault asserts left) :=
  (withTContext_within asserts left).bind fun _ => (readString_within "").bind fun _ =>
    (Reader.Within.lift (setRegType_halts asserts _ _)).bind fun _ =>
      (readInt_within left.k).bind fun _ => .pure _

theorem registerDecodingInjectedFault_within :
    Reader.Within Genuine (registerDecodingInjectedFault asserts left) :=
  (withTContext_within asserts left).bind fun _ => (readString_within "").bind fun _ =>
    (Reader.Within.lift (parseRegDec_halts asserts _ _)).bind fun _ => .pure _

theorem base_within {m : FileReader Fault} (within : Reader.Within Genuine m) :
    Reader.Within Genuine (base m) :=
  within.bind fun _ => .pure _

theorem queued_within {m : FileReader Fault} (type : FaultType) (queue : StageQueue)
    (within : Reader.Within Genuine m) : Reader.Within Genuine (queued type queue m) :=
  within.bind fun _ => .pure _

theorem newFault_within (check : String) : Reader.Within Genuine (newFault asserts left check) := by
  have context := withTContext_within asserts left
  unfold newFault
  split
  · exact (base_within context).map
  · exact (base_within (injectedFault_within asserts left)).map
  · exact (queued_within _ _ context).map
  · exact (queued_within _ _ context).map
  · exact (base_within context).map
  · exact (queued_within _ _ context).map
  · exact (queued_within _ _ context).map
  · exact (registerInjectedFault_within asserts left).map
  · exact (registerDecodingInjectedFault_within asserts left).map
  · exact (queued_within _ _ context).map
  · exact .pure _

theorem readString_weight_lt {old v : String} {os os' : InputStream Char} (good : os.good = true)
    (returned : readString old os = .ok (v, os')) : os'.weight < os.weight := by
  cases returned
  exact extract_word_weight_lt good

def readRound (asserts : Bool) (left : Nat → Leftovers) (rounds : Nat) (check : String) :
    FileReader (List Creation) := do
  let check ← readString check
  let created ← newFault asserts (left rounds) check
  let others ← readFaults asserts left rounds check
  return created.toList ++ others

variable {rounds : Nat} {check : String} {os : InputStream Char} {stack : Nat → Leftovers}

theorem readFaults_bad (bad : os.good = false) :
    readFaults asserts stack (rounds + 1) check os = .ok ([], os) := by
  change (if os.good then readRound asserts stack rounds check else pure []) os = _
  rw [bad]
  rfl

theorem readFaults_good (good : os.good = true) :
    readFaults asserts stack (rounds + 1) check os = readRound asserts stack rounds check os := by
  change (if os.good then readRound asserts stack rounds check else pure []) os = _
  rw [good]
  rfl

/-- The loop ends before its rounds do: every round but the last takes a word off
the file. -/
theorem readFaults_halts (rounds : Nat) (check : String) (os : InputStream Char)
    (enough : os.weight ≤ rounds) : Halts (readFaults asserts stack rounds check os) := by
  induction rounds generalizing check os with
  | zero =>
      have positive := os.weight_pos
      omega
  | succ rounds ih =>
      intro e halted
      cases good : os.good with
      | false =>
          rw [readFaults_bad asserts good] at halted
          cases halted
      | true =>
          rw [readFaults_good asserts good] at halted
          rcases Reader.bind_error halted with one | ⟨word, named, extracted, halted⟩
          · exact (readString_within check).error os e one
          rcases Reader.bind_error halted with one | ⟨created, built, constructed, halted⟩
          · exact (newFault_within asserts (stack rounds) word).error named e one
          rcases Reader.bind_error halted with one | ⟨others, last, _, halted⟩
          -- the name took something off the stream or broke it, and no constructor adds to it
          · have shorter := readString_weight_lt good extracted
            have kept := (newFault_within asserts (stack rounds) word).weight_le _ _ _ constructed
            exact ih word built (by omega) e one
          · cases halted

theorem getFromFile_ends (text : List Char) :
    getFromFile asserts stack text ≠ .error .outOfRounds := by
  intro halted
  have ended : Halts (readFaults asserts stack (text.length + 2) "" (InputStream.start text)) :=
    readFaults_halts asserts _ _ _ (Nat.le_refl _)
  unfold getFromFile at halted
  cases read : readFaults asserts stack (text.length + 2) "" (InputStream.start text) with
  | error e =>
      rw [read] at halted
      cases halted
      exact ended _ read rfl
  | ok result =>
      rw [read] at halted
      cases halted

end Rounds

end GemFi.FaultFile
