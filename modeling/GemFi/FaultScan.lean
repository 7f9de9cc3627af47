import GemFi.Corruption

/-!
What a fault queue does with the counters: `scan` looks for a fault whose
trigger is reached, and the processing of the fault found ends in
`check4reschedule`, which takes it out of its queue or moves its timing. A
scan reads the counters of the running thread and those of `allthreads`, and
each action of a run brings its own, so that a run covers every way the
counters may have moved in between.
-/

namespace GemFi.FaultScan

open LinkedLists ThreadInfo FaultQueue Corruption

/-- `isspace` of the C locale. -/
def isSpace (c : Char) : Bool := c == ' ' || (9 ≤ c.toNat && c.toNat ≤ 13)

def readDigits : List Char → Nat → Nat
  | [], value => value
  | c :: rest, value =>
      if c.isDigit then readDigits rest (10 * value + (c.toNat - '0'.toNat)) else value

/-- `strtol` in base ten, saturating. -/
def strtol (s : String) : Int :=
  let value : Int := match s.toList.dropWhile isSpace with
    | '-' :: rest => -(readDigits rest 0 : Int)
    | '+' :: rest => readDigits rest 0
    | rest => readDigits rest 0
  max (-2 ^ 63) (min value (2 ^ 63 - 1))

/-- `atoi`, the lower half of `strtol` as an `int`. -/
def atoi (s : String) : Int := (BitVec.ofInt 32 (strtol s)).toInt

/-- What the caller of a hook hands to `scan`. -/
structure ScanContext where
  allthreads : ThreadEnabledFault
  thread : ThreadEnabledFault
  curCpu : String
  vaddr : Addr

/-- The four scopes of the `get_fi` functions. A fault outside all of them
reads two zeros. -/
def scopeCounters (calculate : String → ThreadEnabledFault → Word × Word) (c : ScanContext)
    (p : InjectedFault) : Word × Word :=
  if p.where_ = c.curCpu ∧ p.thread ≠ "all" ∧ c.thread.threadId = atoi p.thread then
    calculate c.curCpu c.thread
  else if p.where_ = "all" ∧ p.thread ≠ "all" ∧ c.thread.threadId = atoi p.thread then
    calculate "all" c.thread
  else if p.where_ = c.curCpu ∧ p.thread = "all" then calculate c.curCpu c.allthreads
  else if p.thread = "all" ∧ p.where_ = "all" then calculate "all" c.allthreads
  else (0, 0)

/-- The common body of the three functions: instruction count and time, and
`none` for the result 0, with which `scan` passes the fault over. -/
def getFiCounters (calculate : String → ThreadEnabledFault → Word × Word)
    (known : FaultType → Bool) (c : ScanContext) (p : InjectedFault) : Option (Word × Word) :=
  let counters := scopeCounters calculate c p
  if counters.2 ||| counters.1 ≠ 0 then
    if known p.faultType then some counters else none
  else none

def getFiFetchCounters : ScanContext → InjectedFault → Option (Word × Word) :=
  getFiCounters ThreadEnabledFault.calculateFetchedTime (· != .loadStore)

def getFiExecCounters : ScanContext → InjectedFault → Option (Word × Word) :=
  getFiCounters ThreadEnabledFault.calculateExecutedTime (· != .loadStore)

def getFiLoadstoreCounters : ScanContext → InjectedFault → Option (Word × Word) :=
  getFiCounters ThreadEnabledFault.calculateLoadStoreTime (fun _ => true)

/-- The choice `scan` makes by the name of the queue. -/
def countersFor : StageQueue → ScanContext → InjectedFault → Option (Word × Word)
  | .iewStage => getFiExecCounters
  | .loadStore => getFiLoadstoreCounters
  | .main | .fetchStage | .decodeStage => getFiFetchCounters

/-- What one turn of the loop of `scan` decides about a fault: it is serviced at
a time, the loop ends without a fault, or the loop moves on. -/
inductive Verdict where
  | due (servicedAt : Word)
  | stop
  | pass
  deriving DecidableEq, Repr

def compareCounter (counter timing : Word) : Verdict :=
  if counter = timing then .due counter else if counter > timing then .stop else .pass

def verdict (q : StageQueue) (c : ScanContext) (p : InjectedFault) : Verdict :=
  if p.manifested then .pass
  else match countersFor q c p with
    | none => .pass
    | some (instr, time) =>
        match p.timingType with
        | .tick => compareCounter time p.timing
        | .instruction => compareCounter instr p.timing
        | .virtualAddr =>
            if c.vaddr = p.timing + c.thread.magicInstVirtualAddr then .due c.vaddr else .pass

def serviced (s : FaultStore) (p : FaultPtr) (servicedAt : Word) : FaultStore :=
  s.write p fun fault => { fault with servicedAt := servicedAt }

/-- `InjectedFaultQueue::scan`: the walk ends at the first fault it does not
pass. -/
def scan (fuel : Nat) (q : StageQueue) (c : ScanContext) (s : FaultStore) :
    Option (FaultStore × Option FaultPtr) := do
  match ← walk s.nxt (fun p => decide (verdict q c (s.mem p) ≠ .pass)) fuel (s.head q) with
  | none => some (s, none)
  | some p =>
      match verdict q c (s.mem p) with
      | .due servicedAt => some (serviced s p servicedAt, some p)
      | _ => some (s, none)  -- the counter is past this fault: the faults behind it are not read

/-- The timing that `check4reschedule` computes and `increaseTiming` selects.
`clockEdge` is `getCPU()->clockEdge(Cycles(1))`; the next instruction count
goes through an `int`. -/
def nextTiming (clockEdge : Word) (p : InjectedFault) : Word :=
  match p.timingType with
  | .tick => p.timing + clockEdge
  | .instruction => ((p.timing + 1).setWidth 32).signExtend 64
  | .virtualAddr => p.timing

def rescheduled (clockEdge : Word) (p : InjectedFault) : InjectedFault :=
  { p with
    timing := nextTiming clockEdge p
    occurrence := (p.occurrence - 1).bmod (2 ^ 32)
    manifested := false }

/-- `check4reschedule`, the same text in CPUInjectedFault and
O3CPUInjectedFault. -/
def check4reschedule (fuel : Nat) (clockEdge : Word) (f : FaultPtr) (s : FaultStore) :
    Option FaultStore :=
  if (s.mem f).occurrence = 1 then do
    -- the last occurrence; a permanent fault starts at zero and counts on below it
    let q ← s.owner f
    s.remove fuel q f
  else some (s.write f (rescheduled clockEdge))

/-- The body of the loop in each hook: the class's `process` on the fault that
`scan` returned. -/
def fire (fuel : Nat) (q : StageQueue) (clockEdge : Word) (f : FaultPtr) (value : StageValue q)
    (s : FaultStore) : Option (FaultStore × StageValue q) := do
  let (p, value) ← process q (s.mem f) value
  let s ← check4reschedule fuel clockEdge f (s.write f fun _ => p)
  some (s, value)

def stageOf : FaultType → StageQueue
  | .register | .memory | .pc => .main
  | .generalFetch | .opCode => .fetchStage
  | .registerDecoding => .decodeStage
  | .execution => .iewStage
  | .loadStore => .loadStore

structure FaultRecord where
  faultType : FaultType
  timingType : TimingType
  valueType : ValueType
  timing : Word
  value : Word
  where_ : String
  thread : String
  occurrence : Int
  srcOrDst : RegisterSide
  regToChange : Int
  changeToReg : Int

/-- The constructor of a fault read from a file, at the address that `new`
returned. Its links keep what memory held. -/
def FaultRecord.construct (record : FaultRecord) (memory : InjectedFault) : InjectedFault :=
  { memory with
    faultType := record.faultType
    timingType := record.timingType
    valueType := record.valueType
    timing := record.timing
    value := record.value
    where_ := record.where_
    thread := record.thread
    occurrence := record.occurrence
    manifested := false
    srcOrDst := record.srcOrDst
    regToChange := record.regToChange
    changeToReg := record.changeToReg }

def allocate (record : FaultRecord) (s : FaultStore) : FaultStore :=
  { s.write s.fresh record.construct with fresh := s.fresh + 1 }

def load (fuel : Nat) (record : FaultRecord) (s : FaultStore) : Option FaultStore :=
  (allocate record s).insert fuel (stageOf record.faultType) s.fresh

section Verdicts

def calculateFor : StageQueue → String → ThreadEnabledFault → Word × Word
  | .iewStage => ThreadEnabledFault.calculateExecutedTime
  | .loadStore => ThreadEnabledFault.calculateLoadStoreTime
  | .main | .fetchStage | .decodeStage => ThreadEnabledFault.calculateFetchedTime

def readings (q : StageQueue) (c : ScanContext) (p : InjectedFault) : Word × Word :=
  -- instruction count and ticks of the scope of a fault
  scopeCounters (calculateFor q) c p

def InScope (c : ScanContext) (p : InjectedFault) : Prop :=
  (p.where_ = c.curCpu ∨ p.where_ = "all") ∧
    (p.thread = "all" ∨ c.thread.threadId = atoi p.thread)

def Triggered (q : StageQueue) (c : ScanContext) (p : InjectedFault) : Prop :=
  match p.timingType with
  | .tick => (readings q c p).2 = p.timing
  | .instruction => (readings q c p).1 = p.timing
  | .virtualAddr => c.vaddr = p.timing + c.thread.magicInstVirtualAddr

def Due (q : StageQueue) (c : ScanContext) (p : InjectedFault) : Prop :=
  p.manifested = false ∧ InScope c p ∧ Triggered q c p

def Counting (q : StageQueue) (c : ScanContext) (p : InjectedFault) : Prop :=
  (readings q c p).2 ||| (readings q c p).1 ≠ 0

def Expired (q : StageQueue) (c : ScanContext) (p : InjectedFault) : Prop :=
  p.manifested = false ∧
    match p.timingType with
    | .tick => (readings q c p).2 > p.timing
    | .instruction => (readings q c p).1 > p.timing
    | .virtualAddr => False

variable {q : StageQueue} {c : ScanContext} {p : InjectedFault}

theorem inScope_of_counting (counting : Counting q c p) : InScope c p := by
  by_contra outside
  apply counting
  have zeros : readings q c p = (0, 0) := by
    unfold readings scopeCounters
    unfold InScope at outside
    grind
  simp [zeros]

theorem countersFor_eq (typed : stageOf p.faultType = q) :
    countersFor q c p = getFiCounters (calculateFor q) (fun _ => true) c p := by
  subst typed
  cases type : p.faultType <;>
    simp [stageOf, countersFor, calculateFor, getFiFetchCounters, getFiExecCounters,
      getFiLoadstoreCounters, getFiCounters, type]

theorem countersFor_counting (typed : stageOf p.faultType = q) (counting : Counting q c p) :
    countersFor q c p = some (readings q c p) := by
  rw [countersFor_eq typed]
  exact if_pos counting

theorem countersFor_idle (typed : stageOf p.faultType = q) (idle : ¬ Counting q c p) :
    countersFor q c p = none := by
  rw [countersFor_eq typed]
  exact if_neg idle

theorem compareCounter_due_iff (counter timing : Word) :
    (∃ servicedAt, compareCounter counter timing = .due servicedAt) ↔ counter = timing := by
  unfold compareCounter
  by_cases same : counter = timing
  · simp [same]
  · by_cases above : counter > timing <;> simp [same, above]

theorem compareCounter_stop_iff (counter timing : Word) :
    compareCounter counter timing = .stop ↔ counter > timing := by
  unfold compareCounter
  by_cases same : counter = timing
  · simp [same]
  · by_cases above : counter > timing <;> simp [same, above]

/-- A fault is returned exactly when it is due and its scope has counted
anything: two zero counters are taken for a fault out of scope. -/
theorem verdict_due_iff (typed : stageOf p.faultType = q) :
    (∃ servicedAt, verdict q c p = .due servicedAt) ↔ Due q c p ∧ Counting q c p := by
  unfold verdict Due
  cases manifested : p.manifested with
  | true => simp
  | false =>
      by_cases counting : Counting q c p
      · simp only [countersFor_counting typed counting, inScope_of_counting counting, counting,
          Bool.false_eq_true, if_false, true_and, and_true, Triggered]
        cases timing : p.timingType with
        | tick => exact compareCounter_due_iff _ _
        | instruction => exact compareCounter_due_iff _ _
        | virtualAddr =>
            by_cases here : c.vaddr = p.timing + c.thread.magicInstVirtualAddr <;> simp [here]
      · simp [countersFor_idle typed counting, counting]

theorem verdict_stop_iff (typed : stageOf p.faultType = q) :
    verdict q c p = .stop ↔ Expired q c p := by
  unfold verdict Expired
  cases manifested : p.manifested with
  | true => simp
  | false =>
      by_cases counting : Counting q c p
      · simp only [countersFor_counting typed counting, Bool.false_eq_true, if_false, true_and]
        cases timing : p.timingType with
        | tick => exact compareCounter_stop_iff _ _
        | instruction => exact compareCounter_stop_iff _ _
        | virtualAddr =>
            by_cases here : c.vaddr = p.timing + c.thread.magicInstVirtualAddr <;> simp [here]
      · -- a counter that has passed a timing is not zero
        have zeros : (readings q c p).2 = 0 ∧ (readings q c p).1 = 0 := by
          simpa [Counting] using counting
        simp only [countersFor_idle typed counting]
        cases timing : p.timingType <;> simp [zeros]

end Verdicts

section Scanning

variable {fuel : Nat} {q : StageQueue} {c : ScanContext} {s s' : FaultStore}
  {nodes : List FaultPtr} {found : Option FaultPtr}

/-- The fault at which the loop of `scan` leaves the list, if any. -/
def firstNotPassed (q : StageQueue) (c : ScanContext) (s : FaultStore) (nodes : List FaultPtr) :
    Option FaultPtr :=
  nodes.find? fun p => decide (verdict q c (s.mem p) ≠ .pass)

theorem scan_eq (chain : Chain s.nxt (s.head q) nodes none) (enough : nodes.length < fuel) :
    scan fuel q c s =
      match firstNotPassed q c s nodes with
      | none => some (s, none)
      | some p =>
          match verdict q c (s.mem p) with
          | .due servicedAt => some (serviced s p servicedAt, some p)
          | _ => some (s, none) := by
  unfold scan
  rw [walk_chain _ nodes fuel chain enough]
  rfl

theorem scan_returns (chain : Chain s.nxt (s.head q) nodes none) (enough : nodes.length < fuel) :
    ∃ s' found, scan fuel q c s = some (s', found) := by
  rw [scan_eq chain enough]
  split
  · exact ⟨_, _, rfl⟩
  · split
    · exact ⟨_, _, rfl⟩
    · exact ⟨_, _, rfl⟩

theorem scan_vacant (enough : 1 ≤ fuel) (vacant : s.head q = none) :
    scan fuel q c s = some (s, none) := by
  have chain : Chain s.nxt (s.head q) [] none := vacant
  rw [scan_eq chain enough]
  rfl

theorem scan_single (f : FaultPtr) (chain : Chain s.nxt (s.head q) [f] none) (enough : 2 ≤ fuel) :
    scan fuel q c s =
      match verdict q c (s.mem f) with
      | .due servicedAt => some (serviced s f servicedAt, some f)
      | _ => some (s, none) := by
  rw [scan_eq chain enough]
  cases decided : verdict q c (s.mem f) <;> simp [firstNotPassed, decided]

/-- Everything a scan can return. -/
theorem scan_cases (chain : Chain s.nxt (s.head q) nodes none)
    (returned : scan fuel q c s = some (s', found)) :
    (s' = s ∧ found = none ∧
      ∀ p, firstNotPassed q c s nodes = some p → verdict q c (s.mem p) = .stop) ∨
    (∃ p servicedAt, firstNotPassed q c s nodes = some p ∧
      verdict q c (s.mem p) = .due servicedAt ∧ s' = serviced s p servicedAt ∧
      found = some p) := by
  obtain ⟨left, walked, returned⟩ := Option.bind_eq_some_iff.mp returned
  have first := walk_eq_find _ nodes fuel left chain walked
  cases left with
  | none =>
      cases returned
      refine Or.inl ⟨rfl, rfl, ?_⟩
      intro p isFirst
      rw [firstNotPassed, ← first] at isFirst
      cases isFirst
  | some p =>
      have notPassed := List.find?_some first.symm
      cases decided : verdict q c (s.mem p) with
      | due servicedAt =>
          simp only [decided, Option.some.injEq, Prod.mk.injEq] at returned
          exact Or.inr ⟨p, servicedAt, first.symm, decided, returned.1.symm, returned.2.symm⟩
      | stop =>
          simp only [decided, Option.some.injEq, Prod.mk.injEq] at returned
          refine Or.inl ⟨returned.1.symm, returned.2.symm, ?_⟩
          intro p' isFirst
          have same : p = p' := by
            rw [firstNotPassed, ← first] at isFirst
            exact Option.some.inj isFirst
          exact same ▸ decided
      | pass => simp [decided] at notPassed

/-- The list is left at a due fault exactly when some due fault has no stopping
fault before it. -/
theorem firstNotPassed_due_iff :
    (∃ p servicedAt, firstNotPassed q c s nodes = some p ∧
        verdict q c (s.mem p) = .due servicedAt) ↔
      ∃ before p after, nodes = before ++ p :: after ∧
        (∃ servicedAt, verdict q c (s.mem p) = .due servicedAt) ∧
        ∀ x ∈ before, verdict q c (s.mem x) ≠ .stop := by
  constructor
  · rintro ⟨p, servicedAt, first, due⟩
    obtain ⟨_, before, after, split, passed⟩ := List.find?_eq_some_iff_append.mp first
    refine ⟨before, p, after, split, ⟨servicedAt, due⟩, ?_⟩
    intro x member stop
    have pass := passed x member
    simp [stop] at pass
  · rintro ⟨before, p, after, rfl, ⟨servicedAt, due⟩, clear⟩
    cases earlier : before.find? fun x => decide (verdict q c (s.mem x) ≠ .pass) with
    | none =>
        refine ⟨p, servicedAt, ?_, due⟩
        simp only [firstNotPassed, List.find?_append, earlier, Option.none_or]
        simp [due]
    | some x =>
        have notPassed := List.find?_some earlier
        have notStop := clear x (List.mem_of_find?_eq_some earlier)
        cases decided : verdict q c (s.mem x) with
        | due at' =>
            refine ⟨x, at', ?_, decided⟩
            simp only [firstNotPassed, List.find?_append, earlier, Option.some_or]
        | stop => exact absurd decided notStop
        | pass => simp [decided] at notPassed

theorem scan_found_iff (chain : Chain s.nxt (s.head q) nodes none)
    (returned : scan fuel q c s = some (s', found)) :
    found ≠ none ↔ ∃ before p after, nodes = before ++ p :: after ∧
      (∃ servicedAt, verdict q c (s.mem p) = .due servicedAt) ∧
      ∀ x ∈ before, verdict q c (s.mem x) ≠ .stop := by
  rw [← firstNotPassed_due_iff]
  rcases scan_cases chain returned with ⟨_, rfl, stopped⟩ | ⟨p, servicedAt, first, due, _, rfl⟩
  · refine iff_of_false (fun differs => differs rfl) ?_
    rintro ⟨p, servicedAt, first, due⟩
    rw [stopped p first] at due
    cases due
  · exact iff_of_true (by simp) ⟨p, servicedAt, first, due⟩

end Scanning

end GemFi.FaultScan
