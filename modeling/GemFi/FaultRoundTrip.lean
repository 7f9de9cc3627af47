import GemFi.FaultRecords

/-!
The whole fault file and what getFromFile makes of it. Every record becomes one
object. The loop asks for the state of the stream before it reads: the newline
behind the last record keeps the stream good, nothing is extracted after it, and
the class of the last record is constructed once more.
-/

namespace GemFi.FaultRoundTrip

open ThreadInfo FaultQueue FaultScan TokenStream FaultFile FaultRecords

section Files

def fileText (lines : List FaultLine) : List Char :=
  lines.flatMap fun line => line.text ++ ['\n']

/-- The file gives one object for each record, in the order of the file, with the
values written and in the queue of its class. -/
def RoundTrip (asserts : Bool) (left : Nat → Leftovers) (lines : List FaultLine) : Prop :=
  ∃ created, getFromFile asserts left (fileText lines) = .ok created ∧
    List.Forall₂ CreatedFrom lines created

variable {asserts : Bool} {stack : Nat → Leftovers} {rounds : Nat} {check : String}
  {gap rest : List Char}

def ReadFrom (line : FaultLine) (c : Creation) : Prop := ∃ memory, c = line.creation memory

theorem readFaults_line (line : FaultLine) (blank : ∀ c ∈ gap, isSpace c = true)
    (ends : Delimited isSpace rest) :
    readFaults asserts stack (rounds + 1) check (InputStream.start (gap ++ line.text ++ rest)) =
      (readFaults asserts stack rounds line.target.className (InputStream.reached rest)).map
        fun read => (line.creation (stack rounds).memory :: read.1, read.2) := by
  have layout : gap ++ line.text ++ rest =
      gap ++ line.target.className.toList ++ fieldText line.fields rest := by
    simp [FaultLine.text, fieldText]
  have named := readString_word check blank (className_solid line.target)
    (fieldText_delimited line.fields ends)
  have built : newFault asserts (stack rounds) line.target.className
      (InputStream.reached (fieldText line.fields rest)) =
        .ok (some (line.creation (stack rounds).memory), InputStream.reached rest) := by
    rw [newFault_className]
    exact Reader.map_of_ok (construct_line line ends)
  rw [layout, readFaults_good asserts (InputStream.start_good _)]
  refine (Reader.bind_of_ok named).trans ?_
  rw [String.ofList_toList]
  refine (Reader.bind_of_ok built).trans ?_
  cases others : readFaults asserts stack rounds line.target.className
      (InputStream.reached rest) with
  | error e => exact Reader.bind_of_error others
  | ok read => exact (Reader.bind_of_ok others).trans rfl

def behind (lines : List FaultLine) (rest : List Char) : List Char :=
  -- records behind the first, each on a line of its own
  lines.flatMap (fun line => '\n' :: line.text) ++ rest

theorem behind_delimited (lines : List FaultLine) (ends : Delimited isSpace rest) :
    Delimited isSpace (behind lines rest) := by
  cases lines with
  | nil => exact ends
  | cons line others =>
      intro c first
      cases first
      rfl

theorem blank_newline : ∀ c ∈ ['\n'], isSpace c = true := List.forall_mem_singleton.mpr rfl

theorem readFaults_lines (asserts : Bool) (stack : Nat → Leftovers) (rounds : Nat)
    (lines : List FaultLine) (target : Target) (ends : Delimited isSpace rest) :
    ∃ (created : List Creation) (last : Target), List.Forall₂ ReadFrom lines created ∧
      readFaults asserts stack (rounds + lines.length) target.className
          (InputStream.reached (behind lines rest)) =
        (readFaults asserts stack rounds last.className (InputStream.reached rest)).map
          fun read => (created ++ read.1, read.2) := by
  induction lines generalizing target with
  | nil =>
      refine ⟨[], target, .nil, ?_⟩
      change readFaults asserts stack rounds _ (InputStream.reached rest) = _
      cases readFaults asserts stack rounds target.className (InputStream.reached rest) <;> rfl
  | cons line others ih =>
      obtain ⟨created, last, made, run⟩ := ih line.target
      refine ⟨line.creation (stack (rounds + others.length)).memory :: created, last,
        .cons ⟨_, rfl⟩ made, ?_⟩
      -- the newline in front of a record is skipped like any blank
      have layout : InputStream.reached (behind (line :: others) rest) =
          InputStream.start (['\n'] ++ line.text ++ behind others rest) := by
        simp [behind, InputStream.start_cons]
      rw [layout, List.length_cons, ← Nat.add_assoc,
        readFaults_line line blank_newline (behind_delimited others ends), run]
      cases readFaults asserts stack rounds last.className (InputStream.reached rest) <;> rfl

theorem lines_length_le (lines : List FaultLine) :
    lines.length ≤ (lines.flatMap fun line => '\n' :: line.text).length := by
  induction lines with
  | nil => exact Nat.le_refl _
  | cons line others ih =>
      simp only [List.flatMap_cons, List.length_append, List.length_cons]
      omega

theorem getFromFile_records (asserts : Bool) (stack : Nat → Leftovers) (line : FaultLine)
    (lines : List FaultLine) (ends : Delimited isSpace rest) :
    ∃ (created : List Creation) (last : Target) (rounds : Nat),
      List.Forall₂ ReadFrom (line :: lines) created ∧ rest.length ≤ rounds ∧
      getFromFile asserts stack (line.text ++ behind lines rest) =
        (readFaults asserts stack (rounds + 1) last.className (InputStream.reached rest)).map
          fun read => created ++ read.1 := by
  -- each further record has its newline, so there are more characters than rounds needed
  have length : lines.length + rest.length ≤ (line.text ++ behind lines rest).length := by
    have counted := lines_length_le lines
    simp only [behind, List.length_append]
    omega
  generalize size : (line.text ++ behind lines rest).length = n at length
  obtain ⟨rounds, enough⟩ := Nat.exists_eq_add_of_le length
  have total : n + 2 = rest.length + rounds + 1 + lines.length + 1 := by omega
  obtain ⟨created, last, made, run⟩ :=
    readFaults_lines asserts stack (rest.length + rounds + 1) lines line.target ends
  refine ⟨line.creation (stack (rest.length + rounds + 1 + lines.length)).memory :: created, last,
    rest.length + rounds, .cons ⟨_, rfl⟩ made, by omega, ?_⟩
  have first : readFaults asserts stack (rest.length + rounds + 1 + lines.length + 1) ""
      (InputStream.start ([] ++ line.text ++ behind lines rest)) = _ :=
    readFaults_line line (by simp) (behind_delimited lines ends)
  rw [List.nil_append, run] at first
  rw [getFromFile, size, total, first]
  cases readFaults asserts stack (rest.length + rounds + 1) last.className
      (InputStream.reached rest) <;> rfl

theorem fileText_cons (line : FaultLine) (lines : List FaultLine) :
    fileText (line :: lines) = line.text ++ behind lines ['\n'] := by
  have moved : ['\n'] ++ fileText lines = behind lines ['\n'] := by
    induction lines with
    | nil => rfl
    | cons next others ih =>
        simp only [fileText, behind, List.flatMap_cons] at ih ⊢
        simp only [List.append_assoc, List.cons_append, List.nil_append] at ih ⊢
        rw [ih]
  rw [← moved, fileText, List.flatMap_cons, List.append_assoc]
  rfl

theorem newline_ends : Delimited isSpace ['\n'] := by
  intro c first
  cases first
  rfl

/-- The newline behind the last record keeps the stream good, but nothing is
extracted and `check` keeps the class of that record. -/
theorem readString_newline (check : String) :
    readString check (InputStream.reached ['\n']) = .ok (check, broken) := by
  have extracted : (InputStream.start ['\n']).extract isSpace (word isSpace) = (none, broken) :=
    extract_blank blank_newline
  rw [← InputStream.start_cons, readString, extracted]
  rfl

theorem newline_asserts (target : Target) :
    readFaults true stack (rounds + 1) target.className (InputStream.reached ['\n']) =
      .error .assertion := by
  have built : newFault true (stack rounds) target.className broken = .error .assertion := by
    rw [newFault_className]
    exact Reader.map_of_error (construct_broken target)
  rw [readFaults_good true rfl]
  exact (Reader.bind_of_ok (readString_newline _)).trans (Reader.bind_of_error built)

theorem newline_creates (rounds : Nat) (stack : Nat → Leftovers) (target : Target) :
    ∃ c, readFaults false stack (rounds + 2) target.className (InputStream.reached ['\n']) =
      .ok ([c], broken) := by
  obtain ⟨c, made⟩ := construct_broken_unchecked (stack (rounds + 1)) target
  have built : newFault false (stack (rounds + 1)) target.className broken =
      .ok (some c, broken) := by
    rw [newFault_className]
    exact Reader.map_of_ok made
  refine ⟨c, ?_⟩
  rw [readFaults_good false rfl]
  refine (Reader.bind_of_ok (readString_newline _)).trans ?_
  refine (Reader.bind_of_ok built).trans ?_
  exact (Reader.bind_of_ok (readFaults_bad false rfl)).trans rfl

/-- A file of complete lines is never read back: with assertions the program
stops behind the last record, without them it makes one object too many. -/
theorem getFromFile_lines (stack : Nat → Leftovers) (line : FaultLine) (lines : List FaultLine) :
    getFromFile true stack (fileText (line :: lines)) = .error .assertion ∧
    ∃ created c, List.Forall₂ ReadFrom (line :: lines) created ∧
      getFromFile false stack (fileText (line :: lines)) = .ok (created ++ [c]) := by
  rw [fileText_cons]
  constructor
  · obtain ⟨created, last, rounds, _, _, run⟩ :=
      getFromFile_records true stack line lines newline_ends
    rw [run, newline_asserts]
    rfl
  · obtain ⟨created, last, rounds, made, enough, run⟩ :=
      getFromFile_records false stack line lines newline_ends
    obtain ⟨more, rfl⟩ : ∃ more, rounds = more + 1 := Nat.exists_eq_add_of_le' enough
    obtain ⟨c, again⟩ := newline_creates more stack last
    refine ⟨created, c, made, ?_⟩
    rw [run, again]
    rfl

theorem getFromFile_empty : getFromFile asserts stack [] = .ok [] := by
  cases asserts <;> rfl

theorem not_round_trip (line : FaultLine) (lines : List FaultLine) :
    ¬ RoundTrip asserts stack (line :: lines) := by
  rintro ⟨created, returned, made⟩
  obtain ⟨stopped, found, c, foundMade, oneMore⟩ := getFromFile_lines stack line lines
  cases asserts with
  | true =>
      rw [stopped] at returned
      cases returned
  | false =>
      rw [oneMore] at returned
      cases returned
      -- one object more than there are records
      have one := made.length_eq
      have two := foundMade.length_eq
      rw [List.length_append, ← two, List.length_singleton] at one
      omega

/-- Only the file without records gives what was written. -/
theorem round_trip_iff_no_records (asserts : Bool) (stack : Nat → Leftovers)
    (lines : List FaultLine) : RoundTrip asserts stack lines ↔ lines = [] := by
  constructor
  · intro roundTrip
    cases lines with
    | nil => rfl
    | cons line others => exact absurd roundTrip (not_round_trip line others)
  · rintro rfl
    exact ⟨[], getFromFile_empty, .nil⟩

def fetchLine : FaultLine where
  target := .generalFetch
  timingType := .instruction
  timing := 5
  what := .flip 1
  thread := ⟨"all", by decide⟩
  where_ := ⟨"all", by decide⟩
  occurrence := ⟨1, by decide⟩
  tcontext := ⟨0, by decide⟩

def zeroed : Leftovers :=
  ⟨⟨"", "", "", "", .tick, 0, .immediate, 0, 0, 0, .integer, 0, .src, 0, 0⟩, 0, 0, 0⟩

theorem one_record_not_read_back :
    fileText [fetchLine] = "GeneralFetchInjectedFault Inst:5 Flip:1 all all 1 0\n".toList ∧
      ¬ RoundTrip true (fun _ => zeroed) [fetchLine] ∧
      ¬ RoundTrip false (fun _ => zeroed) [fetchLine] :=
  ⟨by decide, not_round_trip fetchLine [], not_round_trip fetchLine []⟩

end Files

section Unterminated

theorem created_iff {lines : List FaultLine} {created : List Creation}
    (read : List.Forall₂ ReadFrom lines created) :
    List.Forall₂ CreatedFrom lines created ↔ ∀ line ∈ lines, line.target.Kept := by
  induction read with
  | nil => simp
  | @cons line c lines created head tail ih =>
      obtain ⟨memory, rfl⟩ := head
      rw [List.forall₂_cons, createdFrom_iff, ih, List.forall_mem_cons]

theorem end_delimited : Delimited isSpace [] := by
  intro c first
  cases first

theorem getFromFile_unterminated (asserts : Bool) (stack : Nat → Leftovers) (line : FaultLine)
    (lines : List FaultLine) :
    ∃ created, List.Forall₂ ReadFrom (line :: lines) created ∧
      getFromFile asserts stack (line.text ++ behind lines []) = .ok created := by
  obtain ⟨created, last, rounds, read, _, run⟩ :=
    getFromFile_records asserts stack line lines end_delimited
  refine ⟨created, read, ?_⟩
  rw [run, readFaults_bad asserts rfl]
  simp [Except.map]

/-- Every object of such a file is what was written, as long as no digit of a
register is the character that is skipped. -/
theorem unterminated_round_trip_iff (asserts : Bool) (stack : Nat → Leftovers) (line : FaultLine)
    (lines : List FaultLine) :
    (∃ created, getFromFile asserts stack (line.text ++ behind lines []) = .ok created ∧
        List.Forall₂ CreatedFrom (line :: lines) created) ↔
      ∀ other ∈ line :: lines, other.target.Kept := by
  obtain ⟨found, read, returned⟩ := getFromFile_unterminated asserts stack line lines
  rw [returned, ← created_iff read]
  constructor
  · rintro ⟨created, same, made⟩
    cases same
    exact made
  · intro made
    exact ⟨found, rfl, made⟩

def RecordOf (line : FaultLine) (record : FaultRecord) : Prop :=
  ∃ memory, record = (line.creation memory).fault.record line.target.faultType

theorem storeAll_records {fuel : Nat} {lines : List FaultLine} {created : List Creation}
    (read : List.Forall₂ ReadFrom lines created) :
    ∃ records, List.Forall₂ RecordOf lines records ∧
      ∀ s, storeAll fuel created s = Activation.getFromFile fuel records s := by
  suffices typed : ∃ records, List.Forall₂ RecordOf lines records ∧
      List.Forall₂ (fun c record => c.record? = some record ∧
        c.queue = some (stageOf record.faultType)) created records by
    obtain ⟨records, made, typed⟩ := typed
    exact ⟨records, made, storeAll_eq typed⟩
  induction read with
  | nil => exact ⟨[], .nil, .nil⟩
  | @cons line c lines created head tail ih =>
      obtain ⟨memory, rfl⟩ := head
      obtain ⟨records, made, typed⟩ := ih
      exact ⟨_ :: records, .cons ⟨memory, rfl⟩ made, .cons ⟨rfl, rfl⟩ typed⟩

theorem loadFile_unterminated (asserts : Bool) (stack : Nat → Leftovers) (fuel : Nat)
    (line : FaultLine) (lines : List FaultLine) :
    ∃ records, List.Forall₂ RecordOf (line :: lines) records ∧
      ∀ s, loadFile asserts stack fuel (line.text ++ behind lines []) s =
        Activation.getFromFile fuel records s := by
  obtain ⟨created, read, returned⟩ := getFromFile_unterminated asserts stack line lines
  obtain ⟨records, made, stored⟩ := storeAll_records read
  refine ⟨records, made, ?_⟩
  intro s
  simp only [loadFile, returned]
  exact stored s

theorem loadFile_lines (stack : Nat → Leftovers) (fuel : Nat) (line : FaultLine)
    (lines : List FaultLine) (s : FaultStore) :
    loadFile true stack fuel (fileText (line :: lines)) s = none := by
  simp only [loadFile, (getFromFile_lines stack line lines).1]

end Unterminated

end GemFi.FaultRoundTrip
