import GemFi.Hooks
import GemFi.Transitions

/-!
The verdicts of getSignificance over a sequence of queries. The stream keeps its
fail bit from query to query, and the byte that is classified after a failure is
whatever the local variable held. A position passes through two `int`s on its way
to the stream.
-/

namespace GemFi.Significance

open FaultQueue ThreadInfo Corruption FaultScan Transitions Activation Hooks

/-- An address and what the local `byte` of the call holds before the read. -/
abbrev Query := Addr × Byte

def query (metadata : Metadata) (q : Query) : Option Metadata :=
  some (getSignificance q.1 q.2 metadata).2

/-- A file that has just been opened, of a program with a text section. -/
structure Opened (metadata : Metadata) : Prop where
  isOpen : metadata.isOpen = true
  textStart : 0 ≤ metadata.textStart
  fresh : metadata.failed = false

def bytePosition (metadata : Metadata) (pc : Addr) : Nat :=
  -- the byte of the file that describes the instruction at `pc`, as a number
  metadata.textStart.toNat + (pc - metadata.startingPCAddr).toNat

/-- The address is one of the program: it is not below the start, and the file has a byte
for it. -/
def Described (metadata : Metadata) (pc : Addr) : Prop :=
  metadata.startingPCAddr ≤ pc ∧ bytePosition metadata pc < metadata.bytes.length

instance (metadata : Metadata) (pc : Addr) : Decidable (Described metadata pc) :=
  inferInstanceAs (Decidable (_ ∧ _))

def VerdictOfByte (metadata : Metadata) (q : Query) : Prop :=
  Described metadata q.1 → ∀ byte, metadata.bytes[bytePosition metadata q.1]? = some byte →
    (getSignificance q.1 q.2 metadata).1 = significantByte byte

/-- Every query of these addresses gets the verdict of its byte, whatever the
uninitialised bytes are. -/
def DependsOnPc (metadata : Metadata) (pcs : List Addr) : Prop :=
  ∀ queries, queries.map Prod.fst = pcs → Admissible query VerdictOfByte queries metadata

def counted : List Query → Metadata → List Addr
  -- the addresses of the program among the queries that are not significant
  | [], _ => []
  | q :: rest, metadata =>
      (if Described metadata q.1 ∧ (getSignificance q.1 q.2 metadata).1 = false then [q.1]
        else []) ++ counted rest (getSignificance q.1 q.2 metadata).2

def plain (metadata : Metadata) (pc : Addr) : Bool :=
  decide (Described metadata pc) &&
    (metadata.bytes[bytePosition metadata pc]?).any fun byte => !significantByte byte

def narrowed (metadata : Metadata) (pc : Addr) : Int :=
  -- what an `int` keeps of the byte position
  (bytePosition metadata pc : Int).bmod (2 ^ 32)

def byteRead (metadata : Metadata) (pc : Addr) : Option Byte :=
  if narrowed metadata pc < 0 then none else metadata.bytes[(narrowed metadata pc).toNat]?

section Queries

variable {metadata : Metadata} {pc : Addr} {stale byte : Byte}

theorem position_eq (pc : Addr) (textStart : 0 ≤ metadata.textStart) :
    (metadata.textStart + ((pc - metadata.startingPCAddr).setWidth 32).toInt).bmod (2 ^ 32) =
      narrowed metadata pc := by
  have offset : ((pc - metadata.startingPCAddr).setWidth 32).toInt =
      ((pc - metadata.startingPCAddr).toNat : Int).bmod (2 ^ 32) := by
    rw [BitVec.toInt_eq_toNat_bmod, BitVec.toNat_setWidth, Int.natCast_emod, Int.emod_bmod]
  unfold narrowed bytePosition
  rw [offset, Int.add_bmod_bmod, Int.natCast_add, Int.toNat_of_nonneg textStart]

theorem getSignificance_eq (pc : Addr) (stale : Byte) (isOpen : metadata.isOpen = true)
    (textStart : 0 ≤ metadata.textStart) :
    getSignificance pc stale metadata =
      if metadata.failed = true then (significantByte stale, metadata)
      else match byteRead metadata pc with
        | some byte => (significantByte byte, metadata)
        | none => (significantByte stale, { metadata with failed := true }) := by
  rw [getSignificance, byteRead]
  rw [if_neg (Int.not_lt.mpr textStart)]
  dsimp only [-Nat.reducePow]
  rw [position_eq pc textStart]
  generalize narrowed metadata pc = pos
  obtain ⟨start, first, isOpen', bytes, failed⟩ := metadata
  cases isOpen
  cases failed with
  | true => simp
  | false =>
      dsimp only
      by_cases negative : pos < 0
      · simp [negative]
      · cases bytes[pos.toNat]? with
        | none => simp [negative]
        | some byte => simp [negative]

theorem getSignificance_reads (opened : Opened metadata) (found : byteRead metadata pc = some byte) :
    getSignificance pc stale metadata = (significantByte byte, metadata) := by
  rw [getSignificance_eq pc stale opened.isOpen opened.textStart,
    if_neg (by simp [opened.fresh]), found]

theorem getSignificance_misses (opened : Opened metadata) (missed : byteRead metadata pc = none) :
    getSignificance pc stale metadata = (significantByte stale, { metadata with failed := true }) := by
  rw [getSignificance_eq pc stale opened.isOpen opened.textStart,
    if_neg (by simp [opened.fresh]), missed]

theorem getSignificance_failed (isOpen : metadata.isOpen = true)
    (textStart : 0 ≤ metadata.textStart) (failed : metadata.failed = true) :
    getSignificance pc stale metadata = (significantByte stale, metadata) := by
  rw [getSignificance_eq pc stale isOpen textStart, if_pos failed]

theorem exists_wrong_stale (byte : Byte) : ∃ stale : Byte, significantByte stale ≠ significantByte byte := by
  cases class' : significantByte byte with
  | true => exact ⟨1, by decide⟩
  | false => exact ⟨0, by decide⟩

/-- A described address has a byte. -/
theorem Described.has_byte (described : Described metadata pc) :
    ∃ byte, metadata.bytes[bytePosition metadata pc]? = some byte :=
  ⟨_, List.getElem?_eq_getElem described.2⟩

end Queries

def ReadsItsClass (metadata : Metadata) (pc : Addr) : Prop :=
  (byteRead metadata pc).map significantByte =
    (metadata.bytes[bytePosition metadata pc]?).map significantByte

/-- No query has left the file before the address is asked for, and the address itself
does not. -/
def NeverLeft (metadata : Metadata) (pcs : List Addr) : Prop :=
  ∀ before pc after, pcs = before ++ pc :: after → Described metadata pc →
    (∀ x ∈ before, byteRead metadata x ≠ none) ∧ ReadsItsClass metadata pc

section Sequences

variable {metadata : Metadata} {pc : Addr} {rest : List Addr}

theorem dependsOnPc_nil (metadata : Metadata) : DependsOnPc metadata [] := by
  intro queries none'
  rw [List.map_eq_nil_iff.mp none']
  exact admissible_nil _ _

theorem dependsOnPc_cons_iff :
    DependsOnPc metadata (pc :: rest) ↔ ∀ stale, VerdictOfByte metadata (pc, stale) ∧
      DependsOnPc (getSignificance pc stale metadata).2 rest := by
  constructor
  · intro depends stale
    have split : ∀ queries, queries.map Prod.fst = rest → VerdictOfByte metadata (pc, stale) ∧
        Admissible query VerdictOfByte queries (getSignificance pc stale metadata).2 := by
      intro queries same
      obtain ⟨first, later⟩ := (admissible_cons_iff _ _ _ _).mp
        (depends ((pc, stale) :: queries) (by rw [List.map_cons, same]))
      exact ⟨first, later _ rfl⟩
    have some' : (rest.map fun x => ((x, 0) : Query)).map Prod.fst = rest := by
      rw [List.map_map]
      exact List.map_id rest
    refine ⟨(split _ some').1, ?_⟩
    intro queries same
    exact (split queries same).2
  · intro each queries same
    cases queries with
    | nil => cases same
    | cons q queries =>
        obtain ⟨rfl, others⟩ := List.cons.inj same
        rw [admissible_cons_iff]
        obtain ⟨first, later⟩ := each q.2
        refine ⟨first, ?_⟩
        intro next stepped
        cases stepped
        exact later queries others

theorem neverLeft_inside_iff (inside : byteRead metadata pc ≠ none) :
    NeverLeft metadata (pc :: rest) ↔
      (Described metadata pc → ReadsItsClass metadata pc) ∧ NeverLeft metadata rest := by
  unfold NeverLeft
  rw [forall_split_cons]
  simp only [List.forall_mem_cons, inside, List.not_mem_nil, false_implies, implies_true,
    true_and, ne_eq, not_false_iff]

theorem neverLeft_outside_iff (outside : byteRead metadata pc = none) :
    NeverLeft metadata (pc :: rest) ↔ ∀ x ∈ pc :: rest, ¬ Described metadata x := by
  unfold NeverLeft
  constructor
  · intro never x member described
    obtain ⟨before, after, split⟩ := List.append_of_mem member
    obtain ⟨inside, same⟩ := never before x after split described
    cases before with
    | nil =>
        obtain ⟨rfl, _⟩ := List.cons.inj split
        obtain ⟨byte, there⟩ := described.has_byte
        rw [ReadsItsClass, outside, there] at same
        cases same
    | cons head tail =>
        obtain ⟨rfl, _⟩ := List.cons.inj split
        exact inside pc List.mem_cons_self outside
  · intro none' before x after split described
    refine absurd described (none' x ?_)
    rw [split]
    exact List.mem_append_right _ List.mem_cons_self

theorem failed_dependsOnPc_iff (isOpen : metadata.isOpen = true)
    (textStart : 0 ≤ metadata.textStart) (failed : metadata.failed = true) (pcs : List Addr) :
    DependsOnPc metadata pcs ↔ ∀ x ∈ pcs, ¬ Described metadata x := by
  induction pcs with
  | nil => exact iff_of_true (dependsOnPc_nil metadata) (by simp)
  | cons pc rest ih =>
      rw [dependsOnPc_cons_iff, List.forall_mem_cons]
      simp only [getSignificance_failed isOpen textStart failed, ih]
      constructor
      · intro each
        refine ⟨?_, (each 0).2⟩
        intro described
        obtain ⟨byte, there⟩ := described.has_byte
        obtain ⟨stale, wrong⟩ := exists_wrong_stale byte
        have verdict := (each stale).1 described byte there
        rw [getSignificance_failed isOpen textStart failed] at verdict
        exact wrong verdict
      · rintro ⟨undescribed, later⟩ stale
        exact ⟨fun described => absurd described undescribed, later⟩

theorem depends_iff (opened : Opened metadata) (pcs : List Addr) :
    DependsOnPc metadata pcs ↔ NeverLeft metadata pcs := by
  induction pcs with
  | nil =>
      refine iff_of_true (dependsOnPc_nil metadata) ?_
      intro before pc after split
      simp at split
  | cons pc rest ih =>
      rw [dependsOnPc_cons_iff]
      cases read : byteRead metadata pc with
      | some byte =>
          rw [neverLeft_inside_iff (by simp [read])]
          simp only [VerdictOfByte, getSignificance_reads opened read, ih]
          constructor
          · intro each
            refine ⟨?_, (each 0).2⟩
            intro described
            obtain ⟨byte', there⟩ := described.has_byte
            rw [ReadsItsClass, read, there, Option.map_some, Option.map_some,
              (each 0).1 described byte' there]
          · rintro ⟨same, later⟩ _
            refine ⟨?_, later⟩
            intro described byte' there
            have classes := same described
            rw [ReadsItsClass, read, there] at classes
            exact Option.some.inj classes
      | none =>
          have stuck : DependsOnPc { metadata with failed := true } rest ↔
              ∀ pc ∈ rest, ¬ Described metadata pc :=
            @failed_dependsOnPc_iff { metadata with failed := true } opened.isOpen
              opened.textStart rfl rest
          rw [neverLeft_outside_iff read, List.forall_mem_cons]
          simp only [getSignificance_misses opened read, stuck]
          constructor
          · intro each
            refine ⟨?_, (each 0).2⟩
            intro described
            obtain ⟨byte, there⟩ := described.has_byte
            obtain ⟨stale, wrong⟩ := exists_wrong_stale byte
            have verdict := (each stale).1 described byte there
            rw [getSignificance_misses opened read] at verdict
            exact wrong verdict
          · rintro ⟨undescribed, later⟩ stale
            exact ⟨fun described => absurd described undescribed, later⟩

theorem getSignificance_frame (pc : Addr) (stale : Byte) (metadata : Metadata) :
    ∃ failed, (getSignificance pc stale metadata).2 = { metadata with failed := failed } := by
  unfold getSignificance
  split
  · exact ⟨metadata.failed, rfl⟩
  · dsimp only
    split
    · exact ⟨_, rfl⟩
    · split
      · exact ⟨_, rfl⟩
      · split
        · exact ⟨_, rfl⟩
        · exact ⟨true, rfl⟩

theorem counted_eq (queries : List Query) (metadata : Metadata)
    (right : Admissible query VerdictOfByte queries metadata) :
    counted queries metadata = (queries.map Prod.fst).filter (plain metadata) := by
  induction queries generalizing metadata with
  | nil => rfl
  | cons q rest ih =>
      obtain ⟨first, later⟩ := (admissible_cons_iff _ _ _ _).mp right
      obtain ⟨failed, left⟩ := getSignificance_frame q.1 q.2 metadata
      have same : plain (getSignificance q.1 q.2 metadata).2 = plain metadata := by
        rw [left]
        rfl
      rw [counted, ih _ (later _ rfl), same, List.map_cons, List.filter_cons]
      by_cases described : Described metadata q.1
      · obtain ⟨byte, there⟩ := described.has_byte
        have verdict := first described byte there
        have isPlain : plain metadata q.1 = !significantByte byte := by
          simp [plain, described, there]
        rw [isPlain, verdict]
        cases significantByte byte <;> simp [described]
      · have notPlain : plain metadata q.1 = false := by simp [plain, described]
        rw [notPlain]
        simp [described]

theorem readsItsClass_of_small (small : bytePosition metadata pc < 2 ^ 31) : ReadsItsClass metadata pc := by
  have same : narrowed metadata pc = bytePosition metadata pc := by
    unfold narrowed
    rw [Int.bmod_eq_of_le (by omega) (by omega)]
  unfold ReadsItsClass byteRead
  rw [same, if_neg (by omega), Int.toNat_natCast]

end Sequences

/-- The verdicts on the addresses of the program are those of their bytes exactly if no
query before one of them has left the file, and its own position, narrowed to an `int`,
is one of a byte of the same class. Then the instructions counted do not depend on the
other addresses. -/
theorem significance_depends_on_pc_iff (metadata : Metadata) (pcs : List Addr)
    (opened : Opened metadata) :
    (DependsOnPc metadata pcs ↔ NeverLeft metadata pcs) ∧
      (DependsOnPc metadata pcs → ∀ queries, queries.map Prod.fst = pcs →
        counted queries metadata = pcs.filter (plain metadata)) := by
  refine ⟨depends_iff opened pcs, ?_⟩
  intro depends queries same
  rw [counted_eq queries metadata (depends queries same), same]

def oneInstruction : Metadata := ⟨0, 0x120000000, true, [1], false⟩

def loopBody : Metadata := ⟨0, 0x120000000, true, [1, 0, 1], false⟩

def loopAddresses : List Addr := [0x120000000, 0x120000004, 0x120000008, 0x120000000]

theorem loop_depends_on_pc :
    (DependsOnPc loopBody loopAddresses ↔ NeverLeft loopBody loopAddresses) ∧
      (DependsOnPc loopBody loopAddresses → ∀ queries, queries.map Prod.fst = loopAddresses →
        counted queries loopBody = loopAddresses.filter (plain loopBody)) :=
  significance_depends_on_pc_iff loopBody loopAddresses ⟨rfl, by decide, rfl⟩

/-- After one address beyond the end of the file, the instruction does not count any more. -/
theorem library_call_hides_instruction :
    plain oneInstruction 0x120000000 = true ∧
      counted [(0x120000000, 0)] oneInstruction = [0x120000000] ∧
      counted [(0x120000004, 0), (0x120000000, 0)] oneInstruction = [] ∧
      ¬ DependsOnPc oneInstruction [0x120000004, 0x120000000] := by
  refine ⟨by decide, by decide, by decide, fun depends => ?_⟩
  have right := counted_eq [(0x120000004, 0), (0x120000000, 0)] oneInstruction (depends _ rfl)
  revert right
  decide

end GemFi.Significance
