import Mathlib.Data.Finset.Card
import Mathlib.Data.List.AList
import GemFi.RestartingMeets

/-!
The training table of data_processor.py and data_processor_different_inputs.py.
read_stats collects one row for each section of a stats.txt behind the warm-up and
keeps the features common to the rows of the file, read_faults joins these over the
files and writes the rows in the columns that are common to all. In both places
an empty set stands for "no row yet".
-/

namespace GemFi.TrainingTable

open RestartingMeets

abbrev Text := List Char

def skipFeatures : List String :=
  ["host_inst_rate", "host_op_rate", "host_tick_rate", "host_mem_usage", "host_seconds",
    "system.tsunami.ethernet.descDMAReads", "system.tsunami.ethernet.descDMAWrites",
    "system.tsunami.ethernet.descDmaReadBytes", "system.tsunami.ethernet.descDmaWriteBytes",
    "system.tsunami.ethernet.postedSwi", "system.tsunami.ethernet.coalescedSwi",
    "system.tsunami.ethernet.totalSwi", "system.tsunami.ethernet.postedRxIdle",
    "system.tsunami.ethernet.coalescedRxIdle", "system.tsunami.ethernet.totalRxIdle",
    "system.tsunami.ethernet.postedRxOk", "system.tsunami.ethernet.coalescedRxOk",
    "system.tsunami.ethernet.totalRxOk", "system.tsunami.ethernet.postedRxDesc",
    "system.tsunami.ethernet.coalescedRxDesc", "system.tsunami.ethernet.totalRxDesc",
    "system.tsunami.ethernet.postedTxOk", "system.tsunami.ethernet.coalescedTxOk",
    "system.tsunami.ethernet.totalTxOk", "system.tsunami.ethernet.postedTxIdle",
    "system.tsunami.ethernet.coalescedTxIdle", "system.tsunami.ethernet.totalTxIdle",
    "system.tsunami.ethernet.postedTxDesc", "system.tsunami.ethernet.coalescedTxDesc",
    "system.tsunami.ethernet.totalTxDesc", "system.tsunami.ethernet.postedRxOrn",
    "system.tsunami.ethernet.coalescedRxOrn", "system.tsunami.ethernet.totalRxOrn",
    "system.tsunami.ethernet.coalescedTotal", "system.tsunami.ethernet.postedInterrupts",
    "system.tsunami.ethernet.droppedPackets", "system.cpu.dcache.blocked_cycles::no_targets",
    "system.cpu.iq.FU_type_0::SimdAddAcc", "system.cpu.iq.FU_type_0::SimdFloatAlu",
    "system.cpu.iew.lsq.thread0.invAddrLoads", "system.mem_ctrls.readPktSize::0",
    "system.mem_ctrls.readPktSize::1", "system.mem_ctrls.readPktSize::2",
    "system.mem_ctrls.readPktSize::3", "system.mem_ctrls.readPktSize::4",
    "system.mem_ctrls.readPktSize::5", "system.cpu.itb.read_misses",
    "system.cpu.iq.fu_full::FloatDiv", "system.cpu.dtb.fetch_accesses",
    "system.cpu.iq.fu_full::SimdMisc", "system.cpu.iew.iewIdleCycles",
    "system.cpu.numWorkItemsStarted", "system.cpu.iq.FU_type_0::FloatMult",
    "system.cpu.iq.fu_full::IntMult", "system.cpu.itb.data_misses",
    "system.cpu.commit.committed_per_cycle::overflows", "system.cpu.iq.fu_full::SimdFloatMult",
    "system.cpu.iq.fu_full::FloatMult", "system.cpu.dcache.cache_copies",
    "system.cpu.icache.no_allocate_misses", "system.cpu.icache.cache_copies",
    "system.cpu.iq.FU_type_0::FloatSqrt", "system.cpu.iq.FU_type_0::SimdMisc",
    "system.cpu.fetch.rateDist::overflows", "system.cpu.dtb.fetch_misses",
    "system.cpu.numWorkItemsCompleted", "system.cpu.iq.FU_type_0::SimdFloatSqrt",
    "system.cpu.dcache.fast_writes", "system.cpu.dcache.no_allocate_misses",
    "system.l2.fast_writes", "system.disk2.dma_read_bytes", "system.l2.blocked_cycles::no_targets",
    "system.cpu.iq.fu_full::SimdMult", "system.cpu.iq.FU_type_0::SimdCmp",
    "system.cpu.iew.wb_penalized_rate", "system.cpu.iq.fu_full::SimdCvt",
    "system.cpu.itb.write_hits", "system.cpu.iq.FU_type_0::SimdMultAcc",
    "system.cpu.iq.FU_type_0::SimdShiftAcc", "system.disk0.dma_read_txs",
    "system.cpu.itb.read_hits", "system.cpu.iq.fu_full::SimdFloatMisc",
    "system.cpu.fetch.rateDist::underflows", "system.cpu.iq.fu_full::InstPrefetch",
    "system.cpu.iq.FU_type_0::SimdMult", "system.cpu.iq.FU_type_0::SimdShift",
    "system.l2.tags.warmup_cycle", "system.cpu.commit.committed_per_cycle::min_value",
    "system.disk2.dma_write_txs", "system.cpu.iq.fu_full::FloatAdd",
    "system.mem_ctrls.rdQLenPdf::24", "system.cpu.dtb.fetch_hits",
    "system.cpu.iq.fu_full::No_OpClass", "system.disk0.dma_read_bytes",
    "system.cpu.iq.fu_full::SimdShift", "system.disk2.dma_write_full_pages",
    "system.cpu.iq.FU_type_0::SimdFloatMisc", "system.cpu.iew.exec_swp", "system.cpu.itb.data_hits",
    "system.mem_ctrls.rdQLenPdf::30", "system.mem_ctrls.rdQLenPdf::31",
    "system.cpu.iew.lsq.thread0.invAddrSwpfs", "system.cpu.iq.issued_per_cycle::underflows",
    "system.cpu.icache.tags.warmup_cycle", "system.mem_ctrls.writePktSize::4",
    "system.mem_ctrls.writePktSize::5", "system.mem_ctrls.writePktSize::0",
    "system.cpu.iq.FU_type_0::FloatCvt", "system.mem_ctrls.writePktSize::2",
    "system.mem_ctrls.writePktSize::3", "system.cpu.branchPred.BTBCorrect",
    "system.cpu.itb.data_acv", "system.iocache.blocked::no_targets",
    "system.l2.blocked::no_targets", "system.cpu.iq.FU_type_0::FloatCmp",
    "system.iocache.blocked_cycles::no_targets", "system.cpu.iq.fu_full::IntDiv",
    "system.cpu.dtb.fetch_acv", "system.cpu.iq.fu_full::SimdFloatAlu", "system.cpu.itb.write_acv",
    "system.cpu.iq.fu_full::SimdShiftAcc", "system.l2.blocked::no_mshrs",
    "system.cpu.iq.FU_type_0::IntDiv", "system.cpu.iq.fu_full::SimdAlu",
    "system.cpu.commit.committed_per_cycle::underflows", "system.cpu.iq.FU_type_0::InstPrefetch",
    "system.cpu.iq.issued_per_cycle::min_value", "system.cpu.iq.FU_type_0::SimdFloatMultAcc",
    "system.cpu.iq.fu_full::FloatSqrt", "system.cpu.itb.read_accesses",
    "system.cpu.iq.FU_type_0::SimdCvt", "system.l2.no_allocate_misses",
    "system.cpu.commit.bw_limited", "system.cpu.iq.FU_type_0::SimdAdd",
    "system.cpu.fetch.rateDist::min_value", "system.cpu.iq.fu_full::SimdSqrt",
    "system.cpu.dcache.blocked::no_targets", "system.cpu.itb.write_misses",
    "system.cpu.iq.fu_full::SimdFloatMultAcc", "system.mem_ctrls.writePktSize::1",
    "system.cpu.iew.wb_penalized", "system.cpu.iq.fu_full::SimdCmp",
    "system.disk2.dma_read_full_pages", "system.cpu.iq.FU_type_0::SimdSqrt",
    "system.cpu.iq.FU_type_0::SimdFloatAdd", "system.mem_ctrls.numRdRetry",
    "system.iocache.no_allocate_misses", "system.cpu.iq.FU_type_0::SimdFloatMult",
    "system.cpu.iq.fu_full::FloatCmp", "system.cpu.iq.fu_full::SimdFloatDiv",
    "system.cpu.iq.fu_full::SimdAddAcc", "system.cpu.iq.fu_full::SimdMultAcc",
    "system.mem_ctrls.rdQLenPdf::23", "system.mem_ctrls.rdQLenPdf::25",
    "system.cpu.iew.lsq.thread0.blockedLoads", "system.mem_ctrls.rdQLenPdf::27",
    "system.mem_ctrls.rdQLenPdf::26", "system.cpu.itb.read_acv", "system.mem_ctrls.rdQLenPdf::28",
    "system.cpu.iq.fu_full::IprAccess", "system.cpu.dcache.tags.warmup_cycle",
    "system.cpu.iq.FU_type_0::SimdFloatCmp", "system.cpu.iq.fu_full::SimdFloatCmp",
    "system.cpu.iq.FU_type_0::SimdFloatCvt", "system.cpu.commit.swp_count",
    "system.cpu.iq.FU_type_0::SimdFloatDiv", "system.cpu.iq.fu_full::SimdFloatAdd",
    "system.cpu.iq.fu_full::SimdAdd", "system.iocache.fast_writes",
    "system.iocache.tags.total_refs", "system.mem_ctrls.mergedWrBursts",
    "system.cpu.iq.fu_full::SimdFloatCvt", "system.disk2.dma_read_txs",
    "system.cpu.iq.fu_full::FloatCvt", "system.mem_ctrls.rdQLenPdf::29",
    "system.cpu.iq.issued_per_cycle::overflows", "system.l2.cache_copies",
    "system.cpu.itb.write_accesses", "system.l2.blocked_cycles::no_mshrs",
    "system.cpu.icache.fast_writes", "system.cpu.kern.inst.arm", "system.iocache.cache_copies",
    "system.disk0.dma_read_full_pages", "system.cpu.iq.FU_type_0::SimdAlu",
    "system.disk2.dma_write_bytes", "system.cpu.iq.fu_full::SimdFloatSqrt",
    "system.cpu.itb.data_accesses"]

inductive Cell where
  | text (val : Text)
  | number (n : Nat)
  deriving DecidableEq, Repr

abbrev Dict := AList fun _ : Text => Cell

structure Row where
  feat : Dict
  label : Nat

def Row.data (row : Row) : Dict :=
  -- the entry of `data`, with the two labels written over the features
  (row.feat.insert "multi_label".toList (.number row.label)).insert "label".toList
    (.number (if row.label > 0 then 1 else 0))

def Row.features (row : Row) : Finset Text := row.feat.keys.toFinset

def labelFor (third fault : String) (out gt : Text) : Nat :=
  if out = gt then 0
  else if fault = "GeneralFetchInjectedFault" then 1
  else if fault = "LoadStoreInjectedFault" then 2
  else if fault = third then 3
  else if fault = "OpCodeInjectedFault" then 4
  else 1

section Stats

variable {Digest : Type} [DecidableEq Digest]

structure Reading (Digest : Type) where
  skippedWarmup : Bool
  removeThisInput : Bool
  feat : Dict
  featureStr : Text
  data : List Row
  featureHash : List Digest
  commonFeatures : Finset Text

def Reading.start (featureHash : List Digest) : Reading Digest :=
  ⟨false, false, ∅, [], [], featureHash, ∅⟩

/-- `line.find(part) != -1`. -/
def found (part : String) (line : Text) : Bool := decide (part.toList <:+: line)

def joinFeatures (common features : Finset Text) : Finset Text :=
  if common.card = 0 then common ∪ features else common ∩ features

/-- What happens at the end of a section. The source means to clear
`remove_this_input` behind the warm-up, but assigns to another name. -/
def endSection (md5 : Text → Digest) (label : Nat) (s : Reading Digest) : Reading Digest :=
  if s.skippedWarmup && !s.removeThisInput then
    if md5 s.featureStr ∈ s.featureHash then s
    else
      { s with
        data := s.data ++ [⟨s.feat, label⟩]
        featureHash := md5 s.featureStr :: s.featureHash
        commonFeatures := joinFeatures s.commonFeatures s.feat.keys.toFinset }
  else { s with skippedWarmup := true }

def readFeature (line : Text) (s : Reading Digest) : Reading Digest :=
  match (line.splitOn ' ').filter (· ≠ []) with
  | key :: val :: _ =>
      if String.ofList key ∈ skipFeatures ∨ val = "nan".toList ∨ val = "inf".toList then s
      else
        { s with
          feat := s.feat.insert key (.text val)
          featureStr := s.featureStr ++ key ++ val }
  | _ => { s with removeThisInput := true }

def readLine (md5 : Text → Digest) (label : Nat) (s : Reading Digest) (line : Text) :
    Reading Digest :=
  if line = [] then s
  else if found "Begin Simulation Statistics" line then { s with feat := ∅ }
  else if found "End Simulation Statistics" line then
    { endSection md5 label s with featureStr := [] }
  else if s.skippedWarmup then readFeature line s
  else s

/-- `read_stats`, on the contents of the file. -/
def readStats (md5 : Text → Digest) (label : Nat) (contents : Text) (featureHash : List Digest) :
    Reading Digest :=
  (contents.splitOn '\n').foldl (readLine md5 label) (.start featureHash)

end Stats

section Faults

variable {Digest : Type} [DecidableEq Digest]

structure Visit where
  -- a directory read_faults comes to: the contents of stats.txt and of system.terminal where they
  -- exist, and the output they are compared with
  fault : String
  groundtruth : Text
  stats : Option Text
  output : Option Text

structure Table (Digest : Type) where
  allData : List Row
  featureHash : List Digest
  commonFeatures : Finset Text

def Table.start : Table Digest := ⟨[], [], ∅⟩

def joinFile (common oneStat : Finset Text) : Finset Text :=
  if common.card = 0 then oneStat
  else if oneStat.card ≠ 0 then common ∩ oneStat
  else common

def Visit.read (third : String) (md5 : Text → Digest) (visit : Visit) (featureHash : List Digest) :
    Option (Reading Digest) :=
  -- what read_stats returns for a directory, if it is called
  match visit.stats, visit.output with
  | some stats, some out =>
      if stats.length > 212876790 then none
      else some (readStats md5 (labelFor third visit.fault out visit.groundtruth) stats featureHash)
  | _, _ => none

def readFault (third : String) (md5 : Text → Digest) (t : Table Digest) (visit : Visit) :
    Table Digest :=
  match visit.read third md5 t.featureHash with
  | some one =>
      ⟨t.allData ++ one.data, one.featureHash, joinFile t.commonFeatures one.commonFeatures⟩
  | none => t

/-- The loops of `read_faults`, over the directories in the order they come in. -/
def readFaults (third : String) (md5 : Text → Digest) (visits : List Visit) : Table Digest :=
  visits.foldl (readFault third md5) .start

/-- The rows of data.csv, or nothing when `data[feat]` raises. `columns` is
`list(common_features)`, in any order. -/
def writeRows (columns : List Text) (rows : List Row) : Option (List (List Cell)) :=
  rows.mapM fun row => (columns ++ ["multi_label".toList, "label".toList]).mapM row.data.lookup

/-- read_faults of data_processor.py. -/
def dataProcessor (md5 : Text → Digest) : List Visit → Table Digest :=
  readFaults "IEWStageInjectedFault" md5

/-- read_faults of data_processor_different_inputs.py. -/
def differentInputs (md5 : Text → Digest) : List Visit → Table Digest :=
  readFaults "ExecutionInjectedFault" md5

/-- Every row has a value in every column, and the columns are the features that
all rows have. -/
structure Rectangular (t : Table Digest) : Prop where
  written : ∀ columns : List Text, columns.toFinset = t.commonFeatures →
    (writeRows columns t.allData).isSome
  exact : ∀ key, key ∈ t.commonFeatures ↔ t.allData ≠ [] ∧ ∀ row ∈ t.allData, key ∈ row.feat

end Faults

section Columns

variable {Digest : Type} [DecidableEq Digest] {third : String} {md5 : Text → Digest} {label : Nat}

theorem joinFeatures_eq (common features : Finset Text) :
    joinFeatures common features = restart common features := by
  unfold joinFeatures restart
  by_cases none : common = ∅
  · simp [none]
  · have above : common ≠ ⊥ := none
    rw [if_neg (mt Finset.card_eq_zero.mp none), if_neg above, Finset.inf_eq_inter]

theorem joinFile_eq (common oneStat : Finset Text) :
    joinFile common oneStat = restartWith common oneStat := by
  simp only [joinFile, restartWith, Finset.card_eq_zero, ne_eq, Finset.bot_eq_empty,
    Finset.inf_eq_inter]

def Reading.Tallied (s : Reading Digest) : Prop :=
  s.commonFeatures = running (s.data.map Row.features)

theorem endSection_tallied {s : Reading Digest} (tallied : s.Tallied) :
    (endSection md5 label s).Tallied := by
  unfold endSection
  split
  · split
    · exact tallied
    · unfold Reading.Tallied
      dsimp only
      rw [List.map_append, List.map_singleton, running_concat, joinFeatures_eq, tallied]
      rfl
  · exact tallied

omit [DecidableEq Digest] in
theorem readFeature_frame (line : Text) (s : Reading Digest) :
    (readFeature line s).data = s.data ∧ (readFeature line s).commonFeatures = s.commonFeatures := by
  unfold readFeature
  split
  · split <;> exact ⟨rfl, rfl⟩
  · exact ⟨rfl, rfl⟩

theorem readLine_tallied {s : Reading Digest} (tallied : s.Tallied) (line : Text) :
    (readLine md5 label s line).Tallied := by
  unfold readLine
  split
  · exact tallied
  · split
    · exact tallied
    · split
      · exact endSection_tallied tallied
      · split
        · obtain ⟨data, common⟩ := readFeature_frame line s
          unfold Reading.Tallied
          rw [data, common]
          exact tallied
        · exact tallied

theorem readStats_tallied (contents : Text) (featureHash : List Digest) :
    (readStats md5 label contents featureHash).Tallied := by
  unfold readStats
  have start : (Reading.start featureHash).Tallied := rfl
  generalize Reading.start featureHash = s at start
  induction contents.splitOn '\n' generalizing s with
  | nil => exact start
  | cons line rest ih => exact ih _ (readLine_tallied start line)

def collect (third : String) (md5 : Text → Digest) : List Visit → List Digest → List (List Row)
  -- the rows each file adds, which do not depend on the columns
  | [], _ => []
  | visit :: rest, featureHash =>
      match visit.read third md5 featureHash with
      | some one => one.data :: collect third md5 rest one.featureHash
      | none => collect third md5 rest featureHash

theorem read_tallied {visit : Visit} {featureHash : List Digest} {one : Reading Digest}
    (read : visit.read third md5 featureHash = some one) : one.Tallied := by
  unfold Visit.read at read
  split at read
  · split at read
    · cases read
    · cases read
      exact readStats_tallied _ _
  · cases read

def featureSets (files : List (List Row)) : List (List (Finset Text)) :=
  files.map (·.map Row.features)

theorem readFaults_from (visits : List Visit) (t : Table Digest) :
    (visits.foldl (readFault third md5) t).allData =
        t.allData ++ (collect third md5 visits t.featureHash).flatten ∧
      (visits.foldl (readFault third md5) t).commonFeatures =
        ((featureSets (collect third md5 visits t.featureHash)).map running).foldl restartWith
          t.commonFeatures := by
  induction visits generalizing t with
  | nil => simp [collect, featureSets]
  | cons visit rest ih =>
      rw [List.foldl_cons]
      cases read : visit.read third md5 t.featureHash with
      | none =>
          have passed : readFault third md5 t visit = t := by simp [readFault, read]
          have here : collect third md5 (visit :: rest) t.featureHash =
              collect third md5 rest t.featureHash := by simp [collect, read]
          rw [passed, here]
          exact ih t
      | some one =>
          have joined : readFault third md5 t visit = ⟨t.allData ++ one.data, one.featureHash,
              joinFile t.commonFeatures one.commonFeatures⟩ := by simp [readFault, read]
          have here : collect third md5 (visit :: rest) t.featureHash =
              one.data :: collect third md5 rest one.featureHash := by simp [collect, read]
          have tallied : one.commonFeatures = running (one.data.map Row.features) :=
            read_tallied read
          obtain ⟨rows, common⟩ := ih ⟨t.allData ++ one.data, one.featureHash,
            joinFile t.commonFeatures one.commonFeatures⟩
          rw [joined, here, rows, common, joinFile_eq, tallied, List.flatten_cons, List.append_assoc]
          exact ⟨rfl, rfl⟩

/-- A key of the features has a value in the row. -/
theorem lookup_isSome {row : Row} {key : Text} (member : key ∈ row.feat) :
    (row.data.lookup key).isSome := by
  rw [AList.lookup_isSome, Row.data, AList.mem_insert, AList.mem_insert]
  exact .inr (.inr member)

theorem label_isSome {row : Row} {key : Text} (isLabel : key ∈ ["multi_label".toList, "label".toList]) :
    (row.data.lookup key).isSome := by
  rw [AList.lookup_isSome, Row.data, AList.mem_insert, AList.mem_insert]
  rcases List.mem_pair.mp isLabel with multi | single
  · exact .inr (.inl multi)
  · exact .inl single

theorem mapM_isSome {α β : Type} {f : α → Option β} {l : List α} (all : ∀ x ∈ l, (f x).isSome) :
    (l.mapM f).isSome := by
  induction l with
  | nil => rfl
  | cons x rest ih =>
      obtain ⟨first, others⟩ := List.forall_mem_cons.mp all
      obtain ⟨y, here⟩ := Option.isSome_iff_exists.mp first
      obtain ⟨ys, behind⟩ := Option.isSome_iff_exists.mp (ih others)
      simp [List.mapM_cons, here, behind]

theorem writeRows_isSome {columns : List Text} {rows : List Row}
    (common : ∀ key ∈ columns, ∀ row ∈ rows, key ∈ row.feat) :
    (writeRows columns rows).isSome := by
  refine mapM_isSome (fun row member => mapM_isSome (fun key inHeading => ?_))
  rcases List.mem_append.mp inHeading with column | isLabel
  · exact lookup_isSome (common key column row member)
  · exact label_isSome isLabel

theorem mem_features {row : Row} {key : Text} : key ∈ row.features ↔ key ∈ row.feat := by
  rw [Row.features, List.mem_toFinset, AList.mem_keys]

theorem mem_meets_iff (rows : List Row) (key : Text) :
    key ∈ meets (rows.map Row.features) ↔ rows ≠ [] ∧ ∀ row ∈ rows, key ∈ row.feat := by
  by_cases none : rows = []
  · subst none
    simp [meets]
  · have mapped : rows.map Row.features ≠ [] := by simpa using none
    rw [← Finset.singleton_subset_iff, le_meets_iff mapped]
    simp [none, mem_features]

omit [DecidableEq Digest] in
theorem rectangular_iff (t : Table Digest) :
    Rectangular t ↔ t.commonFeatures = meets (t.allData.map Row.features) := by
  constructor
  · intro rectangular
    ext key
    rw [rectangular.exact key, mem_meets_iff]
  · intro same
    have exactly : ∀ key, key ∈ t.commonFeatures ↔
        t.allData ≠ [] ∧ ∀ row ∈ t.allData, key ∈ row.feat := by
      intro key
      rw [same, mem_meets_iff]
    refine ⟨?_, exactly⟩
    intro columns listed
    apply writeRows_isSome
    intro key column
    exact ((exactly key).mp (listed ▸ List.mem_toFinset.mpr column)).2

theorem flatten_featureSets (files : List (List Row)) :
    (featureSets files).flatten = files.flatten.map Row.features := by
  rw [featureSets, List.map_flatten]

theorem allSpent_of_no_rows {files : List (List Row)} (none : files.flatten = []) :
    AllSpent (featureSets files) := by
  have empty : meets (featureSets files).flatten = ⊥ := by
    rw [flatten_featureSets, none]
    rfl
  rw [← nested_eq_bot_iff]
  have spent : ∀ one ∈ (featureSets files).map running, one = ⊥ := by
    intro one member
    obtain ⟨sets, inSets, rfl⟩ := List.mem_map.mp member
    obtain ⟨rows, inFiles, rfl⟩ := List.mem_map.mp inSets
    rw [List.flatten_eq_nil_iff.mp none rows inFiles]
    rfl
  rw [foldl_restartWith, List.filter_eq_nil_iff.mpr (by simpa using spent)]
  rfl

/-- Exactly when the table is rectangular: some feature is common to all rows, or the
rows cancel out to the last one, in the files and over the files. -/
theorem table_rectangular_iff (third : String) (md5 : Text → Digest) (visits : List Visit) :
    Rectangular (readFaults third md5 visits) ↔
      (∃ key, ∀ row ∈ (collect third md5 visits []).flatten, key ∈ row.feat) ∨
        AllSpent (featureSets (collect third md5 visits [])) := by
  have joined : (readFaults third md5 visits).allData = (collect third md5 visits []).flatten ∧
      (readFaults third md5 visits).commonFeatures =
        ((featureSets (collect third md5 visits [])).map running).foldl restartWith ⊥ :=
    readFaults_from visits .start
  rw [rectangular_iff, joined.1, joined.2, ← flatten_featureSets, nested_eq_meets_iff]
  by_cases none : (collect third md5 visits []).flatten = []
  · have spent := allSpent_of_no_rows none
    exact iff_of_true (.inr spent) (.inr spent)
  · have common : meets (featureSets (collect third md5 visits [])).flatten ≠ ⊥ ↔
        ∃ key, ∀ row ∈ (collect third md5 visits []).flatten, key ∈ row.feat := by
      rw [flatten_featureSets, Finset.bot_eq_empty, ← Finset.nonempty_iff_ne_empty]
      exact exists_congr fun key => (mem_meets_iff _ key).trans (and_iff_right none)
    rw [common]

def emptySection : Visit where
  -- a run whose first section behind the warm-up has no feature
  fault := "GeneralFetchInjectedFault"
  groundtruth := []
  stats := some ("Begin Simulation Statistics\nEnd Simulation Statistics\n\n".toList ++
    "Begin Simulation Statistics\nEnd Simulation Statistics\n\n".toList ++
    "Begin Simulation Statistics\nsim_ticks 5 # ticks\nEnd Simulation Statistics\n".toList)
  output := some []

/-- The heading has a column that the first row does not have. -/
theorem empty_section_raises :
    (dataProcessor id [emptySection]).commonFeatures = {"sim_ticks".toList} ∧
      writeRows ["sim_ticks".toList] (dataProcessor id [emptySection]).allData = none := by
  decide +kernel

end Columns

end GemFi.TrainingTable
