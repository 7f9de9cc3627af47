import Mathlib.Data.List.TakeWhile
import GemFi.FirstOfEach
import GemFi.TrainingTable

/-!
The sections that read_stats keeps. A section is known by the text of its features and
values with nothing between them, and the flag that a malformed line sets is never
cleared.
-/

namespace GemFi.KeptSections

open FirstOfEach TrainingTable

abbrev Section := List Text

def isEnd (line : Text) : Bool :=
  line ≠ [] ∧ ¬found "Begin Simulation Statistics" line ∧ found "End Simulation Statistics" line

def isContent (line : Text) : Bool :=
  line ≠ [] ∧ ¬found "Begin Simulation Statistics" line ∧ ¬found "End Simulation Statistics" line

def addLine (sec : Section) (line : Text) : Section :=
  -- the lines of a section after one more
  if isContent line then sec ++ [line] else sec

def sectionsIn : Section → List Text → List Section
  | _, [] => []
  | sec, line :: rest =>
      if isEnd line then sec :: sectionsIn [] rest else sectionsIn (addLine sec line) rest

def sections (contents : Text) : List Section := (sectionsIn [] (contents.splitOn '\n')).tail

def fields (line : Text) : List Text := (line.splitOn ' ').filter (· ≠ [])

/-- A section without a malformed line. -/
def Sound (sec : Section) : Prop := ∀ line ∈ sec, 2 ≤ (fields line).length

instance (sec : Section) : Decidable (Sound sec) := inferInstanceAs (Decidable (∀ line ∈ sec, _))

def pairOf (line : Text) : Option (Text × Text) :=
  -- the feature and the value of a line, unless the feature is one of those that are skipped or the
  -- value is no number
  match fields line with
  | key :: val :: _ =>
      if String.ofList key ∈ skipFeatures ∨ val = "nan".toList ∨ val = "inf".toList then none
      else some (key, val)
  | _ => none

def pairs (sec : Section) : List (Text × Text) := sec.filterMap pairOf

def text (sec : Section) : Text := (pairs sec).flatMap fun pair => pair.1 ++ pair.2

section Runs

variable {Digest : Type} [DecidableEq Digest]

def outcomesIn (md5 : Text → Digest) (label : Nat) :
    Reading Digest → Section → List Text → List (Section × Bool)
  | _, _, [] => []
  | s, sec, line :: rest =>
      if isEnd line then
        (sec, decide (s.data.length < (readLine md5 label s line).data.length)) ::
          outcomesIn md5 label (readLine md5 label s line) [] rest
      else outcomesIn md5 label (readLine md5 label s line) (addLine sec line) rest

def outcomes (md5 : Text → Digest) (label : Nat) (contents : Text) (featureHash : List Digest) :
    List (Section × Bool) :=
  -- the sections of a file behind the warm-up, each with whether read_stats keeps it
  (outcomesIn md5 label (.start featureHash) [] (contents.splitOn '\n')).tail

def keptOf (outcomes : List (Section × Bool)) : List Section :=
  (outcomes.filter Prod.snd).map Prod.fst

def readFiles (md5 : Text → Digest) (history : List (Nat × Text)) : List Digest × List Section :=
  -- the hashes and the sections that are kept after the files before
  history.foldl (fun before file =>
    ((readStats md5 file.1 file.2 before.1).featureHash,
      before.2 ++ keptOf (outcomes md5 file.1 file.2 before.1))) ([], [])

/-- After a history of files, read_stats keeps the sections of one more that it should. -/
structure KeepsExactly (md5 : Text → Digest) (history : List (Nat × Text)) (label : Nat)
    (contents : Text) : Prop where
  exact : ∀ before sec kept after,
    outcomes md5 label contents (readFiles md5 history).1 = before ++ (sec, kept) :: after →
      (kept = true ↔ Sound sec ∧
        ∀ earlier ∈ (readFiles md5 history).2 ++ keptOf before, pairs earlier ≠ pairs sec)
  uninfluenced : ∀ before sec kept after contents',
    outcomes md5 label contents (readFiles md5 history).1 = before ++ (sec, kept) :: after →
      ¬Sound sec → sections contents' = before.map Prod.fst ++ after.map Prod.fst →
      outcomes md5 label contents' (readFiles md5 history).1 = before ++ after

end Runs

def readable (secs : List Section) : List Section := secs.takeWhile fun sec => decide (Sound sec)

def earlierReadable (history : List (Nat × Text)) : List Section :=
  -- the readable sections of the files before
  history.flatMap fun file => readable (sections file.2)

/-- A section can be known by its text where it stands: the first readable section with the
text has the same features and values, or none has it and nothing before is malformed. -/
def Recognised (earlier before : List Section) (sec : Section) : Prop :=
  match (earlier ++ readable before).find? fun other => text other = text sec with
  | some first => pairs first = pairs sec
  | none => ∀ other ∈ before, Sound other

section Texts

theorem sound_concat (sec : Section) (line : Text) :
    Sound (sec ++ [line]) ↔ Sound sec ∧ 2 ≤ (fields line).length := by
  simp [Sound, or_imp, forall_and]

theorem text_concat (sec : Section) (line : Text) : text (sec ++ [line]) = text sec ++ text [line] := by
  simp [text, pairs]

theorem mem_texts_concat (secs : List Section) (sec : Section) (t : Text) :
    t ∈ (secs ++ [sec]).map text ↔ t ∈ secs.map text ∨ t = text sec := by
  rw [List.map_append, List.mem_append, List.map_singleton, List.mem_singleton]

theorem text_of_pairs {a b : Section} (same : pairs a = pairs b) : text a = text b := by
  rw [text, text, same]

theorem readable_eq {secs : List Section} (sound : ∀ sec ∈ secs, Sound sec) :
    readable secs = secs := by
  rw [readable, List.takeWhile_eq_self_iff]
  exact fun sec member => decide_eq_true (sound sec member)

theorem readable_append_of_malformed {secs : List Section} (malformed : ¬∀ sec ∈ secs, Sound sec)
    (later : List Section) : readable (secs ++ later) = readable secs := by
  rw [readable, List.takeWhile_append, if_neg]
  · rfl
  · intro whole
    have same := (List.takeWhile_prefix _).eq_of_length whole
    rw [List.takeWhile_eq_self_iff] at same
    exact malformed fun sec member => of_decide_eq_true (same sec member)

theorem readable_concat_of_malformed (secs : List Section) {sec : Section}
    (malformed : ¬Sound sec) : readable (secs ++ [sec]) = readable secs := by
  by_cases sound : ∀ other ∈ secs, Sound other
  · rw [readable, List.takeWhile_append_of_pos fun other member => decide_eq_true (sound other member),
      List.takeWhile_cons_of_neg (by simpa using malformed), List.append_nil, readable_eq sound]
  · exact readable_append_of_malformed sound [sec]

theorem sound_append_iff (secs : List Section) (sec : Section) :
    (∀ other ∈ secs ++ [sec], Sound other) ↔ (∀ other ∈ secs, Sound other) ∧ Sound sec := by
  simp [or_imp, forall_and]

end Texts

section Decisions

/-- Whether the section is kept: nothing before in the file is malformed, nor itself, and its
text is new. -/
def Keeps (earlier before : List Section) (sec : Section) : Prop :=
  ((∀ other ∈ before, Sound other) ∧ Sound sec) ∧
    text sec ∉ (earlier ++ readable before).map text

instance (earlier before : List Section) (sec : Section) : Decidable (Keeps earlier before sec) :=
  inferInstanceAs (Decidable ((_ ∧ _) ∧ _))

def decided (earlier : List Section) : List Section → List Section → List (Section × Bool)
  -- the sections of a file with whether they are kept, behind some of them
  | _, [] => []
  | before, sec :: rest => (sec, decide (Keeps earlier before sec)) ::
      decided earlier (before ++ [sec]) rest

variable {earlier : List Section}

theorem decided_map_fst (before secs : List Section) :
    (decided earlier before secs).map Prod.fst = secs := by
  induction secs generalizing before with
  | nil => rfl
  | cons sec rest ih => rw [decided, List.map_cons, ih]

theorem decided_append (before secs later : List Section) :
    decided earlier before (secs ++ later) =
      decided earlier before secs ++ decided earlier (before ++ secs) later := by
  induction secs generalizing before with
  | nil => rw [List.nil_append, List.append_nil]; rfl
  | cons sec rest ih =>
      rw [List.cons_append, decided, decided, ih, List.cons_append, List.append_assoc]
      rfl

theorem decided_split {secs : List Section} {first rest : List (Section × Bool)} {sec : Section}
    {kept : Bool} (split : decided earlier [] secs = first ++ (sec, kept) :: rest) :
    secs = first.map Prod.fst ++ sec :: rest.map Prod.fst ∧
      first = decided earlier [] (first.map Prod.fst) ∧
      kept = decide (Keeps earlier (first.map Prod.fst) sec) ∧
      rest = decided earlier (first.map Prod.fst ++ [sec]) (rest.map Prod.fst) := by
  have whole := congrArg (List.map Prod.fst) split
  rw [decided_map_fst, List.map_append, List.map_cons] at whole
  rw [whole, decided_append, List.nil_append, decided] at split
  have long : (decided earlier [] (first.map Prod.fst)).length = first.length := by
    rw [← List.length_map Prod.fst, decided_map_fst, List.length_map]
  obtain ⟨front, back⟩ := List.append_inj split long
  obtain ⟨here, behind⟩ := List.cons.inj back
  exact ⟨whole, front.symm, (congrArg Prod.snd here).symm, behind.symm⟩

theorem decided_congr {a b secs : List Section}
    (same : ∀ first sec rest, secs = first ++ sec :: rest →
      (Keeps earlier (a ++ first) sec ↔ Keeps earlier (b ++ first) sec)) :
    decided earlier a secs = decided earlier b secs := by
  induction secs generalizing a b with
  | nil => rfl
  | cons sec rest ih =>
      have here := same [] sec rest rfl
      rw [List.append_nil, List.append_nil] at here
      rw [decided, decided, decide_eq_decide.mpr here, ih]
      intro first other later split
      have there := same (sec :: first) other later (by rw [split, List.cons_append])
      rwa [List.append_cons a, List.append_cons b] at there

/-- The kept sections of a file, behind those that are kept already, are the first of each
text. -/
theorem firsts_keptOf_decided (earlier before secs : List Section) :
    firsts text (earlier ++ readable before) ++ keptOf (decided earlier before secs) =
      firsts text (earlier ++ readable (before ++ secs)) := by
  induction secs generalizing before with
  | nil => rw [decided, List.append_nil]; exact List.append_nil _
  | cons sec rest ih =>
      rw [List.append_cons before, ← ih]
      by_cases clean : (∀ other ∈ before, Sound other) ∧ Sound sec
      · rw [readable_eq ((sound_append_iff before sec).mpr clean), readable_eq clean.1,
          ← List.append_assoc, firsts_concat, keep]
        by_cases seen : text sec ∈ (firsts text (earlier ++ before)).map text
        · have drops : ¬Keeps earlier before sec := by
            intro keeps
            rw [Keeps, readable_eq clean.1, ← mem_keys_firsts_iff] at keeps
            exact keeps.2 seen
          rw [if_pos seen, decided, decide_eq_false drops]
          rfl
        · have keeps : Keeps earlier before sec := by
            rw [Keeps, readable_eq clean.1, ← mem_keys_firsts_iff]
            exact ⟨clean, seen⟩
          rw [if_neg seen, decided, decide_eq_true keeps, List.append_assoc]
          rfl
      · have drops : ¬Keeps earlier before sec := fun keeps => clean keeps.1
        have same : readable (before ++ [sec]) = readable before := by
          by_cases sound : ∀ other ∈ before, Sound other
          · exact readable_concat_of_malformed before fun this => clean ⟨sound, this⟩
          · exact readable_append_of_malformed sound [sec]
        rw [same, decided, decide_eq_false drops]
        rfl

end Decisions

section Readings

variable {Digest : Type} [DecidableEq Digest] {md5 : Text → Digest} {label : Nat}
  {earlier before : List Section} {sec : Section} {s : Reading Digest} {line : Text}

omit [DecidableEq Digest] in
theorem readFeature_malformed (short : ¬2 ≤ (fields line).length) (s : Reading Digest) :
    readFeature line s = { s with removeThisInput := true } ∧ pairOf line = none := by
  cases shape : fields line with
  | nil =>
      have split : (line.splitOn ' ').filter (· ≠ []) = [] := shape
      unfold readFeature pairOf
      rw [split, shape]
      exact ⟨rfl, rfl⟩
  | cons key rest =>
      cases rest with
      | nil =>
          have split : (line.splitOn ' ').filter (· ≠ []) = [key] := shape
          unfold readFeature pairOf
          rw [split, shape]
          exact ⟨rfl, rfl⟩
      | cons val more => exact (short (by rw [shape]; exact Nat.le_add_left 2 _)).elim

omit [DecidableEq Digest] in
theorem readFeature_pair (long : 2 ≤ (fields line).length) (s : Reading Digest) :
    readFeature line s = s ∧ pairOf line = none ∨
      ∃ key val, pairOf line = some (key, val) ∧ readFeature line s =
        { s with feat := s.feat.insert key (.text val), featureStr := s.featureStr ++ key ++ val } := by
  cases shape : fields line with
  | nil => rw [shape] at long; exact (Nat.not_succ_le_zero 1 long).elim
  | cons key rest =>
      cases rest with
      | nil => rw [shape] at long; exact (Nat.not_succ_le_self 1 long).elim
      | cons val more =>
          have split : (line.splitOn ' ').filter (· ≠ []) = key :: val :: more := shape
          unfold readFeature pairOf
          rw [split, shape]
          dsimp only
          by_cases skipped : String.ofList key ∈ skipFeatures ∨ val = "nan".toList ∨
              val = "inf".toList
          · rw [if_pos skipped, if_pos skipped]
            exact Or.inl ⟨rfl, rfl⟩
          · rw [if_neg skipped, if_neg skipped]
            exact Or.inr ⟨key, val, rfl, rfl⟩

omit [DecidableEq Digest] in
theorem readFeature_removes (line : Text) (s : Reading Digest) :
    (readFeature line s).removeThisInput = false ↔
      s.removeThisInput = false ∧ 2 ≤ (fields line).length := by
  by_cases long : 2 ≤ (fields line).length
  · rw [and_iff_left long]
    obtain ⟨same, _⟩ | ⟨key, val, _, adds⟩ := readFeature_pair long s
    · rw [same]
    · rw [adds]
  · rw [(readFeature_malformed long s).1]
    exact iff_of_false Bool.noConfusion fun both => long both.2

omit [DecidableEq Digest] in
theorem readFeature_string (line : Text) (s : Reading Digest) :
    (readFeature line s).featureStr = s.featureStr ++ text [line] := by
  by_cases long : 2 ≤ (fields line).length
  · obtain ⟨same, none⟩ | ⟨key, val, pair, adds⟩ := readFeature_pair long s
    · rw [same, text, pairs, List.filterMap_cons_none none]
      exact (List.append_nil _).symm
    · rw [adds, text, pairs, List.filterMap_cons_some pair]
      simp
  · obtain ⟨removes, none⟩ := readFeature_malformed long s
    rw [removes, text, pairs, List.filterMap_cons_none none]
    exact (List.append_nil _).symm

omit [DecidableEq Digest] in
theorem readFeature_keeps (line : Text) (s : Reading Digest) :
    (readFeature line s).skippedWarmup = s.skippedWarmup ∧
      (readFeature line s).featureHash = s.featureHash := by
  unfold readFeature
  split
  · split <;> exact ⟨rfl, rfl⟩
  · exact ⟨rfl, rfl⟩

theorem readLine_end (ends : isEnd line = true) (s : Reading Digest) :
    readLine md5 label s line = { endSection md5 label s with featureStr := [] } := by
  obtain ⟨filled, noBegin, isLast⟩ := of_decide_eq_true ends
  rw [readLine, if_neg filled, if_neg noBegin, if_pos isLast]

theorem readLine_content (content : isContent line = true) (s : Reading Digest) :
    readLine md5 label s line = if s.skippedWarmup then readFeature line s else s := by
  obtain ⟨filled, noBegin, noEnd⟩ := of_decide_eq_true content
  rw [readLine, if_neg filled, if_neg noBegin, if_neg noEnd]

theorem readLine_other (md5 : Text → Digest) (label : Nat) (noEnd : ¬isEnd line = true)
    (noContent : ¬isContent line = true) (s : Reading Digest) :
    readLine md5 label s line = s ∨ readLine md5 label s line = { s with feat := ∅ } := by
  unfold readLine
  split
  · exact Or.inl rfl
  next filled =>
    split
    · exact Or.inr rfl
    next noBegin =>
      split
      next isLast => exact (noEnd (decide_eq_true ⟨filled, noBegin, isLast⟩)).elim
      next inside => exact (noContent (decide_eq_true ⟨filled, noBegin, inside⟩)).elim

structure Follows (md5 : Text → Digest) (earlier before : List Section) (sec : Section)
    (s : Reading Digest) : Prop where
  warm : s.skippedWarmup = true
  removed : s.removeThisInput = false ↔ (∀ other ∈ before, Sound other) ∧ Sound sec
  string : s.featureStr = text sec
  hashed : ∀ t, md5 t ∈ s.featureHash ↔ t ∈ (earlier ++ readable before).map text

structure Warming (featureHash : List Digest) (s : Reading Digest) : Prop where
  cold : s.skippedWarmup = false
  removed : s.removeThisInput = false
  string : s.featureStr = []
  hashed : s.featureHash = featureHash

omit [DecidableEq Digest] in
theorem follows_addFeature (follows : Follows md5 earlier before sec s) (line : Text) :
    Follows md5 earlier before (sec ++ [line]) (readFeature line s) := by
  obtain ⟨warm, hash⟩ := readFeature_keeps line s
  refine ⟨warm.trans follows.warm, ?_, ?_, ?_⟩
  · rw [readFeature_removes, follows.removed, sound_concat, and_assoc]
  · rw [readFeature_string, follows.string, text_concat]
  · rw [hash]
    exact follows.hashed

theorem follows_line (follows : Follows md5 earlier before sec s) (noEnd : ¬isEnd line = true) :
    Follows md5 earlier before (addLine sec line) (readLine md5 label s line) := by
  unfold addLine
  split
  next content =>
    rw [readLine_content content, if_pos follows.warm]
    exact follows_addFeature follows line
  next noContent =>
    obtain same | cleared := readLine_other md5 label noEnd noContent s
    · rw [same]
      exact follows
    · rw [cleared]
      exact ⟨follows.warm, follows.removed, follows.string, follows.hashed⟩

theorem warming_line {featureHash : List Digest} (warming : Warming featureHash s)
    (noEnd : ¬isEnd line = true) : Warming featureHash (readLine md5 label s line) := by
  by_cases content : isContent line = true
  · rw [readLine_content content, if_neg (by rw [warming.cold]; decide)]
    exact warming
  · obtain same | cleared := readLine_other md5 label noEnd content s
    · rw [same]
      exact warming
    · rw [cleared]
      exact ⟨warming.cold, warming.removed, warming.string, warming.hashed⟩

/-- At the end of a section a row is added when the section is kept, and its text joins the
texts that are known. -/
theorem follows_end (label : Nat) (collisionFree : Function.Injective md5)
    (follows : Follows md5 earlier before sec s) (ends : isEnd line = true) :
    (s.data.length < (readLine md5 label s line).data.length ↔ Keeps earlier before sec) ∧
      Follows md5 earlier (before ++ [sec]) [] (readLine md5 label s line) := by
  have emptySound : Sound [] := fun _ member => (List.not_mem_nil member).elim
  rw [readLine_end ends, endSection]
  by_cases clean : (∀ other ∈ before, Sound other) ∧ Sound sec
  · have goesOn : s.removeThisInput = false := follows.removed.mpr clean
    have grown : readable (before ++ [sec]) = readable before ++ [sec] := by
      rw [readable_eq ((sound_append_iff before sec).mpr clean), readable_eq clean.1]
    rw [if_pos (by rw [follows.warm, goesOn]; rfl)]
    by_cases seen : md5 s.featureStr ∈ s.featureHash
    · have known : text sec ∈ (earlier ++ readable before).map text := by
        rw [← follows.hashed, ← follows.string]
        exact seen
      rw [if_pos seen]
      refine ⟨iff_of_false (Nat.lt_irrefl _) fun keeps => keeps.2 known, follows.warm, ?_, rfl, ?_⟩
      · exact iff_of_true goesOn ⟨(sound_append_iff before sec).mpr clean, emptySound⟩
      · intro t
        refine (follows.hashed t).trans ?_
        rw [grown, ← List.append_assoc, mem_texts_concat]
        exact ⟨Or.inl, fun this => this.elim id fun same => same ▸ known⟩
    · have fresh : text sec ∉ (earlier ++ readable before).map text := by
        rw [← follows.hashed, ← follows.string]
        exact seen
      rw [if_neg seen]
      refine ⟨iff_of_true ?_ ⟨clean, fresh⟩, follows.warm, ?_, rfl, ?_⟩
      · rw [List.length_append]
        exact Nat.lt_succ_self _
      · exact iff_of_true goesOn ⟨(sound_append_iff before sec).mpr clean, emptySound⟩
      · intro t
        rw [grown, ← List.append_assoc, mem_texts_concat, ← follows.hashed, ← follows.string,
          List.mem_cons, collisionFree.eq_iff, or_comm]
  · have stops : s.removeThisInput = true := by
      rw [← Bool.not_eq_false, follows.removed]
      exact clean
    have same : readable (before ++ [sec]) = readable before := by
      by_cases sound : ∀ other ∈ before, Sound other
      · exact readable_concat_of_malformed before fun this => clean ⟨sound, this⟩
      · exact readable_append_of_malformed sound [sec]
    rw [if_neg (by rw [stops, Bool.not_true, Bool.and_false]; decide)]
    refine ⟨iff_of_false (Nat.lt_irrefl _) fun keeps => clean keeps.1, rfl, ?_, rfl, ?_⟩
    · refine iff_of_false (by rw [stops]; decide) fun all => ?_
      exact clean ((sound_append_iff before sec).mp all.1)
    · rw [same]
      exact follows.hashed

theorem outcomesIn_follows (label : Nat) (collisionFree : Function.Injective md5)
    (follows : Follows md5 earlier before sec s) (lines : List Text) :
    outcomesIn md5 label s sec lines = decided earlier before (sectionsIn sec lines) ∧
      ∃ rest, Follows md5 earlier (before ++ sectionsIn sec lines) rest
        (lines.foldl (readLine md5 label) s) := by
  induction lines generalizing before sec s with
  | nil =>
      refine ⟨rfl, sec, ?_⟩
      rw [sectionsIn, List.append_nil]
      exact follows
  | cons line rest ih =>
      rw [outcomesIn, sectionsIn, List.foldl_cons]
      by_cases ends : isEnd line = true
      · obtain ⟨grows, next⟩ := follows_end label collisionFree follows ends
        obtain ⟨same, last, ended⟩ := ih next
        rw [if_pos ends, if_pos ends, same, decided, decide_eq_decide.mpr grows]
        rw [← List.append_cons before] at ended
        exact ⟨rfl, last, ended⟩
      · rw [if_neg ends, if_neg ends]
        exact ih (follows_line follows ends)

theorem follows_warmed (label : Nat) {featureHash : List Digest} (warming : Warming featureHash s)
    (known : ∀ t, md5 t ∈ featureHash ↔ t ∈ earlier.map text) (ends : isEnd line = true) :
    Follows md5 earlier [] [] (readLine md5 label s line) := by
  have none : earlier ++ readable [] = earlier := List.append_nil earlier
  rw [readLine_end ends, endSection, if_neg (by rw [warming.cold, Bool.false_and]; decide)]
  refine ⟨rfl, iff_of_true warming.removed ⟨?_, ?_⟩, rfl, ?_⟩
  · exact fun _ member => (List.not_mem_nil member).elim
  · exact fun _ member => (List.not_mem_nil member).elim
  · intro t
    rw [none, ← known, ← warming.hashed]

theorem outcomesIn_warming (collisionFree : Function.Injective md5) {featureHash : List Digest}
    (warming : Warming featureHash s) (known : ∀ t, md5 t ∈ featureHash ↔ t ∈ earlier.map text)
    (lines : List Text) :
    (outcomesIn md5 label s sec lines).tail = decided earlier [] (sectionsIn sec lines).tail ∧
      ∀ t, md5 t ∈ (lines.foldl (readLine md5 label) s).featureHash ↔
        t ∈ (earlier ++ readable (sectionsIn sec lines).tail).map text := by
  induction lines generalizing sec s with
  | nil =>
      refine ⟨rfl, fun t => ?_⟩
      have none : earlier ++ readable [] = earlier := List.append_nil earlier
      rw [List.foldl_nil, warming.hashed, known, sectionsIn, List.tail_nil, none]
  | cons line rest ih =>
      rw [outcomesIn, sectionsIn, List.foldl_cons]
      by_cases ends : isEnd line = true
      · have started := follows_warmed label warming known ends
        obtain ⟨same, last, ended⟩ := outcomesIn_follows label collisionFree started rest
        rw [if_pos ends, if_pos ends, List.tail_cons, List.tail_cons]
        exact ⟨same, ended.hashed⟩
      · rw [if_neg ends, if_neg ends]
        exact ih (warming_line warming ends)

theorem outcomes_eq (collisionFree : Function.Injective md5) {featureHash : List Digest}
    (known : ∀ t, md5 t ∈ featureHash ↔ t ∈ earlier.map text) (label : Nat) (contents : Text) :
    outcomes md5 label contents featureHash = decided earlier [] (sections contents) ∧
      ∀ t, md5 t ∈ (readStats md5 label contents featureHash).featureHash ↔
        t ∈ (earlier ++ readable (sections contents)).map text :=
  outcomesIn_warming collisionFree ⟨rfl, rfl, rfl, rfl⟩ known (contents.splitOn '\n')

end Readings

section Histories

variable {Digest : Type} [DecidableEq Digest] {md5 : Text → Digest}

theorem earlierReadable_concat (history : List (Nat × Text)) (file : Nat × Text) :
    earlierReadable (history ++ [file]) =
      earlierReadable history ++ readable (sections file.2) := by
  simp [earlierReadable]

theorem readFiles_concat (history : List (Nat × Text)) (file : Nat × Text) :
    readFiles md5 (history ++ [file]) =
      ((readStats md5 file.1 file.2 (readFiles md5 history).1).featureHash,
        (readFiles md5 history).2 ++ keptOf (outcomes md5 file.1 file.2 (readFiles md5 history).1)) := by
  rw [readFiles, List.foldl_append]
  rfl

/-- After a history of files the texts of the readable sections are known, and the first of each
text is kept. -/
theorem readFiles_known (collisionFree : Function.Injective md5) (history : List (Nat × Text)) :
    (∀ t, md5 t ∈ (readFiles md5 history).1 ↔ t ∈ (earlierReadable history).map text) ∧
      (readFiles md5 history).2 = firsts text (earlierReadable history) := by
  induction history using List.reverseRecOn with
  | nil => exact ⟨fun t => iff_of_false List.not_mem_nil List.not_mem_nil, rfl⟩
  | append_singleton history file ih =>
      obtain ⟨known, kept⟩ := ih
      obtain ⟨decisions, hashed⟩ := outcomes_eq collisionFree known file.1 file.2
      rw [readFiles_concat, earlierReadable_concat]
      refine ⟨hashed, ?_⟩
      have whole := firsts_keptOf_decided (earlierReadable history) [] (sections file.2)
      have none : earlierReadable history ++ readable [] = earlierReadable history :=
        List.append_nil _
      rw [none, List.nil_append] at whole
      rw [kept, decisions, whole]

end Histories

section Recognition

variable {earlier before after : List Section} {sec : Section}

theorem keeps_right_iff (sound : Sound sec) :
    (Keeps earlier before sec ↔
      ∀ other ∈ firsts text (earlier ++ readable before), pairs other ≠ pairs sec) ↔
      Recognised earlier before sec := by
  unfold Recognised
  cases search : (earlier ++ readable before).find? fun other => text other = text sec with
  | some first =>
      have same : text first = text sec := key_of_find search
      have member := List.mem_of_find?_eq_some search
      have drops : ¬Keeps earlier before sec := fun keeps =>
        keeps.2 (List.mem_map.mpr ⟨first, member, same⟩)
      rw [← same] at search
      have isKept : first ∈ firsts text (earlier ++ readable before) :=
        (mem_firsts_iff _ first).mpr search
      rw [iff_false_left drops]
      constructor
      · intro notAll
        by_contra differ
        refine notAll fun other otherKept equal => ?_
        have found := (mem_firsts_iff _ other).mp otherKept
        rw [text_of_pairs equal, ← same, search] at found
        exact differ (Option.some.inj found ▸ equal)
      · exact fun equal all => all first isKept equal
  | none =>
      have absent : text sec ∉ (earlier ++ readable before).map text := by
        intro known
        obtain ⟨other, member, same⟩ := List.mem_map.mp known
        exact List.find?_eq_none.mp search other member (decide_eq_true same)
      have fresh : ∀ other ∈ firsts text (earlier ++ readable before), pairs other ≠ pairs sec := by
        intro other otherKept equal
        refine absent ?_
        rw [← mem_keys_firsts_iff]
        exact List.mem_map.mpr ⟨other, otherKept, text_of_pairs equal⟩
      rw [iff_true_right fresh]
      exact ⟨fun keeps => keeps.1.1, fun all => ⟨⟨all, sound⟩, absent⟩⟩

/-- Where every section is known by its text, none behind a malformed one is kept, and without
that one it would not be kept either. -/
theorem decided_skips (malformed : ¬Sound sec)
    (recognised : ∀ first other rest, before ++ sec :: after = first ++ other :: rest →
      Sound other → Recognised earlier first other) :
    decided earlier before after = decided earlier (before ++ [sec]) after := by
  apply decided_congr
  intro first other rest split
  have never : ¬Keeps earlier (before ++ [sec] ++ first) other := by
    intro keeps
    refine malformed (keeps.1.1 sec ?_)
    exact List.mem_append_left _ (List.mem_append_right _ (List.mem_singleton_self sec))
  refine iff_of_false (fun keeps => ?_) never
  obtain ⟨⟨sound, otherSound⟩, fresh⟩ := keeps
  have beforeSound : ∀ one ∈ before, Sound one := fun one member =>
    sound one (List.mem_append_left _ member)
  have known := recognised (before ++ [sec] ++ first) other rest (by simp [split]) otherSound
  have stops : readable (before ++ [sec] ++ first) = before := by
    rw [readable_append_of_malformed, readable_concat_of_malformed before malformed,
      readable_eq beforeSound]
    exact fun all => malformed (all sec (List.mem_append_right _ (List.mem_singleton_self sec)))
  unfold Recognised at known
  rw [stops] at known
  cases search : (earlier ++ before).find? fun one => text one = text other with
  | some one =>
      have same : text one = text other := key_of_find search
      refine fresh ?_
      rw [readable_eq sound, ← same, ← List.append_assoc]
      exact List.mem_map_of_mem (List.mem_append_left _ (List.mem_of_find?_eq_some search))
  | none =>
      rw [search] at known
      refine malformed (known sec ?_)
      exact List.mem_append_left _ (List.mem_append_right _ (List.mem_singleton_self sec))

end Recognition

section Results

variable {Digest : Type} [DecidableEq Digest]

/-- read_stats keeps the sections that it should of a file, whatever was read before, if and
only if each section without a malformed line can be known by its text. -/
theorem keepsExactly_iff (md5 : Text → Digest) (collisionFree : Function.Injective md5)
    (history : List (Nat × Text)) (label : Nat) (contents : Text) :
    KeepsExactly md5 history label contents ↔
      ∀ before sec after, sections contents = before ++ sec :: after → Sound sec →
        Recognised (earlierReadable history) before sec := by
  obtain ⟨known, kept⟩ := readFiles_known collisionFree history
  obtain ⟨decisions, _⟩ := outcomes_eq collisionFree known label contents
  have keptBefore : ∀ before : List Section, (readFiles md5 history).2 ++
      keptOf (decided (earlierReadable history) [] before) =
        firsts text (earlierReadable history ++ readable before) := by
    intro before
    have whole := firsts_keptOf_decided (earlierReadable history) [] before
    have none : earlierReadable history ++ readable [] = earlierReadable history :=
      List.append_nil _
    rw [none, List.nil_append] at whole
    rw [kept, whole]
  constructor
  · intro keeps before sec after split sound
    have here := keeps.exact (decided (earlierReadable history) [] before) sec _
      (decided (earlierReadable history) (before ++ [sec]) after)
      (by rw [decisions, split, decided_append, List.nil_append, decided])
    rw [decide_eq_true_iff, keptBefore, and_iff_right sound] at here
    exact (keeps_right_iff sound).mp here
  · intro recognised
    constructor
    · intro before sec kept after split
      rw [decisions] at split
      obtain ⟨whole, first, decision, _⟩ := decided_split split
      rw [first, keptBefore, decision, decide_eq_true_iff]
      by_cases sound : Sound sec
      · rw [and_iff_right sound]
        exact (keeps_right_iff sound).mpr (recognised _ sec _ whole sound)
      · exact iff_of_false (fun keeps => sound keeps.1.2) fun both => sound both.1
    · intro before sec kept after contents' split malformed remaining
      rw [decisions] at split
      obtain ⟨whole, first, _, rest⟩ := decided_split split
      have same := decided_skips malformed fun one other later cut =>
        recognised one other later (whole.trans cut)
      rw [(outcomes_eq collisionFree known label contents').1, remaining, decided_append,
        List.nil_append, same, ← first, ← rest]

def twoSections : Text :=
  ("End Simulation Statistics\nsim_insts 5\nEnd Simulation Statistics\n" ++
    "sim_insts 6\nEnd Simulation Statistics").toList

theorem keepsExactly_twoSections :
    Function.Injective (@id Text) ∧ KeepsExactly id [] 1 twoSections := by
  refine ⟨Function.injective_id, (keepsExactly_iff id Function.injective_id [] 1 twoSections).mpr ?_⟩
  intro before sec after split _
  have whole : sections twoSections = [["sim_insts 5".toList], ["sim_insts 6".toList]] := by
    decide +kernel
  rw [whole] at split
  match before, split with
  | [], _ => exact fun other member => (List.not_mem_nil member).elim
  | [first], split =>
      cases split
      have differs : ((earlierReadable [] ++ readable [["sim_insts 5".toList]]).find? fun other =>
          text other = text ["sim_insts 6".toList]) = none := by decide +kernel
      unfold Recognised
      rw [differs]
      decide +kernel
  | _ :: _ :: _, split =>
      have tooLong := congrArg List.length split
      simp at tooLong

def afterMalformed : Text :=
  -- a warm-up, a section whose only line has one field, and one more
  ("End Simulation Statistics\nsim_insts\nEnd Simulation Statistics\n" ++
    "sim_insts 5\nEnd Simulation Statistics").toList

/-- The section behind the malformed one is lost. -/
theorem section_lost_after_malformed : ¬KeepsExactly id [] 1 afterMalformed := by
  intro keeps
  have run : outcomes id 1 afterMalformed (readFiles id []).1 =
      [(["sim_insts".toList], false)] ++ (["sim_insts 5".toList], false) :: [] := by decide +kernel
  have right := keeps.exact _ _ _ _ run
  have nothing : (readFiles id []).2 ++ keptOf [(["sim_insts".toList], false)] = [] := rfl
  rw [nothing] at right
  have sound : Sound ["sim_insts 5".toList] := by decide +kernel
  exact Bool.noConfusion (right.mpr ⟨sound, fun other member => (List.not_mem_nil member).elim⟩)

end Results

end GemFi.KeptSections
