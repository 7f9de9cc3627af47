import GemFi.FaultFile

/-!
The records of the fault file as they are written, in the format of
fi/description and of `print_faults` in util/create_exp/final_create_exp.c, and
what the constructors read from them. Each constructor stops right behind the last
field of its record. On a stream with nothing left it either fails an assertion or
makes an object of what memory held.
-/

namespace GemFi.FaultRecords

open ThreadInfo FaultQueue FaultScan TokenStream FaultFile

section Lines

def Solid (field : List Char) : Prop := field ≠ [] ∧ ∀ c ∈ field, isSpace c = false

instance : DecidablePred Solid := fun field =>
  @instDecidableAnd _ _ instDecidableNot (List.decidableBAll _ field)

abbrev Field := { s : String // Solid s.toList }

abbrev CInt := { n : Int // -2 ^ 31 ≤ n ∧ n < 2 ^ 31 }

inductive What where
  | immd (value : Word)
  | mask (value : Word)
  | flip (value : Word)
  | all0
  | all1

/-- The class of a record, with the fields only that class has. The registers of a
decoding fault are written `SrcREG:REG`, or `separated` as `Src:REG:REG`. -/
inductive Target where
  | generalFetch | iewStage | loadStore | opCode | pc
  | register (regType : RegisterType) (number : CInt)
  | registerDecoding (side : RegisterSide) (separated : Bool)
      (regToChange changeToReg : Fin (2 ^ 31))

structure FaultLine where
  target : Target
  timingType : TimingType
  timing : Fin (2 ^ 63)
  what : What
  thread : Field
  where_ : Field
  occurrence : CInt
  tcontext : CInt

def unsigned (n : Nat) : List Char := Nat.toDigits 10 n

/-- `%d` of printf. -/
def decimal (n : Int) : List Char :=
  if n < 0 then '-' :: unsigned n.natAbs else unsigned n.natAbs

def Target.className : Target → String
  | .generalFetch => "GeneralFetchInjectedFault"
  | .iewStage => "IEWStageInjectedFault"
  | .loadStore => "LoadStoreInjectedFault"
  | .opCode => "OpCodeInjectedFault"
  | .pc => "PCInjectedFault"
  | .register _ _ => "RegisterInjectedFault"
  | .registerDecoding _ _ _ _ => "RegisterDecodingInjectedFault"

def Target.faultType : Target → FaultType
  | .generalFetch => .generalFetch
  | .iewStage => .execution
  | .loadStore => .loadStore
  | .opCode => .opCode
  | .pc => .pc
  | .register _ _ => .register
  | .registerDecoding _ _ _ _ => .registerDecoding

def timingKey : TimingType → String
  | .tick => "Tick"
  | .instruction => "Inst"
  | .virtualAddr => "Addr"

def What.key : What → String
  | .immd _ => "Immd"
  | .mask _ => "Mask"
  | .flip _ => "Flip"
  | .all0 => "All0"
  | .all1 => "All1"

def What.text (what : What) : List Char :=
  what.key.toList ++ match what with
    | .immd value | .mask value | .flip value => ':' :: unsigned value.toNat
    | .all0 | .all1 => []

def What.valueType : What → ValueType
  | .immd _ => .immediate
  | .mask _ => .mask
  | .flip _ => .flipBit
  | .all0 | .all1 => .all

def What.value : What → Word
  | .immd value | .mask value | .flip value => value
  | .all0 => 0
  | .all1 => 1

def regTypeText : RegisterType → String
  | .integer => "int"
  | .float => "float"
  | .misc => "misc"

def sideText : RegisterSide → String
  | .src => "Src"
  | .dst => "Dst"

def regToChangeText (separated : Bool) (n : Nat) : List Char :=
  -- the register to change, as it is written behind `Src` or `Dst`
  if separated then ':' :: unsigned n else unsigned n

def Target.fields : Target → List (List Char)
  | .generalFetch | .iewStage | .loadStore | .opCode | .pc => []
  | .register regType number => [(regTypeText regType).toList, decimal number]
  | .registerDecoding side separated regToChange changeToReg =>
      [(sideText side).toList ++ regToChangeText separated regToChange ++
        ':' :: unsigned changeToReg]

namespace FaultLine

def when_ (line : FaultLine) : List Char :=
  (timingKey line.timingType).toList ++ ':' :: unsigned line.timing

def fields (line : FaultLine) : List (List Char) :=
  -- the fields in the order in which the constructors read them
  [line.when_, line.what.text, line.thread.val.toList, line.where_.val.toList,
    decimal line.occurrence, decimal line.tcontext] ++ line.target.fields

def text (line : FaultLine) : List Char :=
  line.target.className.toList ++ line.fields.flatMap (' ' :: ·)

end FaultLine

def Target.Written (p : Fault) : Target → Prop
  -- the fields that only the class has are those written
  | .generalFetch | .iewStage | .loadStore | .opCode | .pc => True
  | .register regType number => p.regType = regType ∧ p.register = number
  | .registerDecoding side _ regToChange changeToReg =>
      p.srcOrDst = side ∧ p.regToChange = (regToChange : Nat) ∧
        p.changeToReg = (changeToReg : Nat)

structure CreatedFrom (line : FaultLine) (c : Creation) : Prop where
  faultType : c.faultType = some line.target.faultType
  queue : c.queue = some (stageOf line.target.faultType)
  when_ : c.fault.when_ = String.ofList line.when_
  what : c.fault.what = String.ofList line.what.text
  thread : c.fault.thread = line.thread
  where_ : c.fault.where_ = line.where_
  timingType : c.fault.timingType = line.timingType
  timing : c.fault.timing = BitVec.ofNat 64 line.timing
  valueType : c.fault.valueType = line.what.valueType
  value : c.fault.value = line.what.value
  occurrence : c.fault.occurrence = line.occurrence
  tcontext : c.fault.tcontext = line.tcontext
  extra : line.target.Written c.fault

end Lines

section Numerals

theorem readDigits_digits (digits : List Char) (all : ∀ c ∈ digits, c.isDigit = true)
    (value : Nat) : readDigits digits value = Nat.ofDigitChars 10 digits value := by
  induction digits generalizing value with
  | nil => rfl
  | cons c rest ih =>
      have digit : c.isDigit = true := all c (by simp)
      have others : ∀ c ∈ rest, c.isDigit = true := fun d member => all d (by simp [member])
      simp only [readDigits, digit, if_true, Nat.ofDigitChars_cons]
      exact ih others _

theorem unsigned_digits (n : Nat) : ∀ c ∈ unsigned n, c.isDigit = true :=
  fun _ member => Nat.isDigit_of_mem_toDigits (by omega) (by omega) member

theorem unsigned_ne_nil (n : Nat) : unsigned n ≠ [] := Nat.toDigits_ne_nil

theorem readDigits_unsigned (n : Nat) : readDigits (unsigned n) 0 = n := by
  rw [readDigits_digits _ (unsigned_digits n)]
  exact Nat.ofDigitChars_ten_toDigits

theorem digit_range {c : Char} (digit : c.isDigit = true) : 48 ≤ c.toNat ∧ c.toNat ≤ 57 := by
  simpa [Char.isDigit, UInt32.le_iff_toNat_le] using digit

theorem digit_not_blank {c : Char} (digit : c.isDigit = true) : isSpace c = false := by
  have range := digit_range digit
  have notBlank : c ≠ ' ' := by
    rintro rfl
    exact absurd range (by decide)
  have notControl : ¬ (9 ≤ c.toNat ∧ c.toNat ≤ 13) := by omega
  simpa [isSpace, notBlank] using notControl

theorem dropWhile_digits (digits : List Char) (all : ∀ c ∈ digits, c.isDigit = true) :
    digits.dropWhile isSpace = digits := by
  cases digits with
  | nil => rfl
  | cons c rest => simp [digit_not_blank (all c List.mem_cons_self)]

theorem strtol_digits (digits : List Char) (all : ∀ c ∈ digits, c.isDigit = true) :
    strtol (String.ofList digits) = min (readDigits digits 0 : Int) (2 ^ 63 - 1) := by
  have positive : max (-2 ^ 63) (min (readDigits digits 0 : Int) (2 ^ 63 - 1)) =
      min (readDigits digits 0 : Int) (2 ^ 63 - 1) := by omega
  simp only [strtol, String.toList_ofList, dropWhile_digits _ all]
  split
  · exact absurd (all '-' List.mem_cons_self) (by decide)
  · exact absurd (all '+' List.mem_cons_self) (by decide)
  · exact positive

theorem strtol_negative (digits : List Char) :
    strtol (String.ofList ('-' :: digits)) = max (-2 ^ 63) (-(readDigits digits 0 : Int)) := by
  simp [strtol, isSpace]

theorem strtol_decimal (n : Int) (range : -2 ^ 63 ≤ n ∧ n < 2 ^ 63) :
    strtol (String.ofList (decimal n)) = n := by
  unfold decimal
  split
  · rw [strtol_negative, readDigits_unsigned]
    omega
  · rw [strtol_digits _ (unsigned_digits _), readDigits_unsigned]
    omega

theorem strtoll_unsigned (n : Fin (2 ^ 63)) :
    strtoll (String.ofList (unsigned n)) = BitVec.ofNat 64 n := by
  have range := n.isLt
  rw [strtoll, strtol_digits _ (unsigned_digits _), readDigits_unsigned,
    min_eq_left (by omega), BitVec.ofInt_natCast]

theorem strtoul_digits (digits : List Char) (all : ∀ c ∈ digits, c.isDigit = true) :
    strtoul (String.ofList digits) =
      saturate (readDigits digits 0) (BitVec.ofNat 64 (readDigits digits 0)) := by
  simp only [strtoul, String.toList_ofList, dropWhile_digits _ all]
  split
  · exact absurd (all '-' List.mem_cons_self) (by decide)
  · exact absurd (all '+' List.mem_cons_self) (by decide)
  · rfl

theorem strtoul_unsigned (v : Word) : strtoul (String.ofList (unsigned v.toNat)) = v := by
  rw [strtoul_digits _ (unsigned_digits _), readDigits_unsigned, saturate, if_pos v.isLt,
    BitVec.ofNat_toNat, BitVec.setWidth_eq]

theorem atoi_decimal (n : Nat) (range : n < 2 ^ 31) : atoi (String.ofList (unsigned n)) = n := by
  rw [atoi, strtol_digits _ (unsigned_digits _), readDigits_unsigned, min_eq_left (by omega),
    BitVec.toInt_ofInt]
  exact Int.bmod_eq_of_le (by omega) (by omega)

end Numerals

section Fields

variable {gap field rest : List Char}

theorem blank_not_digit {c : Char} (blank : isSpace c = true) : c.isDigit = false := by
  by_contra digit
  have solid := digit_not_blank (Bool.eq_true_of_not_eq_false digit)
  rw [blank] at solid
  cases solid

theorem splitDigits_digits {digits : List Char} (all : ∀ c ∈ digits, c.isDigit = true)
    (ends : Delimited isSpace rest) : splitDigits (digits ++ rest) = (digits, rest) := by
  have stop : rest.takeWhile Char.isDigit = [] ∧ rest.dropWhile Char.isDigit = rest := by
    cases rest with
    | nil => exact ⟨rfl, rfl⟩
    | cons c rest =>
        have digit := blank_not_digit (ends c rfl)
        simp [digit]
  simp only [splitDigits, List.takeWhile_append_of_pos all, List.dropWhile_append_of_pos all,
    stop, List.append_nil]

theorem numeral_split (n : Int) (ends : Delimited isSpace rest) :
    numeral.split (decimal n ++ rest) = (decimal n, rest) := by
  have cut := splitDigits_digits (unsigned_digits n.natAbs) ends
  unfold decimal
  split
  · simp only [numeral, List.cons_append, cut]
  · obtain ⟨c, digits, shape⟩ := List.exists_cons_of_ne_nil (unsigned_ne_nil n.natAbs)
    have digit := unsigned_digits n.natAbs c (by simp [shape])
    rw [shape] at cut ⊢
    simp only [numeral, List.cons_append]
    split
    · rename_i same
      cases same
      cases digit
    · rename_i same
      cases same
      cases digit
    · exact cut

theorem unsigned_solid (n : Nat) : Solid (unsigned n) :=
  ⟨unsigned_ne_nil n, fun c member => digit_not_blank (unsigned_digits n c member)⟩

theorem decimal_solid (n : Int) : Solid (decimal n) := by
  unfold decimal
  split
  · refine ⟨by simp, ?_⟩
    intro c member
    rcases List.mem_cons.mp member with rfl | digit
    · rfl
    · exact (unsigned_solid n.natAbs).2 c digit
  · exact unsigned_solid n.natAbs

theorem decimal_has_digit (n : Int) : (decimal n).any Char.isDigit = true := by
  obtain ⟨c, digits, shape⟩ := List.exists_cons_of_ne_nil (unsigned_ne_nil n.natAbs)
  have digit := unsigned_digits n.natAbs c (by simp [shape])
  unfold decimal
  split <;> simp [shape, digit]

theorem readString_word (old : String) (blank : ∀ c ∈ gap, isSpace c = true) (solid : Solid field)
    (ends : Delimited isSpace rest) :
    readString old (InputStream.start (gap ++ field ++ rest)) =
      .ok (String.ofList field, InputStream.reached rest) := by
  obtain ⟨c, cs, shape⟩ := List.exists_cons_of_ne_nil solid.1
  have starts : isSpace c = false := solid.2 c (by simp [shape])
  have extracted := extract_item blank shape starts (word_split solid.2 ends)
  simp only [readString, extracted, Option.map_some, Option.getD_some]

theorem readInt_number (old : Int) (n : CInt) (blank : ∀ c ∈ gap, isSpace c = true)
    (ends : Delimited isSpace rest) :
    readInt old (InputStream.start (gap ++ decimal n ++ rest)) =
      .ok (n.val, InputStream.reached rest) := by
  have range := n.property
  have solid := decimal_solid n
  obtain ⟨c, cs, shape⟩ := List.exists_cons_of_ne_nil solid.1
  have starts : isSpace c = false := solid.2 c (by simp [shape])
  have extracted := extract_item blank shape starts (numeral_split n ends)
  have long : strtol (String.ofList (decimal n)) = n := strtol_decimal n (by omega)
  -- an int in range is not cut off, and the extraction succeeds
  have clamped : clampInt n = n := by
    unfold clampInt
    omega
  simp only [readInt, extracted, long, clamped, decimal_has_digit, Bool.not_true, bne_self_eq_false,
    Bool.or_self, InputStream.failIf_false]

def fieldText (fields : List (List Char)) (rest : List Char) : List Char :=
  -- the fields of a line, each behind its blank
  fields.flatMap (' ' :: ·) ++ rest

theorem fieldText_delimited (fields : List (List Char)) (ends : Delimited isSpace rest) :
    Delimited isSpace (fieldText fields rest) := by
  cases fields with
  | nil => exact ends
  | cons field others =>
      intro c first
      cases first
      rfl

theorem fieldText_cons (field : List Char) (others : List (List Char)) :
    InputStream.reached (fieldText (field :: others) rest) =
      InputStream.start ([' '] ++ field ++ fieldText others rest) := by
  simp [fieldText, InputStream.start_cons]

theorem blank_separator : ∀ c ∈ [' '], isSpace c = true := List.forall_mem_singleton.mpr rfl

theorem readString_field {others : List (List Char)} (old : String) (solid : Solid field)
    (ends : Delimited isSpace rest) :
    readString old (InputStream.reached (fieldText (field :: others) rest)) =
      .ok (String.ofList field, InputStream.reached (fieldText others rest)) := by
  rw [fieldText_cons]
  exact readString_word old blank_separator solid (fieldText_delimited others ends)

theorem readInt_field {others : List (List Char)} (old : Int) (n : CInt)
    (ends : Delimited isSpace rest) :
    readInt old (InputStream.reached (fieldText (decimal n :: others) rest)) =
      .ok (n.val, InputStream.reached (fieldText others rest)) := by
  rw [fieldText_cons]
  exact readInt_number old n blank_separator (fieldText_delimited others ends)

end Fields

section Parsing

theorem substr_behind {front rest : List Char} {pos : Nat} (same : front.length = pos) :
    substr (String.ofList (front ++ rest)) pos = .ok (String.ofList rest) := by
  subst same
  simp [substr]

theorem hasKey_behind {front rest : List Char} {key : String}
    (same : key.toList.length = front.length) :
    hasKey (String.ofList (front ++ rest)) key = (front == key.toList) := by
  simp [hasKey, same]

theorem what_key_length (what : What) : what.key.toList.length = 4 := by
  cases what <;> simp [What.key]

theorem timingKey_length (type : TimingType) : (timingKey type).toList.length = 4 := by
  cases type <;> simp [timingKey]

theorem sideText_length (side : RegisterSide) : (sideText side).toList.length = 3 := by
  cases side <;> simp [sideText]

variable (asserts : Bool) (p : Fault)

theorem setValue_text (type : ValueType) (key : String) (four : key.toList.length = 4) (v : Word) :
    setValue type (String.ofList (key.toList ++ ':' :: unsigned v.toNat)) p =
      .ok { p with valueType := type, value := v } := by
  have five : (key.toList ++ [':']).length = 5 := by simp [four]
  rw [List.append_cons, setValue, substr_behind five]
  simp only [bind, Except.bind, strtoul_unsigned]
  rfl

theorem parseWhat_text (what : What) :
    parseWhat asserts (String.ofList what.text) p =
      .ok { p with valueType := what.valueType, value := what.value } := by
  have four := what_key_length what
  have keys (key : String) (length : key.toList.length = 4) :
      hasKey (String.ofList what.text) key = (what.key.toList == key.toList) :=
    hasKey_behind (length.trans four.symm)
  rw [parseWhat, keys "Immd" rfl, keys "Mask" rfl, keys "Flip" rfl, keys "All0" rfl,
    keys "All1" rfl]
  cases what with
  | immd v =>
      have number := setValue_text p .immediate "Immd" rfl v
      simpa [What.key, What.text, What.valueType, What.value] using number
  | mask v =>
      have number := setValue_text p .mask "Mask" rfl v
      simpa [What.key, What.text, What.valueType, What.value] using number
  | flip v =>
      have number := setValue_text p .flipBit "Flip" rfl v
      simpa [What.key, What.text, What.valueType, What.value] using number
  | all0 => rfl
  | all1 => rfl

theorem setTiming_text (type : TimingType) (key : String) (four : key.toList.length = 4)
    (n : Fin (2 ^ 63)) :
    setTiming type (String.ofList (key.toList ++ ':' :: unsigned n)) p =
      .ok { p with timingType := type, timing := BitVec.ofNat 64 n } := by
  have five : (key.toList ++ [':']).length = 5 := by simp [four]
  rw [List.append_cons, setTiming, substr_behind five]
  simp only [bind, Except.bind, strtoll_unsigned]
  rfl

theorem parseWhen_text (line : FaultLine) :
    parseWhen asserts (String.ofList line.when_) p =
      .ok { p with timingType := line.timingType, timing := BitVec.ofNat 64 line.timing } := by
  have number := setTiming_text p line.timingType _ (timingKey_length line.timingType) line.timing
  have keys (key : String) (length : key.toList.length = 4) :
      hasKey (String.ofList line.when_) key = ((timingKey line.timingType).toList == key.toList) :=
    hasKey_behind (length.trans (timingKey_length _).symm)
  rw [parseWhen, keys "Inst" rfl, keys "Tick" rfl, keys "Addr" rfl, FaultLine.when_]
  cases type : line.timingType <;> simpa [type, timingKey] using number

theorem setRegType_text (type : RegisterType) :
    setRegType asserts (regTypeText type) p = .ok { p with regType := type } := by
  cases type <;> rfl

theorem regToChangeText_shape (separated : Bool) (n : Nat) :
    ∃ d digits, regToChangeText separated n = d :: digits ∧ ∀ c ∈ digits, c.isDigit = true := by
  cases separated with
  | true => exact ⟨':', unsigned n, rfl, unsigned_digits n⟩
  | false =>
      obtain ⟨d, digits, shape⟩ := List.exists_cons_of_ne_nil (unsigned_ne_nil n)
      refine ⟨d, digits, shape, ?_⟩
      intro c member
      exact unsigned_digits n c (by simp [shape, member])

theorem setRegisters_text (side : RegisterSide) (key : String) (three : key.toList.length = 3)
    (separated : Bool) (r c : Nat) :
    setRegisters side (String.ofList (key.toList ++ regToChangeText separated r ++
        ':' :: unsigned c)) p =
      .ok { p with
        srcOrDst := side
        regToChange := atoi (String.ofList ((regToChangeText separated r).drop 1))
        changeToReg := atoi (String.ofList (unsigned c)) } := by
  obtain ⟨d, rest, shape, all⟩ := regToChangeText_shape separated r
  -- substr(4) starts behind the key and the character after it
  have four : (key.toList ++ [d]).length = 4 := by simp [three]
  have split : key.toList ++ regToChangeText separated r ++ ':' :: unsigned c =
      key.toList ++ [d] ++ (rest ++ ':' :: unsigned c) := by simp [shape]
  have digits : ∀ c ∈ rest, (c != ':') = true := by
    intro c member
    have digit := all c member
    simp only [bne_iff_ne]
    rintro rfl
    cases digit
  have first : (rest ++ ':' :: unsigned c).takeWhile (· != ':') = rest := by
    rw [List.takeWhile_append_of_pos digits]
    simp
  have last : (rest ++ ':' :: unsigned c).drop (rest.length + 1) = unsigned c := by simp
  rw [split, setRegisters, substr_behind four]
  simp only [bind, Except.bind, String.toList_ofList, first, shape, last, List.mem_append,
    List.mem_cons, true_or, or_true, if_true]
  rfl

theorem parseRegDec_text (side : RegisterSide) (separated : Bool) (r c : Nat) :
    parseRegDec asserts (String.ofList ((sideText side).toList ++ regToChangeText separated r ++
        ':' :: unsigned c)) p =
      .ok { p with
        srcOrDst := side
        regToChange := atoi (String.ofList ((regToChangeText separated r).drop 1))
        changeToReg := atoi (String.ofList (unsigned c)) } := by
  have numbers := setRegisters_text p side _ (sideText_length side) separated r c
  have keys (key : String) (length : key.toList.length = 3) :
      hasKey (String.ofList ((sideText side).toList ++ regToChangeText separated r ++
          ':' :: unsigned c)) key = ((sideText side).toList == key.toList) := by
    rw [List.append_assoc]
    exact hasKey_behind (length.trans (sideText_length side).symm)
  rw [parseRegDec, keys "Src" rfl, keys "Dst" rfl]
  cases side <;> simpa [sideText] using numbers

end Parsing

section Records

def FaultLine.parsed (line : FaultLine) (memory : Fault) : Fault :=
  { memory with
    when_ := String.ofList line.when_
    what := String.ofList line.what.text
    thread := line.thread
    where_ := line.where_
    timingType := line.timingType
    timing := BitVec.ofNat 64 line.timing
    valueType := line.what.valueType
    value := line.what.value
    occurrence := line.occurrence
    tcontext := line.tcontext }

def Target.parsed (p : Fault) : Target → Fault
  | .generalFetch | .iewStage | .loadStore | .opCode | .pc => p
  | .register regType number => { p with regType := regType, register := number }
  | .registerDecoding side separated regToChange changeToReg =>
      { p with
        srcOrDst := side
        regToChange := atoi (String.ofList ((regToChangeText separated regToChange).drop 1))
        changeToReg := (changeToReg : Nat) }

def FaultLine.creation (line : FaultLine) (memory : Fault) : Creation :=
  ⟨line.target.parsed (line.parsed memory), some line.target.faultType,
    some (stageOf line.target.faultType)⟩

theorem Solid.append {front rest : List Char} (solid : Solid front)
    (others : ∀ c ∈ rest, isSpace c = false) : Solid (front ++ rest) := by
  refine ⟨by simp [solid.1], ?_⟩
  intro c member
  rcases List.mem_append.mp member with inFront | inRest
  · exact solid.2 c inFront
  · exact others c inRest

theorem colon_unsigned (n : Nat) : ∀ c ∈ ':' :: unsigned n, isSpace c = false := by
  intro c member
  rcases List.mem_cons.mp member with rfl | digit
  · rfl
  · exact (unsigned_solid n).2 c digit

theorem when_solid (line : FaultLine) : Solid line.when_ := by
  have key : Solid (timingKey line.timingType).toList := by
    cases line.timingType <;> decide
  exact key.append (colon_unsigned _)

theorem what_solid (what : What) : Solid what.text := by
  have key : Solid what.key.toList := by
    cases what <;> simp only [What.key] <;> decide
  cases what with
  | immd v => exact key.append (colon_unsigned _)
  | mask v => exact key.append (colon_unsigned _)
  | flip v => exact key.append (colon_unsigned _)
  | all0 => exact key.append (by simp)
  | all1 => exact key.append (by simp)

theorem regType_solid (type : RegisterType) : Solid (regTypeText type).toList := by
  cases type <;> decide

theorem regDec_solid (side : RegisterSide) (separated : Bool) (r c : Nat) :
    Solid ((sideText side).toList ++ regToChangeText separated r ++ ':' :: unsigned c) := by
  have key : Solid (sideText side).toList := by
    cases side <;> decide
  have register : ∀ c ∈ regToChangeText separated r, isSpace c = false := by
    cases separated with
    | true => exact colon_unsigned r
    | false => exact (unsigned_solid r).2
  exact (key.append register).append (colon_unsigned c)

theorem className_solid (target : Target) : Solid target.className.toList := by
  cases target <;> simp only [Target.className] <;> decide

variable {asserts : Bool} {left : Leftovers} {rest : List Char}

theorem injectedFault_fields (line : FaultLine) (others : List (List Char))
    (ends : Delimited isSpace rest) :
    injectedFault asserts left (InputStream.reached (fieldText (line.when_ :: line.what.text ::
        line.thread.val.toList :: line.where_.val.toList :: decimal line.occurrence :: others)
          rest)) =
      .ok ({ line.parsed left.memory with tcontext := left.memory.tcontext },
        InputStream.reached (fieldText others rest)) := by
  refine (Reader.bind_of_ok (readString_field "" (when_solid line) ends)).trans ?_
  refine (Reader.bind_of_ok (readString_field "" (what_solid line.what) ends)).trans ?_
  refine (Reader.bind_of_ok (readString_field "" line.thread.property ends)).trans ?_
  refine (Reader.bind_of_ok (readString_field "" line.where_.property ends)).trans ?_
  refine (Reader.bind_of_ok (readInt_field left.occ line.occurrence ends)).trans ?_
  refine (Reader.bind_of_ok (Reader.lift_of_ok (parseWhat_text asserts _ line.what) _)).trans ?_
  refine (Reader.bind_of_ok (Reader.lift_of_ok (parseWhen_text asserts _ line) _)).trans ?_
  simp only [String.ofList_toList]
  rfl

theorem withTContext_line (line : FaultLine) (ends : Delimited isSpace rest) :
    withTContext asserts left (InputStream.reached (fieldText line.fields rest)) =
      .ok (line.parsed left.memory, InputStream.reached (fieldText line.target.fields rest)) := by
  refine (Reader.bind_of_ok (injectedFault_fields line
    (decimal line.tcontext :: line.target.fields) ends)).trans ?_
  refine (Reader.bind_of_ok (readInt_field left.t line.tcontext ends)).trans ?_
  rfl

def Target.construct (asserts : Bool) (left : Leftovers) : Target → FileReader Creation
  | .generalFetch => generalFetchInjectedFault asserts left
  | .iewStage => iewStageInjectedFault asserts left
  | .loadStore => loadStoreInjectedFault asserts left
  | .opCode => opCodeInjectedFault asserts left
  | .pc => pcInjectedFault asserts left
  | .register _ _ => registerInjectedFault asserts left
  | .registerDecoding _ _ _ _ => registerDecodingInjectedFault asserts left

theorem newFault_className (target : Target) :
    newFault asserts left target.className = some <$> target.construct asserts left := by
  cases target <;> rfl

theorem queued_of_ok {m : FileReader Fault} {os os' : InputStream Char} {p : Fault}
    (type : FaultType) (queue : StageQueue) (returned : m os = .ok (p, os')) :
    queued type queue m os = .ok (⟨p, some type, some queue⟩, os') :=
  (Reader.bind_of_ok returned).trans rfl

theorem construct_line (line : FaultLine) (ends : Delimited isSpace rest) :
    line.target.construct asserts left (InputStream.reached (fieldText line.fields rest)) =
      .ok (line.creation left.memory, InputStream.reached rest) := by
  have based : withTContext asserts left (InputStream.reached (fieldText line.fields rest)) = _ :=
    withTContext_line line ends
  unfold FaultLine.creation
  cases target : line.target with
  | generalFetch =>
      rw [target] at based
      exact queued_of_ok .generalFetch .fetchStage based
  | iewStage =>
      rw [target] at based
      exact queued_of_ok .execution .iewStage based
  | loadStore =>
      rw [target] at based
      exact queued_of_ok .loadStore .loadStore based
  | opCode =>
      rw [target] at based
      exact queued_of_ok .opCode .fetchStage based
  | pc =>
      rw [target] at based
      exact queued_of_ok .pc .main based
  | register regType number =>
      rw [target] at based
      refine (Reader.bind_of_ok based).trans ?_
      refine (Reader.bind_of_ok (readString_field "" (regType_solid regType) ends)).trans ?_
      rw [String.ofList_toList]
      refine (Reader.bind_of_ok (Reader.lift_of_ok (setRegType_text asserts _ regType) _)).trans ?_
      exact (Reader.bind_of_ok (readInt_field left.k number ends)).trans rfl
  | registerDecoding side separated regToChange changeToReg =>
      rw [target] at based
      have solid := regDec_solid side separated regToChange changeToReg
      have numbers := parseRegDec_text asserts (line.parsed left.memory) side separated regToChange
        changeToReg
      rw [atoi_decimal changeToReg changeToReg.isLt] at numbers
      refine (Reader.bind_of_ok based).trans ?_
      refine (Reader.bind_of_ok (readString_field "" solid ends)).trans ?_
      exact (Reader.bind_of_ok (Reader.lift_of_ok numbers _)).trans rfl

def broken : InputStream Char := ⟨[], true, true⟩

theorem construct_broken (target : Target) :
    target.construct true left broken = .error .assertion := by
  have based : withTContext true left broken = .error .assertion := rfl
  cases target <;> exact Reader.bind_of_error based

theorem construct_broken_unchecked (left : Leftovers) (target : Target) :
    ∃ c, target.construct false left broken = .ok (c, broken) := by
  cases target <;> exact ⟨_, rfl⟩

end Records

section SkippedCharacter

theorem dropped_digits (n : Nat) : ∀ c ∈ (unsigned n).drop 1, c.isDigit = true :=
  fun c member => unsigned_digits n c (List.mem_of_mem_drop member)

theorem dropped_lt (n : Nat) (positive : 0 < n) :
    Nat.ofDigitChars 10 ((unsigned n).drop 1) 0 < n := by
  induction n using Nat.strong_induction_on with
  | _ n ih =>
      by_cases small : n < 10
      · have single : unsigned n = [n.digitChar] := Nat.toDigits_of_lt_base small
        simpa [single] using positive
      · have shape : unsigned n = unsigned (n / 10) ++ [(n % 10).digitChar] :=
          Nat.toDigits_of_base_le (by omega) (by omega)
        have front : 1 ≤ (unsigned (n / 10)).length := Nat.length_toDigits_pos
        have smaller := ih (n / 10) (by omega) (by omega)
        -- the last digit stays, and the digits before it are those of n / 10
        rw [shape, List.drop_append_of_le_length front, Nat.ofDigitChars_append,
          Nat.ofDigitChars_cons_digitChar_of_lt_ten (by omega), Nat.ofDigitChars_nil]
        omega

theorem atoi_lt (s : String) : atoi s < 2 ^ 31 := by
  have below : (BitVec.ofInt 32 (strtol s)).toInt < 2 ^ (32 - 1) := BitVec.toInt_lt
  exact below

theorem dropped_eq_iff (r : Nat) :
    atoi (String.ofList ((unsigned r).drop 1)) = r ↔ r = 0 := by
  constructor
  · intro same
    have range : (r : Int) < 2 ^ 31 := same ▸ atoi_lt _
    by_contra nonzero
    have less := dropped_lt r (Nat.pos_of_ne_zero nonzero)
    rw [atoi, strtol_digits _ (dropped_digits r), readDigits_digits _ (dropped_digits r),
      min_eq_left (by omega), BitVec.toInt_ofInt,
      Int.bmod_eq_of_le (by omega) (by omega)] at same
    omega
  · rintro rfl
    decide

def Target.Kept : Target → Prop
  | .generalFetch | .iewStage | .loadStore | .opCode | .pc | .register _ _ => True
  | .registerDecoding _ separated regToChange _ => separated = true ∨ regToChange = 0

theorem createdFrom_iff (line : FaultLine) (memory : Fault) :
    CreatedFrom line (line.creation memory) ↔ line.target.Kept := by
  have extras : line.target.Written (line.creation memory).fault ↔ line.target.Kept := by
    unfold FaultLine.creation
    cases line.target with
    | registerDecoding side separated regToChange changeToReg =>
        simp only [Target.Written, Target.parsed, Target.Kept, true_and, and_true]
        cases separated with
        | true => exact iff_of_true (atoi_decimal regToChange regToChange.isLt) (Or.inl rfl)
        | false =>
            have dropped := dropped_eq_iff regToChange
            have zero : (regToChange : Nat) = 0 ↔ regToChange = 0 := Fin.val_eq_zero_iff
            rw [zero] at dropped
            simpa [regToChangeText] using dropped
    | _ => simp [Target.Written, Target.parsed, Target.Kept]
  constructor
  · intro made
    exact extras.mp made.extra
  · intro kept
    have extra := extras.mpr kept
    rcases line with ⟨target, _, _, _, _, _, _, _⟩
    cases target <;>
      exact ⟨rfl, rfl, rfl, rfl, rfl, rfl, rfl, rfl, rfl, rfl, rfl, rfl, extra⟩

end SkippedCharacter

end GemFi.FaultRecords
