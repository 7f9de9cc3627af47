import GemFi.SlidingWindows
import GemFi.Transitions
import Mathlib.Tactic.Ring

/-!
`TimeBuffer` of cpu/timebuf.hh, through which the stages of the O3 pipeline communicate:
as many objects as the window has indices, and the position of index zero, which moves on
with every cycle. Indices are signed and positions unsigned, both of 32 bits; `none` is a
failed assertion, a signed overflow, or a position outside the vector.
-/

namespace GemFi.TimeBuffers

open Transitions SlidingWindows

universe u
variable {T : Type u}

/-- The objects are in the order of the vector `index`, whose pointers never change. -/
structure TimeBuffer (T : Type u) where
  past : Int
  future : Int
  size : BitVec 32
  base : BitVec 32
  data : List T

def construct (past future : Int) (fresh : T) : Option (TimeBuffer T) :=
  -- the constructor. `fresh` is what zeroed memory and the constructor of `T` make.
  if past + future + 1 < 2 ^ 31 ∧ 0 ≤ past ∧ 0 ≤ future then
    some ⟨past, future, BitVec.ofInt 32 (past + future + 1), 0,
      List.replicate (past + future + 1).toNat fresh⟩
  else none

namespace TimeBuffer

variable (b : TimeBuffer T)

/-- `assert (idx >= -past && idx <= future)`. -/
def Valid (idx : Int) : Prop := -b.past ≤ idx ∧ idx ≤ b.future

instance (idx : Int) : Decidable (b.Valid idx) := inferInstanceAs (Decidable (_ ∧ _))

def position (index : Int) : Option Nat :=
  -- a position of the vector
  if 0 ≤ index ∧ index < b.data.length then some index.toNat else none

/-- `vector_index` of `access`. -/
def vectorIndex (idx : Int) : Int :=
  let index := (BitVec.ofInt 32 idx + b.base).toInt
  if index ≥ b.size.toInt then (BitVec.ofInt 32 index - b.size).toInt
  else if index < 0 then (BitVec.ofInt 32 index + b.size).toInt
  else index

/-- `access`: the position of the object that the returned pointer points to. -/
def access (idx : Int) : Option Nat :=
  if b.Valid idx then b.position (b.vectorIndex idx) else none

/-- `*access(idx)`. -/
def read (idx : Int) : Option T := (b.access idx).bind fun slot => b.data[slot]?

/-- `*access(idx) = value`. -/
def write (idx : Int) (value : T) : Option (TimeBuffer T) :=
  (b.access idx).map fun slot => { b with data := b.data.set slot value }

/-- `if (++base >= size) base = 0`. -/
def nextBase : BitVec 32 := if b.base + 1 ≥ b.size then 0 else b.base + 1

/-- `ptr` of `advance`, with the base already moved. -/
def enteringIndex (base : BitVec 32) : Int :=
  let ptr := (base + BitVec.ofInt 32 b.future).toInt
  if ptr ≥ b.size.toInt then (BitVec.ofInt 32 ptr - b.size).toInt else ptr

def advance (fresh : T) : Option (TimeBuffer T) :=
  (b.position (b.enteringIndex b.nextBase)).map fun slot =>
    { b with base := b.nextBase, data := b.data.set slot fresh }

end TimeBuffer

def step (fresh : T) (b : TimeBuffer T) : Operation T → Option (TimeBuffer T)
  | .write index value => b.write index value
  | .advance => b.advance fresh

def InWindow (past future : Nat) (index : Int) : Prop := -past ≤ index ∧ index ≤ future

/-- After any operations through indices of the window, the buffer shows the part of the
timeline around now, and no two indices share an object. -/
def Slides (past future : Nat) (fresh : T) : Prop :=
  ∃ start, construct past future fresh = some start ∧
    ∀ operations, (∀ index value, .write index value ∈ operations → InWindow past future index) →
      ∃ b, run (step fresh) operations start = some b ∧
        (∀ index, InWindow past future index → b.read index =
          some ((Timeline.after fresh operations).contents
            ((Timeline.after fresh operations).now + index))) ∧
        ∀ index other, InWindow past future index → InWindow past future other →
          b.access index = b.access other → index = other

section Arithmetic

theorem add_toInt (idx : Int) (x : BitVec 32) (lower : -2 ^ 31 ≤ idx + x.toNat)
    (upper : idx + x.toNat < 2 ^ 31) : (BitVec.ofInt 32 idx + x).toInt = idx + x.toNat := by
  have whole : x = BitVec.ofInt 32 x.toNat := by simp
  rw [whole, ← BitVec.ofInt_add, BitVec.toInt_ofInt, ← whole]
  exact Int.bmod_eq_of_le (by omega) (by omega)

theorem sub_toInt (idx : Int) (x : BitVec 32) (lower : -2 ^ 31 ≤ idx - x.toNat)
    (upper : idx - x.toNat < 2 ^ 31) : (BitVec.ofInt 32 idx - x).toInt = idx - x.toNat := by
  have whole : x = BitVec.ofInt 32 x.toNat := by simp
  have difference : BitVec.ofInt 32 idx - x = BitVec.ofInt 32 (idx - x.toNat) := by
    rw [Int.sub_eq_add_neg, BitVec.ofInt_add, BitVec.ofInt_neg, ← whole, BitVec.sub_eq_add_neg]
  rw [difference, BitVec.toInt_ofInt]
  exact Int.bmod_eq_of_le (by omega) (by omega)

theorem wrap_once {n v : Int} (lower : -n ≤ v) (upper : v < 2 * n) :
    v % n = if v ≥ n then v - n else if v < 0 then v + n else v := by
  split_ifs with high low
  · rw [← Int.sub_emod_right v n]
    exact Int.emod_eq_of_lt (by omega) (by omega)
  · rw [← Int.add_emod_right v n]
    exact Int.emod_eq_of_lt (by omega) (by omega)
  · exact Int.emod_eq_of_lt (by omega) (by omega)

theorem turned {n : Nat} {size : BitVec 32} (whole : size.toNat = n) (small : n < 2 ^ 31)
    {now index sum : Int} (near : sum = index + cell n now) (lower : -n < index)
    (upper : index < n) :
    (cell n (now + index) : Int) =
      if sum ≥ size.toInt then (BitVec.ofInt 32 sum - size).toInt
      else if sum < 0 then (BitVec.ofInt 32 sum + size).toInt else sum := by
  have base := cell_lt now (show 0 < n by omega)
  have width : size.toInt = n := by
    rw [BitVec.toInt_eq_toNat_of_lt (by omega), whole]
  have remainder : (cell n (now + index) : Int) = sum % n := by
    rw [cell_eq (by omega), near, cell_eq (by omega), Int.add_emod_emod, Int.add_comm]
  rw [remainder, wrap_once (by omega) (by omega), width]
  by_cases high : sum ≥ (n : Int)
  · rw [if_pos high, if_pos high, sub_toInt _ _ (by omega) (by omega), whole]
  · rw [if_neg high, if_neg high]
    by_cases low : sum < 0
    · rw [if_pos low, if_pos low, add_toInt _ _ (by omega) (by omega), whole]
    · rw [if_neg low, if_neg low]

end Arithmetic

section Invariant

variable {past future : Nat} {fresh : T} {b b' : TimeBuffer T} {line : Timeline T} {index : Int}

/-- The buffer at some point of a timeline: the base is the object of now, the objects
show the window, and nothing was written yet beyond it. -/
structure Holds (past future : Nat) (fresh : T) (b : TimeBuffer T) (line : Timeline T) : Prop where
  pastKept : b.past = past
  futureKept : b.future = future
  size : b.size.toNat = past + future + 1
  length : b.data.length = past + future + 1
  base : b.base.toNat = cell (past + future + 1) line.now
  shows : Shows b.data (line.now - past) line.contents
  ahead : ∀ time, line.now + future < time → line.contents time = fresh

/-- The sums of an index and the base are values of type int. -/
structure Fits (past future : Nat) : Prop where
  size : past + future + 1 < 2 ^ 31
  reach : past + 2 * future < 2 ^ 31

theorem Holds.base_lt (holds : Holds past future fresh b line) :
    b.base.toNat < past + future + 1 := by
  rw [holds.base]
  exact cell_lt _ (by omega)

theorem Holds.access (holds : Holds past future fresh b line) (fits : Fits past future)
    (inside : InWindow past future index) :
    b.access index = some (cell (past + future + 1) (line.now + index)) := by
  have small := fits.size
  have reach := fits.reach
  have base := holds.base_lt
  obtain ⟨lower, upper⟩ := inside
  have sum : (BitVec.ofInt 32 index + b.base).toInt = index + b.base.toNat :=
    add_toInt index b.base (by omega) (by omega)
  have place : b.vectorIndex index = cell (past + future + 1) (line.now + index) :=
    (turned holds.size small (holds.base ▸ sum) (by omega) (by omega)).symm
  have valid : b.Valid index := by
    unfold TimeBuffer.Valid
    rw [holds.pastKept, holds.futureKept]
    exact ⟨lower, upper⟩
  have inRing := cell_lt (line.now + index) (show 0 < past + future + 1 by omega)
  unfold TimeBuffer.access TimeBuffer.position
  rw [if_pos valid, place, holds.length, if_pos ⟨by omega, by omega⟩, Int.toNat_natCast]

theorem Holds.read (holds : Holds past future fresh b line) (fits : Fits past future)
    (inside : InWindow past future index) :
    b.read index = some (line.contents (line.now + index)) := by
  obtain ⟨lower, upper⟩ := inside
  have shown := holds.shows (line.now + index) (by omega) (by rw [holds.length]; omega)
  rw [holds.length] at shown
  unfold TimeBuffer.read
  rw [holds.access fits ⟨lower, upper⟩]
  exact shown

theorem Holds.noAlias (holds : Holds past future fresh b line) (fits : Fits past future)
    {other : Int} (inside : InWindow past future index) (inside' : InWindow past future other)
    (same : b.access index = b.access other) : index = other := by
  rw [holds.access fits inside, holds.access fits inside'] at same
  obtain ⟨lower, upper⟩ := inside
  obtain ⟨lower', upper'⟩ := inside'
  have meet := cell_inj (show 0 < past + future + 1 by omega) (by omega) (by omega)
    (Option.some.inj same)
  omega

theorem Holds.write (holds : Holds past future fresh b line) (fits : Fits past future)
    (inside : InWindow past future index) (value : T) :
    ∃ b', b.write index value = some b' ∧
      Holds past future fresh b' (line.perform (.write index value)) := by
  obtain ⟨lower, upper⟩ := inside
  refine ⟨_, congrArg (Option.map _) (holds.access fits ⟨lower, upper⟩), ?_⟩
  refine ⟨holds.pastKept, holds.futureKept, holds.size, ?_, holds.base, ?_, ?_⟩
  · rw [← holds.length]
    exact List.length_set
  · have shown := holds.shows.write value (show line.now - past ≤ line.now + index by omega)
      (by rw [holds.length]; omega)
    rw [holds.length] at shown
    exact shown
  · intro time beyond
    have apart : time ≠ line.now + index := by
      have later : line.now + future < time := beyond
      omega
    exact (Function.update_of_ne apart _ _).trans (holds.ahead time beyond)

theorem Holds.nextBase (holds : Holds past future fresh b line) (fits : Fits past future) :
    b.nextBase.toNat = cell (past + future + 1) (line.now + 1) := by
  have small := fits.size
  have base := holds.base_lt
  have sum : (b.base + 1).toNat = b.base.toNat + 1 := by
    rw [BitVec.toNat_add]
    exact Nat.mod_eq_of_lt (by show b.base.toNat + 1 < 2 ^ 32; omega)
  rw [cell_succ (by omega), ← holds.base]
  unfold TimeBuffer.nextBase
  by_cases last : b.base + 1 ≥ b.size
  · rw [if_pos last]
    rw [ge_iff_le, BitVec.le_def, sum, holds.size] at last
    have full : b.base.toNat + 1 = past + future + 1 := by omega
    rw [full, Nat.mod_self]
    rfl
  · rw [if_neg last, sum]
    rw [ge_iff_le, BitVec.le_def, sum, holds.size] at last
    rw [Nat.mod_eq_of_lt (by omega)]

/-- The object of the oldest index becomes that of the newest, and is constructed anew. -/
theorem Holds.advance (holds : Holds past future fresh b line) (fits : Fits past future) :
    ∃ b', b.advance fresh = some b' ∧ Holds past future fresh b' (line.perform .advance) := by
  have small := fits.size
  have reach := fits.reach
  have next := holds.nextBase fits
  have inRing := cell_lt (line.now + 1) (show 0 < past + future + 1 by omega)
  have sum : (BitVec.ofInt 32 future + b.nextBase).toInt = future + b.nextBase.toNat :=
    add_toInt future b.nextBase (by omega) (by omega)
  have place : b.enteringIndex b.nextBase =
      cell (past + future + 1) (line.now + 1 + future) := by
    rw [turned holds.size small (next ▸ sum) (by omega) (by omega)]
    unfold TimeBuffer.enteringIndex
    dsimp only
    rw [holds.futureKept, BitVec.add_comm]
    split_ifs with high low
    · rfl
    · omega
    · rfl
  have slot := cell_lt (line.now + 1 + future) (show 0 < past + future + 1 by omega)
  have found : b.position (b.enteringIndex b.nextBase) =
      some (cell (past + future + 1) (line.now + 1 + future)) := by
    unfold TimeBuffer.position
    rw [place, holds.length, if_pos ⟨by omega, by omega⟩, Int.toNat_natCast]
  refine ⟨_, congrArg (Option.map _) found, ?_⟩
  have entering : line.now - past + b.data.length = line.now + 1 + future := by
    rw [holds.length]
    push_cast
    ring
  refine ⟨holds.pastKept, holds.futureKept, holds.size, ?_, next, ?_, ?_⟩
  · rw [← holds.length]
    exact List.length_set
  · have shown := holds.shows.slide (by rw [holds.length]; omega)
    rw [entering, holds.length, holds.ahead _ (by omega)] at shown
    have start : line.now - past + 1 = line.now + 1 - past := by ring
    rw [start] at shown
    exact shown
  · intro time beyond
    have later : line.now + 1 + future < time := beyond
    exact holds.ahead time (by omega)

theorem construct_holds (past future : Nat) (fresh : T) (fits : Fits past future) :
    ∃ b, construct past future fresh = some b ∧
      Holds past future fresh b (Timeline.start fresh) := by
  have small := fits.size
  have count : ((past : Int) + future + 1).toNat = past + future + 1 := by omega
  refine ⟨_, if_pos ⟨by omega, by omega, by omega⟩, ?_⟩
  refine ⟨rfl, rfl, ?_, ?_, ?_, ?_, fun _ _ => rfl⟩
  · rw [BitVec.toNat_ofInt]
    omega
  · rw [List.length_replicate, count]
  · simp [Timeline.start, cell]
  · rw [count]
    exact Shows.fresh fresh _ _

theorem step_holds (holds : Holds past future fresh b line) (fits : Fits past future)
    (operation : Operation T)
    (inside : ∀ index value, operation = .write index value → InWindow past future index) :
    ∃ b', step fresh b operation = some b' ∧ Holds past future fresh b' (line.perform operation) := by
  cases operation with
  | write index value => exact holds.write fits (inside index value rfl) value
  | advance => exact holds.advance fits

theorem run_holds (fits : Fits past future) (operations : List (Operation T))
    (holds : Holds past future fresh b line)
    (inside : ∀ index value, .write index value ∈ operations → InWindow past future index) :
    ∃ b', run (step fresh) operations b = some b' ∧
      Holds past future fresh b' (operations.foldl Timeline.perform line) := by
  induction operations generalizing b line with
  | nil => exact ⟨b, rfl, holds⟩
  | cons operation rest ih =>
      obtain ⟨b', stepped, holds'⟩ := step_holds holds fits operation
        fun index value same => inside index value (same ▸ List.mem_cons_self)
      obtain ⟨b'', ran, held⟩ := ih holds'
        fun index value member => inside index value (List.mem_cons_of_mem _ member)
      refine ⟨b'', ?_, held⟩
      rw [run_cons, stepped]
      exact ran

theorem slides_of_fits (past future : Nat) (fresh : T) (fits : Fits past future) :
    Slides past future fresh := by
  obtain ⟨start, made, begun⟩ := construct_holds past future fresh fits
  refine ⟨start, made, fun operations inside => ?_⟩
  obtain ⟨b, ran, holds⟩ := run_holds fits operations begun inside
  exact ⟨b, ran, fun index within => holds.read fits within,
    fun index other within within' => holds.noAlias fits within within'⟩

end Invariant

section TooLarge

variable {past future : Nat} {fresh : T} {b b' : TimeBuffer T}

structure Advanced (past future : Nat) (k : Nat) (b : TimeBuffer T) : Prop where
  -- a buffer that has advanced `k` times, each time by one position
  futureKept : b.future = future
  size : b.size.toNat = past + future + 1
  base : b.base.toNat = k

theorem Advanced.nextBase {k : Nat} (advanced : Advanced past future k b)
    (small : past + future + 1 < 2 ^ 31) (room : k < past + future) :
    b.nextBase.toNat = k + 1 := by
  have sum : (b.base + 1).toNat = k + 1 := by
    rw [BitVec.toNat_add, advanced.base]
    exact Nat.mod_eq_of_lt (by show k + 1 < 2 ^ 32; omega)
  unfold TimeBuffer.nextBase
  rw [if_neg, sum]
  rw [ge_iff_le, BitVec.le_def, sum, advanced.size]
  omega

theorem run_advanced (small : past + future + 1 < 2 ^ 31) (fresh : T) (count k : Nat)
    (advanced : Advanced past future k b) (room : k + count ≤ past + future)
    (ran : run (step fresh) (List.replicate count .advance) b = some b') :
    Advanced past future (k + count) b' := by
  induction count generalizing b k with
  | zero =>
      cases ran
      exact advanced
  | succ count ih =>
      rw [List.replicate_succ, run_cons] at ran
      obtain ⟨middle, stepped, rest⟩ := Option.bind_eq_some_iff.mp ran
      have next : Advanced past future (k + 1) middle := by
        obtain ⟨slot, _, rfl⟩ := Option.map_eq_some_iff.mp stepped
        exact ⟨advanced.futureKept, advanced.size, advanced.nextBase small (by omega)⟩
      have reached := ih (k + 1) next (by omega) rest
      rwa [Nat.add_assoc, Nat.add_comm 1] at reached

theorem Advanced.stuck {k : Nat} (advanced : Advanced past future k b) (fresh : T)
    (small : past + future + 1 < 2 ^ 31) (room : k < past + future)
    (full : k + 1 + future = 2 ^ 31) : b.advance fresh = none := by
  have next := advanced.nextBase small room
  have whole : (b.nextBase + BitVec.ofInt 32 b.future).toNat = 2 ^ 31 := by
    rw [advanced.futureKept, BitVec.toNat_add, next, BitVec.toNat_ofInt]
    omega
  have negative : (b.nextBase + BitVec.ofInt 32 b.future).toInt < 0 :=
    BitVec.toInt_neg_iff.mpr (by omega)
  have size : 0 ≤ b.size.toInt := BitVec.toInt_pos_iff.mpr (by rw [advanced.size]; omega)
  have index : b.enteringIndex b.nextBase = (b.nextBase + BitVec.ofInt 32 b.future).toInt :=
    if_neg (by omega)
  have outside : b.position (b.enteringIndex b.nextBase) = none := by
    rw [index]
    exact if_neg (by omega)
  exact congrArg (Option.map _) outside

theorem fits_of_slides (slides : Slides past future fresh) : Fits past future := by
  obtain ⟨start, made, runs⟩ := slides
  have bound : ((past : Int) + future + 1 < 2 ^ 31 ∧ 0 ≤ (past : Int) ∧ 0 ≤ (future : Int)) := by
    by_contra overflows
    rw [construct, if_neg overflows] at made
    cases made
  rw [construct, if_pos bound] at made
  cases made
  refine ⟨by omega, ?_⟩
  by_contra far
  -- the advance that brings the base to 2^31 - future
  obtain ⟨k, full⟩ : ∃ k, k + 1 + future = 2 ^ 31 := ⟨2 ^ 31 - 1 - future, by omega⟩
  obtain ⟨b, ran, _⟩ := runs (List.replicate (k + 1) .advance) (fun index value member => by
    cases List.eq_of_mem_replicate member)
  rw [List.replicate_succ', run_append] at ran
  obtain ⟨middle, first, last⟩ := Option.bind_eq_some_iff.mp ran
  have begun : Advanced past future 0 (⟨past, future, BitVec.ofInt 32 (past + future + 1), 0,
      List.replicate ((past : Int) + future + 1).toNat fresh⟩ : TimeBuffer T) := by
    refine ⟨rfl, ?_, rfl⟩
    rw [BitVec.toNat_ofInt]
    omega
  have advanced := run_advanced (by omega) fresh k 0 begun (by omega) first
  rw [Nat.zero_add] at advanced
  have stopped := advanced.stuck fresh (by omega) (by omega) full
  rw [run_cons] at last
  obtain ⟨after, stepped, _⟩ := Option.bind_eq_some_iff.mp last
  rw [step, stopped] at stepped
  cases stepped

end TooLarge

/-- The buffer is a window on time exactly when past, future and the sums of index and base
are values of type int. -/
theorem slides_iff (past future : Nat) (fresh : T) :
    Slides past future fresh ↔ past + future + 1 < 2 ^ 31 ∧ past + 2 * future < 2 ^ 31 :=
  ⟨fun slides => ⟨(fits_of_slides slides).size, (fits_of_slides slides).reach⟩,
    fun small => slides_of_fits past future fresh ⟨small.1, small.2⟩⟩

/-- With 2^30 indices into the future, the base moves out of the window's reach. -/
theorem large_window_fails : ¬ Slides 0 (2 ^ 30) (0 : Nat) := by
  intro slides
  have reach := (fits_of_slides slides).reach
  omega

end GemFi.TimeBuffers
