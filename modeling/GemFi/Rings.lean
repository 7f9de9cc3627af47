import Mathlib.Data.List.GetD
import Mathlib.Data.Nat.ModEq
import Mathlib.Logic.Function.Basic

/-!
Rings: a queue in an array whose indices wrap. The array is a function of the index. What
the queue holds is read off from the slot of its head, and every operation on the array is
one on that list. A bookmark is the index at which a new item stood when it was made, kept
while the ring moves on under it.
-/

namespace GemFi.Rings

universe u
variable {α : Type u}

def next (size index : Nat) : Nat := if size ≤ index + 1 then 0 else index + 1

def previous (size index : Nat) : Nat := if index = 0 then size - 1 else index - 1

def slot (size head offset : Nat) : Nat := (head + offset) % size

section Slots

variable {size head offset other : Nat}

theorem slot_lt (inside : head < size) : slot size head offset < size :=
  Nat.mod_lt _ (Nat.zero_lt_of_lt inside)

theorem slot_zero (inside : head < size) : slot size head 0 = head := Nat.mod_eq_of_lt inside

theorem next_eq_mod {index : Nat} (inside : index < size) : next size index = (index + 1) % size := by
  by_cases last : size ≤ index + 1
  · have full : index + 1 = size := by omega
    rw [next, if_pos last, full, Nat.mod_self]
  · rw [next, if_neg last, Nat.mod_eq_of_lt (by omega)]

theorem next_slot (inside : head < size) :
    next size (slot size head offset) = slot size head (offset + 1) := by
  rw [next_eq_mod (slot_lt inside), slot, slot, Nat.mod_add_mod, Nat.add_assoc]

theorem next_lt {index : Nat} (inside : index < size) : next size index < size := by
  rw [next_eq_mod inside]
  exact Nat.mod_lt _ (Nat.zero_lt_of_lt inside)

theorem slot_slot : slot size (slot size head offset) other = slot size head (offset + other) := by
  rw [slot, slot, slot, Nat.mod_add_mod, Nat.add_assoc]

theorem slot_next (inside : head < size) :
    slot size (next size head) offset = slot size head (offset + 1) := by
  rw [next_eq_mod inside, slot, slot, Nat.mod_add_mod, Nat.add_assoc, Nat.add_comm 1]

theorem previous_next {index : Nat} (inside : index < size) : previous size (next size index) = index := by
  unfold previous next
  split <;> split <;> omega

theorem previous_slot (inside : head < size) :
    previous size (slot size head (offset + 1)) = slot size head offset := by
  rw [← next_slot inside, previous_next (slot_lt inside)]

theorem slot_inj (first : offset < size) (second : other < size)
    (same : slot size head offset = slot size head other) : offset = other :=
  Nat.ModEq.eq_of_lt_of_lt (Nat.ModEq.add_left_cancel' head same) first second

theorem slot_sub (fits : offset < size) :
    ((slot size head offset : Int) - head) % size = offset := by
  have distance : ((head + offset : Nat) : Int) - head = offset := by omega
  rw [slot, Int.natCast_emod, Int.emod_sub_emod, distance]
  exact Int.emod_eq_of_lt (Int.natCast_nonneg _) (by exact_mod_cast fits)

end Slots

def contents (ring : Nat → α) (size head count : Nat) : List α :=
  -- what `count` slots from `head` on hold
  (List.range count).map fun offset => ring (slot size head offset)

section Contents

variable {ring : Nat → α} {size head count offset index : Nat}

@[simp] theorem contents_length : (contents ring size head count).length = count := by
  simp [contents]

theorem contents_add (more : Nat) :
    contents ring size head (count + more) =
      contents ring size head count ++ contents ring size (slot size head count) more := by
  rw [contents, List.range_add, List.map_append, List.map_map]
  simp only [contents, Function.comp_def, slot_slot]

theorem contents_succ :
    contents ring size head (count + 1) = contents ring size head count ++ [ring (slot size head count)] := by
  rw [contents, List.range_succ, List.map_append]
  rfl

theorem contents_cons (inside : head < size) :
    contents ring size head (count + 1) = ring head :: contents ring size (next size head) count := by
  rw [Nat.add_comm, contents_add, next_eq_mod inside]
  simp [contents, slot, Nat.mod_eq_of_lt inside]

theorem contents_getElem? (within : offset < count) :
    (contents ring size head count)[offset]? = some (ring (slot size head offset)) := by
  simp [contents, within]

theorem contents_congr {ring' : Nat → α}
    (agree : ∀ offset < count, ring' (slot size head offset) = ring (slot size head offset)) :
    contents ring' size head count = contents ring size head count := by
  apply List.map_congr_left
  intro offset within
  exact agree offset (List.mem_range.mp within)

theorem contents_update_outside (value : α) (free : count ≤ offset) (fits : offset < size) :
    contents (Function.update ring (slot size head offset) value) size head count =
      contents ring size head count := by
  apply contents_congr
  intro other within
  apply Function.update_of_ne
  intro same
  have := slot_inj (by omega) fits same
  omega

theorem contents_update_inside (value : α) (within : offset < count) (fits : count ≤ size) :
    contents (Function.update ring (slot size head offset) value) size head count =
      (contents ring size head count).set offset value := by
  apply List.ext_getElem?
  intro other
  by_cases inside : other < count
  · rw [contents_getElem? inside, List.getElem?_set, contents_getElem? inside]
    by_cases same : offset = other
    · subst other
      simp [within]
    · have apart : slot size head other ≠ slot size head offset := by
        intro equal
        exact same (slot_inj (by omega) (by omega) equal).symm
      simp [same, Function.update_of_ne apart]
  · rw [List.getElem?_eq_none (by simp; omega), List.getElem?_eq_none (by simp; omega)]

theorem contents_push (value : α) (room : count < size) :
    contents (Function.update ring (slot size head count) value) size head (count + 1) =
      contents ring size head count ++ [value] := by
  rw [contents_succ, contents_update_outside value (Nat.le_refl count) room, Function.update_self]

end Contents

structure Ring (ring : Nat → α) (size head tail : Nat) (count : Int) (items : List α) : Prop where
  inside : head < size
  room : items.length < size
  counted : count = items.length
  tail_eq : tail = slot size head items.length
  held : contents ring size head items.length = items

namespace Ring

variable {ring : Nat → α} {size head tail offset index : Nat} {count : Int} {items : List α} {a value : α}

theorem getElem? (holds : Ring ring size head tail count items) (found : items[offset]? = some a) :
    ring (slot size head offset) = a := by
  obtain ⟨within, _⟩ := List.getElem?_eq_some_iff.mp found
  have read : (contents ring size head items.length)[offset]? = some (ring (slot size head offset)) :=
    contents_getElem? within
  rw [holds.held, found] at read
  exact (Option.some.inj read).symm

theorem head_eq (holds : Ring ring size head tail count (a :: items)) : ring head = a := by
  have first : ring (slot size head 0) = a := holds.getElem? rfl
  rwa [slot_zero holds.inside] at first

theorem tail_lt (holds : Ring ring size head tail count items) : tail < size := by
  rw [holds.tail_eq]
  exact slot_lt holds.inside

theorem toNat_eq (holds : Ring ring size head tail count items) : count.toNat = items.length := by
  rw [holds.counted, Int.toNat_natCast]

theorem count_eq (holds : Ring ring size head tail count items) :
    count = ((tail : Int) - head) % size := by
  rw [holds.tail_eq, slot_sub holds.room, holds.counted]

theorem slot_eq_tail_iff (holds : Ring ring size head tail count items) (within : offset ≤ items.length) :
    slot size head offset = tail ↔ offset = items.length := by
  rw [holds.tail_eq]
  constructor
  · intro same
    exact slot_inj (Nat.lt_of_le_of_lt within holds.room) holds.room same
  · intro same
    rw [same]

theorem write_free (holds : Ring ring size head tail count items)
    (free : ∀ offset < items.length, slot size head offset ≠ index) :
    Ring (Function.update ring index value) size head tail count items := by
  refine ⟨holds.inside, holds.room, holds.counted, holds.tail_eq, Eq.trans ?_ holds.held⟩
  apply contents_congr
  intro offset within
  exact Function.update_of_ne (free offset within) _ _

theorem push (holds : Ring ring size head tail count items) (room : items.length + 1 < size) :
    Ring (Function.update ring tail value) size head (next size tail) (count + 1) (items ++ [value]) := by
  refine ⟨holds.inside, by simpa using room, ?_, ?_, ?_⟩
  · rw [holds.counted]
    simp
  · rw [holds.tail_eq, next_slot holds.inside, List.length_append]
    rfl
  · rw [holds.tail_eq, List.length_append, List.length_singleton, contents_push value holds.room,
      holds.held]

theorem pop (holds : Ring ring size head tail count (a :: items)) :
    Ring ring size (next size head) tail (count - 1) items := by
  have room := holds.room
  rw [List.length_cons] at room
  refine ⟨next_lt holds.inside, by omega, ?_, ?_, ?_⟩
  · rw [holds.counted, List.length_cons]
    omega
  · rw [holds.tail_eq, slot_next holds.inside, List.length_cons]
  · have held := holds.held
    rw [List.length_cons, contents_cons holds.inside] at held
    exact (List.cons.inj held).2

theorem pop_free (holds : Ring ring size head tail count (a :: items)) :
    ∀ offset < items.length, slot size (next size head) offset ≠ head := by
  intro offset within same
  have room := holds.room
  rw [List.length_cons] at room
  rw [slot_next holds.inside] at same
  have distance := slot_inj (by omega) (by omega) (same.trans (slot_zero holds.inside).symm)
  omega

theorem dropLast (holds : Ring ring size head tail count (items ++ [a])) :
    Ring ring size head (slot size head items.length) (count - 1) items := by
  have room := holds.room
  rw [List.length_append, List.length_singleton] at room
  refine ⟨holds.inside, by omega, ?_, rfl, ?_⟩
  · rw [holds.counted, List.length_append, List.length_singleton]
    omega
  · have held := holds.held
    rw [List.length_append, List.length_singleton, contents_succ] at held
    exact (List.append_inj' held rfl).1

theorem last_free (holds : Ring ring size head tail count items) :
    ∀ offset < items.length, slot size head offset ≠ slot size head items.length := by
  intro offset within same
  have distance := slot_inj (Nat.lt_trans within holds.room) holds.room same
  omega

theorem previous_tail (holds : Ring ring size head tail count (items ++ [a])) :
    previous size tail = slot size head items.length := by
  rw [holds.tail_eq, List.length_append, List.length_singleton, previous_slot holds.inside]

theorem set (holds : Ring ring size head tail count items) (within : offset < items.length) :
    Ring (Function.update ring (slot size head offset) value) size head tail count
      (items.set offset value) := by
  have room := holds.room
  refine ⟨holds.inside, by simpa using room, by simpa using holds.counted,
    by simpa using holds.tail_eq, ?_⟩
  rw [List.length_set, contents_update_inside value within (Nat.le_of_lt room), holds.held]

theorem next_tail_ne_head (holds : Ring ring size head tail count items)
    (room : items.length + 1 < size) : (tail + 1) % size ≠ head := by
  intro same
  rw [← next_eq_mod holds.tail_lt, holds.tail_eq, next_slot holds.inside] at same
  have distance := slot_inj room (Nat.zero_lt_of_lt room) (same.trans (slot_zero holds.inside).symm)
  omega

end Ring

/-- `index` is the slot right after the keys of a sorted ring that are below `key`. -/
def Bookmark {κ : Type u} [LinearOrder κ] (size head : Nat) (keys : List κ) (key : κ)
    (index : Nat) : Prop :=
  index = slot size head (keys.countP fun k => decide (k < key))

section Bookmarks

variable {κ : Type u} [LinearOrder κ] {size head index : Nat} {keys younger : List κ} {oldest key : κ}

theorem bookmark_tail (youngest : ∀ k ∈ keys, k < key) :
    Bookmark size head keys key (slot size head keys.length) := by
  rw [Bookmark, List.countP_eq_length.mpr]
  intro k member
  exact decide_eq_true (youngest k member)

theorem bookmark_append_iff (above : ∀ k ∈ younger, key ≤ k) :
    Bookmark size head (keys ++ younger) key index ↔ Bookmark size head keys key index := by
  have none' : younger.countP (fun k => decide (k < key)) = 0 := by
    apply List.countP_eq_zero.mpr
    intro k member
    simpa using above k member
  rw [Bookmark, Bookmark, List.countP_append, none', Nat.add_zero]

theorem bookmark_cons_iff (inside : head < size) (below : oldest < key) :
    Bookmark size head (oldest :: keys) key index ↔ Bookmark size (next size head) keys key index := by
  rw [Bookmark, Bookmark, List.countP_cons, if_pos (decide_eq_true below), slot_next inside]

theorem lt_of_lt_countP {offset : Nat} {found : κ} (sorted : keys.Pairwise (· < ·))
    (read : keys[offset]? = some found) (before : offset < keys.countP fun k => decide (k < key)) :
    found < key := by
  induction keys generalizing offset with
  | nil => cases read
  | cons first rest ih =>
      by_cases below : first < key
      · rw [List.countP_cons, if_pos (decide_eq_true below)] at before
        cases offset with
        | zero =>
            cases read
            exact below
        | succ offset => exact ih sorted.of_cons read (Nat.lt_of_succ_lt_succ before)
      · -- nothing after it is below the key either
        have none' : (first :: rest).countP (fun k => decide (k < key)) = 0 := by
          apply List.countP_eq_zero.mpr
          intro k member
          have above : first ≤ k := by
            rcases List.mem_cons.mp member with rfl | later
            · exact le_refl _
            · exact le_of_lt ((List.pairwise_cons.mp sorted).1 k later)
          simpa using le_trans (not_lt.mp below) above
        rw [none'] at before
        exact absurd before (Nat.not_lt_zero _)

theorem lt_countP_of_lt {offset : Nat} {found : κ} (sorted : keys.Pairwise (· < ·))
    (read : keys[offset]? = some found) (below : found < key) :
    offset < keys.countP fun k => decide (k < key) := by
  induction keys generalizing offset with
  | nil => cases read
  | cons first rest ih =>
      cases offset with
      | zero =>
          cases read
          rw [List.countP_cons, if_pos (decide_eq_true below)]
          exact Nat.succ_pos _
      | succ offset =>
          have before := (List.pairwise_cons.mp sorted).1 found (List.mem_of_getElem? read)
          rw [List.countP_cons, if_pos (decide_eq_true (lt_trans before below))]
          exact Nat.succ_lt_succ (ih sorted.of_cons read)

end Bookmarks

end GemFi.Rings
