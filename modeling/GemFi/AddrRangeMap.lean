import GemFi.BitFields
import GemFi.Outcomes
import GemFi.SortedMaps
import Mathlib.Data.BitVec

/-!
The map of address ranges that decodes addresses (base/addr_range.hh, addr_range_map.hh). Its
tree is ordered by the starts of the ranges, and a search looks at the range before the place
where the wanted one would go.
-/

namespace GemFi.AddrRangeMap

open Outcomes (Stop)
open BitFields SortedMaps

abbrev Addr := BitVec 64

structure AddrRange where
  start : Addr
  last : Addr
  intlvHighBit : BitVec 8
  intlvBits : BitVec 8
  intlvMatch : BitVec 8
  deriving DecidableEq

/-- `RangeIn`: both ends are in the range. -/
def rangeIn (start last : Addr) : AddrRange where
  start := start
  last := last
  intlvHighBit := 0
  intlvBits := 0
  intlvMatch := 0

namespace AddrRange

def interleaved (range : AddrRange) : Bool := range.intlvBits != 0

def size (range : AddrRange) : Addr := (range.last - range.start + 1) >>> range.intlvBits.toNat

def valid (range : AddrRange) : Bool := decide (range.start < range.last)

def contains (range : AddrRange) (a : Addr) : Bool :=
  decide (range.start ≤ a ∧ a ≤ range.last) &&
    (!range.interleaved ||
      bits a range.intlvHighBit.toNat (range.intlvHighBit.toNat + 1 - range.intlvBits.toNat) ==
        range.intlvMatch.setWidth 64)

def mergesWith (range r : AddrRange) : Bool :=
  decide (r.start = range.start ∧ r.last = range.last ∧ r.intlvHighBit = range.intlvHighBit ∧
    r.intlvBits = range.intlvBits)

def intersects (range r : AddrRange) : Except Stop Bool :=
  if !range.interleaved then .ok (decide (range.start ≤ r.last ∧ r.start ≤ range.last))
  else if r.size = 1 then .ok (range.contains r.start)
  -- "be conservative and ignore the interleaving"
  else if !r.interleaved then .ok (decide (range.start ≤ r.last ∧ r.start ≤ range.last))
  else if range.mergesWith r then .ok (range.intlvMatch == r.intlvMatch)
  else .error .panic

/-- `operator<`. -/
def less (range r : AddrRange) : Bool :=
  if range.start ≠ r.start then decide (range.start < r.start)
  else decide (range.intlvMatch < r.intlvMatch)

theorem less_iff (range r : AddrRange) :
    range.less r = true ↔
      range.start.toNat < r.start.toNat ∨
        range.start.toNat = r.start.toNat ∧ range.intlvMatch.toNat < r.intlvMatch.toNat := by
  unfold less
  split
  · next apart =>
      have starts : range.start.toNat ≠ r.start.toNat := fun same => apart (BitVec.eq_of_toNat_eq same)
      rw [decide_eq_true_eq, BitVec.lt_def]
      omega
  · next same =>
      have starts : range.start.toNat = r.start.toNat := by rw [not_not.mp same]
      rw [decide_eq_true_eq, BitVec.lt_def]
      omega

theorem less_strictWeak : StrictWeak less where
  irrefl := by
    intro a
    rw [← Bool.not_eq_true, less_iff]
    omega
  trans := by
    intro a b c
    simp only [less_iff]
    omega
  split := by
    intro a b c
    simp only [less_iff]
    omega

theorem start_le_of_not_less {range r : AddrRange} (notAfter : r.less range = false) :
    range.start ≤ r.start := by
  rw [← Bool.not_eq_true, less_iff] at notAfter
  rw [BitVec.le_def]
  omega

theorem start_le_of_less {range r : AddrRange} (before : range.less r = true) :
    range.start ≤ r.start := by
  rw [less_iff] at before
  rw [BitVec.le_def]
  omega

end AddrRange

structure RangeMap (V : Type) where
  -- the tree, in order; an iterator is a position in it
  entries : List (AddrRange × V)
  ascending : Ascending AddrRange.less entries

namespace RangeMap

variable {V : Type}

def empty : RangeMap V := ⟨[], List.Pairwise.nil⟩

def endIndex (tree : RangeMap V) : Nat := tree.entries.length

def upper_bound (tree : RangeMap V) (r : AddrRange) : Nat := upperBound AddrRange.less r tree.entries

/-- `i->first`. -/
def first (tree : RangeMap V) (i : Nat) : Except Stop AddrRange :=
  match tree.entries[i]? with
  | some entry => .ok entry.1
  | none => .error .noElement

def check (tree : RangeMap V) (r : AddrRange) (i : Nat) : Except Stop Nat := do
  let range ← tree.first i
  let hit ← range.intersects r
  .ok (if hit then i else tree.endIndex)

def stepBack (tree : RangeMap V) (r orig_range : AddrRange) : Nat → Except Stop Nat
  | 0 => tree.check r 0
  | i + 1 => do
      let range ← tree.first (i + 1)
      if range.mergesWith orig_range then do
        let previous ← tree.first i
        let hit ← previous.intersects r
        if hit then .ok i else tree.stepBack r orig_range i
      else tree.check r (i + 1)

def find (tree : RangeMap V) (r : AddrRange) : Except Stop Nat :=
  if tree.entries.isEmpty then .ok tree.endIndex
  else
    match tree.upper_bound r with
    | 0 => tree.check r 0
    | i + 1 => do
        -- of the ranges on both sides only the one before is looked at
        let range ← tree.first i
        let hit ← range.intersects r
        if hit then .ok i
        else if range.interleaved then tree.stepBack r range i
        else .ok tree.endIndex

def intersect (tree : RangeMap V) (r : AddrRange) : Except Stop Bool := do
  let i ← tree.find r
  .ok (decide (i ≠ tree.endIndex))

def Fresh (tree : RangeMap V) (r : AddrRange) : Prop :=
  ∀ other ∈ tree.entries, other.1.less r = true ∨ r.less other.1 = true

instance (tree : RangeMap V) (r : AddrRange) : Decidable (tree.Fresh r) :=
  inferInstanceAs (Decidable (∀ _ ∈ _, _ ∨ _))

/-- The `insert` of the tree itself, which keeps an equivalent range that it holds. -/
def put (tree : RangeMap V) (r : AddrRange) (d : V) : Nat × RangeMap V :=
  if fresh : tree.Fresh r then
    (tree.upper_bound r,
      ⟨place AddrRange.less (r, d) tree.entries, tree.ascending.place AddrRange.less_strictWeak fresh⟩)
  else (tree.upper_bound r - 1, tree)

def insert (tree : RangeMap V) (r : AddrRange) (d : V) : Except Stop (Nat × RangeMap V) := do
  let taken ← tree.intersect r
  .ok (if taken then (tree.endIndex, tree) else tree.put r d)

def erase (tree : RangeMap V) (p : Nat) : Except Stop (RangeMap V) :=
  if p < tree.endIndex then .ok ⟨tree.entries.eraseIdx p, tree.ascending.sublist (List.eraseIdx_sublist _ _)⟩
  else .error .noElement

theorem cut_sublist (items : List (AddrRange × V)) {p q : Nat} (ordered : p ≤ q) :
    (items.take p ++ items.drop q).Sublist items := by
  have tail : (items.drop q).Sublist (items.drop p) := by
    rw [← Nat.add_sub_of_le ordered, ← List.drop_drop]
    exact List.drop_sublist _ _
  have both := (List.Sublist.refl (items.take p)).append tail
  rwa [List.take_append_drop] at both

/-- `erase(p, q)`. -/
def eraseRange (tree : RangeMap V) (p q : Nat) : Except Stop (RangeMap V) :=
  if span : p ≤ q ∧ q ≤ tree.endIndex then
    .ok ⟨tree.entries.take p ++ tree.entries.drop q, tree.ascending.sublist (cut_sublist _ span.1)⟩
  else .error .noElement

end RangeMap

inductive Action (V : Type) where
  | insert (r : AddrRange) (d : V)
  | erase (p : Nat)
  | eraseRange (p q : Nat)
  | clear

def perform {V : Type} (tree : RangeMap V) : Action V → Except Stop (RangeMap V)
  | .insert r d => (tree.insert r d).map Prod.snd
  | .erase p => tree.erase p
  | .eraseRange p q => tree.eraseRange p q
  | .clear => .ok RangeMap.empty

def step {V : Type} (tree : RangeMap V) (action : Action V) : Option (RangeMap V) :=
  (perform tree action).toOption

end GemFi.AddrRangeMap
