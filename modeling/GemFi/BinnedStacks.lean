import Mathlib.Data.List.Sort
import Mathlib.Order.Defs.LinearOrder
import GemFi.LinkedLists

/-!
Linked lists of linked stacks. The tops of the stacks are chained by `next`, the
members of one stack by `below`, and `next` means nothing at a node under a top. A bin
is its top with the nodes below it, so that no bin is empty. The nodes of a bin
share one key, and the keys of the bins increase.
-/

namespace GemFi.BinnedStacks

open LinkedLists

universe u v
variable {Node : Type u} {Key : Type v}

abbrev Bin (Node : Type u) := Node × List Node

def Bin.nodes (bin : Bin Node) : List Node := bin.1 :: bin.2

def members (bins : List (Bin Node)) : List Node := bins.flatMap Bin.nodes

@[simp] theorem members_nil : members ([] : List (Bin Node)) = [] := rfl

@[simp] theorem members_cons (bin : Bin Node) (bins : List (Bin Node)) :
    members (bin :: bins) = bin.1 :: (bin.2 ++ members bins) := rfl

theorem members_append (front behind : List (Bin Node)) :
    members (front ++ behind) = members front ++ members behind := List.flatMap_append

theorem mem_members_of_top {bins : List (Bin Node)} {bin : Bin Node} (member : bin ∈ bins) :
    bin.1 ∈ members bins :=
  List.mem_flatMap.mpr ⟨bin, member, List.mem_cons_self⟩

theorem length_le_members (bins : List (Bin Node)) : bins.length ≤ (members bins).length := by
  induction bins with
  | nil => exact Nat.le_refl 0
  | cons bin rest ih =>
      rw [members_cons, List.length_cons, List.length_cons, List.length_append]
      omega

theorem nodup_tops_apart {front behind : List (Bin Node)} {bin : Bin Node}
    (unique : (members (front ++ bin :: behind)).Nodup) :
    (∀ other ∈ front, other.1 ∉ members (bin :: behind)) ∧ ∀ other ∈ behind, other.1 ∉ bin.nodes := by
  rw [members_append, List.nodup_append] at unique
  obtain ⟨_, uniqueBehind, apart⟩ := unique
  change (bin.nodes ++ members behind).Nodup at uniqueBehind
  constructor
  · intro other member inside
    exact apart other.1 (mem_members_of_top member) other.1 inside rfl
  · intro other member inside
    exact (List.nodup_append.mp uniqueBehind).2.2 other.1 inside other.1 (mem_members_of_top member) rfl

section Links

/-- The two kinds of links lead from `start` through `bins` to `stop`. -/
def Stacked (next below : Node → Option Node) : Option Node → List (Bin Node) → Option Node → Prop
  | start, [], stop => start = stop
  | start, bin :: bins, stop =>
      start = some bin.1 ∧ Chain below (below bin.1) bin.2 none ∧
        Stacked next below (next bin.1) bins stop

variable {next next' below below' : Node → Option Node} {start stop : Option Node}
  {bins front behind : List (Bin Node)} {bin : Bin Node} {node : Node}

theorem stacked_append_iff :
    Stacked next below start (front ++ behind) stop ↔
      ∃ middle, Stacked next below start front middle ∧ Stacked next below middle behind stop := by
  induction front generalizing start with
  | nil => simp [Stacked]
  | cons bin rest ih => simp [Stacked, ih, and_assoc]

theorem stacked_congr (sameNext : ∀ bin ∈ bins, next' bin.1 = next bin.1)
    (sameBelow : ∀ node ∈ members bins, below' node = below node)
    (stacked : Stacked next below start bins stop) : Stacked next' below' start bins stop := by
  induction bins generalizing start with
  | nil => exact stacked
  | cons bin rest ih =>
      obtain ⟨first, stack, others⟩ := stacked
      refine ⟨first, ?_, ?_⟩
      · rw [sameBelow bin.1 (by simp)]
        apply chain_congr bin.2 (fun node member => sameBelow node (by simp [member])) stack
      · rw [sameNext bin List.mem_cons_self]
        apply ih _ _ others
        · exact fun other member => sameNext other (List.mem_cons_of_mem bin member)
        · exact fun node member => sameBelow node (by simp [member])

theorem Stacked.start_eq (stacked : Stacked next below start bins none) :
    start = bins.head?.map Prod.fst := by
  cases bins with
  | nil => exact stacked
  | cons bin rest => exact stacked.1

theorem Stacked.redirect {stop' : Option Node}
    (stacked : Stacked next below start (front ++ [bin]) stop)
    (kept : ∀ other ∈ front, next' other.1 = next other.1) (moved : next' bin.1 = stop')
    (sameBelow : ∀ node ∈ members (front ++ [bin]), below' node = below node) :
    Stacked next' below' start (front ++ [bin]) stop' := by
  obtain ⟨middle, before, first, stack, last⟩ := stacked_append_iff.mp stacked
  rw [members_append] at sameBelow
  refine stacked_append_iff.mpr ⟨middle, ?_, first, ?_, moved⟩
  · exact stacked_congr kept (fun node member => sameBelow node (by simp [member])) before
  · rw [sameBelow bin.1 (by simp)]
    exact chain_congr bin.2 (fun node member => sameBelow node (by simp [member])) stack

end Links

section Order

variable [LinearOrder Key] (key : Node → Key)

structure Ordered (bins : List (Bin Node)) : Prop where
  uniform : ∀ bin ∈ bins, ∀ node ∈ bin.2, key node = key bin.1
  increasing : bins.Pairwise fun first second => key first.1 < key second.1

/-- `node` on top of the bin of its key. -/
def push (node : Node) : List (Bin Node) → List (Bin Node)
  | [] => [(node, [])]
  | bin :: bins =>
      if key bin.1 < key node then bin :: push node bins
      else if key bin.1 = key node then (node, bin.nodes) :: bins
      else (node, []) :: bin :: bins

variable {key} {bins : List (Bin Node)} {bin : Bin Node} {node : Node}

theorem Ordered.nil : Ordered key ([] : List (Bin Node)) := ⟨by simp, .nil⟩

theorem Ordered.tail (ordered : Ordered key (bin :: bins)) : Ordered key bins :=
  ⟨fun other member => ordered.uniform other (List.mem_cons_of_mem bin member),
    (List.pairwise_cons.mp ordered.increasing).2⟩

theorem Ordered.key_eq (ordered : Ordered key bins) (member : bin ∈ bins)
    (inside : node ∈ bin.nodes) : key node = key bin.1 := by
  rcases List.mem_cons.mp inside with rfl | under
  · rfl
  · exact ordered.uniform bin member node under

/-- Every node behind the first bin has a greater key. -/
theorem Ordered.first_lt (ordered : Ordered key (bin :: bins)) (member : node ∈ members bins) :
    key bin.1 < key node := by
  obtain ⟨other, inBins, inside⟩ := List.mem_flatMap.mp member
  rw [ordered.key_eq (List.mem_cons_of_mem bin inBins) inside]
  exact (List.pairwise_cons.mp ordered.increasing).1 other inBins

theorem Ordered.members_sorted (ordered : Ordered key bins) :
    (members bins).Pairwise fun first second => key first ≤ key second := by
  induction bins with
  | nil => exact .nil
  | cons bin bins ih =>
      have inside : ∀ node ∈ bin.nodes, key node = key bin.1 := fun node =>
        ordered.key_eq List.mem_cons_self
      show (bin.nodes ++ members bins).Pairwise _
      rw [List.pairwise_append]
      refine ⟨List.pairwise_of_forall_mem_list ?_, ih ordered.tail, ?_⟩
      · intro first inFirst second inSecond
        rw [inside first inFirst, inside second inSecond]
      · intro first inFirst second inSecond
        rw [inside first inFirst]
        exact (ordered.first_lt inSecond).le

theorem Ordered.mem_first {front behind : List (Bin Node)} (ordered : Ordered key (front ++ behind))
    (member : node ∈ members (front ++ behind)) (less : ∀ other ∈ front, key other.1 < key node)
    (notLess : ∀ other ∈ behind.head?, ¬ key other.1 < key node) :
    ∃ bin more, behind = bin :: more ∧ node ∈ bin.nodes := by
  obtain ⟨bin, inBins, inside⟩ := List.mem_flatMap.mp member
  have same := ordered.key_eq inBins inside
  rcases List.mem_append.mp inBins with inFront | inBehind
  · exact absurd (less bin inFront) (same ▸ lt_irrefl _)
  · cases behind with
    | nil => cases inBehind
    | cons first more =>
        refine ⟨first, more, rfl, ?_⟩
        rcases List.mem_cons.mp inBehind with rfl | later
        · exact inside
        · have increasing := (List.pairwise_append.mp ordered.increasing).2.1
          have ahead := (List.pairwise_cons.mp increasing).1 bin later
          exact absurd (same ▸ ahead) (notLess first rfl)

theorem Ordered.congr {key' : Node → Key} (ordered : Ordered key bins)
    (same : ∀ node ∈ members bins, key' node = key node) : Ordered key' bins := by
  have tops : ∀ bin ∈ bins, key' bin.1 = key bin.1 := fun bin member =>
    same bin.1 (mem_members_of_top member)
  constructor
  · intro bin member node under
    rw [tops bin member, same node (List.mem_flatMap.mpr ⟨bin, member, List.mem_cons_of_mem _ under⟩)]
    exact ordered.uniform bin member node under
  · apply ordered.increasing.imp_of_mem
    intro first second inFirst inSecond less
    rw [tops first inFirst, tops second inSecond]
    exact less

/-- A bin after a push is an old one, or has the node on top of nothing or of an
old one. -/
theorem mem_push {bin : Bin Node} (member : bin ∈ push key node bins) :
    bin ∈ bins ∨ bin = (node, []) ∨ ∃ old ∈ bins, bin = (node, old.nodes) := by
  induction bins with
  | nil => exact .inr (.inl (List.mem_singleton.mp member))
  | cons first rest ih =>
      unfold push at member
      split at member
      · rcases List.mem_cons.mp member with here | later
        · exact .inl (here ▸ List.mem_cons_self)
        · rcases ih later with old | alone | ⟨old, inRest, onTop⟩
          · exact .inl (List.mem_cons_of_mem first old)
          · exact .inr (.inl alone)
          · exact .inr (.inr ⟨old, List.mem_cons_of_mem first inRest, onTop⟩)
      · split at member
        · rcases List.mem_cons.mp member with here | later
          · exact .inr (.inr ⟨first, List.mem_cons_self, here⟩)
          · exact .inl (List.mem_cons_of_mem first later)
        · rcases List.mem_cons.mp member with here | later
          · exact .inr (.inl here)
          · exact .inl later

theorem push_ordered (ordered : Ordered key bins) (node : Node) : Ordered key (push key node bins) := by
  induction bins with
  | nil => exact ⟨by simp [push], by simp [push]⟩
  | cons first rest ih =>
      obtain ⟨ahead, others⟩ := List.pairwise_cons.mp ordered.increasing
      unfold push
      split
      · next less =>
          have later := ih ordered.tail
          refine ⟨List.forall_mem_cons.mpr ⟨ordered.uniform first List.mem_cons_self, later.uniform⟩,
            List.pairwise_cons.mpr ⟨?_, later.increasing⟩⟩
          intro bin member
          rcases mem_push member with old | rfl | ⟨_, _, rfl⟩
          · exact ahead bin old
          · exact less
          · exact less
      · next notLess =>
          split
          · next same =>
              refine ⟨List.forall_mem_cons.mpr ⟨?_, fun bin member =>
                ordered.uniform bin (List.mem_cons_of_mem first member)⟩,
                List.pairwise_cons.mpr ⟨fun bin member => same ▸ ahead bin member, others⟩⟩
              intro other under
              rw [ordered.key_eq List.mem_cons_self under, same]
          · next differs =>
              have less : key node < key first.1 := lt_of_le_of_ne (not_lt.mp notLess) (Ne.symm differs)
              refine ⟨List.forall_mem_cons.mpr ⟨by simp, ordered.uniform⟩,
                List.pairwise_cons.mpr ⟨List.forall_mem_cons.mpr ⟨less, ?_⟩, ordered.increasing⟩⟩
              exact fun bin member => less.trans (ahead bin member)

theorem orderedInsert_skip {front behind : List Node} (less : ∀ other ∈ front, key other < key node) :
    (front ++ behind).orderedInsert (fun first second => key first ≤ key second) node =
      front ++ behind.orderedInsert (fun first second => key first ≤ key second) node := by
  induction front with
  | nil => rfl
  | cons first rest ih =>
      obtain ⟨here, others⟩ := List.forall_mem_cons.mp less
      rw [List.cons_append, List.orderedInsert, if_neg (not_le.mpr here), ih others]
      rfl

/-- In the order of the members, a push is an insertion before the first node whose
key is not less. -/
theorem members_push (ordered : Ordered key bins) (node : Node) :
    members (push key node bins) =
      (members bins).orderedInsert (fun first second => key first ≤ key second) node := by
  induction bins with
  | nil => rfl
  | cons bin rest ih =>
      unfold push
      split
      · next less =>
          have all : ∀ other ∈ bin.nodes, key other < key node := by
            intro other inside
            rw [ordered.key_eq List.mem_cons_self inside]
            exact less
          change bin.nodes ++ members (push key node rest) =
            (bin.nodes ++ members rest).orderedInsert _ _
          rw [ih ordered.tail, orderedInsert_skip all]
      · next notLess =>
          rw [members_cons, List.orderedInsert, if_pos (not_lt.mp notLess)]
          split <;> rfl

theorem push_perm (node : Node) (bins : List (Bin Node)) :
    (members (push key node bins)).Perm (node :: members bins) := by
  induction bins with
  | nil => exact List.Perm.refl _
  | cons bin rest ih =>
      unfold push
      split
      · change (bin.nodes ++ members (push key node rest)).Perm (node :: (bin.nodes ++ members rest))
        exact (ih.append_left bin.nodes).trans List.perm_middle
      · split <;> exact List.Perm.refl _

theorem push_append {front behind : List (Bin Node)} (less : ∀ bin ∈ front, key bin.1 < key node) :
    push key node (front ++ behind) = front ++ push key node behind := by
  induction front with
  | nil => rfl
  | cons bin rest ih =>
      obtain ⟨here, others⟩ := List.forall_mem_cons.mp less
      rw [List.cons_append, push, if_pos here, ih others]
      rfl

end Order

section Removal

variable [DecidableEq Node]

def dropTop (bin : Bin Node) (bins : List (Bin Node)) : List (Bin Node) :=
  match bin.2 with
  | [] => bins
  | top :: rest => (top, rest) :: bins

def pull (node : Node) : List (Bin Node) → List (Bin Node)
  | [] => []
  | bin :: bins =>
      if node = bin.1 then dropTop bin bins
      else if node ∈ bin.2 then (bin.1, bin.2.erase node) :: bins
      else bin :: pull node bins

variable {bins front behind : List (Bin Node)} {bin : Bin Node} {node : Node}

omit [DecidableEq Node] in
theorem members_dropTop (bin : Bin Node) (bins : List (Bin Node)) :
    members (dropTop bin bins) = bin.2 ++ members bins := by
  unfold dropTop
  split
  · next none => rw [none, List.nil_append]
  · next top rest some => rw [some, members_cons, List.cons_append]

theorem members_pull (node : Node) (bins : List (Bin Node)) :
    members (pull node bins) = (members bins).erase node := by
  induction bins with
  | nil => rfl
  | cons bin rest ih =>
      rw [members_cons]
      unfold pull
      split
      · next isTop => rw [members_dropTop, isTop, List.erase_cons_head]
      · next notTop =>
          rw [List.erase_cons_tail (by simpa using Ne.symm notTop)]
          split
          · next under => rw [members_cons, List.erase_append_left _ under]
          · next elsewhere => rw [members_cons, ih, List.erase_append_right _ elsewhere]

theorem length_pull_le (node : Node) (bins : List (Bin Node)) :
    (members (pull node bins)).length ≤ (members bins).length := by
  rw [members_pull]
  exact List.length_erase_le

theorem pull_append (outside : node ∉ members front) :
    pull node (front ++ behind) = front ++ pull node behind := by
  induction front with
  | nil => rfl
  | cons bin rest ih =>
      rw [members_cons, List.mem_cons, List.mem_append, not_or, not_or] at outside
      rw [List.cons_append, pull, if_neg outside.1, if_neg outside.2.1, ih outside.2.2]
      rfl

theorem mem_pull (member : bin ∈ pull node bins) : ∃ old ∈ bins, bin.nodes.Sublist old.nodes := by
  induction bins with
  | nil => cases member
  | cons first rest ih =>
      unfold pull at member
      split at member
      · unfold dropTop at member
        split at member
        · exact ⟨bin, List.mem_cons_of_mem first member, List.Sublist.refl _⟩
        · next top under some =>
            rcases List.mem_cons.mp member with rfl | later
            · refine ⟨first, List.mem_cons_self, ?_⟩
              change (top :: under).Sublist (first.1 :: first.2)
              rw [some]
              exact List.sublist_cons_self _ _
            · exact ⟨bin, List.mem_cons_of_mem first later, List.Sublist.refl _⟩
      · split at member
        · rcases List.mem_cons.mp member with rfl | later
          · exact ⟨first, List.mem_cons_self, List.erase_sublist.cons_cons _⟩
          · exact ⟨bin, List.mem_cons_of_mem first later, List.Sublist.refl _⟩
        · rcases List.mem_cons.mp member with rfl | later
          · exact ⟨_, List.mem_cons_self, List.Sublist.refl _⟩
          · obtain ⟨old, inRest, smaller⟩ := ih later
            exact ⟨old, List.mem_cons_of_mem first inRest, smaller⟩

variable [LinearOrder Key] {key : Node → Key}

omit [DecidableEq Node] in
theorem dropTop_ordered (ordered : Ordered key (bin :: bins)) : Ordered key (dropTop bin bins) := by
  obtain ⟨ahead, others⟩ := List.pairwise_cons.mp ordered.increasing
  unfold dropTop
  split
  · exact ordered.tail
  · next top rest some =>
      have same : ∀ other ∈ top :: rest, key other = key bin.1 :=
        some ▸ ordered.uniform bin List.mem_cons_self
      obtain ⟨first, below⟩ := List.forall_mem_cons.mp same
      refine ⟨List.forall_mem_cons.mpr ⟨fun other under => (below other under).trans first.symm,
        ordered.tail.uniform⟩, List.pairwise_cons.mpr ⟨?_, others⟩⟩
      intro other member
      rw [first]
      exact ahead other member

theorem pull_ordered (ordered : Ordered key bins) (node : Node) : Ordered key (pull node bins) := by
  induction bins with
  | nil => exact ordered
  | cons bin rest ih =>
      obtain ⟨ahead, others⟩ := List.pairwise_cons.mp ordered.increasing
      unfold pull
      split
      · exact dropTop_ordered ordered
      · split
        · refine ⟨List.forall_mem_cons.mpr ⟨fun other under => ?_, ordered.tail.uniform⟩,
            List.pairwise_cons.mpr ⟨ahead, others⟩⟩
          exact ordered.uniform bin List.mem_cons_self other (List.mem_of_mem_erase under)
        · have later := ih ordered.tail
          refine ⟨List.forall_mem_cons.mpr ⟨ordered.uniform bin List.mem_cons_self, later.uniform⟩,
            List.pairwise_cons.mpr ⟨?_, later.increasing⟩⟩
          intro other member
          apply ordered.first_lt
          apply List.mem_of_mem_erase
          rw [← members_pull node rest]
          exact mem_members_of_top member

end Removal

section Relinking

variable [LinearOrder Key] {key : Node → Key} {next next' below below' : Node → Option Node}
  {start : Option Node} {front behind : List (Bin Node)} {bin : Bin Node} {node : Node}

/-- What is written into a node that goes in front of `behind`, in the bin of its
key or in one of its own. -/
structure Placed (key : Node → Key) (next next' below' : Node → Option Node) (node : Node)
    (behind : List (Bin Node)) : Prop where
  apart : ∀ bin rest, behind = bin :: rest → key bin.1 ≠ key node →
    next' node = some bin.1 ∧ below' node = none
  joined : ∀ bin rest, behind = bin :: rest → key bin.1 = key node →
    next' node = next bin.1 ∧ below' node = some bin.1
  last : behind = [] → next' node = none ∧ below' node = none

omit [LinearOrder Key] in
theorem Placed.congr {next'' : Node → Option Node} (placed : Placed key next next' below' node behind)
    (same : next'' node = next' node) : Placed key next next'' below' node behind := by
  constructor
  · intro bin rest split differs
    rw [same]
    exact placed.apart bin rest split differs
  · intro bin rest split equal
    rw [same]
    exact placed.joined bin rest split equal
  · intro none
    rw [same]
    exact placed.last none

theorem push_stacked (stacked : Stacked next below start behind none)
    (notLess : ∀ bin ∈ behind.head?, ¬ key bin.1 < key node)
    (placed : Placed key next next' below' node behind)
    (keptNext : ∀ bin ∈ behind, next' bin.1 = next bin.1)
    (keptBelow : ∀ other ∈ members behind, below' other = below other) :
    Stacked next' below' (some node) (push key node behind) none := by
  have kept : Stacked next' below' start behind none := stacked_congr keptNext keptBelow stacked
  cases behind with
  | nil =>
      obtain ⟨nextBin, nextBelow⟩ := placed.last rfl
      exact ⟨rfl, nextBelow, nextBin⟩
  | cons bin rest =>
      obtain ⟨first, stack, others⟩ := kept
      have here : ¬ key bin.1 < key node := notLess bin rfl
      unfold push
      rw [if_neg here]
      by_cases same : key bin.1 = key node
      · obtain ⟨nextBin, nextBelow⟩ := placed.joined bin rest rfl same
        rw [if_pos same]
        refine ⟨rfl, ⟨nextBelow, stack⟩, ?_⟩
        rw [nextBin, ← keptNext bin List.mem_cons_self]
        exact others
      · obtain ⟨nextBin, nextBelow⟩ := placed.apart bin rest rfl same
        rw [if_neg same]
        refine ⟨rfl, nextBelow, ?_⟩
        rw [nextBin]
        exact ⟨rfl, stack, others⟩

theorem push_behind (stacked : Stacked next below start (front ++ bin :: behind) none)
    (less : ∀ other ∈ front ++ [bin], key other.1 < key node)
    (notLess : ∀ other ∈ behind.head?, ¬ key other.1 < key node)
    (placed : Placed key next next' below' node behind) (linked : next' bin.1 = some node)
    (keptFront : ∀ other ∈ front, next' other.1 = next other.1)
    (keptBehind : ∀ other ∈ behind, next' other.1 = next other.1)
    (keptBelow : ∀ other ∈ members (front ++ bin :: behind), below' other = below other) :
    Stacked next' below' start (push key node (front ++ bin :: behind)) none := by
  rw [List.append_cons front bin behind] at stacked keptBelow ⊢
  rw [members_append] at keptBelow
  obtain ⟨middle, before, after⟩ := stacked_append_iff.mp stacked
  rw [push_append less]
  refine stacked_append_iff.mpr ⟨some node, ?_, ?_⟩
  · exact before.redirect keptFront linked (fun other member => keptBelow other (by simp [member]))
  · exact push_stacked after notLess placed keptBehind
      (fun other member => keptBelow other (by simp [member]))

variable [DecidableEq Node]

omit [LinearOrder Key] in
theorem chain_skip (before after : List Node) {above : Node}
    (chain : Chain below start (before ++ above :: node :: after) none) :
    Chain (Function.update below above (below node)) start (before ++ above :: after) none := by
  have grouped : Chain below start ((before ++ [above]) ++ node :: after) none := by
    simpa using chain
  have behind : below node = after.head? := by
    obtain ⟨_, _, _, rest⟩ := (chain_append_iff (before ++ [above]) (node :: after)).mp grouped
    exact chain_start after rest
  have skipped : Chain (Function.update below above (below node))
      ((before ++ [above]) ++ after).head? ((before ++ [above]) ++ after) none := by
    apply chain_unsplice (before ++ [above]) after node grouped
    · intro last isLast
      have same : above = last := by simpa using isLast
      rw [← same, Function.update_self, behind]
    · intro other _ notLast
      have differs : other ≠ above := fun same => notLast (by simp [same])
      exact Function.update_of_ne differs _ _
  rw [chain_start _ chain]
  cases before <;> simpa using skipped

/-- The links written to take `node` out of the first bin, and where the bins then
begin. -/
inductive Unlinked (next below : Node → Option Node) (node : Node) (bin : Bin Node) :
    (Node → Option Node) → (Node → Option Node) → Option Node → Prop where
  | alone (isTop : node = bin.1) (none : bin.2 = []) :
      Unlinked next below node bin next below (next bin.1)
  | top (isTop : node = bin.1) (under : Node) (rest : List Node) (more : bin.2 = under :: rest) :
      Unlinked next below node bin (Function.update next under (next bin.1)) below (some under)
  | inner (before after : List Node) (above : Node)
      (split : bin.nodes = before ++ above :: node :: after) :
      Unlinked next below node bin next (Function.update below above (below node)) (some bin.1)

/-- Only nodes of the bin are written. -/
theorem Unlinked.frame {start' : Option Node}
    (unlinked : Unlinked next below node bin next' below' start')
    {other : Node} (outside : other ∉ bin.nodes) :
    next' other = next other ∧ below' other = below other := by
  cases unlinked with
  | alone isTop none => exact ⟨rfl, rfl⟩
  | top isTop under rest more =>
      have differs : other ≠ under := fun same => outside (by simp [Bin.nodes, more, same])
      exact ⟨Function.update_of_ne differs _ _, rfl⟩
  | inner before after above split =>
      have differs : other ≠ above := fun same => outside (by simp [split, same])
      exact ⟨rfl, Function.update_of_ne differs _ _⟩

theorem unlinked_stacked {start' : Option Node}
    (stacked : Stacked next below start (bin :: behind) none)
    (unique : (members (bin :: behind)).Nodup)
    (unlinked : Unlinked next below node bin next' below' start') :
    Stacked next' below' start' (pull node (bin :: behind)) none := by
  obtain ⟨first, stack, others⟩ := stacked
  change (bin.nodes ++ members behind).Nodup at unique
  obtain ⟨uniqueBin, _, disjoint⟩ := List.nodup_append.mp unique
  cases unlinked with
  | alone isTop none =>
      rw [pull, if_pos isTop, dropTop, none]
      exact others
  | top isTop under rest more =>
      rw [pull, if_pos isTop, dropTop, more]
      rw [more] at stack
      refine ⟨rfl, stack.2, ?_⟩
      rw [Function.update_self]
      apply stacked_congr _ (fun _ _ => rfl) others
      intro other member
      have differs : other.1 ≠ under := fun same =>
        disjoint under (by simp [Bin.nodes, more]) other.1 (mem_members_of_top member) same.symm
      rw [Function.update_of_ne differs]
  | inner before after above split =>
      have chain : Chain below (some bin.1) (before ++ above :: node :: after) none := by
        rw [← split]
        exact ⟨rfl, stack⟩
      have nodup := split ▸ uniqueBin
      obtain ⟨_, nodupBack, apartFront⟩ := List.nodup_append.mp nodup
      have notBefore : node ∉ before := fun member => apartFront node member node (by simp) rfl
      have notAbove : above ≠ node := by
        rintro rfl
        simp at nodupBack
      have notTop : node ≠ bin.1 := by
        cases before with
        | nil =>
            obtain ⟨isAbove, _⟩ := List.cons.inj split
            exact fun isTop => notAbove (isAbove.symm.trans isTop.symm)
        | cons first rest =>
            obtain ⟨isFirst, _⟩ := List.cons.inj split
            exact fun isTop => notBefore (by rw [isTop, isFirst]; exact List.mem_cons_self)
      have under : node ∈ bin.2 := by
        have inside : node ∈ bin.nodes := by simp [split]
        exact (List.mem_cons.mp inside).resolve_left notTop
      have shorter : bin.1 :: bin.2.erase node = before ++ above :: after := by
        rw [← List.erase_cons_tail (by simpa using Ne.symm notTop)]
        change bin.nodes.erase node = _
        rw [split, List.erase_append_right _ notBefore, List.erase_cons_tail (by simpa using notAbove),
          List.erase_cons_head]
      have relinked := chain_skip before after chain
      rw [← shorter] at relinked
      rw [pull, if_neg notTop, if_pos under]
      refine ⟨rfl, relinked.2, stacked_congr (fun _ _ => rfl) (fun other member => ?_) others⟩
      have differs : other ≠ above := fun same =>
        disjoint above (by simp [split]) other member same.symm
      exact Function.update_of_ne differs _ _

/-- A node taken out of a bin behind others, and the last of these linked to what
then follows. -/
theorem pull_behind {start' : Option Node} {last : Bin Node} {next'' : Node → Option Node}
    (stacked : Stacked next below start (front ++ last :: bin :: behind) none)
    (unique : (members (front ++ last :: bin :: behind)).Nodup) (inside : node ∈ bin.nodes)
    (unlinked : Unlinked next below node bin next' below' start')
    (linked : next'' last.1 = start') (kept : ∀ other, other ≠ last.1 → next'' other = next' other) :
    Stacked next'' below' start (pull node (front ++ last :: bin :: behind)) none := by
  have apartFront := (nodup_tops_apart unique).1
  rw [List.append_cons] at stacked unique ⊢
  obtain ⟨middle, before, after⟩ := stacked_append_iff.mp stacked
  rw [members_append, List.nodup_append] at unique
  obtain ⟨_, uniqueBehind, apart⟩ := unique
  have outside : ∀ other ∈ members (front ++ [last]), other ∉ bin.nodes := by
    intro other member inBin
    exact apart other member other (List.mem_append_left _ inBin) rfl
  have notLast : last.1 ∉ members (bin :: behind) := by
    intro member
    exact apart last.1 (mem_members_of_top (by simp)) last.1 member rfl
  have notFront : node ∉ members (front ++ [last]) := fun member => outside node member inside
  rw [pull_append notFront]
  refine stacked_append_iff.mpr ⟨start', ?_, ?_⟩
  · apply before.redirect _ linked
    · intro other member
      exact (unlinked.frame (outside other member)).2
    · intro other member
      have inFront : other.1 ∈ members (front ++ [last]) := mem_members_of_top (by simp [member])
      have differs : other.1 ≠ last.1 := fun same => apartFront other member (by simp [same])
      rw [kept other.1 differs]
      exact (unlinked.frame (outside other.1 inFront)).1
  · apply stacked_congr _ (fun _ _ => rfl) (unlinked_stacked after uniqueBehind unlinked)
    intro other member
    apply kept
    intro same
    apply notLast
    rw [← same]
    apply List.mem_of_mem_erase
    rw [← members_pull]
    exact mem_members_of_top member

end Relinking

end GemFi.BinnedStacks
