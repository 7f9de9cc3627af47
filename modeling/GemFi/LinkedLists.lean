import Mathlib.Data.List.Basic
import Mathlib.Data.List.Nodup

/-!
Doubly linked lists as link functions. A heap of nodes is seen only through the
two functions that read its forward and backward links; a null pointer is
`none`. `Chain` follows one link function, `Linked` says that two of them and
the two end pointers describe one list. Nodes outside the list are not
constrained, so a heap with stale or uninitialised links is covered. The last
section is about several lists that share the nodes of one heap.
-/

namespace GemFi.LinkedLists

universe u v
variable {Node : Type u}

/-- Following `link` from `start` visits exactly `nodes` and arrives at `stop`. -/
def Chain (link : Node → Option Node) : Option Node → List Node → Option Node → Prop
  | start, [], stop => start = stop
  | start, node :: rest, stop => start = some node ∧ Chain link (link node) rest stop

variable {link link' : Node → Option Node} {start stop : Option Node}

theorem chain_append_iff (first second : List Node) :
    Chain link start (first ++ second) stop ↔
      ∃ middle, Chain link start first middle ∧ Chain link middle second stop := by
  induction first generalizing start with
  | nil => simp [Chain]
  | cons node rest ih => simp [Chain, ih, and_assoc]

theorem chain_congr (nodes : List Node) (same : ∀ node ∈ nodes, link' node = link node)
    (chain : Chain link start nodes stop) : Chain link' start nodes stop := by
  induction nodes generalizing start with
  | nil => exact chain
  | cons node rest ih =>
      refine ⟨chain.1, ?_⟩
      rw [same node List.mem_cons_self]
      exact ih (fun other member => same other (List.mem_cons_of_mem node member)) chain.2

theorem chain_start (nodes : List Node) (chain : Chain link start nodes none) :
    start = nodes.head? := by
  cases nodes with
  | nil => exact chain
  | cons node rest => exact chain.1

theorem chain_unique (nodes others : List Node) (chain : Chain link start nodes none)
    (other : Chain link start others none) : nodes = others := by
  induction nodes generalizing start others with
  | nil =>
      cases others with
      | nil => rfl
      | cons node rest => simp [chain_start [] chain, Chain] at other
  | cons node rest ih =>
      cases others with
      | nil => simp [chain_start [] other, Chain] at chain
      | cons node' rest' =>
          have same : node = node' := Option.some.inj (chain.1.symm.trans other.1)
          subst node'
          exact congrArg (List.cons node) (ih rest' chain.2 other.2)

/-- A chain that ends cannot pass a node twice: the two visits would have the
same continuation, but suffixes of different lengths. -/
theorem chain_nodup (nodes : List Node) (chain : Chain link start nodes none) :
    nodes.Nodup := by
  induction nodes generalizing start with
  | nil => exact List.nodup_nil
  | cons node rest ih =>
      refine List.nodup_cons.mpr ⟨?_, ih chain.2⟩
      intro again
      obtain ⟨front, back, split⟩ := List.append_of_mem again
      have suffix : Chain link (link node) back none := by
        have later := chain.2
        rw [split] at later
        obtain ⟨middle, _, visit⟩ := (chain_append_iff front (node :: back)).mp later
        exact visit.2
      have same := chain_unique rest back chain.2 suffix
      have longer := congrArg List.length split
      rw [List.length_append, List.length_cons, same] at longer
      omega

/-- Redirecting the last link of a chain moves its end and nothing else. An
empty chain has no link, so its start moves instead. -/
theorem chain_redirect (nodes : List Node) (target : Option Node)
    (chain : Chain link start nodes stop) (unique : nodes.Nodup)
    (lastLink : ∀ last, nodes.getLast? = some last → link' last = target)
    (kept : ∀ other ∈ nodes, nodes.getLast? ≠ some other → link' other = link other) :
    Chain link' (nodes.head?.or target) nodes target := by
  induction nodes generalizing start with
  | nil => simp [Chain]
  | cons node rest ih =>
      refine ⟨rfl, ?_⟩
      obtain ⟨fresh, uniqueRest⟩ := List.nodup_cons.mp unique
      cases rest with
      | nil => exact lastLink node rfl
      | cons second later =>
          have sameLast : (node :: second :: later).getLast? = (second :: later).getLast? :=
            List.getLast?_cons_cons
          rw [sameLast] at lastLink kept
          have inner : link' node = link node := by
            refine kept node List.mem_cons_self (fun last => ?_)
            exact fresh (List.mem_of_getLast? last)
          rw [inner, chain.2.1]
          have ended := ih chain.2 uniqueRest lastLink
            (fun other member => kept other (List.mem_cons_of_mem node member))
          simpa using ended

theorem chain_behind (first second : List Node) (chain : Chain link start second none)
    (apart : ∀ node ∈ first, node ∉ second)
    (kept : ∀ other ∈ first ++ second, first.getLast? ≠ some other → link' other = link other) :
    Chain link' second.head? second none := by
  rw [← chain_start second chain]
  refine chain_congr second (fun other member => ?_) chain
  refine kept other (List.mem_append_right first member) (fun last => ?_)
  exact apart other (List.mem_of_getLast? last) member

theorem chain_splice (first second : List Node) (node : Node)
    (chain : Chain link start (first ++ second) none)
    (nodeLink : link' node = second.head?)
    (lastLink : ∀ last, first.getLast? = some last → link' last = some node)
    (kept : ∀ other ∈ first ++ second, first.getLast? ≠ some other → link' other = link other) :
    Chain link' (first ++ node :: second).head? (first ++ node :: second) none := by
  obtain ⟨uniqueFirst, _, apart⟩ := List.nodup_append.mp (chain_nodup _ chain)
  obtain ⟨middle, front, back⟩ := (chain_append_iff first second).mp chain
  have ended := chain_redirect first (some node) front uniqueFirst lastLink
    (fun other member => kept other (List.mem_append_left second member))
  have behind := chain_behind first second back
    (fun other inFirst inSecond => apart other inFirst other inSecond rfl) kept
  rw [List.head?_append, List.head?_cons]
  exact (chain_append_iff first (node :: second)).mpr
    ⟨some node, ended, rfl, by rw [nodeLink]; exact behind⟩

theorem chain_unsplice (first second : List Node) (node : Node)
    (chain : Chain link start (first ++ node :: second) none)
    (lastLink : ∀ last, first.getLast? = some last → link' last = second.head?)
    (kept : ∀ other ∈ first ++ second, first.getLast? ≠ some other → link' other = link other) :
    Chain link' (first ++ second).head? (first ++ second) none := by
  obtain ⟨uniqueFirst, _, apart⟩ := List.nodup_append.mp (chain_nodup _ chain)
  obtain ⟨middle, front, back⟩ := (chain_append_iff first (node :: second)).mp chain
  have ended := chain_redirect first second.head? front uniqueFirst lastLink
    (fun other member => kept other (List.mem_append_left second member))
  have behind := chain_behind first second back.2
    (fun other inFirst inSecond =>
      apart other inFirst other (List.mem_cons_of_mem node inSecond) rfl) kept
  rw [List.head?_append]
  exact (chain_append_iff first second).mpr ⟨second.head?, ended, behind⟩

/-- The pointer loop `while (p && !found(p)) p = link(p)`. The outer `none` is a
loop that has not come back after `fuel` tests. -/
def walk (link : Node → Option Node) (found : Node → Bool) :
    Nat → Option Node → Option (Option Node)
  | 0, _ => none
  | _ + 1, none => some none
  | fuel + 1, some node => if found node then some (some node) else walk link found fuel (link node)

theorem walk_chain (found : Node → Bool) (nodes : List Node) (fuel : Nat)
    (chain : Chain link start nodes none) (enough : nodes.length < fuel) :
    walk link found fuel start = some (nodes.find? found) := by
  induction nodes generalizing start fuel with
  | nil =>
      cases chain
      cases fuel with
      | zero => simp at enough
      | succ fuel => rfl
  | cons node rest ih =>
      obtain ⟨rfl, later⟩ := chain
      cases fuel with
      | zero => simp at enough
      | succ fuel =>
          have shorter : rest.length < fuel := by simpa using enough
          by_cases hit : found node = true
          · simp [walk, hit]
          · simp [walk, hit, ih fuel later shorter]

theorem walk_eq_find (found : Node → Bool) (nodes : List Node) (fuel : Nat)
    (result : Option Node) (chain : Chain link start nodes none)
    (returned : walk link found fuel start = some result) : result = nodes.find? found := by
  induction nodes generalizing start fuel with
  | nil =>
      cases chain
      cases fuel with
      | zero => simp [walk] at returned
      | succ fuel => simpa [walk] using returned.symm
  | cons node rest ih =>
      obtain ⟨rfl, later⟩ := chain
      cases fuel with
      | zero => simp [walk] at returned
      | succ fuel =>
          by_cases hit : found node = true
          · simpa [walk, hit] using returned.symm
          · simp only [walk, hit] at returned
            simp [hit, ih fuel later returned]

theorem walk_misses {P : Node → Prop} (found : Node → Bool) (fuel : Nat) (result : Option Node)
    (misses : ∀ node, P node → found node = false)
    (stays : ∀ node next, P node → link node = some next → P next)
    (inside : ∀ node, start = some node → P node)
    (returned : walk link found fuel start = some result) : result = none := by
  induction fuel generalizing start with
  | zero => cases returned
  | succ fuel ih =>
      cases start with
      | none =>
          cases returned
          rfl
      | some node =>
          have here := inside node rfl
          rw [walk, misses node here] at returned
          exact ih (fun next linked => stays node next here linked) returned

theorem walk_endless {P : Node → Prop} (found : Node → Bool) (fuel : Nat) (node : Node)
    (misses : ∀ node, P node → found node = false)
    (leads : ∀ node, P node → ∃ next, link node = some next ∧ P next) (inside : P node) :
    walk link found fuel (some node) = none := by
  induction fuel generalizing node with
  | zero => rfl
  | succ fuel ih =>
      obtain ⟨next, linked, inside'⟩ := leads node inside
      rw [walk, misses node inside, linked]
      exact ih next inside'

structure Linked (nxt prv : Node → Option Node) (head tail : Option Node)
    (nodes : List Node) : Prop where
  -- the end pointers and both link functions describe the list `nodes`
  forward : Chain nxt head nodes none
  backward : Chain prv tail nodes.reverse none

variable {nxt prv nxt' prv' : Node → Option Node} {head tail : Option Node} {nodes : List Node}

theorem Linked.nil : Linked nxt prv none none [] := ⟨rfl, rfl⟩

theorem Linked.nodup (linked : Linked nxt prv head tail nodes) : nodes.Nodup :=
  chain_nodup nodes linked.forward

theorem Linked.head_eq (linked : Linked nxt prv head tail nodes) : head = nodes.head? :=
  chain_start nodes linked.forward

theorem Linked.tail_eq (linked : Linked nxt prv head tail nodes) : tail = nodes.getLast? := by
  rw [chain_start _ linked.backward, List.head?_reverse]

theorem Linked.congr (linked : Linked nxt prv head tail nodes)
    (sameNxt : ∀ node ∈ nodes, nxt' node = nxt node)
    (samePrv : ∀ node ∈ nodes, prv' node = prv node) :
    Linked nxt' prv' head tail nodes :=
  ⟨chain_congr nodes sameNxt linked.forward,
    chain_congr nodes.reverse (fun node member => samePrv node (List.mem_reverse.mp member))
      linked.backward⟩

/-- Each node's two links are its neighbours in the list. -/
theorem Linked.neighbours (first second : List Node) (node : Node)
    (linked : Linked nxt prv head tail (first ++ node :: second)) :
    nxt node = second.head? ∧ prv node = first.getLast? := by
  constructor
  · obtain ⟨middle, _, visit⟩ := (chain_append_iff first (node :: second)).mp linked.forward
    exact chain_start second visit.2
  · have backward := linked.backward
    rw [List.reverse_append, List.reverse_cons, List.append_assoc] at backward
    obtain ⟨middle, _, visit⟩ := (chain_append_iff second.reverse _).mp backward
    rw [chain_start first.reverse visit.2, List.head?_reverse]

theorem Linked.head_prv (linked : Linked nxt prv head tail nodes) (node : Node)
    (atHead : head = some node) : prv node = none := by
  cases nodes with
  | nil => simp [linked.head_eq] at atHead
  | cons first rest =>
      have same : first = node := by simpa [linked.head_eq] using atHead
      subst node
      exact (Linked.neighbours [] rest first linked).2

theorem Linked.tail_nxt (linked : Linked nxt prv head tail nodes) (node : Node)
    (atTail : tail = some node) : nxt node = none := by
  rcases List.eq_nil_or_concat nodes with rfl | ⟨initial, last, rfl⟩
  · simp [linked.tail_eq] at atTail
  · rw [List.concat_eq_append] at linked
    have same : last = node := by simpa [linked.tail_eq] using atTail
    subst node
    exact (Linked.neighbours initial [] last linked).1

/-- Insertion between `first` and `second`; either part may be empty, so this
is also insertion at an end and into the empty list. -/
theorem Linked.insert {first second : List Node} (node : Node)
    (linked : Linked nxt prv head tail (first ++ second))
    (nodeNxt : nxt' node = second.head?) (nodePrv : prv' node = first.getLast?)
    (lastNxt : ∀ last, first.getLast? = some last → nxt' last = some node)
    (nextPrv : ∀ next, second.head? = some next → prv' next = some node)
    (keptNxt : ∀ other ∈ first ++ second, first.getLast? ≠ some other → nxt' other = nxt other)
    (keptPrv : ∀ other ∈ first ++ second, second.head? ≠ some other → prv' other = prv other) :
    Linked nxt' prv' (first ++ node :: second).head? (first ++ node :: second).getLast?
      (first ++ node :: second) := by
  refine ⟨chain_splice first second node linked.forward nodeNxt lastNxt keptNxt, ?_⟩
  have backward := linked.backward
  rw [List.reverse_append] at backward
  have spliced : Chain prv' (second.reverse ++ node :: first.reverse).head?
      (second.reverse ++ node :: first.reverse) none := by
    apply chain_splice second.reverse first.reverse node backward
    · rw [nodePrv, List.head?_reverse]
    · simpa using nextPrv
    · intro other member differs
      exact keptPrv other (by simpa [or_comm] using member) (by simpa using differs)
  have reversed : (first ++ node :: second).reverse = second.reverse ++ node :: first.reverse := by
    simp
  rw [reversed, ← List.head?_reverse, reversed]
  exact spliced

theorem Linked.remove {first second : List Node} {node : Node}
    (linked : Linked nxt prv head tail (first ++ node :: second))
    (lastNxt : ∀ last, first.getLast? = some last → nxt' last = second.head?)
    (nextPrv : ∀ next, second.head? = some next → prv' next = first.getLast?)
    (keptNxt : ∀ other ∈ first ++ second, first.getLast? ≠ some other → nxt' other = nxt other)
    (keptPrv : ∀ other ∈ first ++ second, second.head? ≠ some other → prv' other = prv other) :
    Linked nxt' prv' (first ++ second).head? (first ++ second).getLast? (first ++ second) := by
  refine ⟨chain_unsplice first second node linked.forward lastNxt keptNxt, ?_⟩
  have backward := linked.backward
  rw [List.reverse_append, List.reverse_cons, List.append_assoc] at backward
  have unspliced : Chain prv' (second.reverse ++ first.reverse).head?
      (second.reverse ++ first.reverse) none := by
    apply chain_unsplice second.reverse first.reverse node backward
    · intro next found
      rw [List.head?_reverse]
      exact nextPrv next (by simpa using found)
    · intro other member differs
      exact keptPrv other (by simpa [or_comm] using member) (by simpa using differs)
  rw [← List.head?_reverse, List.reverse_append]
  exact unspliced

section Families

variable {Index : Type v} [DecidableEq Index] {lists members : Index → List Node}
  {index : Index} {nodes : List Node} {added : Node}

/-- A list that lost a node has no other members than before. -/
theorem mem_update_erase [DecidableEq Node] {removed : Node} (other : Index) (node : Node)
    (member : node ∈ Function.update lists index ((lists index).erase removed) other) :
    node ∈ lists other := by
  by_cases same : other = index
  · subst other
    rw [Function.update_self] at member
    exact List.mem_of_mem_erase member
  · rwa [Function.update_of_ne same] at member

/-- A node that was in no list is the only new member, and of one list only. -/
theorem mem_update_added (grown : nodes.Perm (added :: lists index))
    (outside : ∀ other, added ∉ lists other) (other : Index) (node : Node)
    (member : node ∈ Function.update lists index nodes other) :
    (node = added ∧ other = index) ∨ (node ≠ added ∧ node ∈ lists other) := by
  have older : node ∈ lists other → node ≠ added := by
    rintro old rfl
    exact outside other old
  by_cases same : other = index
  · subst other
    rw [Function.update_self, grown.mem_iff, List.mem_cons] at member
    rcases member with isNew | old
    · exact Or.inl ⟨isNew, rfl⟩
    · exact Or.inr ⟨older old, old⟩
  · rw [Function.update_of_ne same] at member
    exact Or.inr ⟨older member, member⟩

theorem apart_update_added (grown : nodes.Perm (added :: lists index))
    (outside : ∀ other, added ∉ lists other)
    (apart : ∀ first second node, node ∈ lists first → node ∈ lists second → first = second)
    (first second : Index) (node : Node) (inFirst : node ∈ Function.update lists index nodes first)
    (inSecond : node ∈ Function.update lists index nodes second) : first = second := by
  rcases mem_update_added grown outside first node inFirst with ⟨isNew, rfl⟩ | ⟨old, inFirst⟩ <;>
    rcases mem_update_added grown outside second node inSecond with
      ⟨isNew', rfl⟩ | ⟨old', inSecond⟩
  · rfl
  · exact absurd isNew old'
  · exact absurd isNew' old
  · exact apart first second node inFirst inSecond

theorem perm_update (same : ∀ other, (lists other).Perm (members other)) {nodes' : List Node}
    (changed : nodes.Perm nodes') (other : Index) :
    (Function.update lists index nodes other).Perm
      (Function.update members index nodes' other) := by
  by_cases here : other = index
  · subst other
    rw [Function.update_self, Function.update_self]
    exact changed
  · rw [Function.update_of_ne here, Function.update_of_ne here]
    exact same other

end Families

end GemFi.LinkedLists
