import Mathlib.Logic.Function.Basic
import Mathlib.Data.Prod.Lex
import GemFi.BinnedStacks
import GemFi.Outcomes

/-!
The event queues of sim/eventq.hh, eventq_impl.hh and eventq.cc. A queue is a linked
list of linked lists: `nextBin` leads from the top event of a bin to the top of the
next, `nextInBin` down the stack of events of one bin. The memory holds the
fields of all events, and beside them a record, for the theorems only, of the
`nextBin` pointers that were read, of the order of the insertions and of what happened
to the events.
-/

namespace GemFi.EventQueue

open Outcomes (Stop assert)

abbrev EventPtr := Nat
abbrev QueuePtr := Nat

structure Lists where
  head : QueuePtr → Option EventPtr
  nextBin : EventPtr → Option EventPtr
  nextInBin : EventPtr → Option EventPtr

/-- The flags that are used here. `initialized` stands for the bits of InitMask. -/
structure Flags where
  squashed : Bool
  scheduled : Bool
  autoDelete : Bool
  isExitEvent : Bool
  isMainQueue : Bool
  initialized : Bool
  deriving DecidableEq, Repr

inductive Note where
  | scheduled (event : EventPtr)
  | descheduled (event : EventPtr)
  | rescheduled (event : EventPtr)
  | squashed (event : EventPtr)
  | processed (event : EventPtr) (tick : Nat)
  | skipped (event : EventPtr)
  deriving DecidableEq, Repr

/-- A read of `nextBin`: the queue being worked on, the event, and the pointers as
they were. -/
structure Follow where
  queue : QueuePtr
  event : EventPtr
  lists : Lists

structure Memory where
  lists : Lists
  when_ : EventPtr → Nat
  priority : EventPtr → Int
  flags : EventPtr → Flags
  queue : EventPtr → Option QueuePtr
  curTick : QueuePtr → Nat
  asyncQueue : QueuePtr → List EventPtr
  inParallelMode : Bool
  followed : List Follow
  clock : Nat
  stamp : EventPtr → Nat
  notes : List Note

namespace Memory

/-- `operator<`. -/
def lt (m : Memory) (l r : EventPtr) : Bool :=
  m.when_ l < m.when_ r || (m.when_ l == m.when_ r && m.priority l < m.priority r)

/-- `operator<=`. -/
def le (m : Memory) (l r : EventPtr) : Bool :=
  m.when_ l < m.when_ r || (m.when_ l == m.when_ r && m.priority l ≤ m.priority r)

/-- `operator==`. -/
def eq (m : Memory) (l r : EventPtr) : Bool :=
  m.when_ l == m.when_ r && m.priority l == m.priority r

def setHead (q : QueuePtr) (event : Option EventPtr) (m : Memory) : Memory :=
  { m with lists := { m.lists with head := Function.update m.lists.head q event } }

def setNextBin (event : EventPtr) (target : Option EventPtr) (m : Memory) : Memory :=
  { m with lists := { m.lists with nextBin := Function.update m.lists.nextBin event target } }

def setNextInBin (event : EventPtr) (target : Option EventPtr) (m : Memory) : Memory :=
  { m with lists := { m.lists with nextInBin := Function.update m.lists.nextInBin event target } }

def setFlags (event : EventPtr) (change : Flags → Flags) (m : Memory) : Memory :=
  { m with flags := Function.update m.flags event (change (m.flags event)) }

/-- `event->nextBin`, with a record of the read. -/
def follow (q : QueuePtr) (event : EventPtr) (m : Memory) : Option EventPtr × Memory :=
  (m.lists.nextBin event, { m with followed := ⟨q, event, m.lists⟩ :: m.followed })

def note (n : Note) (m : Memory) : Memory := { m with notes := n :: m.notes }

end Memory

open Memory

section Lists

/-- `Event::insertBefore`, which returns `event`. -/
def insertBefore (q : QueuePtr) (event : EventPtr) (curr : Option EventPtr) (m : Memory) : Memory :=
  match curr with
  | none => (m.setNextBin event none).setNextInBin event none
  | some top =>
      if m.lt event top then (m.setNextBin event (some top)).setNextInBin event none
      else
        let (next, m) := m.follow q top
        (m.setNextBin event next).setNextInBin event (some top)

/-- The loop `while (curr && *curr < *event)` of insert and remove. -/
def seekBin (q : QueuePtr) (event : EventPtr) :
    Nat → EventPtr → Option EventPtr → Memory → Except Stop (EventPtr × Option EventPtr × Memory)
  | 0, _, _, _ => .error .endless
  | _ + 1, prev, none, m => .ok (prev, none, m)
  | fuel + 1, prev, some curr, m =>
      if m.lt curr event then
        let (next, m) := m.follow q curr
        seekBin q event fuel curr next m
      else .ok (prev, some curr, m)

def stamped (event : EventPtr) (m : Memory) : Memory :=
  { m with stamp := Function.update m.stamp event m.clock, clock := m.clock + 1 }

/-- `EventQueue::insert`. -/
def insert (fuel : Nat) (q : QueuePtr) (event : EventPtr) (m : Memory) : Except Stop Memory :=
  match m.lists.head q with
  | none => .ok (stamped event ((insertBefore q event none m).setHead q (some event)))
  | some top =>
      if m.le event top then
        .ok (stamped event ((insertBefore q event (some top) m).setHead q (some event)))
      else do
        let (next, m) := m.follow q top
        let (prev, curr, m) ← seekBin q event fuel top next m
        .ok (stamped event ((insertBefore q event curr m).setNextBin prev (some event)))

/-- The loop of removeItem: what it leaves in `curr`. -/
def seekItem (event : EventPtr) (nextInBin : EventPtr → Option EventPtr) :
    Nat → EventPtr → Option EventPtr → Except Stop EventPtr
  | 0, _, _ => .error .endless
  | _ + 1, _, none => .error .panic  -- "event not found!"
  | fuel + 1, curr, some next =>
      if event = next then .ok curr else seekItem event nextInBin fuel next (nextInBin next)

/-- `Event::removeItem`, with the new top of the bin. -/
def removeItem (fuel : Nat) (q : QueuePtr) (event top : EventPtr) (m : Memory) :
    Except Stop (Option EventPtr × Memory) :=
  if event = top then
    match m.lists.nextInBin top with
    | none => .ok (m.follow q top)
    | some next =>
        let (bin, m) := m.follow q top
        .ok (some next, m.setNextBin next bin)
  else do
    let curr ← seekItem event m.lists.nextInBin fuel top (m.lists.nextInBin top)
    .ok (some top, m.setNextInBin curr (m.lists.nextInBin event))

/-- `EventQueue::remove`. -/
def remove (fuel : Nat) (q : QueuePtr) (event : EventPtr) (m : Memory) : Except Stop Memory :=
  match m.lists.head q with
  | none => .error .panic
  | some top => do
      assert (m.queue event = some q)
      if m.eq top event then
        let (top, m) ← removeItem fuel q event top m
        .ok (m.setHead q top)
      else
        let (next, m) := m.follow q top
        let (prev, curr, m) ← seekBin q event fuel top next m
        match curr with
        | none => .error .panic
        | some bin =>
            if m.eq bin event then
              let (top, m) ← removeItem fuel q event bin m
              .ok (m.setNextBin prev top)
            else .error .panic

end Lists

section Calls

/-- `delete event`: the destructor of Event. -/
def delete (event : EventPtr) (m : Memory) : Except Stop Memory := do
  assert (!(m.flags event).scheduled)
  .ok (m.setFlags event fun _ => ⟨false, false, false, false, false, false⟩)

def asyncInsert (q : QueuePtr) (event : EventPtr) (m : Memory) : Memory :=
  { m with asyncQueue := Function.update m.asyncQueue q (m.asyncQueue q ++ [event]) }

/-- `Event::setWhen`. -/
def setWhen (event : EventPtr) (when_ : Nat) (q : QueuePtr) (m : Memory) : Memory :=
  { m with
    when_ := Function.update m.when_ event when_
    queue := Function.update m.queue event (some q) }

/-- `EventQueue::schedule`, called by a thread that works on `cur`. -/
def schedule (fuel : Nat) (cur q : QueuePtr) (event : EventPtr) (when_ : Nat) (global : Bool)
    (m : Memory) : Except Stop Memory := do
  assert (m.curTick q ≤ when_)
  assert (!(m.flags event).scheduled)
  assert (m.flags event).initialized
  let m := setWhen event when_ q m
  let m ← if m.inParallelMode && (q ≠ cur || global) then .ok (asyncInsert q event m)
    else insert fuel q event m
  .ok ((m.setFlags event fun f => { f with scheduled := true }).note (.scheduled event))

/-- `EventQueue::deschedule`. -/
def deschedule (fuel : Nat) (cur q : QueuePtr) (event : EventPtr) (m : Memory) :
    Except Stop Memory := do
  assert (m.flags event).scheduled
  assert (m.flags event).initialized
  assert (!m.inParallelMode || q == cur)
  let m ← remove fuel q event m
  let m := (m.setFlags event fun f => { f with squashed := false, scheduled := false }).note
    (.descheduled event)
  if (m.flags event).autoDelete then delete event m else .ok m

/-- `EventQueue::reschedule`. -/
def reschedule (fuel : Nat) (cur q : QueuePtr) (event : EventPtr) (when_ : Nat) (always : Bool)
    (m : Memory) : Except Stop Memory := do
  assert (m.curTick q ≤ when_)
  assert (always || (m.flags event).scheduled)
  assert (m.flags event).initialized
  assert (!m.inParallelMode || q == cur)
  let waiting := (m.flags event).scheduled
  let m ← if waiting then remove fuel q event m else .ok m
  let m := setWhen event when_ q m
  let m ← insert fuel q event m
  let m := m.setFlags event fun f => { f with squashed := false, scheduled := true }
  let m := if waiting then m else m.note (.scheduled event)
  .ok (m.note (.rescheduled event))

/-- `Event::squash`. -/
def squash (event : EventPtr) (m : Memory) : Memory :=
  (m.setFlags event fun f => { f with squashed := true }).note (.squashed event)

/-- `EventQueue::handleAsyncInsertions`. -/
def handleAsyncInsertions (fuel : Nat) (cur q : QueuePtr) (m : Memory) : Except Stop Memory := do
  assert (q == cur)
  let m' ← (m.asyncQueue q).foldlM (fun m event => insert fuel q event m) m
  .ok { m' with asyncQueue := Function.update m'.asyncQueue q [] }

inductive Op where
  | schedule (q : QueuePtr) (event : EventPtr) (when_ : Nat) (global : Bool)
  | deschedule (q : QueuePtr) (event : EventPtr)
  | reschedule (q : QueuePtr) (event : EventPtr) (when_ : Nat) (always : Bool)
  | squash (event : EventPtr)
  | handleAsyncInsertions (q : QueuePtr)
  deriving DecidableEq, Repr

def perform (fuel : Nat) (cur : QueuePtr) (m : Memory) : Op → Except Stop Memory
  | .schedule q event when_ global => schedule fuel cur q event when_ global m
  | .deschedule q event => deschedule fuel cur q event m
  | .reschedule q event when_ always => reschedule fuel cur q event when_ always m
  | .squash event => .ok (squash event m)
  | .handleAsyncInsertions q => handleAsyncInsertions fuel cur q m

/-- `event->process()`, whatever it does with the queues. -/
def process (fuel : Nat) (cur : QueuePtr) (handler : List Op) (m : Memory) : Except Stop Memory :=
  handler.foldlM (perform fuel cur) m

def popHead (q : QueuePtr) (m : Memory) : Except Stop (EventPtr × Memory) :=
  -- the first part of serviceOne: the head of the queue is taken out
  match m.lists.head q with
  | none => .error .nullPointer
  | some event =>
      let next := m.lists.nextInBin event
      let m := m.setFlags event fun f => { f with scheduled := false }
      let (bin, m) := m.follow q event
      match next with
      | some next => .ok (event, (m.setNextBin next bin).setHead q (some next))
      | none => .ok (event, m.setHead q bin)

/-- `setCurTick(event->when())`, right before the handler is called. -/
def setCurTick (q : QueuePtr) (event : EventPtr) (m : Memory) : Memory :=
  let m := { m with curTick := Function.update m.curTick q (m.when_ event) }
  m.note (.processed event (m.curTick q))

def retire (event : EventPtr) (m : Memory) : Except Stop (Option EventPtr × Memory) :=
  if (m.flags event).autoDelete && !(m.flags event).scheduled then do
    let m ← delete event m
    .ok (none, m)
  else .ok (none, m)

/-- `EventQueue::serviceOne`, with the event it returns to leave the simulation. -/
def serviceOne (fuel : Nat) (cur q : QueuePtr) (handler : List Op) (m : Memory) :
    Except Stop (Option EventPtr × Memory) := do
  let (event, m) ← popHead q m
  if (m.flags event).squashed then
    retire event ((m.setFlags event fun f => { f with squashed := false }).note (.skipped event))
  else
    let m ← process fuel cur handler (setCurTick q event m)
    if (m.flags event).isExitEvent then
      assert (!(m.flags event).autoDelete || !(m.flags event).isMainQueue)
      .ok (some event, m)
    else retire event m

/-- A call from outside the handlers, by a thread that works on `cur`, or the change of
mode in simulate(). -/
inductive Action where
  | call (cur : QueuePtr) (op : Op)
  | serviceOne (cur q : QueuePtr) (handler : List Op)
  | setParallelMode (mode : Bool)

def act (fuel : Nat) (m : Memory) : Action → Except Stop Memory
  | .call cur op => perform fuel cur m op
  | .serviceOne cur q handler => (serviceOne fuel cur q handler m).map Prod.snd
  | .setParallelMode mode => .ok { m with inParallelMode := mode }

end Calls

end GemFi.EventQueue
