import GemFi.LinkedLists
import GemFi.ThreadInfo
import Mathlib.Data.Fintype.Basic

/-!
Fault objects and the doubly linked fault queues of fi/faultq.cc. All five
queues of the system share one memory of fault objects. `new` does not clear
the link fields of a fault, so memory starts with arbitrary links, and `insert`
overwrites only those its branch names. `none` from an operation is a null
dereference, the failed assertion of `remove`, or a list walk that does not
end within `fuel` tests.
-/

namespace GemFi.FaultQueue

open LinkedLists ThreadInfo

abbrev FaultPtr := Nat

inductive FaultType where
  | register | memory | pc | generalFetch | opCode | registerDecoding | execution | loadStore
  deriving DecidableEq, Repr

inductive TimingType where
  | tick | instruction | virtualAddr
  deriving DecidableEq, Repr

inductive ValueType where
  | immediate | mask | flipBit | all
  deriving DecidableEq, Repr

inductive RegisterSide where
  | src | dst
  deriving DecidableEq, Repr

inductive StageQueue where
  | main | fetchStage | decodeStage | iewStage | loadStore
  deriving DecidableEq, Repr

instance : Fintype StageQueue :=
  ⟨{.main, .fetchStage, .decodeStage, .iewStage, .loadStore}, by intro q; cases q <;> simp⟩

/-- The objects of all classes; `srcOrDst`, `regToChange` and `changeToReg` are
those of RegisterDecodingInjectedFault. -/
structure InjectedFault where
  nxt : Option FaultPtr
  prv : Option FaultPtr
  queue : Option StageQueue
  faultType : FaultType
  timingType : TimingType
  valueType : ValueType
  timing : Word
  value : Word
  where_ : String
  thread : String
  occurrence : Int
  manifested : Bool
  servicedAt : Word
  srcOrDst : RegisterSide
  regToChange : Int
  changeToReg : Int

structure InjectedFaultQueue where
  head : Option FaultPtr
  tail : Option FaultPtr

/-- `fresh` is the address the next `new` returns. -/
structure FaultStore where
  mem : FaultPtr → InjectedFault
  queues : StageQueue → InjectedFaultQueue
  fresh : FaultPtr

namespace FaultStore

def nxt (s : FaultStore) (f : FaultPtr) : Option FaultPtr := (s.mem f).nxt
def prv (s : FaultStore) (f : FaultPtr) : Option FaultPtr := (s.mem f).prv
def timing (s : FaultStore) (f : FaultPtr) : Word := (s.mem f).timing
def owner (s : FaultStore) (f : FaultPtr) : Option StageQueue := (s.mem f).queue

def data (s : FaultStore) (f : FaultPtr) : InjectedFault :=
  -- what the fault was read in with and what its processing changes: all but the three fields the
  -- queues maintain
  { s.mem f with nxt := none, prv := none, queue := none }

def head (s : FaultStore) (q : StageQueue) : Option FaultPtr := (s.queues q).head
def tail (s : FaultStore) (q : StageQueue) : Option FaultPtr := (s.queues q).tail

def empty (s : FaultStore) (q : StageQueue) : Bool := (s.head q).isNone && (s.tail q).isNone

def write (s : FaultStore) (f : FaultPtr) (change : InjectedFault → InjectedFault) :
    FaultStore :=
  { s with mem := fun p => if p = f then change (s.mem p) else s.mem p }

def setNxt (s : FaultStore) (f : FaultPtr) (target : Option FaultPtr) : FaultStore :=
  s.write f fun fault => { fault with nxt := target }

def setPrv (s : FaultStore) (f : FaultPtr) (target : Option FaultPtr) : FaultStore :=
  s.write f fun fault => { fault with prv := target }

def setQueue (s : FaultStore) (f : FaultPtr) (q : StageQueue) : FaultStore :=
  s.write f fun fault => { fault with queue := some q }

def setEnds (s : FaultStore) (q : StageQueue) (ends : InjectedFaultQueue) : FaultStore :=
  { s with queues := fun r => if r = q then ends else s.queues r }

def setHead (s : FaultStore) (q : StageQueue) (target : Option FaultPtr) : FaultStore :=
  s.setEnds q { s.queues q with head := target }

def setTail (s : FaultStore) (q : StageQueue) (target : Option FaultPtr) : FaultStore :=
  s.setEnds q { s.queues q with tail := target }

def linkLast (s : FaultStore) (q : StageQueue) (f last : FaultPtr) : FaultStore :=
  -- element inserted at the end: the new fault keeps its own `nxt`
  ((s.setNxt last (some f)).setPrv f (some last)).setTail q (some f)

def linkFirst (s : FaultStore) (q : StageQueue) (f first : FaultPtr) : FaultStore :=
  -- element inserted in the beginning: the new fault keeps its own `prv`
  ((s.setPrv first (some f)).setNxt f (some first)).setHead q (some f)

def linkBetween (s : FaultStore) (f before p : FaultPtr) : FaultStore :=
  (((s.setNxt before (some f)).setPrv f (some before)).setPrv p (some f)).setNxt f (some p)

/-- `InjectedFaultQueue::insert`. The search stops at the first fault whose
timing is not below the new one's. -/
def insert (fuel : Nat) (q : StageQueue) (f : FaultPtr) (s : FaultStore) : Option FaultStore := do
  let s := s.setQueue f q
  if s.empty q then
    some (((s.setEnds q ⟨some f, some f⟩).setNxt f none).setPrv f none)
  else
    match ← walk s.nxt (fun p => !decide (s.timing p < s.timing f)) fuel (s.head q) with
    | none =>
        -- every fault in the queue is earlier
        let last ← s.tail q
        some (s.linkLast q f last)
    | some p =>
        if s.head q = some p then some (s.linkFirst q f p)
        else
          let before ← s.prv p
          some (s.linkBetween f before p)

/-- The first conditional of `remove`: whatever led forward to `f` skips it. -/
def skipForward (s : FaultStore) (q : StageQueue) (f : FaultPtr) : FaultStore :=
  match s.prv f with
  | none => s.setHead q (s.nxt f)
  | some before => s.setNxt before (s.nxt f)

/-- The second conditional of `remove`: whatever led backward to `f` skips it. -/
def skipBackward (s : FaultStore) (q : StageQueue) (f : FaultPtr) : FaultStore :=
  match s.nxt f with
  | none => s.setTail q (s.prv f)
  | some after => s.setPrv after (s.prv f)

/-- `InjectedFaultQueue::remove`. The removed fault keeps its links. -/
def remove (fuel : Nat) (q : StageQueue) (f : FaultPtr) (s : FaultStore) : Option FaultStore := do
  if s.empty q then some s
  else
    match ← walk s.nxt (fun p => decide (p = f)) fuel (s.head q) with
    | none => none  -- the source asserts that the fault was found
    | some _ => some ((s.skipForward q f).skipBackward q f)

section Reads

variable (s : FaultStore) (f p : FaultPtr) (q r : StageQueue) (target : Option FaultPtr)

@[simp] theorem setNxt_nxt : (s.setNxt f target).nxt p = if p = f then target else s.nxt p := by
  by_cases same : p = f <;> simp [nxt, setNxt, write, same]

@[simp] theorem setNxt_prv : (s.setNxt f target).prv p = s.prv p := by
  by_cases same : p = f <;> simp [prv, setNxt, write, same]

@[simp] theorem setPrv_prv : (s.setPrv f target).prv p = if p = f then target else s.prv p := by
  by_cases same : p = f <;> simp [prv, setPrv, write, same]

@[simp] theorem setPrv_nxt : (s.setPrv f target).nxt p = s.nxt p := by
  by_cases same : p = f <;> simp [nxt, setPrv, write, same]

@[simp] theorem setQueue_nxt : (s.setQueue f q).nxt = s.nxt := by
  funext p
  by_cases same : p = f <;> simp [nxt, setQueue, write, same]

@[simp] theorem setQueue_prv : (s.setQueue f q).prv = s.prv := by
  funext p
  by_cases same : p = f <;> simp [prv, setQueue, write, same]

@[simp] theorem setQueue_timing : (s.setQueue f q).timing = s.timing := by
  funext p
  by_cases same : p = f <;> simp [timing, setQueue, write, same]

@[simp] theorem setNxt_data : (s.setNxt f target).data = s.data := by
  funext p
  by_cases same : p = f <;> simp [data, setNxt, write, same]

@[simp] theorem setPrv_data : (s.setPrv f target).data = s.data := by
  funext p
  by_cases same : p = f <;> simp [data, setPrv, write, same]

@[simp] theorem setQueue_data : (s.setQueue f q).data = s.data := by
  funext p
  by_cases same : p = f <;> simp [data, setQueue, write, same]

@[simp] theorem setNxt_owner : (s.setNxt f target).owner = s.owner := by
  funext p
  by_cases same : p = f <;> simp [owner, setNxt, write, same]

@[simp] theorem setPrv_owner : (s.setPrv f target).owner = s.owner := by
  funext p
  by_cases same : p = f <;> simp [owner, setPrv, write, same]

@[simp] theorem setQueue_owner :
    (s.setQueue f q).owner p = if p = f then some q else s.owner p := by
  by_cases same : p = f <;> simp [owner, setQueue, write, same]

@[simp] theorem setEnds_data (ends : InjectedFaultQueue) : (s.setEnds q ends).data = s.data := rfl
@[simp] theorem setEnds_owner (ends : InjectedFaultQueue) :
    (s.setEnds q ends).owner = s.owner := rfl
@[simp] theorem setHead_data : (s.setHead q target).data = s.data := rfl
@[simp] theorem setHead_owner : (s.setHead q target).owner = s.owner := rfl
@[simp] theorem setTail_data : (s.setTail q target).data = s.data := rfl
@[simp] theorem setTail_owner : (s.setTail q target).owner = s.owner := rfl
@[simp] theorem setNxt_fresh : (s.setNxt f target).fresh = s.fresh := rfl
@[simp] theorem setPrv_fresh : (s.setPrv f target).fresh = s.fresh := rfl
@[simp] theorem setQueue_fresh : (s.setQueue f q).fresh = s.fresh := rfl
@[simp] theorem setEnds_fresh (ends : InjectedFaultQueue) :
    (s.setEnds q ends).fresh = s.fresh := rfl
@[simp] theorem setHead_fresh : (s.setHead q target).fresh = s.fresh := rfl
@[simp] theorem setTail_fresh : (s.setTail q target).fresh = s.fresh := rfl
@[simp] theorem setNxt_head : (s.setNxt f target).head = s.head := rfl
@[simp] theorem setNxt_tail : (s.setNxt f target).tail = s.tail := rfl
@[simp] theorem setPrv_head : (s.setPrv f target).head = s.head := rfl
@[simp] theorem setPrv_tail : (s.setPrv f target).tail = s.tail := rfl
@[simp] theorem setQueue_head : (s.setQueue f q).head = s.head := rfl
@[simp] theorem setQueue_tail : (s.setQueue f q).tail = s.tail := rfl
@[simp] theorem setQueue_empty : (s.setQueue f q).empty = s.empty := rfl
@[simp] theorem setEnds_nxt (ends : InjectedFaultQueue) : (s.setEnds q ends).nxt = s.nxt := rfl
@[simp] theorem setEnds_prv (ends : InjectedFaultQueue) : (s.setEnds q ends).prv = s.prv := rfl
@[simp] theorem setHead_nxt : (s.setHead q target).nxt = s.nxt := rfl
@[simp] theorem setHead_prv : (s.setHead q target).prv = s.prv := rfl
@[simp] theorem setTail_nxt : (s.setTail q target).nxt = s.nxt := rfl
@[simp] theorem setTail_prv : (s.setTail q target).prv = s.prv := rfl

@[simp] theorem setEnds_head (ends : InjectedFaultQueue) :
    (s.setEnds q ends).head r = if r = q then ends.head else s.head r := by
  by_cases same : r = q <;> simp [head, setEnds, same]

@[simp] theorem setEnds_tail (ends : InjectedFaultQueue) :
    (s.setEnds q ends).tail r = if r = q then ends.tail else s.tail r := by
  by_cases same : r = q <;> simp [tail, setEnds, same]

@[simp] theorem setHead_head :
    (s.setHead q target).head r = if r = q then target else s.head r := by
  simp [setHead]

@[simp] theorem setHead_tail : (s.setHead q target).tail r = s.tail r := by
  rw [setHead, setEnds_tail]
  by_cases same : r = q <;> simp [tail, same]

@[simp] theorem setTail_tail :
    (s.setTail q target).tail r = if r = q then target else s.tail r := by
  simp [setTail]

@[simp] theorem setTail_head : (s.setTail q target).head r = s.head r := by
  rw [setTail, setEnds_head]
  by_cases same : r = q <;> simp [head, same]

theorem skipForward_nxt :
    (s.skipForward q f).nxt p = if s.prv f = some p then s.nxt f else s.nxt p := by
  cases previous : s.prv f <;> simp [skipForward, previous, eq_comm]

theorem skipForward_prv : (s.skipForward q f).prv p = s.prv p := by
  cases previous : s.prv f <;> simp [skipForward, previous]

theorem skipForward_head : (s.skipForward q f).head r =
    if r = q ∧ s.prv f = none then s.nxt f else s.head r := by
  cases previous : s.prv f <;> simp [skipForward, previous]

theorem skipForward_tail : (s.skipForward q f).tail r = s.tail r := by
  cases previous : s.prv f <;> simp [skipForward, previous]

theorem skipBackward_prv :
    (s.skipBackward q f).prv p = if s.nxt f = some p then s.prv f else s.prv p := by
  cases next : s.nxt f <;> simp [skipBackward, next, eq_comm]

theorem skipBackward_nxt : (s.skipBackward q f).nxt p = s.nxt p := by
  cases next : s.nxt f <;> simp [skipBackward, next]

theorem skipBackward_tail : (s.skipBackward q f).tail r =
    if r = q ∧ s.nxt f = none then s.prv f else s.tail r := by
  cases next : s.nxt f <;> simp [skipBackward, next]

theorem skipBackward_head : (s.skipBackward q f).head r = s.head r := by
  cases next : s.nxt f <;> simp [skipBackward, next]

theorem empty_iff : s.empty q = true ↔ s.head q = none ∧ s.tail q = none := by
  simp [empty]

end Reads

/-- Neither operation touches anything but links, ends and the back reference
to the queue. -/
theorem insert_frame {fuel : Nat} {q : StageQueue} {f : FaultPtr} {s s' : FaultStore}
    (returned : s.insert fuel q f = some s') :
    s'.data = s.data ∧ s'.fresh = s.fresh ∧
      ∀ p, s'.owner p = if p = f then some q else s.owner p := by
  simp only [insert] at returned
  split at returned
  · cases returned
    simp
  · obtain ⟨found, _, returned⟩ := Option.bind_eq_some_iff.mp returned
    cases found with
    | none =>
        obtain ⟨last, _, result⟩ := Option.bind_eq_some_iff.mp returned
        cases result
        simp [linkLast]
    | some p =>
        dsimp only at returned
        split at returned
        · cases returned
          simp [linkFirst]
        · obtain ⟨before, _, result⟩ := Option.bind_eq_some_iff.mp returned
          cases result
          simp [linkBetween]

theorem insert_empty {fuel : Nat} {q : StageQueue} {f : FaultPtr} {s s' : FaultStore}
    (returned : s.insert fuel q f = some s') (r : StageQueue) :
    s'.empty r = if r = q then false else s.empty r := by
  simp only [insert] at returned
  split at returned
  · cases returned
    by_cases same : r = q <;> simp [empty, same]
  · rename_i occupied
    rw [setQueue_empty] at occupied
    obtain ⟨found, _, returned⟩ := Option.bind_eq_some_iff.mp returned
    cases found with
    | none =>
        obtain ⟨last, _, result⟩ := Option.bind_eq_some_iff.mp returned
        cases result
        by_cases same : r = q <;> simp [empty, linkLast, same]
    | some p =>
        dsimp only at returned
        split at returned
        · cases returned
          by_cases same : r = q <;> simp [empty, linkFirst, same]
        · obtain ⟨before, _, result⟩ := Option.bind_eq_some_iff.mp returned
          cases result
          by_cases same : r = q
          · simpa [same, empty, linkBetween] using Bool.eq_false_of_not_eq_true occupied
          · simp [empty, linkBetween, same]

theorem remove_frame {fuel : Nat} {q : StageQueue} {f : FaultPtr} {s s' : FaultStore}
    (returned : s.remove fuel q f = some s') :
    s'.data = s.data ∧ s'.fresh = s.fresh ∧ s'.owner = s.owner := by
  have forward : ∀ t : FaultStore, (t.skipForward q f).data = t.data ∧
      (t.skipForward q f).fresh = t.fresh ∧ (t.skipForward q f).owner = t.owner := by
    intro t
    cases previous : t.prv f <;> simp [skipForward, previous]
  have backward : ∀ t : FaultStore, (t.skipBackward q f).data = t.data ∧
      (t.skipBackward q f).fresh = t.fresh ∧ (t.skipBackward q f).owner = t.owner := by
    intro t
    cases next : t.nxt f <;> simp [skipBackward, next]
  simp only [remove] at returned
  split at returned
  · cases returned
    exact ⟨rfl, rfl, rfl⟩
  · obtain ⟨found, _, returned⟩ := Option.bind_eq_some_iff.mp returned
    cases found with
    | none => cases returned
    | some p =>
        cases returned
        obtain ⟨data, fresh, owner⟩ := forward s
        obtain ⟨data', fresh', owner'⟩ := backward (s.skipForward q f)
        exact ⟨data'.trans data, fresh'.trans fresh, owner'.trans owner⟩

end FaultStore

end GemFi.FaultQueue
