import Mathlib.Algebra.BigOperators.Fin
import Mathlib.Data.Fintype.BigOperators
import Mathlib.Data.List.Count
import GemFi.Outcomes
import GemFi.Transitions

/-!
Squashing in the reorder buffer of cpu/o3/rob_impl.hh. A walk from the tail of the
instruction list of a thread marks at most squashWidth instructions in each call, and is
taken up again where the iterator was left. The status of the threads and the head of the whole
buffer, which no squash reads, are left out; its tail is only what `updateTail` returns.
-/

namespace GemFi.RobSquash

open Outcomes Transitions

structure DynInst where
  seqNum : Nat
  inROB : Bool
  squashed : Bool
  canCommit : Bool
  deriving DecidableEq, Repr

/-- What the buffer has for one thread. An iterator is a position of the list, or `none` for
its end. -/
structure Thread where
  instList : List DynInst
  threadEntries : Nat
  squashIt : Option Nat
  doneSquashing : Bool
  squashedSeqNum : Nat

structure Rob (numThreads : Nat) where
  threads : Fin numThreads → Thread
  numInstsInROB : Nat

structure Config where
  numEntries : Nat
  squashWidth : Nat

section Walk

/-- `*it`. -/
def deref (t : Thread) (it : Option Nat) : Except Stop DynInst :=
  match it.bind (t.instList[·]?) with
  | some inst => .ok inst
  | none => .error .noElement

/-- `setSquashed` and `setCanCommit`. -/
def squashInst (inst : DynInst) : DynInst := { inst with squashed := true, canCommit := true }

def done (t : Thread) : Thread := { t with squashIt := none, doneSquashing := true }

def squashLoop : Nat → Thread → Except Stop (Thread × Bool)
  -- the loop of doSquash, with whether it returns from the function
  | 0, t => .ok (t, false)
  | left + 1, t =>
      match t.squashIt with
      | none => .ok (t, false)
      | some i =>
          (deref t (some i)).bind fun inst =>
            if inst.seqNum > t.squashedSeqNum then
              let t := { t with instList := t.instList.set i (squashInst inst) }
              if i = 0 then .ok (done t, true)
              else squashLoop left { t with squashIt := some (i - 1) }
            else .ok (t, false)

/-- `ROB::doSquash`, for one thread. -/
def doSquashThread (squashWidth : Nat) (t : Thread) : Except Stop Thread :=
  if t.squashIt = none then .error .assertion
  else (deref t t.squashIt).bind fun inst =>
    if inst.seqNum < t.squashedSeqNum then .ok (done t)
    else (squashLoop squashWidth t).bind fun result =>
      if result.2 then .ok result.1
      else (deref result.1 result.1.squashIt).bind fun inst =>
        if inst.seqNum ≤ result.1.squashedSeqNum then .ok (done result.1) else .ok result.1

/-- `ROB::squash`, for one thread. -/
def squashThread (squashWidth squashNum : Nat) (t : Thread) : Except Stop Thread :=
  if t.threadEntries = 0 then .ok t
  else
    let t := { t with doneSquashing := false, squashedSeqNum := squashNum }
    if t.instList ≠ [] then
      doSquashThread squashWidth { t with squashIt := some (t.instList.length - 1) }
    else .ok t

end Walk

section Buffer

variable {numThreads : Nat}

def setThread (rob : Rob numThreads) (tid : Fin numThreads) (t : Thread) : Rob numThreads :=
  { rob with threads := Function.update rob.threads tid t }

/-- `ROB::doSquash`. -/
def doSquash (cfg : Config) (tid : Fin numThreads) (rob : Rob numThreads) :
    Except Stop (Rob numThreads) :=
  (doSquashThread cfg.squashWidth (rob.threads tid)).map (setThread rob tid)

/-- `ROB::squash`. -/
def squash (cfg : Config) (squashNum : Nat) (tid : Fin numThreads) (rob : Rob numThreads) :
    Except Stop (Rob numThreads) :=
  (squashThread cfg.squashWidth squashNum (rob.threads tid)).map (setThread rob tid)

/-- The loop of `ROB::updateTail` over the active threads. doSquash calls it behind its own loop if
it has marked the last instruction of the thread. -/
def updateTail (rob : Rob numThreads) :
    List (Fin numThreads) → Option (Fin numThreads × Nat) → Except Stop (Option (Fin numThreads × Nat))
  | [], tail => .ok tail
  | tid :: threads, tail =>
      if (rob.threads tid).instList = [] then updateTail rob threads tail
      else
        let tailThread := (rob.threads tid).instList.length - 1
        match tail with
        | none => updateTail rob threads (some (tid, tailThread))
        | some (other, i) =>
            (deref (rob.threads tid) (some tailThread)).bind fun youngest =>
              (deref (rob.threads other) (some i)).bind fun inst =>
                if youngest.seqNum > inst.seqNum then updateTail rob threads (some (tid, tailThread))
                else updateTail rob threads (some (other, i))

/-- `ROB::insertInst`. -/
def insertInst (cfg : Config) (tid : Fin numThreads) (inst : DynInst) (rob : Rob numThreads) :
    Except Stop (Rob numThreads) :=
  if rob.numInstsInROB = cfg.numEntries then .error .assertion
  else
    let t := rob.threads tid
    .ok { setThread rob tid { t with
            instList := t.instList ++ [{ inst with inROB := true }]
            threadEntries := t.threadEntries + 1 } with
          numInstsInROB := rob.numInstsInROB + 1 }

/-- `ROB::retireHead`. The instruction goes to `removeFrontInst`. -/
def retireHead (tid : Fin numThreads) (rob : Rob numThreads) : Except Stop (Rob numThreads) :=
  if rob.numInstsInROB = 0 then .error .assertion
  else
    let t := rob.threads tid
    match t.instList with
    | [] => .error .noElement
    | headInst :: rest =>
        if headInst.canCommit then
          .ok { setThread rob tid { t with
                  instList := rest
                  threadEntries := t.threadEntries - 1 } with
                numInstsInROB := rob.numInstsInROB - 1 }
        else .error .assertion

/-- The buffer as `resetState` leaves it. -/
def reset (numThreads : Nat) : Rob numThreads where
  threads _ := ⟨[], 0, none, true, 0⟩
  numInstsInROB := 0

inductive Action (numThreads : Nat) where
  | insert (tid : Fin numThreads) (inst : DynInst)
  | retire (tid : Fin numThreads)
  | squash (tid : Fin numThreads) (squashNum : Nat)
  | doSquash (tid : Fin numThreads)

def step (cfg : Config) (rob : Rob numThreads) (action : Action numThreads) :
    Option (Rob numThreads) :=
  -- the commit stage retires from a thread only when no walk is under way, and goes on with a walk
  -- until it is done
  match action with
  | .insert tid inst => (insertInst cfg tid inst rob).toOption
  | .retire tid =>
      if (rob.threads tid).doneSquashing then (retireHead tid rob).toOption else none
  | .squash tid squashNum => (squash cfg squashNum tid rob).toOption
  | .doSquash tid =>
      if (rob.threads tid).doneSquashing then none else (doSquash cfg tid rob).toOption

inductive Drains (cfg : Config) (tid : Fin numThreads) :
    Rob numThreads → Nat → Rob numThreads → Prop where
  | finished {rob : Rob numThreads} (isDone : (rob.threads tid).doneSquashing = true) :
      Drains cfg tid rob 0 rob
  | call {rob next last : Rob numThreads} {calls : Nat}
      (notDone : (rob.threads tid).doneSquashing = false) (called : doSquash cfg tid rob = .ok next)
      (rest : Drains cfg tid next calls last) : Drains cfg tid rob (calls + 1) last

def squashedFrom (squashNum : Nat) (inst : DynInst) : DynInst :=
  -- an instruction of the thread after a squash
  if inst.seqNum > squashNum then squashInst inst else inst

def younger (squashNum : Nat) (list : List DynInst) : Nat :=
  list.countP fun inst => inst.seqNum > squashNum

structure Counted (rob : Rob numThreads) : Prop where
  entries : ∀ tid, (rob.threads tid).threadEntries = (rob.threads tid).instList.length
  total : rob.numInstsInROB = ∑ tid, (rob.threads tid).threadEntries

def Placed (t : Thread) : Prop :=
  t.doneSquashing = true ∧ t.squashIt = none ∨
    t.doneSquashing = false ∧ ∃ i, i < t.instList.length ∧ t.squashIt = some i

structure Valid (rob : Rob numThreads) : Prop where
  counted : Counted rob
  placed : ∀ tid, Placed (rob.threads tid)

end Buffer

section Walks

variable {t : Thread} {list : List DynInst} {squashNum i : Nat} {inst : DynInst}

theorem deref_inside (inside : i < t.instList.length) :
    deref t (some i) = .ok (t.instList.get ⟨i, inside⟩) := by
  rw [deref, Option.bind_some, List.getElem?_eq_getElem inside]
  rfl

theorem take_succ (here : list[i]? = some inst) : list.take (i + 1) = list.take i ++ [inst] := by
  rw [List.take_add_one, here]
  rfl

theorem drop_here (here : list[i]? = some inst) : list.drop i = inst :: list.drop (i + 1) := by
  obtain ⟨inside, rfl⟩ := List.getElem?_eq_some_iff.mp here
  exact List.drop_eq_getElem_cons inside

theorem younger_take_succ (here : list[i]? = some inst) (isYounger : inst.seqNum > squashNum) :
    younger squashNum (list.take (i + 1)) = younger squashNum (list.take i) + 1 := by
  rw [take_succ here, younger, List.countP_append, List.countP_singleton,
    if_pos (decide_eq_true isYounger), younger]

theorem older_of_sorted (sorted : list.Pairwise fun a b => a.seqNum < b.seqNum)
    (here : list[i]? = some inst) (stays : inst.seqNum ≤ squashNum) :
    ∀ other ∈ list.take (i + 1), other.seqNum ≤ squashNum := by
  intro other member
  have split : list = list.take i ++ inst :: list.drop (i + 1) := by
    rw [← drop_here here, List.take_append_drop]
  rw [split] at sorted
  rw [take_succ here] at member
  rcases List.mem_append.mp member with before | last
  · exact ((List.pairwise_append.mp sorted).2.2 other before inst List.mem_cons_self).le.trans stays
  · rw [List.mem_singleton.mp last]
    exact stays

theorem younger_eq_zero (sorted : list.Pairwise fun a b => a.seqNum < b.seqNum)
    (here : list[i]? = some inst) (stays : inst.seqNum ≤ squashNum) :
    younger squashNum (list.take (i + 1)) = 0 := by
  rw [younger, List.countP_eq_zero]
  intro other member isYounger
  exact absurd (of_decide_eq_true isYounger) (older_of_sorted sorted here stays other member).not_gt

structure AtPosition (list : List DynInst) (squashNum i : Nat) (t : Thread) : Prop where
  inside : i < list.length
  marked : t.instList = list.take (i + 1) ++ (list.drop (i + 1)).map (squashedFrom squashNum)
  entries : t.threadEntries = list.length
  squashIt : t.squashIt = some i
  notDone : t.doneSquashing = false
  squashedSeqNum : t.squashedSeqNum = squashNum

structure Finished (list : List DynInst) (squashNum : Nat) (t : Thread) : Prop where
  marked : t.instList = list.map (squashedFrom squashNum)
  entries : t.threadEntries = list.length
  squashIt : t.squashIt = none
  doneSquashing : t.doneSquashing = true

theorem AtPosition.length_eq (position : AtPosition list squashNum i t) :
    t.instList.length = list.length := by
  rw [position.marked, List.length_append, List.length_map, ← List.length_append,
    List.take_append_drop]

theorem AtPosition.deref_eq (position : AtPosition list squashNum i t)
    (here : list[i]? = some inst) : deref t t.squashIt = .ok inst := by
  have there : t.instList[i]? = some inst := by
    rw [position.marked, List.getElem?_append_left, List.getElem?_take_of_lt (Nat.lt_succ_self i),
      here]
    rw [List.length_take]
    exact Nat.lt_min.mpr ⟨Nat.lt_succ_self i, position.inside⟩
  rw [position.squashIt, deref, Option.bind_some, there]

theorem AtPosition.set_eq (position : AtPosition list squashNum i t)
    (here : list[i]? = some inst) (isYounger : inst.seqNum > squashNum) :
    t.instList.set i (squashInst inst) =
      list.take i ++ (list.drop i).map (squashedFrom squashNum) := by
  have size : (list.take i).length = i := by
    rw [List.length_take]
    exact Nat.min_eq_left position.inside.le
  have isMarked : squashedFrom squashNum inst = squashInst inst := if_pos isYounger
  rw [position.marked, take_succ here, drop_here here, List.map_cons, isMarked, List.append_assoc,
    List.set_append_right _ _ size.le, size, Nat.sub_self]
  rfl

/-- A walk that comes to an instruction that stays has marked what it should. -/
theorem AtPosition.finished (position : AtPosition list squashNum i t)
    (sorted : list.Pairwise fun a b => a.seqNum < b.seqNum) (here : list[i]? = some inst)
    (stays : inst.seqNum ≤ squashNum) : Finished list squashNum (done t) := by
  refine ⟨?_, position.entries, rfl, rfl⟩
  have older := older_of_sorted sorted here stays
  have same : (list.take (i + 1)).map (squashedFrom squashNum) = list.take (i + 1) := by
    conv_rhs => rw [← List.map_id (list.take (i + 1))]
    exact List.map_congr_left fun other member => if_neg (older other member).not_gt
  have marked : (done t).instList = _ := position.marked
  conv_rhs => rw [← List.take_append_drop (i + 1) list, List.map_append, same]
  exact marked

theorem squashLoop_succ (left : Nat) (isIt : t.squashIt = some i)
    (read : deref t t.squashIt = .ok inst) :
    squashLoop (left + 1) t =
      if inst.seqNum > t.squashedSeqNum then
        if i = 0 then .ok (done { t with instList := t.instList.set i (squashInst inst) }, true)
        else squashLoop left { t with
          instList := t.instList.set i (squashInst inst)
          squashIt := some (i - 1) }
      else .ok (t, false) := by
  rw [isIt] at read
  rw [squashLoop, isIt]
  dsimp only
  rw [read]
  rfl

/-- The loop either reaches the head of the list or stops with its width used up, or at an
instruction that stays. -/
theorem squashLoop_atPosition (sorted : list.Pairwise fun a b => a.seqNum < b.seqNum) (left : Nat)
    (position : AtPosition list squashNum i t) :
    ∃ t' returned, squashLoop left t = .ok (t', returned) ∧
      (returned = true ∧ Finished list squashNum t' ∧
          younger squashNum (list.take (i + 1)) ≤ left ∨
        returned = false ∧ ∃ i', AtPosition list squashNum i' t' ∧
          younger squashNum (list.take (i' + 1)) =
            younger squashNum (list.take (i + 1)) - left) := by
  induction left generalizing i t with
  | zero => exact ⟨t, false, rfl, Or.inr ⟨rfl, i, position, rfl⟩⟩
  | succ left ih =>
      obtain ⟨inst, here⟩ : ∃ inst, list[i]? = some inst :=
        ⟨_, List.getElem?_eq_getElem position.inside⟩
      have same := position.squashedSeqNum
      rw [squashLoop_succ left position.squashIt (position.deref_eq here)]
      by_cases isYounger : inst.seqNum > squashNum
      · have set := position.set_eq here isYounger
        have fewer := younger_take_succ here isYounger
        rw [if_pos (same.symm ▸ isYounger : inst.seqNum > t.squashedSeqNum)]
        cases i with
        | zero =>
            rw [if_pos rfl]
            refine ⟨_, true, rfl, Or.inl ⟨rfl, ⟨set, position.entries, rfl, rfl⟩, ?_⟩⟩
            rw [fewer, List.take_zero]
            exact Nat.succ_le_succ (Nat.zero_le left)
        | succ i =>
            rw [if_neg (Nat.succ_ne_zero i)]
            have next : AtPosition list squashNum i { t with
                instList := t.instList.set (i + 1) (squashInst inst)
                squashIt := some (i + 1 - 1) } :=
              ⟨(Nat.lt_succ_self i).trans position.inside, set, position.entries, rfl,
                position.notDone, position.squashedSeqNum⟩
            obtain ⟨t', returned, ended, result⟩ := ih next
            refine ⟨t', returned, ended, ?_⟩
            rw [fewer, Nat.add_sub_add_right]
            refine result.imp (fun ⟨isReturned, finished, few⟩ => ?_) id
            exact ⟨isReturned, finished, Nat.succ_le_succ few⟩
      · rw [if_neg (same.symm ▸ isYounger : ¬inst.seqNum > t.squashedSeqNum)]
        refine ⟨t, false, rfl, Or.inr ⟨rfl, i, position, ?_⟩⟩
        rw [younger_eq_zero sorted here (not_lt.mp isYounger), Nat.zero_sub]

theorem doSquashThread_atPosition (sorted : list.Pairwise fun a b => a.seqNum < b.seqNum)
    (squashWidth : Nat) (position : AtPosition list squashNum i t) :
    ∃ t', doSquashThread squashWidth t = .ok t' ∧
      (Finished list squashNum t' ∧ younger squashNum (list.take (i + 1)) ≤ squashWidth ∨
        squashWidth < younger squashNum (list.take (i + 1)) ∧
          ∃ i', AtPosition list squashNum i' t' ∧
            younger squashNum (list.take (i' + 1)) =
              younger squashNum (list.take (i + 1)) - squashWidth) := by
  obtain ⟨inst, here⟩ : ∃ inst, list[i]? = some inst :=
    ⟨_, List.getElem?_eq_getElem position.inside⟩
  have notEnd : t.squashIt ≠ none := by
    rw [position.squashIt]
    exact Option.some_ne_none i
  rw [doSquashThread, if_neg notEnd, position.deref_eq here]
  dsimp only [Except.bind]
  rw [position.squashedSeqNum]
  by_cases older : inst.seqNum < squashNum
  · rw [if_pos older]
    refine ⟨_, rfl, Or.inl ⟨position.finished sorted here older.le, ?_⟩⟩
    rw [younger_eq_zero sorted here older.le]
    exact Nat.zero_le _
  · rw [if_neg older]
    obtain ⟨t', returned, ended, result⟩ := squashLoop_atPosition sorted squashWidth position
    rw [ended]
    dsimp only
    obtain ⟨rfl, finished, few⟩ | ⟨rfl, i', position', left⟩ := result
    · exact ⟨t', rfl, Or.inl ⟨finished, few⟩⟩
    · obtain ⟨next, there⟩ : ∃ next, list[i']? = some next :=
        ⟨_, List.getElem?_eq_getElem position'.inside⟩
      rw [if_neg Bool.false_ne_true, position'.deref_eq there]
      dsimp only
      rw [position'.squashedSeqNum]
      by_cases stays : next.seqNum ≤ squashNum
      · rw [if_pos stays]
        refine ⟨_, rfl, Or.inl ⟨position'.finished sorted there stays, ?_⟩⟩
        rw [younger_eq_zero sorted there stays] at left
        exact Nat.le_of_sub_eq_zero left.symm
      · rw [if_neg stays]
        refine ⟨t', rfl, Or.inr ⟨?_, i', position', left⟩⟩
        rw [younger_take_succ there (not_le.mp stays)] at left
        omega

theorem squashThread_eq (squashWidth squashNum : Nat) (counted : t.threadEntries = t.instList.length)
    (some : t.instList ≠ []) :
    ∃ started, squashThread squashWidth squashNum t = doSquashThread squashWidth started ∧
      AtPosition t.instList squashNum (t.instList.length - 1) started := by
  have filled : t.instList.length ≠ 0 := mt List.length_eq_zero_iff.mp some
  have last : t.instList.length - 1 + 1 = t.instList.length :=
    Nat.sub_add_cancel (Nat.pos_of_ne_zero filled)
  refine ⟨{ t with
    doneSquashing := false
    squashedSeqNum := squashNum
    squashIt := Option.some (t.instList.length - 1) }, ?_, ?_⟩
  · rw [squashThread, if_neg (counted ▸ filled)]
    dsimp only
    rw [if_pos some]
  · refine ⟨Nat.sub_lt (Nat.pos_of_ne_zero filled) Nat.one_pos, ?_, counted, rfl, rfl, rfl⟩
    rw [last, List.take_length, List.drop_length, List.map_nil, List.append_nil]

end Walks

section Sessions

variable {numThreads : Nat} {cfg : Config} {rob : Rob numThreads} {tid : Fin numThreads}
  {list : List DynInst} {squashNum i : Nat} {t t' : Thread}

theorem setThread_threads (rob : Rob numThreads) (tid : Fin numThreads) (t : Thread) :
    (setThread rob tid t).threads tid = t :=
  Function.update_self _ _ _

theorem setThread_of_ne (rob : Rob numThreads) {other : Fin numThreads} (apart : other ≠ tid)
    (t : Thread) : (setThread rob tid t).threads other = rob.threads other :=
  Function.update_of_ne apart _ _

theorem setThread_setThread (rob : Rob numThreads) (tid : Fin numThreads) (t t' : Thread) :
    setThread (setThread rob tid t) tid t' = setThread rob tid t' := by
  rw [setThread, setThread, setThread, Function.update_idem]

theorem setThread_same (rob : Rob numThreads) (tid : Fin numThreads) :
    setThread rob tid (rob.threads tid) = rob := by
  rw [setThread, Function.update_eq_self]

theorem doSquash_eq (called : doSquashThread cfg.squashWidth t = .ok t') :
    doSquash cfg tid (setThread rob tid t) = .ok (setThread rob tid t') := by
  rw [doSquash, setThread_threads, called, Except.map, setThread_setThread]

theorem drains_atPosition (rob : Rob numThreads) (tid : Fin numThreads)
    (sorted : list.Pairwise fun a b => a.seqNum < b.seqNum)
    (wide : 1 ≤ cfg.squashWidth) (position : AtPosition list squashNum i t)
    (left : 1 ≤ younger squashNum (list.take (i + 1))) :
    ∃ calls t', Drains cfg tid (setThread rob tid t) calls (setThread rob tid t') ∧
      Finished list squashNum t' ∧
      calls ≤ (younger squashNum (list.take (i + 1)) - 1) / cfg.squashWidth + 1 := by
  induction count : younger squashNum (list.take (i + 1)) using Nat.strongRecOn generalizing i t with
  | ind n ih =>
      obtain ⟨t', called, result⟩ := doSquashThread_atPosition sorted cfg.squashWidth position
      have notDone : ((setThread rob tid t).threads tid).doneSquashing = false := by
        rw [setThread_threads]
        exact position.notDone
      obtain ⟨finished, few⟩ | ⟨more, i', position', rest⟩ := result
      · have isDone : ((setThread rob tid t').threads tid).doneSquashing = true := by
          rw [setThread_threads]
          exact finished.doneSquashing
        exact ⟨1, t', .call notDone (doSquash_eq called) (.finished isDone), finished,
          Nat.le_add_left 1 _⟩
      · rw [count] at more rest
        obtain ⟨calls, last, drains, finished, bound⟩ := ih (n - cfg.squashWidth) (by omega) position'
          (by omega) rest
        refine ⟨calls + 1, last, .call notDone (doSquash_eq called) drains, finished, ?_⟩
        have split : n - 1 = n - cfg.squashWidth - 1 + cfg.squashWidth := by omega
        rw [split, Nat.add_div_right _ wide]
        exact Nat.succ_le_succ bound

theorem updateTail_ok (rob : Rob numThreads) (threads : List (Fin numThreads))
    (tail : Option (Fin numThreads × Nat))
    (inside : ∀ found ∈ tail, found.2 < (rob.threads found.1).instList.length) :
    ∃ tail', updateTail rob threads tail = .ok tail' ∧
      ∀ found ∈ tail', found.2 < (rob.threads found.1).instList.length := by
  induction threads generalizing tail with
  | nil => exact ⟨tail, rfl, inside⟩
  | cons tid threads ih =>
      unfold updateTail
      split
      next => exact ih tail inside
      next filled =>
        have last : (rob.threads tid).instList.length - 1 < (rob.threads tid).instList.length :=
          Nat.sub_one_lt (mt List.eq_nil_of_length_eq_zero filled)
        have atLast : ∀ found ∈ some (tid, (rob.threads tid).instList.length - 1),
            found.2 < (rob.threads found.1).instList.length := by
          rintro found isFound
          cases isFound
          exact last
        cases tail with
        | none => exact ih _ atLast
        | some found =>
            obtain ⟨other, i⟩ := found
            have within : i < (rob.threads other).instList.length := inside (other, i) rfl
            dsimp only
            rw [deref_inside last, deref_inside within]
            dsimp only [Except.bind]
            split
            · exact ih _ atLast
            · exact ih _ inside

/-- What a squash does to the buffer, in the call of squash and the calls of doSquash behind
it. -/
structure SquashedExactly (cfg : Config) (tid : Fin numThreads) (squashNum : Nat)
    (rob first : Rob numThreads) (calls : Nat) (last : Rob numThreads) : Prop where
  begins : squash cfg squashNum tid rob = .ok first
  drains : Drains cfg tid first calls last
  marked : (last.threads tid).instList = (rob.threads tid).instList.map (squashedFrom squashNum)
  others : ∀ other, other ≠ tid → last.threads other = rob.threads other
  bounded : calls + 1 ≤ younger squashNum (rob.threads tid).instList / cfg.squashWidth + 1
  valid : Valid last
  total : last.numInstsInROB = rob.numInstsInROB
  /-- Wherever the tail is updated on the way. -/
  tail : ∀ (between : Rob numThreads) (threads : List (Fin numThreads)),
    ∃ tail, updateTail between threads none = .ok tail

theorem Finished.placed (finished : Finished list squashNum t) : Placed t :=
  Or.inl ⟨finished.doneSquashing, finished.squashIt⟩

theorem sum_setThread (rob : Rob numThreads) (tid : Fin numThreads) (t : Thread) :
    (∑ other, ((setThread rob tid t).threads other).threadEntries) +
        (rob.threads tid).threadEntries =
      (∑ other, (rob.threads other).threadEntries) + t.threadEntries := by
  have rest : ∀ other ∈ Finset.univ.erase tid,
      ((setThread rob tid t).threads other).threadEntries = (rob.threads other).threadEntries := by
    intro other member
    rw [setThread_of_ne rob (Finset.ne_of_mem_erase member)]
  rw [← Finset.add_sum_erase _ _ (Finset.mem_univ tid), Finset.sum_congr rfl rest,
    setThread_threads, ← Finset.add_sum_erase _ (fun other => (rob.threads other).threadEntries)
      (Finset.mem_univ tid)]
  omega

/-- A thread whose own counter is right can be put in the place of another, with the total changed
by as much. -/
theorem valid_setThread (valid : Valid rob) (placed : Placed t)
    (entries : t.threadEntries = t.instList.length) {total : Nat}
    (changed : total + (rob.threads tid).threadEntries = rob.numInstsInROB + t.threadEntries) :
    Valid { setThread rob tid t with numInstsInROB := total } := by
  have sum := sum_setThread rob tid t
  rw [← valid.counted.total] at sum
  refine ⟨⟨fun other => ?_, Nat.add_right_cancel (changed.trans sum.symm)⟩, fun other => ?_⟩
  · change ((setThread rob tid t).threads other).threadEntries =
      ((setThread rob tid t).threads other).instList.length
    by_cases here : other = tid
    · rw [here, setThread_threads, entries]
    · rw [setThread_of_ne rob here]
      exact valid.counted.entries other
  · change Placed ((setThread rob tid t).threads other)
    by_cases here : other = tid
    · rw [here, setThread_threads]
      exact placed
    · rw [setThread_of_ne rob here]
      exact valid.placed other

theorem setThread_valid (valid : Valid rob) (placed : Placed t)
    (entries : t.threadEntries = (rob.threads tid).instList.length)
    (long : t.instList.length = (rob.threads tid).instList.length) :
    Valid (setThread rob tid t) := by
  refine valid_setThread valid placed (entries.trans long.symm) ?_
  rw [entries, valid.counted.entries]

theorem finished_squashedExactly (valid : Valid rob) {first : Rob numThreads} {calls : Nat}
    (begins : squash cfg squashNum tid rob = .ok first)
    (drains : Drains cfg tid first calls (setThread rob tid t))
    (finished : Finished (rob.threads tid).instList squashNum t)
    (bounded : calls ≤ younger squashNum (rob.threads tid).instList / cfg.squashWidth) :
    SquashedExactly cfg tid squashNum rob first calls (setThread rob tid t) := by
  refine ⟨begins, drains, ?_, fun other apart => setThread_of_ne rob apart t,
    Nat.succ_le_succ bounded, ?_, rfl, fun between threads => ?_⟩
  · rw [setThread_threads]
    exact finished.marked
  · refine setThread_valid valid finished.placed finished.entries ?_
    rw [finished.marked, List.length_map]
  · obtain ⟨tail, found, _⟩ := updateTail_ok between threads none fun _ isFound =>
      absurd isFound (Option.not_mem_none _)
    exact ⟨tail, found⟩

end Sessions

section Runs

variable {numThreads : Nat} {cfg : Config} {rob : Rob numThreads} {tid : Fin numThreads}
  {t : Thread} {i : Nat}

theorem squashLoop_placed (left : Nat) (inside : i < t.instList.length) (isIt : t.squashIt = some i)
    (notDone : t.doneSquashing = false) :
    ∃ t', squashLoop left t = .ok (t', t'.doneSquashing) ∧ Placed t' ∧
      t'.instList.length = t.instList.length ∧ t'.threadEntries = t.threadEntries := by
  induction left generalizing i t with
  | zero =>
      refine ⟨t, ?_, Or.inr ⟨notDone, i, inside, isIt⟩, rfl, rfl⟩
      rw [squashLoop, notDone]
  | succ left ih =>
      have read : deref t t.squashIt = .ok (t.instList.get ⟨i, inside⟩) := by
        rw [isIt]
        exact deref_inside inside
      rw [squashLoop_succ left isIt read]
      split
      · split
        next => exact ⟨_, rfl, Or.inl ⟨rfl, rfl⟩, List.length_set, rfl⟩
        next notHead =>
          obtain ⟨t', ended, placed, long, entries⟩ :=
            @ih { t with
              instList := t.instList.set i (squashInst (t.instList.get ⟨i, inside⟩))
              squashIt := some (i - 1) } (i - 1)
              (by rw [List.length_set]; exact (Nat.sub_le i 1).trans_lt inside) rfl notDone
          exact ⟨t', ended, placed, long.trans List.length_set, entries⟩
      · refine ⟨t, ?_, Or.inr ⟨notDone, i, inside, isIt⟩, rfl, rfl⟩
        rw [notDone]

theorem doSquashThread_placed (squashWidth : Nat) (inside : i < t.instList.length)
    (isIt : t.squashIt = some i) (notDone : t.doneSquashing = false) :
    ∃ t', doSquashThread squashWidth t = .ok t' ∧ Placed t' ∧
      t'.instList.length = t.instList.length ∧ t'.threadEntries = t.threadEntries := by
  have read : deref t t.squashIt = .ok (t.instList.get ⟨i, inside⟩) := by
    rw [isIt]
    exact deref_inside inside
  have notEnd : t.squashIt ≠ none := by
    rw [isIt]
    exact Option.some_ne_none i
  rw [doSquashThread, if_neg notEnd, read]
  dsimp only [Except.bind]
  split
  · exact ⟨_, rfl, Or.inl ⟨rfl, rfl⟩, rfl, rfl⟩
  · obtain ⟨t', ended, placed, long, entries⟩ :=
      squashLoop_placed squashWidth inside isIt notDone
    rw [ended]
    dsimp only
    split
    next => exact ⟨t', rfl, placed, long, entries⟩
    next going =>
      obtain ⟨isDone, _⟩ | ⟨_, i', inside', isIt'⟩ := id placed
      · exact absurd isDone going
      · rw [isIt', deref_inside inside']
        dsimp only
        split
        · exact ⟨_, rfl, Or.inl ⟨rfl, rfl⟩, long, entries⟩
        · exact ⟨t', rfl, placed, long, entries⟩

theorem doSquash_valid (cfg : Config) (valid : Valid rob)
    (notDone : (rob.threads tid).doneSquashing = false) :
    ∃ rob', doSquash cfg tid rob = .ok rob' ∧ Valid rob' := by
  obtain ⟨isDone, _⟩ | ⟨_, i, inside, isIt⟩ := valid.placed tid
  · rw [notDone] at isDone
    cases isDone
  · obtain ⟨t', called, placed, long, entries⟩ :=
      doSquashThread_placed cfg.squashWidth inside isIt notDone
    refine ⟨setThread rob tid t', ?_, setThread_valid valid placed ?_ long⟩
    · rw [doSquash, called]
      rfl
    · rw [entries, valid.counted.entries]

theorem squash_valid (cfg : Config) (tid : Fin numThreads) (valid : Valid rob) (squashNum : Nat) :
    ∃ rob', squash cfg squashNum tid rob = .ok rob' ∧ Valid rob' := by
  have entries := valid.counted.entries tid
  by_cases some : (rob.threads tid).instList = []
  · refine ⟨setThread rob tid (rob.threads tid), ?_, ?_⟩
    · rw [squash, squashThread, if_pos (by rw [entries, some]; rfl)]
      rfl
    · rw [setThread_same]
      exact valid
  · obtain ⟨started, begins, position⟩ :=
      squashThread_eq cfg.squashWidth squashNum entries some
    have inside : (rob.threads tid).instList.length - 1 < started.instList.length :=
      position.inside.trans_eq position.length_eq.symm
    obtain ⟨t', called, placed, long, same⟩ := doSquashThread_placed cfg.squashWidth inside
      position.squashIt position.notDone
    refine ⟨setThread rob tid t', ?_, setThread_valid valid placed ?_ ?_⟩
    · rw [squash, begins, called]
      rfl
    · rw [same, position.entries]
    · rw [long, position.length_eq]

theorem insertInst_valid (valid : Valid rob) {inst : DynInst} {rob' : Rob numThreads}
    (inserted : insertInst cfg tid inst rob = .ok rob') : Valid rob' := by
  unfold insertInst at inserted
  split at inserted
  · cases inserted
  · cases inserted
    refine valid_setThread valid ?_ ?_ (Nat.add_right_comm _ _ _)
    · refine (valid.placed tid).imp id fun ⟨notDone, i, inside, isIt⟩ => ⟨notDone, i, ?_, isIt⟩
      rw [List.length_append]
      exact Nat.lt_add_right 1 inside
    · rw [List.length_append, valid.counted.entries]
      rfl

theorem retireHead_valid (valid : Valid rob) (isDone : (rob.threads tid).doneSquashing = true)
    {rob' : Rob numThreads} (retired : retireHead tid rob = .ok rob') : Valid rob' := by
  have entries := valid.counted.entries tid
  have isEnd : (rob.threads tid).squashIt = none := by
    obtain ⟨_, isEnd⟩ | ⟨notDone, _⟩ := valid.placed tid
    · exact isEnd
    · rw [isDone] at notDone
      cases notDone
  unfold retireHead at retired
  split at retired
  · cases retired
  next some =>
    dsimp only at retired
    split at retired
    · cases retired
    next headInst rest isList =>
      rw [isList, List.length_cons] at entries
      split at retired
      · cases retired
        refine valid_setThread valid ?_ ?_ ?_
        · exact Or.inl ⟨isDone, isEnd⟩
        · rw [entries]
          rfl
        · dsimp only
          omega
      · cases retired

theorem step_valid (valid : Valid rob) (action : Action numThreads) {rob' : Rob numThreads}
    (stepped : step cfg rob action = some rob') : Valid rob' := by
  cases action with
  | insert tid inst => exact insertInst_valid valid (eq_ok_of_toOption stepped)
  | retire tid =>
      change (if (rob.threads tid).doneSquashing then (retireHead tid rob).toOption else none) = _
        at stepped
      split at stepped
      next isDone => exact retireHead_valid valid isDone (eq_ok_of_toOption stepped)
      next => cases stepped
  | squash tid squashNum =>
      obtain ⟨next, called, valid'⟩ := squash_valid cfg tid valid squashNum
      cases called.symm.trans (eq_ok_of_toOption stepped)
      exact valid'
  | doSquash tid =>
      change (if (rob.threads tid).doneSquashing then none else (doSquash cfg tid rob).toOption) = _
        at stepped
      split at stepped
      next => cases stepped
      next going =>
        obtain ⟨next, called, valid'⟩ :=
          doSquash_valid cfg valid (Bool.eq_false_iff.mpr going)
        cases called.symm.trans (eq_ok_of_toOption stepped)
        exact valid'

theorem reset_valid (numThreads : Nat) : Valid (reset numThreads) :=
  ⟨⟨fun _ => rfl, (Finset.sum_const_zero).symm⟩, fun _ => Or.inl ⟨rfl, rfl⟩⟩

theorem run_valid (actions : List (Action numThreads))
    (ran : run (step cfg) actions (reset numThreads) = some rob) : Valid rob := by
  refine run_preserves
    (fun rob action next valid (_ : True) stepped => step_valid valid action stepped)
    actions _ _ (reset_valid numThreads) ?_ ran
  exact fun _ _ _ _ _ _ _ _ => True.intro

/-- A squash, with the calls of doSquash until it is done, marks the younger instructions of the
thread and nothing else. -/
theorem squash_exact (cfg : Config) (wide : 1 ≤ cfg.squashWidth) (rob : Rob numThreads)
    (valid : Valid rob) (tid : Fin numThreads) (squashNum : Nat)
    (sorted : (rob.threads tid).instList.Pairwise fun a b => a.seqNum < b.seqNum) :
    ∃ first calls last, SquashedExactly cfg tid squashNum rob first calls last := by
  have entries := valid.counted.entries tid
  by_cases some : (rob.threads tid).instList = []
  · have begins : squash cfg squashNum tid rob = .ok (setThread rob tid (rob.threads tid)) := by
      rw [squash, squashThread, if_pos (by rw [entries, some]; rfl)]
      rfl
    obtain ⟨isDone, isEnd⟩ | ⟨_, i, inside, _⟩ := valid.placed tid
    · refine ⟨_, 0, _, finished_squashedExactly valid begins (.finished ?_)
        ⟨?_, entries, isEnd, isDone⟩ (Nat.zero_le _)⟩
      · rw [setThread_threads]
        exact isDone
      · rw [some]
        rfl
    · rw [some] at inside
      exact absurd inside (Nat.not_lt_zero i)
  · obtain ⟨started, begun, position⟩ :=
      squashThread_eq cfg.squashWidth squashNum entries some
    obtain ⟨t', called, result⟩ := doSquashThread_atPosition sorted cfg.squashWidth position
    have begins : squash cfg squashNum tid rob = .ok (setThread rob tid t') := by
      rw [squash, begun, called]
      rfl
    have whole : (rob.threads tid).instList.take ((rob.threads tid).instList.length - 1 + 1) =
        (rob.threads tid).instList := by
      rw [Nat.sub_add_cancel (List.length_pos_iff.mpr some), List.take_length]
    rw [whole] at result
    obtain ⟨finished, _⟩ | ⟨more, i', position', rest⟩ := result
    · refine ⟨_, 0, _, finished_squashedExactly valid begins (.finished ?_) finished
        (Nat.zero_le _)⟩
      rw [setThread_threads]
      exact finished.doneSquashing
    · obtain ⟨calls, last, drains, finished, bound⟩ := drains_atPosition rob tid sorted wide position'
        (by omega)
      refine ⟨_, calls, _, finished_squashedExactly valid begins drains finished ?_⟩
      rw [rest, ← Nat.add_div_right _ wide] at bound
      exact bound.trans (Nat.div_le_div_right (by omega))

def fresh (seqNum : Nat) : DynInst := ⟨seqNum, false, false, false⟩

theorem squash_exact_small :
    ∃ rob first calls last, run (step ⟨8, 1⟩)
        [.insert 0 (fresh 1), .insert 0 (fresh 2), .insert 1 (fresh 3), .insert 0 (fresh 4),
          .insert 0 (fresh 6)] (reset 2) = some rob ∧
      1 ≤ Config.squashWidth ⟨8, 1⟩ ∧ Valid rob ∧
      ((rob.threads 0).instList.Pairwise fun a b => a.seqNum < b.seqNum) ∧
      SquashedExactly ⟨8, 1⟩ 0 3 rob first calls last := by
  obtain ⟨rob, ran⟩ : ∃ rob, run (step ⟨8, 1⟩)
      [.insert 0 (fresh 1), .insert 0 (fresh 2), .insert 1 (fresh 3), .insert 0 (fresh 4),
        .insert 0 (fresh 6)] (reset 2) = some rob := ⟨_, rfl⟩
  have valid := run_valid _ ran
  have sorted : (rob.threads 0).instList.Pairwise fun a b => a.seqNum < b.seqNum := by
    cases ran
    decide
  obtain ⟨first, calls, last, exactly⟩ := squash_exact ⟨8, 1⟩ (Nat.le_refl 1) rob valid 0 3 sorted
  exact ⟨rob, first, calls, last, ran, Nat.le_refl 1, valid, sorted, exactly⟩

end Runs

end GemFi.RobSquash
