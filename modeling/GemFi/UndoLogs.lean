import Mathlib.Data.List.Perm.Basic
import Mathlib.Data.List.Nodup
import Mathlib.Logic.Function.Basic

/-!
A function that is changed at one key at a time, with a log of the changes, the newest
first. A change whose new and old value are the same is no change. The log is undone
from its new end and forgotten from its old end.
-/

namespace GemFi.UndoLogs

universe u v
variable {Key : Type u} {Value : Type v}

structure Change (Key : Type u) (Value : Type v) where
  key : Key
  new : Value
  old : Value
  deriving DecidableEq

variable [DecidableEq Key] [DecidableEq Value]

def undo (f : Key → Value) (change : Change Key Value) : Key → Value :=
  if change.new = change.old then f else Function.update f change.key change.old

def undoAll (f : Key → Value) (log : List (Change Key Value)) : Key → Value := log.foldl undo f

def Consistent : (Key → Value) → List (Change Key Value) → Prop
  -- the log tells how `f` came about
  | _, [] => True
  | f, change :: older =>
      (change.new ≠ change.old → f change.key = change.new) ∧ Consistent (undo f change) older

def kept (log : List (Change Key Value)) : List Value :=
  (log.filter fun change => change.new ≠ change.old).map Change.old

variable {f : Key → Value} {change : Change Key Value} {log older : List (Change Key Value)}
  {keys : List Key} {key : Key} {value : Value}

theorem undoAll_append (f : Key → Value) (newer older : List (Change Key Value)) :
    undoAll f (newer ++ older) = undoAll (undoAll f newer) older := List.foldl_append

theorem consistent_append_iff {newer : List (Change Key Value)} :
    Consistent f (newer ++ older) ↔ Consistent f newer ∧ Consistent (undoAll f newer) older := by
  induction newer generalizing f with
  | nil => simp [Consistent, undoAll]
  | cons change newer ih =>
      rw [List.cons_append, Consistent, Consistent, ih, and_assoc]
      rfl

theorem undo_update (f : Key → Value) (key : Key) (value : Value) :
    undo (Function.update f key value) ⟨key, value, f key⟩ = f := by
  unfold undo
  split
  · rename_i same
    change value = f key at same
    rw [same, Function.update_eq_self]
  · rw [Function.update_idem, Function.update_eq_self]

theorem consistent_update (consistent : Consistent f log) (key : Key) (value : Value) :
    Consistent (Function.update f key value) (⟨key, value, f key⟩ :: log) := by
  refine ⟨fun _ => Function.update_self _ _ _, ?_⟩
  rw [undo_update]
  exact consistent

theorem consistent_same (consistent : Consistent f log) (same : change.new = change.old) :
    Consistent f (change :: log) := by
  refine ⟨fun differs => absurd same differs, ?_⟩
  rw [undo, if_pos same]
  exact consistent

omit [DecidableEq Key] in
theorem kept_append (newer older : List (Change Key Value)) :
    kept (newer ++ older) = kept newer ++ kept older := by
  simp [kept]

omit [DecidableEq Key] in
theorem kept_same (same : change.new = change.old) : kept (change :: log) = kept log := by
  simp [kept, same]

omit [DecidableEq Key] in
theorem kept_change (differs : change.new ≠ change.old) :
    kept (change :: log) = change.old :: kept log := by
  simp [kept, differs]

omit [DecidableEq Value] in
theorem map_update_perm (unique : keys.Nodup) (member : key ∈ keys) (f : Key → Value) (value : Value) :
    (f key :: keys.map (Function.update f key value)).Perm (value :: keys.map f) := by
  have split := List.perm_cons_erase member
  have elsewhere : (keys.erase key).map (Function.update f key value) = (keys.erase key).map f := by
    apply List.map_congr_left
    intro other inside
    exact Function.update_of_ne (fun same => unique.not_mem_erase (same ▸ inside)) _ _
  have left := (split.map (Function.update f key value)).cons (f key)
  have right := (split.map f).cons value
  rw [List.map_cons, Function.update_self, elsewhere] at left
  rw [List.map_cons] at right
  exact left.trans ((List.Perm.swap value (f key) _).trans right.symm)

theorem undo_perm (unique : keys.Nodup) (member : change.key ∈ keys)
    (differs : change.new ≠ change.old) (holds : f change.key = change.new) :
    (keys.map f ++ kept (change :: log)).Perm
      (change.new :: (keys.map (undo f change) ++ kept log)) := by
  have swap := map_update_perm unique member f change.old
  rw [holds] at swap
  rw [undo, if_neg differs, kept_change differs]
  exact List.perm_middle.trans (swap.symm.append_right (kept log))

theorem update_perm (unique : keys.Nodup) (member : key ∈ keys) (differs : value ≠ f key) :
    (value :: (keys.map f ++ kept log)).Perm
      (keys.map (Function.update f key value) ++ kept (⟨key, value, f key⟩ :: log)) := by
  have undone : (keys.map (Function.update f key value) ++ kept (⟨key, value, f key⟩ :: log)).Perm
      (value :: (keys.map (undo (Function.update f key value) ⟨key, value, f key⟩) ++ kept log)) :=
    undo_perm unique member differs (Function.update_self key value f)
  rw [undo_update] at undone
  exact undone.symm

omit [DecidableEq Key] in
theorem forget_perm (differs : change.new ≠ change.old) (values : List Value) :
    (values ++ kept (log ++ [change])).Perm (change.old :: (values ++ kept log)) := by
  rw [kept_append, kept_change differs, ← List.append_assoc]
  exact List.perm_append_singleton change.old _

def made (log : List (Change Key Value)) : List Value :=
  (log.filter fun change => change.new ≠ change.old).map Change.new

omit [DecidableEq Key] in
theorem made_append (newer older : List (Change Key Value)) :
    made (newer ++ older) = made newer ++ made older := by
  simp [made]

theorem undoAll_mem (f : Key → Value) (newer : List (Change Key Value)) (key : Key) :
    undoAll f newer key = f key ∨ undoAll f newer key ∈ kept newer := by
  induction newer generalizing f with
  | nil => exact .inl rfl
  | cons change newer ih =>
      change undoAll (undo f change) newer key = f key ∨ undoAll (undo f change) newer key ∈ _
      by_cases same : change.new = change.old
      · rw [kept_same same, undo, if_pos same]
        exact ih f
      · rw [kept_change same, undo, if_neg same]
        obtain unchanged | inside := ih (Function.update f change.key change.old)
        · rw [unchanged]
          by_cases here : key = change.key
          · rw [here, Function.update_self]
            exact .inr List.mem_cons_self
          · rw [Function.update_of_ne here]
            exact .inl rfl
        · exact .inr (List.mem_cons_of_mem _ inside)

theorem undoAll_of_ne (f : Key → Value) (away : ∀ change ∈ log, change.new ≠ change.old → change.key ≠ key) :
    undoAll f log key = f key := by
  induction log generalizing f with
  | nil => rfl
  | cons change older ih =>
      obtain ⟨here, away⟩ := List.forall_mem_cons.mp away
      refine (ih (undo f change) away).trans ?_
      unfold undo
      split
      · rfl
      · next differs => exact Function.update_of_ne (here differs).symm _ _

theorem undoAll_perm (unique : keys.Nodup) {newer : List (Change Key Value)}
    (inKeys : ∀ change ∈ newer, change.new ≠ change.old → change.key ∈ keys)
    (consistent : Consistent f (newer ++ older)) :
    (keys.map f ++ kept (newer ++ older)).Perm (made newer ++ (keys.map (undoAll f newer) ++ kept older)) := by
  induction newer generalizing f with
  | nil => exact List.Perm.refl _
  | cons change newer ih =>
      obtain ⟨here, inKeys⟩ := List.forall_mem_cons.mp inKeys
      obtain ⟨holds, consistent⟩ := consistent
      have later := ih inKeys consistent
      change (keys.map f ++ kept (change :: (newer ++ older))).Perm
        (made (change :: newer) ++ (keys.map (undoAll (undo f change) newer) ++ kept older))
      by_cases same : change.new = change.old
      · rw [kept_same same]
        rw [undo, if_pos same] at later ⊢
        simpa [made, same] using later
      · have first : (keys.map f ++ kept (change :: (newer ++ older))).Perm
            (change.new :: (keys.map (undo f change) ++ kept (newer ++ older))) :=
          undo_perm unique (here same) same (holds same)
        have entry : made (change :: newer) = change.new :: made newer := by simp [made, same]
        rw [entry, List.cons_append]
        exact first.trans (later.cons _)

def redo (f : Key → Value) (change : Change Key Value) : Key → Value :=
  if change.new = change.old then f else Function.update f change.key change.new

theorem redo_undo (holds : change.new ≠ change.old → f change.key = change.new) :
    redo (undo f change) change = f := by
  unfold redo undo
  split
  · rfl
  · next differs => rw [Function.update_idem, ← holds differs, Function.update_eq_self]

end GemFi.UndoLogs
