import GemFi.Hooks
import GemFi.OperandBytes

/-!
The hook of the execute stage as the instructions of arch/alpha/isa/decoder.isa call
it, on the value they are about to write. A call that fires nothing hands every value
on as it is.
-/

namespace GemFi.QuietHooks

open ThreadInfo FaultQueue Corruption FaultScan Activation Hooks OperandBytes

structure HookSite where
  fuel : Nat
  tc : ThreadContext
  call : HookCall
  fi : FiSystem

def HookSite.iewFault (site : HookSite) (value : Operand) :
    Option (FiSystem × Operand × List FaultPtr) :=
  Hooks.iewFault site.fuel site.tc site.call value site.fi

/-- `iew_fault` on a `uint64_t`. -/
def HookSite.iewWord (site : HookSite) (tmp : Word) : Option (FiSystem × Word) := do
  let (fi, value, _) ← site.iewFault (.uint64 tmp)
  match value with
  | .uint64 tmp => some (fi, tmp)
  | _ => none

/-- `iew_fault` on an `int32_t`, which has no overload of its own. -/
def HookSite.iewInt32 (site : HookSite) (tmp : BitVec 32) : Option (FiSystem × BitVec 32) := do
  let (fi, value, _) ← site.iewFault (.other (bytesOf 4 tmp))
  match value with
  | .other bytes => some (fi, ofBytes 4 bytes)
  | _ => none

/-- The hook comes back without having fired a fault. -/
def HookSite.NothingDue (site : HookSite) : Prop :=
  ∃ value fi' value', site.iewFault value = some (fi', value', [])

section Quiet

variable {q : StageQueue} {count : String → ThreadEnabledFault → ThreadEnabledFault}
  {fuel rounds : Nat} {tc : ThreadContext} {ptr : ThreadPtr} {c : ScanContext} {call : HookCall}
  {value value' : StageValue q} {fi fi' : FiSystem}

/-- The scans do not look at the value, so a loop that fires nothing on one value
fires nothing on another. -/
theorem fireLoop_quiet (returned : fireLoop fuel q c call rounds value fi = some (fi', value', []))
    (other : StageValue q) : fireLoop fuel q c call rounds other fi = some (fi', other, []) := by
  cases rounds with
  | zero => cases returned
  | succ rounds =>
      obtain ⟨⟨store, found⟩, scanned, rest⟩ := Option.bind_eq_some_iff.mp returned
      cases found with
      | none =>
          cases rest
          simp only [fireLoop, scanned]
          rfl
      | some f =>
          rw [fireLoop_found scanned] at returned
          obtain ⟨_, _, rest⟩ := Option.bind_eq_some_iff.mp returned
          obtain ⟨_, _, result⟩ := Option.bind_eq_some_iff.mp rest
          cases result

theorem fireDue_quiet (returned : fireDue fuel q tc ptr call value fi = some (fi', value', []))
    (other : StageValue q) : fireDue fuel q tc ptr call other fi = some (fi', other, []) := by
  obtain ⟨c, context, looped⟩ := Option.bind_eq_some_iff.mp returned
  exact Option.bind_eq_some_iff.mpr ⟨c, context, fireLoop_quiet looped other⟩

theorem operandFault_quiet
    (returned : operandFault q count fuel tc call value fi = some (fi', value', []))
    (other : StageValue q) :
    operandFault q count fuel tc call other fi = some (fi', other, []) := by
  unfold operandFault at returned ⊢
  split at returned
  · rename_i off
    cases returned
    rw [if_pos off]
  · rename_i on
    rw [if_neg on]
    obtain ⟨ptr, object, rest⟩ := Option.bind_eq_some_iff.mp returned
    obtain ⟨thread, info, rest⟩ := Option.bind_eq_some_iff.mp rest
    refine Option.bind_eq_some_iff.mpr ⟨ptr, object, ?_⟩
    refine Option.bind_eq_some_iff.mpr ⟨thread, info, ?_⟩
    split at rest
    · rename_i counting
      rw [if_pos counting]
      dsimp only at rest ⊢
      split at rest
      · rename_i significant
        cases rest
        rw [if_pos significant]
      · rename_i plain
        rw [if_neg plain]
        obtain ⟨⟨fired', same, fired⟩, due, rest⟩ := Option.bind_eq_some_iff.mp rest
        obtain ⟨_, both, result⟩ := Option.bind_eq_some_iff.mp rest
        cases result
        exact Option.bind_eq_some_iff.mpr ⟨_, fireDue_quiet due other,
          Option.bind_eq_some_iff.mpr ⟨_, both, rfl⟩⟩
    · rename_i still
      cases rest
      rw [if_neg still]

end Quiet

variable {site : HookSite}

theorem HookSite.NothingDue.iewFault (quiet : site.NothingDue) :
    ∃ fi', ∀ value, site.iewFault value = some (fi', value, []) := by
  obtain ⟨_, fi', _, returned⟩ := quiet
  exact ⟨fi', fun value => operandFault_quiet returned value⟩

theorem HookSite.NothingDue.iewWord (quiet : site.NothingDue) (tmp : Word) :
    ∃ fi', site.iewWord tmp = some (fi', tmp) := by
  obtain ⟨fi', same⟩ := quiet.iewFault
  exact ⟨fi', Option.bind_eq_some_iff.mpr ⟨_, same _, rfl⟩⟩

theorem HookSite.NothingDue.iewInt32 (quiet : site.NothingDue) (tmp : BitVec 32) :
    ∃ fi', site.iewInt32 tmp = some (fi', tmp) := by
  obtain ⟨fi', same⟩ := quiet.iewFault
  refine ⟨fi', Option.bind_eq_some_iff.mpr ⟨_, same _, ?_⟩⟩
  simp only
  rw [ofBytes_bytesOf]

def startedSite : HookSite :=
  -- a started thread before its first executed operand, with an execution fault that waits for the
  -- fifth
  let started := startedWith ⟨.execution, .instruction, .flipBit, 5, 1, "all", "all", 1, .src, 0, 0⟩
  ⟨9, started.2, ⟨0x120000040, 0, 1000, 0⟩, started.1⟩

theorem startedSite_quiet : startedSite.NothingDue := ⟨.uint64 0, _, _, rfl⟩

end GemFi.QuietHooks
