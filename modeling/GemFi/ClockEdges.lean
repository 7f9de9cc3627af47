import Mathlib.Algebra.Order.Floor.Div
import Mathlib.Order.Bounds.Defs
import Mathlib.Tactic.Ring

/-!
Edges of a clock and the cycles they begin. An edge that is known is moved forward, by
whole periods, to the first edge that is not before a given time. Moving it in two steps
is moving it once, so it does not matter how often or how late this is done.
-/

namespace GemFi.ClockEdges

@[ext] structure Edge where
  tick : Nat
  cycle : Nat

namespace Edge

def forward (e : Edge) (period count : Nat) : Edge := ⟨e.tick + count * period, e.cycle + count⟩

def missing (e : Edge) (period now : Nat) : Nat := (now - e.tick) ⌈/⌉ period

def align (e : Edge) (period now : Nat) : Edge := e.forward period (e.missing period now)

variable {e : Edge} {period now later : Nat}

theorem forward_forward (first second : Nat) :
    (e.forward period first).forward period second = e.forward period (first + second) := by
  ext
  · simp only [forward]
    ring
  · exact Nat.add_assoc _ _ _

theorem missing_le_iff (positive : 0 < period) (count : Nat) :
    e.missing period now ≤ count ↔ now ≤ (e.forward period count).tick := by
  unfold missing forward
  rw [ceilDiv_le_iff_le_mul positive, Nat.mul_comm period]
  show now - e.tick ≤ count * period ↔ now ≤ e.tick + count * period
  omega

theorem align_ahead (positive : 0 < period) : now ≤ (e.align period now).tick :=
  (missing_le_iff positive _).mp (Nat.le_refl _)

theorem align_of_ahead (ahead : now ≤ e.tick) : e.align period now = e := by
  have none : e.missing period now = 0 := by
    rw [missing, Nat.sub_eq_zero_of_le ahead]
    exact zero_ceilDiv period
  ext <;> simp [align, forward, none]

theorem missing_forward (positive : 0 < period) (count : Nat)
    (within : count ≤ e.missing period now) :
    (e.forward period count).missing period now = e.missing period now - count := by
  refine Nat.le_antisymm ?_ ?_
  · rw [missing_le_iff positive, forward_forward, Nat.add_sub_cancel' within]
    exact align_ahead positive
  · have reached := (missing_le_iff (e := e.forward period count) positive _).mp
      (Nat.le_refl ((e.forward period count).missing period now))
    rw [forward_forward, ← missing_le_iff positive] at reached
    omega

theorem align_forward (positive : 0 < period) (count : Nat)
    (within : count ≤ e.missing period now) :
    (e.forward period count).align period now = e.align period now := by
  rw [align, missing_forward positive count within, forward_forward, Nat.add_sub_cancel' within]
  rfl

theorem missing_mono (positive : 0 < period) (order : now ≤ later) :
    e.missing period now ≤ e.missing period later :=
  (missing_le_iff positive _).mpr (order.trans (align_ahead positive))

theorem align_align (positive : 0 < period) (order : now ≤ later) :
    (e.align period now).align period later = e.align period later :=
  align_forward positive _ (missing_mono positive order)

theorem align_start_isLeast (positive : 0 < period) :
    IsLeast {tick | period ∣ tick ∧ now ≤ tick} ((Edge.mk 0 0).align period now).tick := by
  refine ⟨⟨?_, align_ahead positive⟩, ?_⟩
  · simp [align, forward]
  · rintro _ ⟨⟨count, rfl⟩, ahead⟩
    have enough : (Edge.mk 0 0).missing period now ≤ count := by
      rw [missing_le_iff positive]
      simpa [forward, Nat.mul_comm] using ahead
    simpa [align, forward, Nat.mul_comm] using Nat.mul_le_mul_left period enough

theorem forward_cycle {e' : Edge} {count : Nat} (moved : e' = e.forward period count) :
    e'.tick = e.tick + (e'.cycle - e.cycle) * period := by
  subst moved
  simp [forward]

end Edge

end GemFi.ClockEdges
