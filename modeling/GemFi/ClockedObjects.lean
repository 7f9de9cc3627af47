import GemFi.ClockEdges
import Mathlib.Tactic.Linarith

/-!
The clock of a ClockedObject, in sim/clocked_object.hh: the next edge at the time of the
last update, and its cycle. An update tries one period first and divides only when that
is not enough. In 64-bit arithmetic that does not overflow both ways are alignments.
-/

namespace GemFi.ClockedObjects

open ClockEdges

abbrev Tick := BitVec 64

@[ext] structure ClockedObject where
  tick : Tick
  cycle : BitVec 64

/-- `divCeil` of base/intmath.hh. -/
def divCeil (a b : BitVec 64) : BitVec 64 := (a + b - 1) / b

namespace ClockedObject

variable (o : ClockedObject) (curTick clockPeriod : Tick)

/-- `update`: align cycle and tick to the next clock edge if not already done. -/
def update : ClockedObject :=
  if o.tick ≥ curTick then o
  else
    let tick := o.tick + clockPeriod
    let cycle := o.cycle + 1
    if tick ≥ curTick then ⟨tick, cycle⟩
    else
      let elapsedCycles := divCeil (curTick - tick) clockPeriod
      ⟨tick + elapsedCycles * clockPeriod, cycle + elapsedCycles⟩

/-- `clockEdge`, with the object it leaves. -/
def clockEdge (cycles : BitVec 64) : ClockedObject × Tick :=
  let o := o.update curTick clockPeriod
  (o, o.tick + clockPeriod * cycles)

/-- `curCycle`. -/
def curCycle : ClockedObject × BitVec 64 :=
  let o := o.update curTick clockPeriod
  (o, o.cycle)

def edge : Edge := ⟨o.tick.toNat, o.cycle.toNat⟩

def nextEdge : Edge := o.edge.align clockPeriod.toNat curTick.toNat

/-- An update stays below 2^64. -/
structure Fits : Prop where
  tick : (o.nextEdge curTick clockPeriod).tick < 2 ^ 64
  cycle : (o.nextEdge curTick clockPeriod).cycle < 2 ^ 64

end ClockedObject

section Exact

variable {o : ClockedObject} {curTick clockPeriod : Tick}

theorem divCeil_toNat {a b : BitVec 64} (positive : 0 < b.toNat) (fits : a.toNat + b.toNat < 2 ^ 64) :
    (divCeil a b).toNat = a.toNat ⌈/⌉ b.toNat := by
  have sum : (a + b).toNat = a.toNat + b.toNat := by
    rw [BitVec.toNat_add, Nat.mod_eq_of_lt fits]
  have pred : (a + b - 1).toNat = a.toNat + b.toNat - 1 := by
    rw [BitVec.toNat_sub, sum]
    show (2 ^ 64 - 1 + (a.toNat + b.toNat)) % 2 ^ 64 = _
    omega
  rw [divCeil, BitVec.toNat_udiv, pred, Nat.ceilDiv_eq_add_pred_div]

theorem divided_edge {tick : Tick} {cycle : BitVec 64} (positive : 0 < clockPeriod.toNat)
    (behind : tick.toNat < curTick.toNat) (room : clockPeriod.toNat ≤ tick.toNat)
    (fits : (ClockedObject.mk tick cycle).Fits curTick clockPeriod) :
    (ClockedObject.mk (tick + divCeil (curTick - tick) clockPeriod * clockPeriod)
      (cycle + divCeil (curTick - tick) clockPeriod)).edge =
        (ClockedObject.mk tick cycle).nextEdge curTick clockPeriod := by
  have bound := curTick.isLt
  have difference : (curTick - tick).toNat = curTick.toNat - tick.toNat := by
    rw [BitVec.toNat_sub]
    omega
  have count : (divCeil (curTick - tick) clockPeriod).toNat =
      (ClockedObject.mk tick cycle).edge.missing clockPeriod.toNat curTick.toNat := by
    rw [divCeil_toNat positive (by omega), difference]
    rfl
  have tickFits : tick.toNat + (divCeil (curTick - tick) clockPeriod).toNat * clockPeriod.toNat <
      2 ^ 64 := count ▸ fits.tick
  have cycleFits : cycle.toNat + (divCeil (curTick - tick) clockPeriod).toNat < 2 ^ 64 :=
    count ▸ fits.cycle
  apply Edge.ext
  · show (tick + divCeil (curTick - tick) clockPeriod * clockPeriod).toNat = _
    rw [BitVec.toNat_add, BitVec.toNat_mul, Nat.mod_eq_of_lt (Nat.lt_of_le_of_lt
      (Nat.le_add_left _ _) tickFits), Nat.mod_eq_of_lt tickFits, count]
    rfl
  · show (cycle + divCeil (curTick - tick) clockPeriod).toNat = _
    rw [BitVec.toNat_add, Nat.mod_eq_of_lt cycleFits, count]
    rfl

theorem ClockedObject.update_of_ahead (ahead : o.tick ≥ curTick) :
    o.update curTick clockPeriod = o := if_pos ahead

theorem update_edge (positive : 0 < clockPeriod.toNat) (fits : o.Fits curTick clockPeriod) :
    (o.update curTick clockPeriod).edge = o.nextEdge curTick clockPeriod := by
  by_cases done : o.tick ≥ curTick
  · rw [ClockedObject.update_of_ahead done]
    exact (Edge.align_of_ahead (BitVec.le_def.mp done)).symm
  · have behind : o.tick.toNat < curTick.toNat := BitVec.lt_def.mp (BitVec.not_le.mp done)
    have one : 1 ≤ o.edge.missing clockPeriod.toNat curTick.toNat := by
      by_contra none
      have ahead := (Edge.missing_le_iff positive 0).mp (Nat.lt_one_iff.mp (Nat.not_le.mp none)).le
      have still : (o.edge.forward clockPeriod.toNat 0).tick = o.tick.toNat := by
        simp [Edge.forward, ClockedObject.edge]
      omega
    have tickFits : o.tick.toNat + clockPeriod.toNat < 2 ^ 64 := by
      have period := Nat.mul_le_mul_right clockPeriod.toNat one
      have whole : o.tick.toNat + o.edge.missing clockPeriod.toNat curTick.toNat *
          clockPeriod.toNat < 2 ^ 64 := fits.tick
      omega
    have cycleFits : o.cycle.toNat + 1 < 2 ^ 64 := by
      have whole : o.cycle.toNat + o.edge.missing clockPeriod.toNat curTick.toNat < 2 ^ 64 :=
        fits.cycle
      omega
    have tick : (o.tick + clockPeriod).toNat = o.tick.toNat + clockPeriod.toNat := by
      rw [BitVec.toNat_add, Nat.mod_eq_of_lt tickFits]
    have cycle : (o.cycle + 1).toNat = o.cycle.toNat + 1 := by
      rw [BitVec.toNat_add]
      exact Nat.mod_eq_of_lt cycleFits
    have fast : (ClockedObject.mk (o.tick + clockPeriod) (o.cycle + 1)).edge =
        o.edge.forward clockPeriod.toNat 1 := by
      apply Edge.ext
      · exact tick.trans (congrArg (o.tick.toNat + ·) (Nat.one_mul _).symm)
      · exact cycle
    have next : (ClockedObject.mk (o.tick + clockPeriod) (o.cycle + 1)).nextEdge curTick clockPeriod =
        o.nextEdge curTick clockPeriod := by
      rw [ClockedObject.nextEdge, fast]
      exact Edge.align_forward positive 1 one
    rw [ClockedObject.update, if_neg done]
    dsimp only
    by_cases reached : o.tick + clockPeriod ≥ curTick
    · rw [if_pos reached, ← next]
      exact (Edge.align_of_ahead (BitVec.le_def.mp reached)).symm
    · have still : (o.tick + clockPeriod).toNat < curTick.toNat :=
        BitVec.lt_def.mp (BitVec.not_le.mp reached)
      rw [if_neg reached, ← next]
      exact divided_edge positive still (by omega) ⟨next ▸ fits.tick, next ▸ fits.cycle⟩

end Exact

end GemFi.ClockedObjects
