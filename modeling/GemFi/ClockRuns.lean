import GemFi.ClockDomains
import GemFi.Transitions

/-!
What clocked objects see of their clock, over runs of calls and changes of periods as the
simulation goes forward. One step moves every next edge to the time reached, by periods of
the clock before the step, and the edges of a whole run follow from that.
-/

namespace GemFi.ClockRuns

open ClockEdges ClockedObjects ClockDomains Transitions

variable {Object Domain : Type} {sys : ClockSystem Object Domain} {s t : ClockState Object Domain}
  {o : Object}

section Calls

theorem clockEdge_toNat (positive : s.Positive) (fits : sys.Fits s o) (cycles : BitVec 64)
    (room : (sys.edge s o).tick + cycles.toNat * (sys.clockPeriod s o).toNat < 2 ^ 64) :
    (sys.clockEdge s o cycles).toNat =
      (sys.edge s o).tick + cycles.toNat * (sys.clockPeriod s o).toNat := by
  have base : ((s.objects o).update s.curTick (sys.clockPeriod s o)).tick.toNat =
      (sys.edge s o).tick := congrArg Edge.tick (update_edge (positive _) fits)
  have product : (sys.clockPeriod s o * cycles).toNat =
      cycles.toNat * (sys.clockPeriod s o).toNat := by
    rw [BitVec.toNat_mul, Nat.mul_comm, Nat.mod_eq_of_lt (by omega)]
  show (_ + _ : Tick).toNat = _
  rw [BitVec.toNat_add, base, product, Nat.mod_eq_of_lt room]

theorem clockEdge_zero (positive : s.Positive) (fits : sys.Fits s o) :
    (sys.clockEdge s o 0).toNat = (sys.edge s o).tick := by
  have whole := clockEdge_toNat positive fits 0 (by simpa using show (sys.edge s o).tick < 2 ^ 64 from fits.tick)
  simpa using whole

theorem curCycle_toNat (positive : s.Positive) (fits : sys.Fits s o) :
    (sys.curCycle s o).toNat = (sys.edge s o).cycle :=
  congrArg Edge.cycle (update_edge (positive _) fits)

end Calls

section Moves

structure Moved (sys : ClockSystem Object Domain) (s t : ClockState Object Domain) : Prop where
  curTick : s.curTick ≤ t.curTick
  positive : t.Positive
  edge : ∀ o, sys.edge t o = (sys.edge s o).align (sys.clockPeriod s o).toNat t.curTick.toNat

theorem moved_of_sameEdges (positive : s.Positive) (same : SameEdges sys s t) : Moved sys s t where
  curTick := BitVec.le_of_eq same.curTick.symm
  positive := same.positive
  edge o := by
    rw [same.curTick, same.edge o]
    exact (Edge.align_of_ahead (Edge.align_ahead (positive _))).symm

theorem moved_elapse {tick : Tick} (positive : s.Positive) (order : s.curTick ≤ tick) :
    Moved sys s { s with curTick := tick } where
  curTick := order
  positive := positive
  edge _ := (Edge.align_align (positive _) (BitVec.le_def.mp order)).symm

structure Forward (sys : ClockSystem Object Domain) (s t : ClockState Object Domain) : Prop where
  curTick : s.curTick ≤ t.curTick
  positive : t.Positive
  tick : ∀ o, (sys.edge s o).tick ≤ (sys.edge t o).tick
  cycle : ∀ o, (sys.edge s o).cycle ≤ (sys.edge t o).cycle

theorem Moved.forward (moved : Moved sys s t) : Forward sys s t where
  curTick := moved.curTick
  positive := moved.positive
  tick o := (congrArg Edge.tick (moved.edge o)) ▸ Nat.le_add_right _ _
  cycle o := (congrArg Edge.cycle (moved.edge o)) ▸ Nat.le_add_right _ _

end Moves

variable [DecidableEq Object] [DecidableEq Domain]

inductive ClockOp (Object : Type) where
  | elapse (tick : Tick)
  | update (o : Object)
  | clockEdge (o : Object) (cycles : BitVec 64)
  | curCycle (o : Object)
  | clockPeriod (source : Nat) (clock_period : Tick)

def step (sys : ClockSystem Object Domain) (s : ClockState Object Domain) :
    ClockOp Object → Option (ClockState Object Domain)
  -- the event queue does not go back in time
  | .elapse tick => if s.curTick ≤ tick then some { s with curTick := tick } else none
  | .update o => some (sys.update s o)
  | .clockEdge o cycles =>
      some (s.setObject o ((s.objects o).clockEdge s.curTick (sys.clockPeriod s o) cycles).1)
  | .curCycle o => some (s.setObject o ((s.objects o).curCycle s.curTick (sys.clockPeriod s o)).1)
  | .clockPeriod source clock_period =>
      sys.sources[source]?.bind fun source => sys.srcClockPeriod s source clock_period

def NoOverflow (sys : ClockSystem Object Domain) (s : ClockState Object Domain) :
    ClockOp Object → Prop
  | .elapse _ => True
  | .update o | .clockEdge o _ | .curCycle o => sys.Fits s o
  | .clockPeriod source clock_period =>
      ∀ found ∈ sys.sources[source]?, (∀ o ∈ found.members, sys.Fits s o) ∧
        AllFit sys found.id found.children (sys.setClock s found clock_period)

section Runs

theorem step_moved (s : ClockState Object Domain) (op : ClockOp Object)
    (t : ClockState Object Domain) (positive : s.Positive) (fits : NoOverflow sys s op)
    (stepped : step sys s op = some t) : Moved sys s t := by
  cases op with
  | elapse tick =>
      rw [step] at stepped
      split at stepped
      · next order =>
          obtain rfl := Option.some.inj stepped
          exact moved_elapse positive order
      · simp at stepped
  | update o =>
      obtain rfl := Option.some.inj stepped
      exact moved_of_sameEdges positive (sameEdges_update positive fits)
  | clockEdge o cycles =>
      obtain rfl := Option.some.inj stepped
      exact moved_of_sameEdges positive (sameEdges_update positive fits)
  | curCycle o =>
      obtain rfl := Option.some.inj stepped
      exact moved_of_sameEdges positive (sameEdges_update positive fits)
  | clockPeriod source clock_period =>
      obtain ⟨found, listed, changed⟩ := Option.bind_eq_some_iff.mp stepped
      obtain ⟨members, below⟩ := fits found listed
      exact moved_of_sameEdges positive
        (sameEdges_srcClockPeriod (List.mem_of_getElem? listed) positive members below changed)

theorem run_forward (actions : List (ClockOp Object)) (s : ClockState Object Domain)
    (positive : s.Positive) (noOverflow : Admissible (step sys) (NoOverflow sys) actions s)
    (ran : run (step sys) actions s = some t) : Forward sys s t := by
  have keeps : ∀ here op next, Forward sys s here → NoOverflow sys here op →
      step sys here op = some next → Forward sys s next := by
    intro here op next so fits stepped
    have further := (step_moved here op next so.positive fits stepped).forward
    exact ⟨BitVec.le_trans so.curTick further.curTick, further.positive,
      fun o => (so.tick o).trans (further.tick o), fun o => (so.cycle o).trans (further.cycle o)⟩
  have refl : Forward sys s s :=
    ⟨BitVec.le_refl _, positive, fun _ => Nat.le_refl _, fun _ => Nat.le_refl _⟩
  exact run_preserves keeps actions s t refl noOverflow.eachStep ran

theorem run_constant {period : Tick} (actions : List (ClockOp Object))
    (s : ClockState Object Domain) (positive : s.Positive)
    (noOverflow : Admissible (step sys) (NoOverflow sys) actions s)
    (constant : Always (step sys) (fun x => sys.clockPeriod x o = period) actions s)
    (ran : run (step sys) actions s = some t) :
    sys.edge t o = (sys.edge s o).align period.toNat t.curTick.toNat := by
  induction actions generalizing s with
  | nil =>
      obtain rfl := Option.some.inj ran
      have here := (always_nil_iff _ s).mp constant
      rw [← here]
      exact (Edge.align_of_ahead (Edge.align_ahead (positive _))).symm
  | cons op rest ih =>
      obtain ⟨next, stepped, later⟩ := Option.bind_eq_some_iff.mp ran
      obtain ⟨fits, admissible⟩ := noOverflow.cons
      obtain ⟨here, after⟩ := (always_cons_iff _ op rest s).mp constant
      have moved := step_moved s op next positive fits stepped
      have order := (run_forward rest next moved.positive (admissible next stepped) later).curTick
      rw [ih next moved.positive (admissible next stepped) (after next stepped) later,
        moved.edge o, here]
      exact Edge.align_align (here ▸ positive _) (BitVec.le_def.mp order)

end Runs

section Edges

/-- Edges and cycles over a run of calls, also when periods change on the way. -/
theorem clock_edges {start : ClockState Object Domain} {before between : List (ClockOp Object)}
    (positive : start.Positive)
    (noOverflow : Admissible (step sys) (NoOverflow sys) (before ++ between) start)
    (first : run (step sys) before start = some s) (second : run (step sys) between s = some t)
    (fits : sys.Fits s o) (laterFits : sys.Fits t o) :
    s.curTick ≤ sys.clockEdge s o 0 ∧ sys.clockEdge s o 0 ≤ sys.clockEdge t o 0 ∧
      sys.curCycle s o ≤ sys.curCycle t o ∧
      (∀ period, Always (step sys) (fun x => sys.clockPeriod x o = period) between s →
        (sys.clockEdge t o 0).toNat = (sys.clockEdge s o 0).toNat +
          ((sys.curCycle t o).toNat - (sys.curCycle s o).toNat) * period.toNat) ∧
      (∀ period cycles, start.objects o = ⟨0, 0⟩ →
        Always (step sys) (fun x => sys.clockPeriod x o = period) before start →
        (sys.clockEdge s o 0).toNat + cycles.toNat * period.toNat < 2 ^ 64 →
          ∃ least, IsLeast {tick | period.toNat ∣ tick ∧ s.curTick.toNat ≤ tick} least ∧
            (sys.clockEdge s o cycles).toNat = least + cycles.toNat * period.toNat) := by
  have here := run_forward before start positive noOverflow.initial first
  have rest := noOverflow.later first
  have there := run_forward between s here.positive rest second
  have edge := clockEdge_zero here.positive fits
  have laterEdge := clockEdge_zero there.positive laterFits
  have cycle := curCycle_toNat here.positive fits
  have laterCycle := curCycle_toNat there.positive laterFits
  refine ⟨?_, ?_, ?_, ?_, ?_⟩
  · rw [BitVec.le_def, edge]
    exact Edge.align_ahead (here.positive _)
  · rw [BitVec.le_def, edge, laterEdge]
    exact there.tick o
  · rw [BitVec.le_def, cycle, laterCycle]
    exact there.cycle o
  · intro period constant
    rw [edge, laterEdge, cycle, laterCycle]
    exact Edge.forward_cycle (run_constant between s here.positive rest constant second)
  · intro period cycles initial constant room
    have same : sys.clockPeriod s o = period := constant before [] s (List.append_nil _).symm first
    have atStart : sys.clockPeriod start o = period := constant [] before start rfl rfl
    have aligned : sys.edge s o = (Edge.mk 0 0).align period.toNat s.curTick.toNat := by
      have atFirst : sys.edge start o = (Edge.mk 0 0).align period.toNat start.curTick.toNat := by
        rw [ClockSystem.edge, initial, atStart]
        rfl
      rw [run_constant before start positive noOverflow.initial constant first, atFirst]
      exact Edge.align_align (atStart ▸ positive _) (BitVec.le_def.mp here.curTick)
    refine ⟨(sys.edge s o).tick, ?_, ?_⟩
    · rw [aligned]
      exact Edge.align_start_isLeast (same ▸ here.positive _)
    · rw [clockEdge_toNat here.positive fits cycles (by rw [same, ← edge]; exact room), same]

def halvedClock : ClockSystem Bool Bool where
  sources := [⟨false, [false], [.mk true 2 [true] []]⟩]
  clockDomain := id
  registered source member := by
    obtain rfl := List.mem_singleton.mp member
    exact ⟨by decide, by decide⟩
  built source member := by
    obtain rfl := List.mem_singleton.mp member
    exact ⟨⟨⟨by decide, by decide⟩, by decide, trivial⟩, trivial⟩

def halvedStart : ClockState Bool Bool where
  curTick := 0
  period domain := if domain then 6 else 3
  objects _ := ⟨0, 0⟩

theorem edges_of_halved_clock :
    ∃ s t : ClockState Bool Bool,
      run (step halvedClock) [.elapse 7, .clockEdge true 0, .curCycle false] halvedStart = some s ∧
      run (step halvedClock) [.clockPeriod 0 5, .elapse 31, .update true] s = some t ∧
      s.curTick ≤ halvedClock.clockEdge s true 0 ∧
      halvedClock.clockEdge s true 0 ≤ halvedClock.clockEdge t true 0 ∧
      ∃ least, IsLeast {tick | 6 ∣ tick ∧ 7 ≤ tick} least ∧
        (halvedClock.clockEdge s true 3).toNat = least + 18 := by
  refine ⟨_, _, rfl, rfl, ?_⟩
  have noOverflow : Admissible (step halvedClock) (NoOverflow halvedClock)
      ([.elapse 7, .clockEdge true 0, .curCycle false] ++
        [.clockPeriod 0 5, .elapse 31, .update true]) halvedStart := by
    refine .onward trivial rfl (.onward ⟨by decide, by decide⟩ rfl (.onward ⟨by decide, by decide⟩ rfl ?_))
    refine .onward ?_ rfl (.onward trivial rfl (.onward ⟨by decide, by decide⟩ rfl (admissible_nil _ _)))
    -- the change goes through the source and then through the derived domain
    rintro _ ⟨⟩
    refine ⟨?_, ⟨?_, by decide, trivial⟩, trivial⟩
    · rintro _ (_ | ⟨_, ⟨⟩⟩)
      exact ⟨by decide, by decide⟩
    · rintro _ (_ | ⟨_, ⟨⟩⟩)
      exact ⟨by decide, by decide⟩
  have edges := clock_edges (o := true) (fun domain => by cases domain <;> decide) noOverflow rfl rfl
    ⟨by decide, by decide⟩ ⟨by decide, by decide⟩
  obtain ⟨ahead, order, _, _, least⟩ := edges
  refine ⟨ahead, order, least 6 3 rfl ?_ (by decide)⟩
  exact .onward rfl rfl (.onward rfl rfl (.onward rfl rfl ((always_nil_iff _ _).mpr rfl)))

end Edges

end GemFi.ClockRuns
