import GemFi.ClockedObjects
import Mathlib.Logic.Function.Basic

/-!
Clock domains, in sim/clock_domain.hh and sim/clock_domain.cc: source domains, whose period
is set, and the domains derived from them by dividers. A domain aligns its members to the
current tick before it takes a new period, and then informs the domains derived from it.
-/

namespace GemFi.ClockDomains

open ClockEdges ClockedObjects

variable {Object Domain : Type}

inductive DerivedClockDomain (Object Domain : Type) where
  | mk (id : Domain) (clockDivider : BitVec 64) (members : List Object)
      (children : List (DerivedClockDomain Object Domain))

structure SrcClockDomain (Object Domain : Type) where
  id : Domain
  members : List Object
  children : List (DerivedClockDomain Object Domain)

/-- What `registerWithClockDomain` leaves: each object is a member of its domain, once. -/
structure Registered (clockDomain : Object → Domain) (id : Domain) (members : List Object) :
    Prop where
  once : members.Nodup
  member : ∀ o, o ∈ members ↔ clockDomain o = id

mutual

def DerivedClockDomain.Built (clockDomain : Object → Domain) :
    DerivedClockDomain Object Domain → Prop
  | .mk id clockDivider members children =>
      Registered clockDomain id members ∧ 1 ≤ clockDivider.toNat ∧ AllBuilt clockDomain children

def AllBuilt (clockDomain : Object → Domain) : List (DerivedClockDomain Object Domain) → Prop
  | [] => True
  | child :: rest => child.Built clockDomain ∧ AllBuilt clockDomain rest

end

structure ClockSystem (Object Domain : Type) where
  sources : List (SrcClockDomain Object Domain)
  clockDomain : Object → Domain
  registered : ∀ source ∈ sources, Registered clockDomain source.id source.members
  built : ∀ source ∈ sources, AllBuilt clockDomain source.children

structure ClockState (Object Domain : Type) where
  curTick : Tick
  period : Domain → Tick
  objects : Object → ClockedObject

namespace ClockSystem

variable (sys : ClockSystem Object Domain) (s : ClockState Object Domain)

/-- `ClockedObject::clockPeriod`: the period of the domain. -/
def clockPeriod (o : Object) : Tick := s.period (sys.clockDomain o)

def clockEdge (o : Object) (cycles : BitVec 64) : Tick :=
  -- the value of `clockEdge`
  ((s.objects o).clockEdge s.curTick (sys.clockPeriod s o) cycles).2

def curCycle (o : Object) : BitVec 64 :=
  -- the value of `curCycle`
  ((s.objects o).curCycle s.curTick (sys.clockPeriod s o)).2

def edge (o : Object) : Edge := (s.objects o).nextEdge s.curTick (sys.clockPeriod s o)

def Fits (o : Object) : Prop := (s.objects o).Fits s.curTick (sys.clockPeriod s o)

end ClockSystem

def ClockState.Positive (s : ClockState Object Domain) : Prop := ∀ domain, 0 < (s.period domain).toNat

structure SameEdges (sys : ClockSystem Object Domain) (s t : ClockState Object Domain) : Prop where
  curTick : t.curTick = s.curTick
  positive : t.Positive
  edge : ∀ o, sys.edge t o = sys.edge s o

def Aligned (s : ClockState Object Domain) (o : Object) : Prop := (s.objects o).tick ≥ s.curTick

section Members

variable {sys : ClockSystem Object Domain} {s t u : ClockState Object Domain} {o : Object}

theorem SameEdges.trans (first : SameEdges sys s t) (second : SameEdges sys t u) :
    SameEdges sys s u where
  curTick := second.curTick.trans first.curTick
  positive := second.positive
  edge o := (second.edge o).trans (first.edge o)

theorem SameEdges.fits (same : SameEdges sys s t) (fits : sys.Fits s o) : sys.Fits t o where
  tick := (congrArg Edge.tick (same.edge o)).trans_lt fits.tick
  cycle := (congrArg Edge.cycle (same.edge o)).trans_lt fits.cycle

theorem edge_of_aligned (aligned : Aligned s o) : sys.edge s o = (s.objects o).edge :=
  Edge.align_of_ahead (BitVec.le_def.mp aligned)

variable [DecidableEq Object]

def ClockState.setObject (s : ClockState Object Domain) (o : Object) (value : ClockedObject) :
    ClockState Object Domain := { s with objects := Function.update s.objects o value }

namespace ClockSystem

variable (sys : ClockSystem Object Domain) (s : ClockState Object Domain)

/-- `ClockedObject::updateClockPeriod`, which is `update`. -/
def update (o : Object) : ClockState Object Domain :=
  s.setObject o ((s.objects o).update s.curTick (sys.clockPeriod s o))

def alignMembers (members : List Object) : ClockState Object Domain := members.foldl sys.update s

end ClockSystem

theorem update_objects (positive : s.Positive) (fits : sys.Fits s o) :
    ((sys.update s o).objects o).edge = sys.edge s o := by
  show (Function.update s.objects o _ o).edge = _
  rw [Function.update_self]
  exact update_edge (positive _) fits

theorem aligned_update (positive : s.Positive) (fits : sys.Fits s o) :
    Aligned (sys.update s o) o := by
  show s.curTick.toNat ≤ ((sys.update s o).objects o).edge.tick
  rw [update_objects positive fits]
  exact Edge.align_ahead (positive _)

theorem sameEdges_update (positive : s.Positive) (fits : sys.Fits s o) :
    SameEdges sys s (sys.update s o) where
  curTick := rfl
  positive := positive
  edge other := by
    by_cases same : other = o
    · subst same
      rw [edge_of_aligned (aligned_update positive fits), update_objects positive fits]
    · show ((Function.update s.objects o _ other)).nextEdge _ _ = _
      rw [Function.update_of_ne same]
      rfl

theorem Aligned.update {other : Object} (aligned : Aligned s other) :
    Aligned (sys.update s o) other := by
  show (Function.update s.objects o _ other).tick ≥ _
  by_cases same : other = o
  · subst same
    rw [Function.update_self, ClockedObject.update_of_ahead aligned]
    exact aligned
  · rw [Function.update_of_ne same]
    exact aligned

theorem alignMembers_keeps (members : List Object) (positive : s.Positive)
    (fits : ∀ o ∈ members, sys.Fits s o) :
    SameEdges sys s (sys.alignMembers s members) ∧
      (∀ o, o ∈ members ∨ Aligned s o → Aligned (sys.alignMembers s members) o) := by
  induction members generalizing s with
  | nil =>
      refine ⟨⟨rfl, positive, fun _ => rfl⟩, ?_⟩
      rintro o (absent | aligned)
      · simp at absent
      · exact aligned
  | cons head rest ih =>
      have first := sameEdges_update positive (fits head List.mem_cons_self)
      obtain ⟨later, aligned⟩ := ih first.positive
        fun o member => first.fits (fits o (List.mem_cons_of_mem head member))
      refine ⟨first.trans later, ?_⟩
      rintro o (member | before)
      · rcases List.mem_cons.mp member with rfl | member
        · exact aligned o (Or.inr (aligned_update positive (fits o List.mem_cons_self)))
        · exact aligned o (Or.inl member)
      · exact aligned o (Or.inr before.update)

@[simp] theorem alignMembers_period (members : List Object) :
    (sys.alignMembers s members).period = s.period := by
  induction members generalizing s with
  | nil => rfl
  | cons head rest ih => exact ih

end Members

variable [DecidableEq Domain]

def ClockState.setPeriod (s : ClockState Object Domain) (domain : Domain) (period : Tick) :
    ClockState Object Domain := { s with period := Function.update s.period domain period }

theorem sameEdges_setPeriod {sys : ClockSystem Object Domain} {s : ClockState Object Domain}
    {domain : Domain} {period : Tick} (positive : s.Positive)
    (valid : 0 < period.toNat) (aligned : ∀ o, sys.clockDomain o = domain → Aligned s o) :
    SameEdges sys s (s.setPeriod domain period) where
  curTick := rfl
  positive other := by
    show 0 < (Function.update s.period domain period other).toNat
    by_cases same : other = domain
    · rw [same, Function.update_self]
      exact valid
    · rw [Function.update_of_ne same]
      exact positive other
  edge o := by
    by_cases same : sys.clockDomain o = domain
    · have here : Aligned (s.setPeriod domain period) o := aligned o same
      rw [edge_of_aligned here, edge_of_aligned (aligned o same)]
      rfl
    · show (s.objects o).nextEdge s.curTick (Function.update s.period domain period _) = _
      rw [Function.update_of_ne same]
      rfl

variable [DecidableEq Object]

namespace ClockSystem

variable (sys : ClockSystem Object Domain) (s : ClockState Object Domain)

/-- `DerivedClockDomain::updateClockPeriod` up to the loop over the children. -/
def deriveClock (parent id : Domain) (clockDivider : BitVec 64) (members : List Object) :
    ClockState Object Domain :=
  let s := sys.alignMembers s members
  s.setPeriod id (s.period parent * clockDivider)

end ClockSystem

mutual

/-- `DerivedClockDomain::updateClockPeriod`. -/
def DerivedClockDomain.updateClockPeriod (sys : ClockSystem Object Domain) (parent : Domain) :
    DerivedClockDomain Object Domain → ClockState Object Domain → ClockState Object Domain
  | .mk id clockDivider members children, s =>
      updateChildren sys id children (sys.deriveClock s parent id clockDivider members)

def updateChildren (sys : ClockSystem Object Domain) (parent : Domain) :
    List (DerivedClockDomain Object Domain) → ClockState Object Domain → ClockState Object Domain
  | [], s => s
  | child :: rest, s => updateChildren sys parent rest (child.updateClockPeriod sys parent s)

end

namespace ClockSystem

variable (sys : ClockSystem Object Domain) (s : ClockState Object Domain)

/-- `SrcClockDomain::clockPeriod` up to the loop over the children. -/
def setClock (source : SrcClockDomain Object Domain) (clock_period : Tick) :
    ClockState Object Domain :=
  (sys.alignMembers s source.members).setPeriod source.id clock_period

/-- `SrcClockDomain::clockPeriod`, which is fatal at a period of zero. -/
def srcClockPeriod (source : SrcClockDomain Object Domain) (clock_period : Tick) :
    Option (ClockState Object Domain) :=
  if clock_period = 0 then none
  else some (updateChildren sys source.id source.children (sys.setClock s source clock_period))

end ClockSystem

mutual

def DerivedClockDomain.Fits (sys : ClockSystem Object Domain) (parent : Domain) :
    DerivedClockDomain Object Domain → ClockState Object Domain → Prop
  | .mk id clockDivider members children, s =>
      (∀ o ∈ members, sys.Fits s o) ∧ (s.period parent).toNat * clockDivider.toNat < 2 ^ 64 ∧
        AllFit sys id children (sys.deriveClock s parent id clockDivider members)

def AllFit (sys : ClockSystem Object Domain) (parent : Domain) :
    List (DerivedClockDomain Object Domain) → ClockState Object Domain → Prop
  | [], _ => True
  | child :: rest, s =>
      child.Fits sys parent s ∧ AllFit sys parent rest (child.updateClockPeriod sys parent s)

end

section Alignment

variable {sys : ClockSystem Object Domain} {s t : ClockState Object Domain}

theorem sameEdges_align_setPeriod {id : Domain} {members : List Object} {period : Tick}
    (registered : Registered sys.clockDomain id members) (positive : s.Positive)
    (fits : ∀ o ∈ members, sys.Fits s o) (valid : 0 < period.toNat) :
    SameEdges sys s ((sys.alignMembers s members).setPeriod id period) := by
  obtain ⟨kept, aligned⟩ := alignMembers_keeps members positive fits
  apply kept.trans (sameEdges_setPeriod kept.positive valid _)
  intro o belongs
  exact aligned o (Or.inl ((registered.member o).mpr belongs))

mutual

theorem DerivedClockDomain.sameEdges {parent : Domain} {s : ClockState Object Domain}
    (domain : DerivedClockDomain Object Domain) (built : domain.Built sys.clockDomain)
    (positive : s.Positive) (fits : domain.Fits sys parent s) :
    SameEdges sys s (domain.updateClockPeriod sys parent s) := by
  cases domain with
  | mk id clockDivider members children =>
      obtain ⟨registered, divider, below⟩ := built
      obtain ⟨membersFit, product, rest⟩ := fits
      have valid : 0 < (s.period parent * clockDivider).toNat := by
        rw [BitVec.toNat_mul, Nat.mod_eq_of_lt product]
        exact Nat.mul_pos (positive parent) divider
      have here : SameEdges sys s (sys.deriveClock s parent id clockDivider members) := by
        rw [ClockSystem.deriveClock, alignMembers_period]
        exact sameEdges_align_setPeriod registered positive membersFit valid
      exact here.trans (sameEdges_children children below here.positive rest)

theorem sameEdges_children {parent : Domain} {s : ClockState Object Domain}
    (children : List (DerivedClockDomain Object Domain))
    (built : AllBuilt sys.clockDomain children) (positive : s.Positive)
    (fits : AllFit sys parent children s) :
    SameEdges sys s (updateChildren sys parent children s) := by
  cases children with
  | nil => exact ⟨rfl, positive, fun _ => rfl⟩
  | cons child rest =>
      have first := child.sameEdges built.1 positive fits.1
      exact first.trans (sameEdges_children rest built.2 first.positive fits.2)

end

theorem sameEdges_srcClockPeriod {source : SrcClockDomain Object Domain} {clock_period : Tick}
    (member : source ∈ sys.sources) (positive : s.Positive)
    (fits : ∀ o ∈ source.members, sys.Fits s o)
    (below : AllFit sys source.id source.children (sys.setClock s source clock_period))
    (changed : sys.srcClockPeriod s source clock_period = some t) : SameEdges sys s t := by
  unfold ClockSystem.srcClockPeriod at changed
  split at changed
  · simp at changed
  · next nonzero =>
      obtain rfl := Option.some.inj changed
      have valid : 0 < clock_period.toNat :=
        Nat.pos_of_ne_zero fun zero => nonzero (BitVec.eq_of_toNat_eq zero)
      have here : SameEdges sys s (sys.setClock s source clock_period) :=
        sameEdges_align_setPeriod (sys.registered source member) positive fits valid
      exact here.trans
        (sameEdges_children source.children (sys.built source member) here.positive below)

end Alignment

end GemFi.ClockDomains
