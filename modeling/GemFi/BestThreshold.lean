import Mathlib.Data.List.Dedup
import Mathlib.Data.Rat.Floor
import GemFi.PrecisionRecall

/-!
The thresholds of calc_pr_seq.m and the labels of get_best_discrete_label.m. Of the
samples with the same score only the first in the ranked ones is counted, and the labels
are 1 above the threshold, not at it.
-/

namespace GemFi.BestThreshold

open PrecisionRecall Rankings

/-- `round`, which takes a half away from zero. -/
def roundAway (x : ℚ) : ℚ := if 0 ≤ x then ⌊x + 1 / 2⌋ else ⌈x - 1 / 2⌉

def scale (n : ℚ) (s : Sample) : Sample := { s with pred := roundAway (s.pred * n) }

def unique (pred : List ℚ) : List ℚ × List Nat :=
  -- the values of `unique(pred)`, and the index of the first occurrence of each
  let values := pred.dedup.mergeSort fun a b => decide (a ≤ b)
  (values, values.map fun v => pred.idxOf v)

/-- `vec(idx)`. -/
def pick {α : Type} (vec : List α) (idx : List Nat) (default : α) : List α :=
  idx.map fun i => vec.getD i default

structure SeqCurves where
  prec : List ℚ
  recalls : List ℚ
  fpr : List ℚ
  thresh : List ℚ

/-- The curves from the vectors at the indices of `unique`. -/
def curvesAt (scaled : List Sample) (n : ℚ) (idx : List Nat) : SeqCurves where
  prec := List.zipWith (fun tp fp : Nat => (tp : ℚ) / (fp + tp))
    (pick (cumsum 0 (tp scaled)) idx 0) (pick (cumsum 0 (fp scaled)) idx 0)
  recalls := (pick (cumsum 0 (tp scaled)) idx 0).map fun tp : Nat => (tp : ℚ) / positives scaled
  fpr := (pick (cumsum 0 (fp scaled)) idx 0).map fun fp : Nat => (fp : ℚ) / negatives scaled
  thresh := (pick ((ranked scaled).map fun s => s.pred) idx 0).map (· / n)

/-- `calc_pr_seq` with a third argument. -/
def calcPrSeqWith (samples : List Sample) (n : ℚ) : SeqCurves :=
  let scaled := samples.map (scale n)
  curvesAt scaled n (unique ((ranked scaled).map fun s => s.pred)).2

/-- `min( pred(pred~=0) )`, which is empty when all scores are zero. -/
def minVal (samples : List Sample) : Option ℚ :=
  ((samples.map fun s => s.pred).filter fun x => x ≠ 0).min?

/-- `calc_pr_seq`. -/
def calcPrSeq (samples : List Sample) : Option SeqCurves :=
  (minVal samples).map fun m => calcPrSeqWith samples (1 / m)

def maxIdx (xs : List ℚ) : Nat := xs.idxOf (xs.max?.getD 0)

def discretise (threshold x : ℚ) : ℚ :=
  -- an entry of `max_f1_result` after the two assignments
  let x' := if x > threshold then 1 else x
  if x' ≤ threshold then 0 else x'

/-- `get_best_discrete_label`. With 'mcc' it reads `max_mcc_result`, which is only assigned to in
a comment. -/
def getBestDiscreteLabel (samples : List Sample) (predLabelType : String) :
    Option (List ℚ × ℚ) :=
  (calcPrSeq samples).bind fun c =>
    let threshold := c.thresh.getD (maxIdx (List.zipWith fscore c.prec c.recalls)) 0
    if predLabelType = "f1" then
      some (samples.map fun s => discretise threshold s.pred, threshold)
    else none

def labelled (samples : List Sample) (labels : List ℚ) : List Sample :=
  ((samples.zip labels).filter fun pair => pair.2 = 1).map Prod.fst

def fallout (samples chosen : List Sample) : ℚ := (negatives chosen : ℚ) / negatives samples

structure PointsRight (samples : List Sample) (c : SeqCurves) : Prop where
  prec : c.prec = c.thresh.map fun t => precision (atLeast t samples)
  recalls : c.recalls = c.thresh.map fun t => recallOf samples (atLeast t samples)
  fpr : c.fpr = c.thresh.map fun t => fallout samples (atLeast t samples)

structure IsBest (samples : List Sample) (score : ℚ) : Prop where
  attained : ∃ t, score = f1 samples (atLeast t samples)
  largest : ∀ t, f1 samples (atLeast t samples) ≤ score

/-- The points of calc_pr_seq are right, and the labels of get_best_discrete_label are the
best. -/
structure Agrees (samples : List Sample) : Prop where
  points : ∃ c, calcPrSeq samples = some c ∧ PointsRight samples c
  labels : ∃ labels threshold, getBestDiscreteLabel samples "f1" = some (labels, threshold) ∧
    IsBest samples (f1 samples (labelled samples labels))

/-- The scores are left as they are by the scaling and the rounding. -/
def Unchanged (samples : List Sample) : Prop :=
  ∃ m, minVal samples = some m ∧
    ∀ s ∈ samples, roundAway (s.pred * (1 / m)) = s.pred * (1 / m)

section FirstOccurrences

variable {samples : List Sample} {v : ℚ}

def firstOf (v : ℚ) (samples : List Sample) : List Sample :=
  (ranked samples).take (((ranked samples).map fun s => s.pred).idxOf v + 1)

theorem take_idxOf {items : List Sample} (descends : items.Pairwise fun a b => b.pred ≤ a.pred)
    (member : v ∈ items.map fun s => s.pred) :
    ∃ s ∈ items, s.pred = v ∧
      items.take ((items.map fun s => s.pred).idxOf v + 1) = above v items ++ [s] := by
  induction items with
  | nil => exact (List.not_mem_nil member).elim
  | cons a rest ih =>
      obtain ⟨behind, descendsRest⟩ := List.pairwise_cons.mp descends
      by_cases here : a.pred = v
      · refine ⟨a, List.mem_cons_self, here, ?_⟩
        have nothing : above v (a :: rest) = [] := by
          rw [above, List.filter_eq_nil_iff]
          intro s member higher
          have beyond : v < s.pred := of_decide_eq_true higher
          rcases List.mem_cons.mp member with rfl | later
          · exact beyond.ne here.symm
          · exact absurd beyond (not_lt.mpr (here ▸ behind s later))
        rw [nothing, List.map_cons, here, List.idxOf_cons_self]
        rfl
      · have inRest : v ∈ rest.map fun s => s.pred :=
          (List.mem_cons.mp member).resolve_left fun same => here same.symm
        obtain ⟨s, sMember, isFirst, split⟩ := ih descendsRest inRest
        refine ⟨s, List.mem_cons_of_mem _ sMember, isFirst, ?_⟩
        have beyond : v < a.pred :=
          lt_of_le_of_ne (isFirst ▸ behind s sMember) fun same => here same.symm
        have kept : above v (a :: rest) = a :: above v rest :=
          List.filter_cons_of_pos (decide_eq_true beyond)
        rw [List.map_cons, List.idxOf_cons_ne _ here, List.take_succ_cons, split, kept]
        rfl

theorem firstOf_eq (member : v ∈ samples.map fun s => s.pred) :
    ∃ s ∈ samples, s.pred = v ∧ firstOf v samples = above v (ranked samples) ++ [s] := by
  have inRanked : v ∈ (ranked samples).map fun s => s.pred :=
    ((ranked_perm samples).map _).mem_iff.mpr member
  obtain ⟨s, sMember, isFirst, split⟩ := take_idxOf (ranked_descends samples) inRanked
  exact ⟨s, (ranked_perm samples).mem_iff.mp sMember, isFirst, split⟩

theorem length_atLeast (v : ℚ) (items : List Sample) :
    (atLeast v items).length =
      (above v items).length + (items.map fun s => s.pred).count v := by
  induction items with
  | nil => rfl
  | cons a rest ih =>
      rw [atLeast, above] at ih ⊢
      rw [List.map_cons, List.count_cons]
      obtain lower | same | higher := lt_trichotomy a.pred v
      · simp [lower.not_ge, lower.not_gt, lower.ne, ih]
      · simp [same, ih, Nat.add_assoc]
      · simp [higher, higher.le, higher.ne', ih]
        omega

theorem firstOf_front (member : v ∈ samples.map fun s => s.pred) :
    firstOf v samples <+: atLeast v (ranked samples) := by
  obtain ⟨s, _, isFirst, split⟩ := firstOf_eq member
  have reach : atLeast v (firstOf v samples) = firstOf v samples := by
    rw [atLeast, List.filter_eq_self, split]
    intro other among
    apply decide_eq_true
    rcases List.mem_append.mp among with beyond | last
    · exact (of_decide_eq_true (List.mem_filter.mp beyond).2).le
    · rw [List.mem_singleton.mp last, isFirst]
  have isPrefix : firstOf v samples <+: ranked samples := List.take_prefix _ _
  rw [← reach]
  exact isPrefix.filter _

theorem length_firstOf (member : v ∈ samples.map fun s => s.pred) :
    (firstOf v samples).length = (above v (ranked samples)).length + 1 := by
  obtain ⟨s, _, _, split⟩ := firstOf_eq member
  rw [split, List.length_append, List.length_singleton]

theorem count_ranked (v : ℚ) (samples : List Sample) :
    ((ranked samples).map fun s => s.pred).count v = (samples.map fun s => s.pred).count v :=
  ((ranked_perm samples).map _).count_eq v

theorem atLeast_ranked (v : ℚ) (samples : List Sample) :
    (atLeast v (ranked samples)).Perm (atLeast v samples) :=
  (ranked_perm samples).filter _

theorem firstOf_perm_of_once (member : v ∈ samples.map fun s => s.pred)
    (once : (samples.map fun s => s.pred).count v = 1) :
    (firstOf v samples).Perm (atLeast v samples) := by
  have size := length_atLeast v (ranked samples)
  rw [count_ranked, once, ← length_firstOf member] at size
  rw [(firstOf_front member).eq_of_length size.symm]
  exact atLeast_ranked v samples

theorem eq_of_share_eq {a b total : Nat} (aBound : a ≤ total) (bBound : b ≤ total)
    (same : (a : ℚ) / total = (b : ℚ) / total) : a = b := by
  rcases Nat.eq_zero_or_pos total with none | some
  · omega
  · exact Nat.cast_injective ((div_left_inj' (Nat.cast_ne_zero.mpr some.ne')).mp same)

theorem countP_firstOf_le (p : Sample → Bool) (v : ℚ) (samples : List Sample) :
    (firstOf v samples).countP p ≤ samples.countP p :=
  (List.Sublist.countP_le (List.take_sublist _ _)).trans_eq ((ranked_perm samples).countP_eq p)

theorem countP_atLeast_le (p : Sample → Bool) (v : ℚ) (samples : List Sample) :
    (atLeast v samples).countP p ≤ samples.countP p :=
  List.Sublist.countP_le List.filter_sublist

theorem point_iff (member : v ∈ samples.map fun s => s.pred) :
    (recallOf samples (firstOf v samples) = recallOf samples (atLeast v samples) ∧
      fallout samples (firstOf v samples) = fallout samples (atLeast v samples)) ↔
      (samples.map fun s => s.pred).count v = 1 := by
  have perm := atLeast_ranked v samples
  have size := length_atLeast v (ranked samples)
  rw [count_ranked] at size
  have short := length_firstOf member
  constructor
  · rintro ⟨sameRecall, sameFallout⟩
    have hits : positives (firstOf v samples) = positives (atLeast v samples) :=
      eq_of_share_eq (countP_firstOf_le _ v samples) (countP_atLeast_le _ v samples) sameRecall
    have others : negatives (firstOf v samples) = negatives (atLeast v samples) :=
      eq_of_share_eq (countP_firstOf_le _ v samples) (countP_atLeast_le _ v samples) sameFallout
    have equal : (firstOf v samples).length = (atLeast v (ranked samples)).length := by
      rw [perm.length_eq, length_eq, length_eq, hits, others]
    omega
  · intro once
    have equal := firstOf_perm_of_once member once
    rw [recallOf, recallOf, fallout, fallout, positives_perm equal, negatives, negatives,
      equal.countP_eq]
    exact ⟨rfl, rfl⟩

end FirstOccurrences

section Points

variable {samples : List Sample} {n : ℚ}

theorem mem_unique_iff (pred : List ℚ) (v : ℚ) : v ∈ (unique pred).1 ↔ v ∈ pred := by
  unfold unique
  rw [List.mem_mergeSort, List.mem_dedup]

theorem pick_unique {α : Type} (vec : List α) (pred : List ℚ) (default : α) :
    pick vec (unique pred).2 default =
      (unique pred).1.map fun v => vec.getD (pred.idxOf v) default :=
  List.map_map

theorem getD_prefixes (counts : List Sample → Nat) {items : List Sample} {i : Nat}
    (inside : i < items.length) :
    (items.inits.tail.map counts).getD i 0 = counts (items.take (i + 1)) := by
  have long : i + 1 < items.inits.length := by
    rw [List.length_inits]
    omega
  rw [List.getD_eq_getElem?_getD, List.getElem?_map, List.getElem?_tail,
    List.getElem?_eq_getElem long, List.getElem_inits]
  rfl

theorem pick_prefixes (counts : List Sample → Nat) (samples : List Sample) :
    pick ((ranked samples).inits.tail.map counts)
      (unique ((ranked samples).map fun s => s.pred)).2 0 =
      (unique ((ranked samples).map fun s => s.pred)).1.map fun v => counts (firstOf v samples) := by
  rw [pick_unique]
  apply List.map_congr_left
  intro v member
  rw [mem_unique_iff, ← List.idxOf_lt_length_iff, List.length_map] at member
  exact getD_prefixes counts member

theorem pick_pred (pred : List ℚ) : pick pred (unique pred).2 0 = (unique pred).1 := by
  rw [pick_unique]
  conv_rhs => rw [← List.map_id (unique pred).1]
  apply List.map_congr_left
  intro v member
  rw [mem_unique_iff] at member
  rw [List.getD_eq_getElem?_getD, List.getElem?_idxOf member]
  rfl

def values (scaled : List Sample) : List ℚ := (unique ((ranked scaled).map fun s => s.pred)).1

theorem mem_values_iff (scaled : List Sample) (v : ℚ) :
    v ∈ values scaled ↔ v ∈ scaled.map fun s => s.pred := by
  rw [values, mem_unique_iff]
  exact ((ranked_perm scaled).map _).mem_iff

theorem curvesAt_eq (scaled : List Sample) (n : ℚ) :
    curvesAt scaled n (unique ((ranked scaled).map fun s => s.pred)).2 =
      { prec := (values scaled).map fun v => precision (firstOf v scaled)
        recalls := (values scaled).map fun v => recallOf scaled (firstOf v scaled)
        fpr := (values scaled).map fun v => fallout scaled (firstOf v scaled)
        thresh := (values scaled).map (· / n) } := by
  unfold curvesAt
  rw [cumsum_tp, cumsum_fp, pick_prefixes, pick_prefixes, pick_pred, List.zipWith_map,
    List.zipWith_self, List.map_map, List.map_map]
  rfl

end Points

section Scaling

variable {samples : List Sample} {n : ℚ}

theorem scaled_pred (unchanged : ∀ s ∈ samples, roundAway (s.pred * n) = s.pred * n) :
    (samples.map (scale n)).map (fun s => s.pred) =
      (samples.map fun s => s.pred).map fun x => x * n := by
  rw [List.map_map, List.map_map]
  exact List.map_congr_left unchanged

theorem atLeast_scaled (unchanged : ∀ s ∈ samples, roundAway (s.pred * n) = s.pred * n)
    (positive : 0 < n) (v : ℚ) :
    atLeast v (samples.map (scale n)) = (atLeast (v / n) samples).map (scale n) := by
  rw [atLeast, atLeast, List.filter_map]
  congr 1
  apply List.filter_congr
  intro s member
  rw [Function.comp_apply, decide_eq_decide, scale, unchanged s member]
  exact (div_le_iff₀ positive).symm

theorem countP_scale (p : Bool → Bool) (items : List Sample) :
    ((items.map (scale n)).countP fun s => p s.gt) = items.countP fun s => p s.gt := by
  rw [List.countP_map]
  rfl

theorem positives_scale (items : List Sample) : positives (items.map (scale n)) = positives items :=
  countP_scale id items

theorem negatives_scale (items : List Sample) : negatives (items.map (scale n)) = negatives items :=
  countP_scale (fun gt => !gt) items

theorem minVal_pos (range : ∀ s ∈ samples, 0 ≤ s.pred) {m : ℚ} (isMin : minVal samples = some m) :
    0 < m := by
  obtain ⟨member, _⟩ := List.min?_eq_some_iff.mp isMin
  obtain ⟨isPred, nonzero⟩ := List.mem_filter.mp member
  obtain ⟨s, sMember, rfl⟩ := List.mem_map.mp isPred
  exact lt_of_le_of_ne (range s sMember) (of_decide_eq_true nonzero).symm

theorem pointsRight_iff (unchanged : ∀ s ∈ samples, roundAway (s.pred * n) = s.pred * n)
    (positive : 0 < n) :
    PointsRight samples (calcPrSeqWith samples n) ↔ (samples.map fun s => s.pred).Nodup := by
  have isCurves := curvesAt_eq (samples.map (scale n)) n
  have distinct : ((samples.map (scale n)).map fun s => s.pred).Nodup ↔
      (samples.map fun s => s.pred).Nodup := by
    rw [scaled_pred unchanged]
    exact List.nodup_map_iff (mul_left_injective₀ positive.ne')
  have sameRecall : ∀ v, recallOf samples (atLeast (v / n) samples) =
      recallOf (samples.map (scale n)) (atLeast v (samples.map (scale n))) := by
    intro v
    rw [atLeast_scaled unchanged positive, recallOf, recallOf, positives_scale, positives_scale]
  have sameFallout : ∀ v, fallout samples (atLeast (v / n) samples) =
      fallout (samples.map (scale n)) (atLeast v (samples.map (scale n))) := by
    intro v
    rw [atLeast_scaled unchanged positive, fallout, fallout, negatives_scale, negatives_scale]
  have samePrecision : ∀ v, precision (atLeast (v / n) samples) =
      precision (atLeast v (samples.map (scale n))) := by
    intro v
    rw [atLeast_scaled unchanged positive, precision, precision, positives_scale, negatives_scale]
  rw [← distinct, List.nodup_iff_count_eq_one]
  unfold calcPrSeqWith
  dsimp only
  rw [isCurves]
  constructor
  · intro right v member
    have onRecall := right.recalls
    have onFallout := right.fpr
    dsimp only at onRecall onFallout
    rw [List.map_map, List.map_inj_left] at onRecall onFallout
    have isValue := (mem_values_iff _ v).mpr member
    refine (point_iff member).mp ⟨?_, ?_⟩
    · exact (onRecall v isValue).trans (sameRecall v)
    · exact (onFallout v isValue).trans (sameFallout v)
  · intro once
    refine ⟨?_, ?_, ?_⟩
    · dsimp only
      rw [List.map_map, List.map_inj_left]
      intro v isValue
      have member := (mem_values_iff _ v).mp isValue
      have equal := firstOf_perm_of_once member (once v member)
      refine Eq.trans ?_ (samePrecision v).symm
      rw [precision, precision, positives_perm equal, negatives, negatives, equal.countP_eq]
    · dsimp only
      rw [List.map_map, List.map_inj_left]
      intro v isValue
      have member := (mem_values_iff _ v).mp isValue
      exact ((point_iff member).mpr (once v member)).1.trans (sameRecall v).symm
    · dsimp only
      rw [List.map_map, List.map_inj_left]
      intro v isValue
      have member := (mem_values_iff _ v).mp isValue
      exact ((point_iff member).mpr (once v member)).2.trans (sameFallout v).symm

theorem mem_thresh_iff (unchanged : ∀ s ∈ samples, roundAway (s.pred * n) = s.pred * n)
    (positive : 0 < n) (t : ℚ) :
    t ∈ (calcPrSeqWith samples n).thresh ↔ t ∈ samples.map fun s => s.pred := by
  have isThresh : (calcPrSeqWith samples n).thresh =
      (values (samples.map (scale n))).map (· / n) := by
    unfold calcPrSeqWith
    dsimp only
    rw [curvesAt_eq]
  rw [isThresh, List.mem_map]
  simp only [mem_values_iff, scaled_pred unchanged, List.mem_map]
  constructor
  · rintro ⟨v, ⟨x, isPred, rfl⟩, rfl⟩
    rw [mul_div_cancel_right₀ x positive.ne']
    exact isPred
  · exact fun isPred => ⟨t * n, ⟨t, isPred, rfl⟩, mul_div_cancel_right₀ t positive.ne'⟩

end Scaling

section Labels

variable {samples : List Sample}

theorem maxIdx_spec (g : ℚ → ℚ) {ts : List ℚ} (filled : ts ≠ []) :
    ts.getD (maxIdx (ts.map g)) 0 ∈ ts ∧
      ∀ t ∈ ts, g t ≤ g (ts.getD (maxIdx (ts.map g)) 0) := by
  have some : ts.map g ≠ [] := mt List.map_eq_nil_iff.mp filled
  obtain ⟨best, isBest⟩ := Option.isSome_iff_exists.mp (List.isSome_max?_iff.mpr some)
  obtain ⟨member, largest⟩ := List.max?_eq_some_iff.mp isBest
  have inside : maxIdx (ts.map g) < ts.length := by
    rw [maxIdx, isBest, ← List.length_map g]
    exact List.idxOf_lt_length_iff.mpr member
  have entry : ts.getD (maxIdx (ts.map g)) 0 = ts.get ⟨maxIdx (ts.map g), inside⟩ := by
    rw [List.getD_eq_getElem?_getD, List.getElem?_eq_getElem inside]
    rfl
  have image : g (ts.get ⟨maxIdx (ts.map g), inside⟩) = best := by
    have there := List.getElem?_idxOf member
    rw [List.getElem?_map] at there
    have here : maxIdx (ts.map g) = (ts.map g).idxOf best := by rw [maxIdx, isBest]; rfl
    rw [← here, List.getElem?_eq_getElem inside] at there
    exact Option.some.inj there
  rw [entry]
  refine ⟨List.get_mem _ _, fun t isEntry => ?_⟩
  rw [image]
  exact largest (g t) (List.mem_map_of_mem isEntry)

theorem discretise_eq_one_iff (threshold : ℚ) {x : ℚ} (bounded : x ≤ 1) :
    discretise threshold x = 1 ↔ threshold < x := by
  unfold discretise
  dsimp only
  by_cases higher : threshold < x
  · rw [if_pos higher, if_neg (not_le.mpr (higher.trans_le bounded))]
    exact iff_of_true rfl higher
  · rw [if_neg higher, if_pos (not_lt.mp higher)]
    exact iff_of_false zero_ne_one higher

theorem labelled_eq (bounded : ∀ s ∈ samples, s.pred ≤ 1) (threshold : ℚ) :
    labelled samples (samples.map fun s => discretise threshold s.pred) =
      above threshold samples := by
  induction samples with
  | nil => rfl
  | cons s rest ih =>
      have one := discretise_eq_one_iff threshold (bounded s List.mem_cons_self)
      have others := ih fun other member => bounded other (List.mem_cons_of_mem _ member)
      unfold labelled above at others ⊢
      rw [List.map_cons, List.zip_cons_cons]
      by_cases higher : threshold < s.pred
      · rw [List.filter_cons_of_pos (by simpa using one.mpr higher), List.map_cons, others,
          List.filter_cons_of_pos (by simpa using higher)]
      · rw [List.filter_cons_of_neg (by simpa using mt one.mp higher), others,
          List.filter_cons_of_neg (by simpa using higher)]

theorem atLeast_cases (t : ℚ) (samples : List Sample) :
    atLeast t samples = [] ∨
      ∃ v ∈ samples.map fun s => s.pred, atLeast t samples = atLeast v samples := by
  by_cases nothing : atLeast t samples = []
  · exact Or.inl nothing
  · right
    have filled : (atLeast t samples).map (fun s => s.pred) ≠ [] := mt List.map_eq_nil_iff.mp nothing
    obtain ⟨v, isMin⟩ := Option.isSome_iff_exists.mp (List.isSome_min?_iff.mpr filled)
    obtain ⟨member, least⟩ := List.min?_eq_some_iff.mp isMin
    obtain ⟨lowest, among, rfl⟩ := List.mem_map.mp member
    obtain ⟨inSamples, reaches⟩ := List.mem_filter.mp among
    refine ⟨lowest.pred, List.mem_map_of_mem inSamples, List.filter_congr fun s sMember => ?_⟩
    rw [decide_eq_decide]
    refine ⟨fun reached => ?_, fun beyond => (of_decide_eq_true reaches).trans beyond⟩
    exact least s.pred (List.mem_map_of_mem (List.mem_filter.mpr ⟨sMember, decide_eq_true reached⟩))

theorem f1_of_no_hit {chosen : List Sample} (none : positives chosen = 0) :
    f1 samples chosen = 0 := by
  simp [f1, fscore, precision, recallOf, none]

theorem f1_above_ne (relevant : 0 < positives samples) {threshold : ℚ}
    (once : (samples.map fun s => s.pred).count threshold = 1)
    (same : f1 samples (above threshold samples) = f1 samples (atLeast threshold samples)) :
    f1 samples (atLeast threshold samples) = 0 := by
  have size := length_atLeast threshold samples
  have hits := positives_split threshold (atLeast threshold samples)
  have parts := length_split threshold (atLeast threshold samples)
  have inner : above threshold (atLeast threshold samples) = above threshold samples := by
    rw [above, above, atLeast, List.filter_filter]
    apply List.filter_congr
    intro s _
    by_cases higher : threshold < s.pred <;> simp [higher, le_of_lt]
  rw [inner] at hits parts
  rw [once] at size
  have bounded : positives (above threshold samples) ≤ (above threshold samples).length :=
    List.countP_le_length
  have few : positives ((atLeast threshold samples).filter fun s => !decide (threshold < s.pred)) ≤
      ((atLeast threshold samples).filter fun s => !decide (threshold < s.pred)).length :=
    List.countP_le_length
  have one : (positives ((atLeast threshold samples).filter
      fun s => !decide (threshold < s.pred)) : ℚ) = 0 ∨
      (positives ((atLeast threshold samples).filter
        fun s => !decide (threshold < s.pred)) : ℚ) = 1 := by
    rw [Nat.cast_eq_zero, Nat.cast_eq_one]
    omega
  rw [f1_eq relevant, f1_eq relevant, hits, size, Nat.cast_add, Nat.cast_succ] at same
  have nothing := harmonicMean_succ_ne (Nat.cast_pos.mpr relevant) (Nat.cast_nonneg _)
    (Nat.cast_le.mpr bounded) one same
  rw [← Nat.cast_add, ← hits, Nat.cast_eq_zero] at nothing
  exact f1_of_no_hit nothing

theorem chosen_isBest {c : SeqCurves} (right : PointsRight samples c) (filled : c.thresh ≠ [])
    (exact : ∀ t, t ∈ c.thresh ↔ t ∈ samples.map fun s => s.pred) :
    c.thresh.getD (maxIdx (List.zipWith fscore c.prec c.recalls)) 0 ∈ c.thresh ∧
      ∀ t, f1 samples (atLeast t samples) ≤ f1 samples
        (atLeast (c.thresh.getD (maxIdx (List.zipWith fscore c.prec c.recalls)) 0) samples) := by
  have scores : List.zipWith fscore c.prec c.recalls =
      c.thresh.map fun t => f1 samples (atLeast t samples) := by
    rw [right.prec, right.recalls, List.zipWith_map, List.zipWith_self]
    rfl
  rw [scores]
  obtain ⟨member, largest⟩ := maxIdx_spec (fun t => f1 samples (atLeast t samples)) filled
  refine ⟨member, fun t => ?_⟩
  obtain nothing | ⟨v, isScore, same⟩ := atLeast_cases t samples
  · rw [nothing, f1_nil]
    exact f1_nonneg _ _
  · rw [same]
    exact largest v ((exact v).mpr isScore)

theorem exists_f1_pos (relevant : 0 < positives samples) :
    ∃ t, 0 < f1 samples (atLeast t samples) := by
  obtain ⟨s, member, positive⟩ := List.countP_pos_iff.mp relevant
  refine ⟨s.pred, ?_⟩
  have reaches : s ∈ atLeast s.pred samples :=
    List.mem_filter.mpr ⟨member, decide_eq_true le_rfl⟩
  have hit : 0 < positives (atLeast s.pred samples) :=
    List.countP_pos_iff.mpr ⟨s, reaches, positive⟩
  have hits : (0 : ℚ) < positives (atLeast s.pred samples) := Nat.cast_pos.mpr hit
  have some : (0 : ℚ) < positives samples := Nat.cast_pos.mpr relevant
  rw [f1_eq relevant, harmonicMean]
  positivity

end Labels

section Results

/-- The points and the labels agree with the threshold if and only if no score occurs twice and no
sample is positive. -/
theorem agrees_iff (samples : List Sample) (range : ∀ s ∈ samples, 0 ≤ s.pred ∧ s.pred ≤ 1)
    (unchanged : Unchanged samples) :
    Agrees samples ↔ (samples.map fun s => s.pred).Nodup ∧ ∀ s ∈ samples, s.gt = false := by
  obtain ⟨m, isMin, fixed⟩ := unchanged
  have positive : 0 < 1 / m :=
    one_div_pos.mpr (minVal_pos (fun s member => (range s member).1) isMin)
  have bounded : ∀ s ∈ samples, s.pred ≤ 1 := fun s member => (range s member).2
  have isCurves : calcPrSeq samples = some (calcPrSeqWith samples (1 / m)) := by
    rw [calcPrSeq, isMin]
    rfl
  have points := pointsRight_iff fixed positive
  have exact := mem_thresh_iff fixed positive
  have isResult : getBestDiscreteLabel samples "f1" = some (samples.map fun s => discretise
      ((calcPrSeqWith samples (1 / m)).thresh.getD (maxIdx (List.zipWith fscore
        (calcPrSeqWith samples (1 / m)).prec (calcPrSeqWith samples (1 / m)).recalls)) 0) s.pred,
      (calcPrSeqWith samples (1 / m)).thresh.getD (maxIdx (List.zipWith fscore
        (calcPrSeqWith samples (1 / m)).prec (calcPrSeqWith samples (1 / m)).recalls)) 0) := by
    rw [getBestDiscreteLabel, isCurves]
    rfl
  have noPositive : (∀ s ∈ samples, s.gt = false) ↔ positives samples = 0 := by
    rw [positives, List.countP_eq_zero]
    simp only [Bool.not_eq_true]
  rw [noPositive]
  constructor
  · rintro ⟨⟨c, isC, right⟩, labels, threshold, isLabels, best⟩
    obtain rfl := Option.some.inj (isCurves.symm.trans isC)
    obtain ⟨rfl, -⟩ := Prod.mk.inj (Option.some.inj (isResult.symm.trans isLabels))
    have distinct := points.mp right
    refine ⟨distinct, ?_⟩
    by_contra some
    have relevant := Nat.pos_of_ne_zero some
    obtain ⟨u, above_zero⟩ := exists_f1_pos relevant
    rw [labelled_eq bounded] at best
    have filled : (calcPrSeqWith samples (1 / m)).thresh ≠ [] := by
      obtain ⟨s, member, _⟩ := List.countP_pos_iff.mp relevant
      exact List.ne_nil_of_mem ((exact s.pred).mpr (List.mem_map_of_mem member))
    obtain ⟨member, largest⟩ := chosen_isBest right filled exact
    obtain ⟨t, attained⟩ := best.attained
    have same := le_antisymm (attained.trans_le (largest t)) (best.largest _)
    have zero := f1_above_ne relevant
      (List.nodup_iff_count_eq_one.mp distinct _ ((exact _).mp member)) same
    have below := (best.largest u).trans_eq (same.trans zero)
    exact absurd above_zero (not_lt.mpr below)
  · rintro ⟨distinct, none⟩
    have noHit : ∀ t, f1 samples (atLeast t samples) = 0 := fun t =>
      f1_of_no_hit (Nat.eq_zero_of_le_zero (none ▸ countP_atLeast_le _ t samples))
    refine ⟨⟨_, isCurves, points.mpr distinct⟩, _, _, isResult, ?_⟩
    rw [labelled_eq bounded]
    have missed : ∀ t, f1 samples (above t samples) = 0 := fun t =>
      f1_of_no_hit (Nat.eq_zero_of_le_zero (none ▸ List.Sublist.countP_le List.filter_sublist))
    refine ⟨⟨0, ?_⟩, fun t => ?_⟩
    · rw [missed, noHit]
    · rw [missed, noHit]

def tied : List Sample := [⟨1 / 2, true⟩, ⟨1, false⟩, ⟨1 / 2, false⟩]

theorem tied_agrees_iff :
    ((∀ s ∈ tied, 0 ≤ s.pred ∧ s.pred ≤ 1) ∧ Unchanged tied) ∧
      (Agrees tied ↔ (tied.map fun s => s.pred).Nodup ∧ ∀ s ∈ tied, s.gt = false) := by
  have range : ∀ s ∈ tied, 0 ≤ s.pred ∧ s.pred ≤ 1 := by decide +kernel
  have unchanged : Unchanged tied := ⟨1 / 2, by decide +kernel, by decide +kernel⟩
  exact ⟨⟨range, unchanged⟩, agrees_iff tied range unchanged⟩

def alone : List Sample := [⟨1, true⟩]

theorem alone_label : getBestDiscreteLabel alone "f1" = some ([0], 1) := by
  have isMin : minVal alone = some 1 := by decide +kernel
  have scaled : alone.map (scale (1 / 1)) = alone := by decide +kernel
  have order : ranked alone = alone := ranked_eq (List.pairwise_singleton _ _)
  have once : unique (alone.map fun s => s.pred) = ([1], [0]) := by
    have single : (alone.map fun s => s.pred).dedup = [1] := by decide +kernel
    rw [unique, single, List.mergeSort_singleton]
    decide +kernel
  rw [getBestDiscreteLabel, calcPrSeq, isMin, Option.map_some, calcPrSeqWith, scaled, order, once,
    curvesAt, cumsum_tp, cumsum_fp, order]
  decide +kernel

/-- The only sample is the best to choose, and its label is 0. -/
theorem alone_not_agrees : ¬Agrees alone := by
  intro agrees
  obtain ⟨labels, threshold, isLabels, best⟩ := agrees.labels
  obtain ⟨rfl, -⟩ := Prod.mk.inj (Option.some.inj (alone_label.symm.trans isLabels))
  have better := best.largest 1
  exact absurd better (by decide +kernel)

end Results

end GemFi.BestThreshold
