import Mathlib.Algebra.Order.Field.Rat
import Mathlib.Data.List.Count
import Mathlib.Tactic.FieldSimp
import Mathlib.Tactic.NormNum
import GemFi.Rankings

/-!
The curves of calc_pr_seq_old.m and the maximum F1 score of plot_result.m. The counts are
taken at every position of the ranked samples, also between samples with the same score.
A quotient by zero is zero, as `eps` makes it in the F1 score.
-/

namespace GemFi.PrecisionRecall

open Rankings

/-- An entry of `pred` with its label in `gt`. -/
structure Sample where
  pred : ℚ
  gt : Bool
  deriving DecidableEq, Repr

/-- The samples in the order of `[~,si]=sort(-pred)`. -/
def ranked (samples : List Sample) : List Sample :=
  samples.mergeSort fun a b => decide (-a.pred ≤ -b.pred)

def cumsum : Nat → List Nat → List Nat
  | _, [] => []
  | total, x :: rest => (total + x) :: cumsum (total + x) rest

def tp (samples : List Sample) : List Nat := (ranked samples).map fun s => if s.gt then 1 else 0

def fp (samples : List Sample) : List Nat := (ranked samples).map fun s => if s.gt then 0 else 1

/-- `sum(gt==1)`. -/
def positives (samples : List Sample) : Nat := samples.countP fun s => s.gt

/-- `sum(gt==0)`. -/
def negatives (samples : List Sample) : Nat := samples.countP fun s => !s.gt

structure Curves where
  prec : List ℚ
  recalls : List ℚ
  fpr : List ℚ

/-- `calc_pr_seq_old`. -/
def calcPrSeqOld (samples : List Sample) : Curves where
  prec := List.zipWith (fun tp fp : Nat => (tp : ℚ) / (fp + tp)) (cumsum 0 (tp samples))
    (cumsum 0 (fp samples))
  recalls := (cumsum 0 (tp samples)).map fun tp : Nat => (tp : ℚ) / positives samples
  fpr := (cumsum 0 (fp samples)).map fun fp : Nat => (fp : ℚ) / negatives samples

def fscore (p r : ℚ) : ℚ := 2 * p * r / (p + r)

/-- `max_fscore` of `plot_result`. -/
def maxFscore (samples : List Sample) : Option ℚ :=
  (List.zipWith fscore (calcPrSeqOld samples).prec (calcPrSeqOld samples).recalls).max?

def precision (chosen : List Sample) : ℚ :=
  (positives chosen : ℚ) / (negatives chosen + positives chosen)

def recallOf (samples chosen : List Sample) : ℚ := (positives chosen : ℚ) / positives samples

def f1 (samples chosen : List Sample) : ℚ := fscore (precision chosen) (recallOf samples chosen)

def atLeast (t : ℚ) (samples : List Sample) : List Sample := samples.filter fun s => t ≤ s.pred

def positivesFirst (score : ℚ) (samples : List Sample) : List Sample :=
  samples.filter fun s => score < s.pred ∨ score = s.pred ∧ s.gt

/-- The maximum is the F1 score of a threshold, and the order of the samples is of no
influence. -/
structure Attainable (samples : List Sample) : Prop where
  attained : ∃ t, maxFscore samples = some (f1 samples (atLeast t samples))
  orderFree : ∀ samples', samples'.Perm samples → maxFscore samples' = maxFscore samples

section Counts

variable {samples chosen : List Sample}

theorem length_eq (chosen : List Sample) : chosen.length = negatives chosen + positives chosen := by
  rw [List.length_eq_countP_add_countP (fun s : Sample => s.gt), Nat.add_comm]
  simp [negatives, positives]

theorem f1_eq (relevant : 0 < positives samples) (chosen : List Sample) :
    f1 samples chosen = harmonicMean (positives chosen : ℚ) chosen.length (positives samples) := by
  have some : (0 : ℚ) < positives samples := Nat.cast_pos.mpr relevant
  have taken : (chosen.length : ℚ) = negatives chosen + positives chosen := by
    rw [length_eq, Nat.cast_add]
  unfold f1 fscore precision recallOf harmonicMean
  rw [← taken]
  rcases Nat.eq_zero_or_pos (positives chosen) with noHit | hit
  · rw [noHit]
    simp
  · have hits : (0 : ℚ) < positives chosen := Nat.cast_pos.mpr hit
    have size : (0 : ℚ) < chosen.length :=
      Nat.cast_pos.mpr (hit.trans_le (List.countP_le_length))
    field_simp

theorem positives_perm {chosen' : List Sample} (same : chosen'.Perm chosen) :
    positives chosen' = positives chosen :=
  same.countP_eq _

theorem f1_perm {samples' chosen' : List Sample} (same : samples'.Perm samples)
    (chosenSame : chosen'.Perm chosen) : f1 samples' chosen' = f1 samples chosen := by
  unfold f1 precision recallOf positives negatives
  rw [same.countP_eq, chosenSame.countP_eq, chosenSame.countP_eq]

theorem f1_nil (samples : List Sample) : f1 samples [] = 0 := by
  simp [f1, fscore, precision, recallOf, positives]

theorem f1_nonneg (samples chosen : List Sample) : 0 ≤ f1 samples chosen := by
  unfold f1 fscore precision recallOf
  positivity

end Counts

section Curves

variable {samples : List Sample}

theorem cumsum_map (total : Nat) (count : Sample → Nat) (items : List Sample) :
    cumsum total (items.map count) =
      items.inits.tail.map fun taken => total + (taken.map count).sum := by
  induction items generalizing total with
  | nil => rfl
  | cons s rest ih =>
      have split : rest.inits = [] :: rest.inits.tail := by cases rest <;> rfl
      rw [List.map_cons, cumsum, ih, List.inits_cons, List.tail_cons, split, List.map_cons,
        List.map_cons, List.map_map]
      congr 1
      apply List.map_congr_left
      intro taken _
      rw [Function.comp_apply, List.map_cons, List.sum_cons, Nat.add_assoc]

theorem sum_indicator (items : List Sample) (p : Sample → Bool) :
    (items.map fun s => if p s then 1 else 0).sum = items.countP p := by
  induction items with
  | nil => rfl
  | cons s rest ih =>
      rw [List.map_cons, List.sum_cons, ih, List.countP_cons, Nat.add_comm]

theorem cumsum_tp (samples : List Sample) :
    cumsum 0 (tp samples) = (ranked samples).inits.tail.map positives := by
  rw [tp, cumsum_map]
  apply List.map_congr_left
  intro taken _
  rw [Nat.zero_add, sum_indicator]
  rfl

theorem cumsum_fp (samples : List Sample) :
    cumsum 0 (fp samples) = (ranked samples).inits.tail.map negatives := by
  rw [fp, cumsum_map]
  apply List.map_congr_left
  intro taken _
  rw [Nat.zero_add, negatives, ← sum_indicator]
  congr 1
  apply List.map_congr_left
  intro s _
  cases s.gt <;> rfl

theorem fscores_eq (samples : List Sample) :
    List.zipWith fscore (calcPrSeqOld samples).prec (calcPrSeqOld samples).recalls =
      (ranked samples).inits.tail.map (f1 samples) := by
  unfold calcPrSeqOld
  dsimp only
  rw [cumsum_tp, cumsum_fp, List.zipWith_map, List.map_map, List.zipWith_self, List.zipWith_map,
    List.zipWith_self]
  rfl

theorem mem_inits_tail_iff (items taken : List Sample) :
    taken ∈ items.inits.tail ↔ taken ≠ [] ∧ taken <+: items := by
  rw [← List.mem_inits]
  have split : items.inits = [] :: items.inits.tail := by cases items <;> rfl
  constructor
  · intro member
    refine ⟨?_, split ▸ List.mem_cons_of_mem _ member⟩
    rintro rfl
    cases items with
    | nil => exact List.not_mem_nil member
    | cons s rest => simp at member
  · rintro ⟨filled, member⟩
    rw [split] at member
    exact (List.mem_cons.mp member).resolve_left filled

theorem ranked_perm (samples : List Sample) : (ranked samples).Perm samples :=
  List.mergeSort_perm samples _

theorem ranked_descends (samples : List Sample) :
    (ranked samples).Pairwise fun a b => b.pred ≤ a.pred := by
  have sorted : (ranked samples).Pairwise fun a b => decide (-a.pred ≤ -b.pred) = true := by
    apply List.pairwise_mergeSort
    · intro a b c first second
      exact decide_eq_true ((of_decide_eq_true first).trans (of_decide_eq_true second))
    · intro a b
      rw [Bool.or_eq_true, decide_eq_true_iff, decide_eq_true_iff]
      exact le_total _ _
  exact sorted.imp fun this => neg_le_neg_iff.mp (of_decide_eq_true this)

theorem ranked_eq {samples : List Sample} (descends : samples.Pairwise fun a b => b.pred ≤ a.pred) :
    ranked samples = samples :=
  List.mergeSort_of_pairwise (descends.imp fun this => decide_eq_true (neg_le_neg this))

theorem maxFscore_eq_some_iff (samples : List Sample) (best : ℚ) :
    maxFscore samples = some best ↔
      (∃ taken, taken ≠ [] ∧ taken <+: ranked samples ∧ f1 samples taken = best) ∧
        ∀ taken, taken ≠ [] → taken <+: ranked samples → f1 samples taken ≤ best := by
  rw [maxFscore, fscores_eq, List.max?_eq_some_iff, List.mem_map, List.forall_mem_map]
  simp only [mem_inits_tail_iff, and_assoc, and_imp]

/-- The maximum is no less than the score of a classifier that takes a sample only with
whatever comes before it in the ranked samples. -/
theorem f1_le_max {best : ℚ} (isBest : maxFscore samples = some best)
    {order : Sample → Sample → Prop} (inOrder : (ranked samples).Pairwise order)
    {p : Sample → Bool} (upward : Upward order p) : f1 samples (samples.filter p) ≤ best := by
  obtain ⟨⟨taken, _, _, isTaken⟩, largest⟩ := (maxFscore_eq_some_iff samples best).mp isBest
  have same : ((ranked samples).filter p).Perm (samples.filter p) := (ranked_perm samples).filter p
  rw [← f1_perm (List.Perm.refl samples) same]
  by_cases nothing : (ranked samples).filter p = []
  · rw [nothing, f1_nil, ← isTaken]
    exact f1_nonneg samples taken
  · exact largest _ nothing (filter_front inOrder upward)

end Curves

section Ties

variable {samples : List Sample}

theorem atLeast_le_max {best : ℚ} (isBest : maxFscore samples = some best) (t : ℚ) :
    f1 samples (atLeast t samples) ≤ best := by
  refine f1_le_max isBest (ranked_descends samples) fun a b higher reached => ?_
  exact decide_eq_true ((of_decide_eq_true reached).trans higher)

def tied (score : ℚ) (samples : List Sample) : Nat :=
  samples.countP fun s => score = s.pred ∧ s.gt

def above (score : ℚ) (samples : List Sample) : List Sample :=
  samples.filter fun s => score < s.pred

theorem positives_split (score : ℚ) (samples : List Sample) :
    positives samples = positives (above score samples) +
      positives (samples.filter fun s => !decide (score < s.pred)) :=
  List.countP_eq_countP_filter_add _ _ _

theorem length_split (score : ℚ) (samples : List Sample) :
    samples.length = (above score samples).length +
      (samples.filter fun s => !decide (score < s.pred)).length := by
  rw [above, ← List.countP_eq_length_filter, ← List.countP_eq_length_filter,
    List.length_eq_countP_add_countP fun s : Sample => decide (score < s.pred)]
  congr 2
  funext s
  by_cases higher : score < s.pred <;> simp [higher]

theorem above_positivesFirst (score : ℚ) (samples : List Sample) :
    above score (positivesFirst score samples) = above score samples := by
  rw [above, above, positivesFirst, List.filter_filter]
  apply List.filter_congr
  intro s _
  by_cases higher : score < s.pred <;> simp [higher]

theorem rest_positivesFirst (score : ℚ) (samples : List Sample) :
    (positivesFirst score samples).filter (fun s => !decide (score < s.pred)) =
      samples.filter fun s => score = s.pred ∧ s.gt := by
  rw [positivesFirst, List.filter_filter]
  apply List.filter_congr
  intro s _
  by_cases higher : score < s.pred
  · simp [higher, higher.ne]
  · simp [higher]

theorem positives_positivesFirst (score : ℚ) (samples : List Sample) :
    positives (positivesFirst score samples) =
      positives (above score samples) + tied score samples := by
  rw [positives_split score, above_positivesFirst, rest_positivesFirst, tied,
    List.countP_eq_length_filter (l := samples)]
  congr 1
  rw [positives, List.countP_eq_length]
  intro s member
  exact (of_decide_eq_true (List.mem_filter.mp member).2).2

theorem length_positivesFirst (score : ℚ) (samples : List Sample) :
    (positivesFirst score samples).length =
      (above score samples).length + tied score samples := by
  rw [length_split score, above_positivesFirst, rest_positivesFirst, tied,
    List.countP_eq_length_filter]

/-- No prefix scores higher than it would with all positive samples of its last score in it,
and no negative one. -/
theorem prefix_le_positivesFirst (relevant : 0 < positives samples) {taken : List Sample}
    (filled : taken ≠ []) (isPrefix : taken <+: ranked samples) :
    ∃ s ∈ samples, f1 samples taken ≤ f1 samples (positivesFirst s.pred samples) := by
  obtain ⟨first, last, rfl⟩ := (List.eq_nil_or_concat' taken).resolve_left filled
  obtain ⟨rest, whole⟩ := isPrefix
  rw [List.append_assoc, List.singleton_append] at whole
  have descends := ranked_descends samples
  rw [← whole] at descends
  have perm := ranked_perm samples
  rw [← whole] at perm
  refine ⟨last, perm.mem_iff.mp (List.mem_append_right _ List.mem_cons_self), ?_⟩
  -- whatever scores more than the last sample is in the prefix
  have higher : (above last.pred (first ++ [last])).Perm (above last.pred samples) := by
    have same : above last.pred (first ++ [last]) = above last.pred (first ++ last :: rest) := by
      rw [above, above, filter_above_last descends, List.filter_append]
      simp
    rw [same]
    exact perm.filter _
  -- and what is left of it has the score of the last
  have fewer : positives ((first ++ [last]).filter fun s => !decide (last.pred < s.pred)) ≤
      tied last.pred samples := by
    have inPrefix : positives ((first ++ [last]).filter fun s => !decide (last.pred < s.pred)) ≤
        tied last.pred (first ++ [last]) := by
      rw [positives, List.countP_filter]
      refine List.countP_mono_left fun s member both => ?_
      obtain ⟨positive, notAbove⟩ := Bool.and_eq_true_iff.mp both
      have lower : s.pred ≤ last.pred := by simpa using notAbove
      exact decide_eq_true ⟨le_antisymm (last_le descends s member) lower, positive⟩
    have sublist : (first ++ [last]).Sublist (first ++ last :: rest) := by simp
    exact inPrefix.trans ((List.Sublist.countP_le sublist).trans_eq (perm.countP_eq _))
  have bounded : positives (first ++ [last]) ≤ positives samples := by
    have sublist : (first ++ [last]).Sublist (first ++ last :: rest) := by simp
    exact (List.Sublist.countP_le sublist).trans_eq (perm.countP_eq _)
  have hits := positives_split last.pred (first ++ [last])
  have size := length_split last.pred (first ++ [last])
  rw [positives_perm higher] at hits
  rw [higher.length_eq, length_eq (List.filter _ _)] at size
  obtain ⟨missing, isMissing⟩ := Nat.exists_eq_add_of_le fewer
  rw [hits] at bounded
  rw [f1_eq relevant, f1_eq relevant, positives_positivesFirst, length_positivesFirst, isMissing,
    size, hits, Nat.add_comm (negatives _), ← Nat.add_assoc, ← Nat.add_assoc, ← Nat.add_assoc,
    Nat.cast_add (_ + _) (negatives _), Nat.cast_add (_ + _) missing, Nat.cast_add (_ + _) missing]
  exact harmonicMean_le (Nat.cast_pos.mpr relevant) (Nat.cast_nonneg _) (Nat.cast_nonneg _)
    (Nat.cast_le.mpr bounded) (Nat.cast_nonneg missing) (Nat.cast_nonneg _)

def PositiveFirst (a b : Sample) : Prop :=
  b.pred < a.pred ∨ b.pred = a.pred ∧ (b.gt = true → a.gt = true)

instance (a b : Sample) : Decidable (PositiveFirst a b) := inferInstanceAs (Decidable (_ ∨ _))

theorem positiveFirst_trans {a b c : Sample} (first : PositiveFirst a b)
    (second : PositiveFirst b c) : PositiveFirst a c := by
  obtain higher | ⟨same, order⟩ := first
  · obtain lower | ⟨equal, _⟩ := second
    · exact Or.inl (lower.trans higher)
    · exact Or.inl (equal ▸ higher)
  · obtain lower | ⟨equal, later⟩ := second
    · exact Or.inl (same ▸ lower)
    · exact Or.inr ⟨equal.trans same, order ∘ later⟩

theorem positiveFirst_total (a b : Sample) : PositiveFirst a b ∨ PositiveFirst b a := by
  obtain lower | same | higher := lt_trichotomy a.pred b.pred
  · exact Or.inr (Or.inl lower)
  · cases positive : a.gt with
    | true => exact Or.inl (Or.inr ⟨same.symm, fun _ => positive⟩)
    | false =>
        refine Or.inr (Or.inr ⟨same, fun this => ?_⟩)
        rw [positive] at this
        exact Bool.noConfusion this
  · exact Or.inl (Or.inl higher)

theorem exists_positiveFirst (samples : List Sample) :
    ∃ samples' : List Sample, samples'.Perm samples ∧ (ranked samples').Pairwise PositiveFirst := by
  refine ⟨samples.mergeSort fun a b => decide (PositiveFirst a b), List.mergeSort_perm _ _, ?_⟩
  have sorted : (samples.mergeSort fun a b => decide (PositiveFirst a b)).Pairwise
      fun a b => decide (PositiveFirst a b) = true := by
    apply List.pairwise_mergeSort
    · intro a b c first second
      exact decide_eq_true
        (positiveFirst_trans (of_decide_eq_true first) (of_decide_eq_true second))
    · intro a b
      rw [Bool.or_eq_true, decide_eq_true_iff, decide_eq_true_iff]
      exact positiveFirst_total a b
  have inOrder := sorted.imp fun {a b} this => of_decide_eq_true this
  rw [ranked_eq (inOrder.imp fun this => this.elim le_of_lt fun equal => equal.1.le)]
  exact inOrder

theorem positivesFirst_upward (score : ℚ) :
    Upward PositiveFirst fun s => decide (score < s.pred ∨ score = s.pred ∧ s.gt = true) := by
  intro a b before reached
  apply decide_eq_true
  obtain higher | ⟨same, positive⟩ := of_decide_eq_true reached
  · obtain lower | ⟨equal, _⟩ := before
    · exact Or.inl (higher.trans lower)
    · exact Or.inl (equal ▸ higher)
  · obtain lower | ⟨equal, order⟩ := before
    · exact Or.inl (same ▸ lower)
    · exact Or.inr ⟨same.trans equal, order positive⟩

/-- Each score, with its positive samples first and its negative ones left out, is met by a
threshold. -/
def ThresholdsSuffice (samples : List Sample) : Prop :=
  ∀ s ∈ samples, ∃ t,
    f1 samples (positivesFirst s.pred samples) ≤ f1 samples (atLeast t samples)

theorem f1_atLeast_perm {samples' : List Sample} (same : samples'.Perm samples) (t : ℚ) :
    f1 samples' (atLeast t samples') = f1 samples (atLeast t samples) :=
  f1_perm same (same.filter _)

theorem f1_positivesFirst_perm {samples' : List Sample} (same : samples'.Perm samples)
    (score : ℚ) :
    f1 samples' (positivesFirst score samples') = f1 samples (positivesFirst score samples) :=
  f1_perm same (same.filter _)

theorem thresholdsSuffice_perm {samples' : List Sample} (same : samples'.Perm samples)
    (suffice : ThresholdsSuffice samples) : ThresholdsSuffice samples' := by
  intro s member
  obtain ⟨t, better⟩ := suffice s (same.mem_iff.mp member)
  refine ⟨t, ?_⟩
  rw [f1_positivesFirst_perm same, f1_atLeast_perm same]
  exact better

theorem max_eq_threshold (relevant : 0 < positives samples) (suffice : ThresholdsSuffice samples) :
    ∃ t, maxFscore samples = some (f1 samples (atLeast t samples)) := by
  have filled : (List.zipWith fscore (calcPrSeqOld samples).prec
      (calcPrSeqOld samples).recalls) ≠ [] := by
    rw [fscores_eq]
    intro nothing
    obtain ⟨s, member, _⟩ := List.countP_pos_iff.mp relevant
    have ranks := (ranked_perm samples).mem_iff.mpr member
    have whole : ranked samples ∈ (ranked samples).inits.tail :=
      (mem_inits_tail_iff _ _).mpr ⟨List.ne_nil_of_mem ranks, List.prefix_rfl⟩
    rw [List.map_eq_nil_iff.mp nothing] at whole
    exact List.not_mem_nil whole
  obtain ⟨best, isBest⟩ := Option.isSome_iff_exists.mp (List.isSome_max?_iff.mpr filled)
  obtain ⟨⟨taken, any, isPrefix, isTaken⟩, _⟩ := (maxFscore_eq_some_iff samples best).mp isBest
  obtain ⟨s, member, lower⟩ := prefix_le_positivesFirst relevant any isPrefix
  obtain ⟨t, met⟩ := suffice s member
  refine ⟨t, isBest.trans (congrArg Option.some (le_antisymm ?_ (atLeast_le_max isBest t)))⟩
  exact isTaken ▸ lower.trans met

end Ties

section Results

/-- Where some sample is positive, the maximum F1 score of plot_result is that of a threshold and
is the same in every order of the samples, if and only if no group of equal scores gains by
being split between its positive and its negative samples. -/
theorem attainable_iff (samples : List Sample) (relevant : ∃ s ∈ samples, s.gt = true) :
    Attainable samples ↔ ThresholdsSuffice samples := by
  have hasPositive : 0 < positives samples := List.countP_pos_iff.mpr relevant
  constructor
  · intro attainable s _
    obtain ⟨t, isMax⟩ := attainable.attained
    obtain ⟨samples', same, inOrder⟩ := exists_positiveFirst samples
    have isMax' := (attainable.orderFree samples' same).trans isMax
    have below := f1_le_max isMax' inOrder (positivesFirst_upward s.pred)
    exact ⟨t, (f1_positivesFirst_perm same s.pred).symm.trans_le below⟩
  · intro suffice
    obtain ⟨t, isMax⟩ := max_eq_threshold hasPositive suffice
    refine ⟨⟨t, isMax⟩, fun samples' same => ?_⟩
    have hasPositive' : 0 < positives samples' := positives_perm same ▸ hasPositive
    obtain ⟨t', isMax'⟩ := max_eq_threshold hasPositive' (thresholdsSuffice_perm same suffice)
    have above := atLeast_le_max isMax t'
    have below := atLeast_le_max isMax' t
    rw [isMax', isMax]
    rw [f1_atLeast_perm same, f1_atLeast_perm same] at below
    rw [f1_atLeast_perm same]
    exact congrArg Option.some (le_antisymm above below)

theorem attainable_apart :
    (∃ s ∈ [Sample.mk 1 true, ⟨0, false⟩], s.gt = true) ∧ Attainable [⟨1, true⟩, ⟨0, false⟩] := by
  have relevant : ∃ s ∈ [Sample.mk 1 true, ⟨0, false⟩], s.gt = true := ⟨_, List.mem_cons_self, rfl⟩
  refine ⟨relevant, (attainable_iff _ relevant).mpr fun s member => ⟨1, le_of_eq ?_⟩⟩
  rcases List.mem_pair.mp member with rfl | rfl <;> rfl

/-- A positive and a negative sample with the same score: the maximum is 1, and no threshold tells
them apart. -/
theorem tie_not_attainable : ¬Attainable [⟨1 / 2, true⟩, ⟨1 / 2, false⟩] := by
  intro attainable
  obtain ⟨t, isMax⟩ := attainable.attained
  have inOrder : ranked [⟨1 / 2, true⟩, ⟨1 / 2, false⟩] = [⟨1 / 2, true⟩, ⟨1 / 2, false⟩] :=
    ranked_eq (by simp)
  have first := ((maxFscore_eq_some_iff _ _).mp isMax).2 [⟨1 / 2, true⟩] (List.cons_ne_nil _ _)
    (by rw [inOrder]; exact ⟨[⟨1 / 2, false⟩], rfl⟩)
  by_cases reached : t ≤ 1 / 2
  · norm_num [atLeast, reached, f1, fscore, precision, recallOf, positives, negatives] at first
  · norm_num [atLeast, reached, f1, fscore, precision, recallOf, positives, negatives] at first

end Results

end GemFi.PrecisionRecall
