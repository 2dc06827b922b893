import StochasticEdit.Trainer.Reweight

/-! Local normalisation. `logadd` gives up one of its arguments when the other is its
special value 1.0. The total of a group then falls short of the sum of its scores,
and the arcs of the group get more than their share. -/

namespace StochasticEdit.Trainer

open Wfst
open scoped ENNReal

variable {n : ℕ}

/-! ### Running totals -/

/-- The entry of the table after the scores `σs`. -/
noncomputable def runningTotal (σs : List ℝ) : EReal :=
  (σs.map fun σ : ℝ => (σ : EReal)).foldl logadd negDblMax

/-- What the entry stands for. -/
noncomputable def expSum (σs : List ℝ) : ℝ≥0∞ := (σs.map fun σ : ℝ => EReal.exp σ).sum

/-- Every difference that `logadd` meets is below its cutoff. -/
structure BelowCutoff (σs : List ℝ) : Prop where
  diff_lt : ∀ (pre : List ℝ) (σ : ℝ), pre ++ [σ] <+: σs → runningTotal pre - σ < 500

/-- No score is 1, and no proper part of the list has the logarithmic sum 1. -/
def NoSpecialValue (σs : List ℝ) : Prop :=
  (∀ σ ∈ σs, σ ≠ 1) ∧ ∀ pre, pre <+: σs → pre ≠ σs → (pre.map Real.exp).sum ≠ Real.exp 1

theorem runningTotal_append (σs : List ℝ) (σ : ℝ) :
    runningTotal (σs ++ [σ]) = logadd (runningTotal σs) σ := by
  simp [runningTotal]

theorem expSum_append (σs : List ℝ) (σ : ℝ) : expSum (σs ++ [σ]) = expSum σs + EReal.exp σ := by
  simp [expSum]

theorem expSum_eq_ofReal (σs : List ℝ) : expSum σs = ENNReal.ofReal (σs.map Real.exp).sum := by
  induction σs with
  | nil => simp [expSum]
  | cons σ σs ih =>
    have hnonneg : 0 ≤ (σs.map Real.exp).sum :=
      List.sum_nonneg fun x hx => by
        obtain ⟨y, -, rfl⟩ := List.mem_map.mp hx
        exact (Real.exp_pos y).le
    show EReal.exp σ + expSum σs = _
    rw [ih, List.map_cons, List.sum_cons, ENNReal.ofReal_add (Real.exp_pos σ).le hnonneg,
      EReal.exp_coe]

theorem expSum_ne_top (σs : List ℝ) : expSum σs ≠ ⊤ := by
  rw [expSum_eq_ofReal]
  exact ENNReal.ofReal_ne_top

theorem expSum_eq_exp_one_iff (σs : List ℝ) :
    expSum σs = EReal.exp 1 ↔ (σs.map Real.exp).sum = Real.exp 1 := by
  have hone : EReal.exp 1 = ENNReal.ofReal (Real.exp 1) := EReal.exp_coe 1
  rw [expSum_eq_ofReal, hone]
  constructor
  · intro h
    by_contra hne
    have hle : (σs.map Real.exp).sum ≤ 0 ∨ 0 < (σs.map Real.exp).sum := le_or_gt _ _
    rcases hle with hle | hlt
    · rw [ENNReal.ofReal_of_nonpos hle] at h
      have := ENNReal.ofReal_eq_zero.mp h.symm
      exact absurd (Real.exp_pos 1) (not_lt.mpr this)
    · exact hne ((ENNReal.ofReal_eq_ofReal_iff hlt.le (Real.exp_pos 1).le).mp h)
  · intro h
    rw [h]

theorem BelowCutoff.init {σs : List ℝ} {σ : ℝ} (h : BelowCutoff (σs ++ [σ])) : BelowCutoff σs :=
  ⟨fun pre τ hpre => h.diff_lt pre τ (hpre.trans (List.prefix_append _ _))⟩

theorem exp_runningTotal_le {σs : List ℝ} (h : BelowCutoff σs) :
    EReal.exp (runningTotal σs) ≤ expSum σs := by
  induction σs using List.reverseRecOn with
  | nil => simp [runningTotal, expSum, negDblMax]
  | append_singleton σs σ ih =>
    rw [runningTotal_append, expSum_append]
    refine (exp_logadd_le _ _ (h.diff_lt σs σ (List.prefix_refl _))).trans ?_
    gcongr
    exact ih h.init

/-- The step that adds `σ` is exact if nothing was lost before and neither of the
arguments is the special value. -/
theorem exp_runningTotal_append_iff {σs : List ℝ} {σ : ℝ} (h : BelowCutoff (σs ++ [σ])) :
    EReal.exp (runningTotal (σs ++ [σ])) = expSum (σs ++ [σ]) ↔
      EReal.exp (runningTotal σs) = expSum σs ∧ σ ≠ 1 ∧ runningTotal σs ≠ 1 := by
  have hle := exp_runningTotal_le h.init
  have hpos (x : ℝ) : EReal.exp x ≠ 0 := by simp [Real.exp_pos]
  have hfin (x : ℝ) : EReal.exp x ≠ ⊤ := by simp
  rw [runningTotal_append, expSum_append]
  by_cases ht : runningTotal σs = 1
  · have hlt : EReal.exp σ < expSum σs + EReal.exp σ := by
      rw [add_comm]
      apply ENNReal.lt_add_right (hfin σ)
      intro hzero
      rw [hzero, ht] at hle
      exact hpos 1 (le_antisymm hle zero_le)
    rw [logadd, if_pos ht]
    exact ⟨fun heq => absurd heq hlt.ne, fun hc => absurd ht hc.2.2⟩
  by_cases hσ : σ = 1
  · subst hσ
    have hlt : EReal.exp (runningTotal σs) < expSum σs + EReal.exp (1 : ℝ) :=
      hle.trans_lt (ENNReal.lt_add_right (expSum_ne_top σs) (hpos 1))
    rw [logadd, if_neg ht, if_pos EReal.coe_one]
    exact ⟨fun heq => absurd heq hlt.ne, fun hc => absurd rfl hc.2.1⟩
  · rw [logadd_eq_logsum ht hσ (h.diff_lt σs σ (List.prefix_refl _)), exp_logsum,
      ENNReal.add_left_inj (hfin σ)]
    exact ⟨fun heq => ⟨heq, hσ, ht⟩, fun hc => hc.1⟩

theorem noSpecialValue_append_iff (σs : List ℝ) (σ : ℝ) : NoSpecialValue (σs ++ [σ]) ↔
    NoSpecialValue σs ∧ σ ≠ 1 ∧ (σs.map Real.exp).sum ≠ Real.exp 1 := by
  have hne : σs ≠ σs ++ [σ] := fun h => by simpa using congrArg List.length h
  constructor
  · rintro ⟨hmem, hpre⟩
    refine ⟨⟨fun τ hτ => hmem τ (by simp [hτ]), fun pre hp _ => ?_⟩, hmem σ (by simp),
      hpre σs (List.prefix_append _ _) hne⟩
    refine hpre pre (hp.trans (List.prefix_append _ _)) fun heq => ?_
    have hlen := hp.length_le
    rw [heq, List.length_append, List.length_singleton] at hlen
    omega
  · rintro ⟨⟨hmem, hpre⟩, hσ, hsum⟩
    constructor
    · intro τ hτ
      rcases List.mem_append.mp hτ with hτ | hτ
      · exact hmem τ hτ
      · rwa [List.mem_singleton.mp hτ]
    · intro pre hp hpne
      rcases List.prefix_concat_iff.mp hp with heq | hp
      · exact absurd heq hpne
      · by_cases heq : pre = σs
        · rwa [heq]
        · exact hpre pre hp heq

/-- Below the cutoff the running total is exact if and only if `logadd` never meets its
special value. -/
theorem exp_runningTotal_iff {σs : List ℝ} (h : BelowCutoff σs) :
    EReal.exp (runningTotal σs) = expSum σs ↔ NoSpecialValue σs := by
  induction σs using List.reverseRecOn with
  | nil =>
    have hnil : NoSpecialValue [] := by
      refine ⟨by simp, fun pre hp hne => absurd (List.prefix_nil.mp hp) hne⟩
    simp [runningTotal, expSum, negDblMax, hnil]
  | append_singleton σs σ ih =>
    rw [exp_runningTotal_append_iff h, noSpecialValue_append_iff, ih h.init]
    refine and_congr_right fun hσs => and_congr_right fun _ => not_congr ?_
    have hexact := (ih h.init).mpr hσs
    rw [← expSum_eq_exp_one_iff, ← hexact]
    constructor
    · intro ht
      rw [ht]
    · intro ht
      rw [← EReal.log_exp (runningTotal σs), ht, EReal.log_exp]

/-! ### Groups -/

/-- The scores of a group, in the order of its arcs. -/
noncomputable def groupScores (features : FeatureMap) (θ : ColumnVector n) {W : Type*}
    (F : VectorFst W) (q : ℕ) (l : ℤ) : List ℝ := (F.groupArcs q l).map fun e => -score features θ e

theorem groupTotal_logadd (features : FeatureMap) (θ : ColumnVector n) {W : Type*}
    (F : VectorFst W) (q : ℕ) (l : ℤ) : groupTotal logadd (score features θ) F q l =
      runningTotal (groupScores features θ F q l) := by
  rw [groupTotal, runningTotal, groupScores, List.map_map]
  rfl

theorem mul_inv_eq_one_iff {x y : ℝ≥0∞} (h₀ : x ≠ 0) (h₁ : x ≠ ⊤) : x * y⁻¹ = 1 ↔ y = x := by
  rcases eq_or_ne y 0 with rfl | hy₀
  · rw [ENNReal.inv_zero, ENNReal.mul_top h₀]
    exact ⟨fun h => absurd h (by simp), fun h => absurd h.symm h₀⟩
  rcases eq_or_ne y ⊤ with rfl | hy₁
  · rw [ENNReal.inv_top, mul_zero]
    exact ⟨fun h => absurd h (by simp), fun h => absurd h.symm h₁⟩
  · rw [← div_eq_mul_inv, ENNReal.div_eq_one_iff hy₀ hy₁, eq_comm]

theorem sum_group_reweighted (features : FeatureMap) (θ : ColumnVector n) (F : VectorFst LogWeight)
    (q : ℕ) (l : ℤ) :
    (tsum fun e : F.group q l => (reweighted logadd (score features θ) F).arcWeight e) =
      expSum (groupScores features θ F q l) *
        (EReal.exp (runningTotal (groupScores features θ F q l)))⁻¹ := by
  have hsum : expSum (groupScores features θ F q l) =
      ((F.groupArcs q l).map fun e => EReal.exp (-score features θ e)).sum := by
    rw [expSum, groupScores, List.map_map]
    rfl
  rw [hsum, ← groupTotal_logadd, ← sum_group_newWeight]
  refine tsum_congr fun e => ?_
  obtain ⟨a, ha, -⟩ := e.2
  exact arcWeight_reweighted ha

theorem expSum_groupScores_ne_zero {features : FeatureMap} {θ : ColumnVector n}
    {F : VectorFst LogWeight} {q : ℕ} {l : ℤ} (h : (F.group q l).Nonempty) :
    expSum (groupScores features θ F q l) ≠ 0 := by
  obtain ⟨e, he⟩ := h
  intro hzero
  have hmem : EReal.exp (-score features θ e) ∈
      (groupScores features θ F q l).map fun σ : ℝ => EReal.exp σ := by
    rw [groupScores, List.map_map]
    exact List.mem_map.mpr ⟨e, VectorFst.mem_groupArcs.mpr he, rfl⟩
  have := List.sum_eq_zero_iff.mp hzero _ hmem
  simp at this

theorem groupScores_eq_nil {features : FeatureMap} {θ : ColumnVector n} {F : VectorFst LogWeight}
    {q : ℕ} {l : ℤ} (h : ¬ (F.group q l).Nonempty) : groupScores features θ F q l = [] := by
  have hnil : F.groupArcs q l = [] := List.eq_nil_iff_forall_not_mem.mpr fun e he =>
    h ⟨e, VectorFst.mem_groupArcs.mp he⟩
  rw [groupScores, hnil, List.map_nil]

theorem noSpecialValue_nil : NoSpecialValue [] :=
  ⟨by simp, fun pre hp hne => absurd (List.prefix_nil.mp hp) hne⟩

/-- A group is a distribution if and only if its scores avoid the special value. -/
theorem normalised_reweighted_iff {features : FeatureMap} {θ : ColumnVector n}
    {F : VectorFst LogWeight} (hcut : ∀ q l, BelowCutoff (groupScores features θ F q l)) :
    (reweighted logadd (score features θ) F).Normalised
        (reweighted logadd (score features θ) F).arcWeight ↔
      ∀ q l, NoSpecialValue (groupScores features θ F q l) := by
  have hone {q : ℕ} {l : ℤ} (h : (F.group q l).Nonempty) :
      (tsum fun e : F.group q l => (reweighted logadd (score features θ) F).arcWeight e) = 1 ↔
        NoSpecialValue (groupScores features θ F q l) := by
    rw [sum_group_reweighted, mul_inv_eq_one_iff (expSum_groupScores_ne_zero h) (expSum_ne_top _)]
    exact exp_runningTotal_iff (hcut q l)
  constructor
  · intro h q l
    have hq := h q l
    rw [group_reweighted] at hq
    by_cases hne : (F.group q l).Nonempty
    · exact (hone hne).mp (hq hne)
    · rw [groupScores_eq_nil hne]
      exact noSpecialValue_nil
  · intro h q l
    rw [group_reweighted]
    exact fun hne => (hone hne).mpr (h q l)

/-- With `logadd` as it is, the reweighted arcs of every group form a distribution if
and only if `logadd` does not meet its special value in any group. -/
theorem normalised_iff (t : TrainerLocal n) (θ : ColumnVector n)
    (hrows : Rows t.features t.fst.numArcs n) (hlabels : LabelsBelow t.fst t.symbolBound)
    (hcut : ∀ q l, BelowCutoff (groupScores t.features θ t.fst q l)) :
    ∃ t', t.updateArcWeights logadd θ = some t' ∧ (t'.fst.Normalised t'.fst.arcWeight ↔
      ∀ q l, NoSpecialValue (groupScores t.features θ t.fst q l)) :=
  ⟨_, updateArcWeights_eq logadd t θ hrows hlabels, normalised_reweighted_iff hcut⟩

/-! ### Scores of a small total -/

theorem sum_exp_mono {σs pre : List ℝ} (h : pre <+: σs) :
    (pre.map Real.exp).sum ≤ (σs.map Real.exp).sum := by
  obtain ⟨suf, rfl⟩ := h
  rw [List.map_append, List.sum_append]
  refine le_add_of_nonneg_right (List.sum_nonneg fun x hx => ?_)
  obtain ⟨y, -, rfl⟩ := List.mem_map.mp hx
  exact (Real.exp_pos y).le

theorem noSpecialValue_of_sum_lt {σs : List ℝ} (h : (σs.map Real.exp).sum < Real.exp 1) :
    NoSpecialValue σs := by
  refine ⟨fun σ hσ hone => ?_, fun pre hpre _ => ((sum_exp_mono hpre).trans_lt h).ne⟩
  subst hone
  refine (List.single_le_sum (fun x hx => ?_) _ (List.mem_map_of_mem hσ)).not_gt h
  obtain ⟨y, -, rfl⟩ := List.mem_map.mp hx
  exact (Real.exp_pos y).le

/-- A total of at most `e` over scores that are not too small stays below the cutoff. -/
theorem belowCutoff_of_sum_le {σs : List ℝ} (hlow : ∀ σ ∈ σs, -400 ≤ σ)
    (hsum : (σs.map Real.exp).sum ≤ Real.exp 1) : BelowCutoff σs := by
  induction σs using List.reverseRecOn with
  | nil => exact ⟨fun pre σ hpre => absurd (List.prefix_nil.mp hpre) (by simp)⟩
  | append_singleton σs σ ih =>
    have hinit : (σs.map Real.exp).sum ≤ Real.exp 1 :=
      (sum_exp_mono (List.prefix_append σs [σ])).trans hsum
    have hbelow := ih (fun τ hτ => hlow τ (List.mem_append_left _ hτ)) hinit
    have htotal : runningTotal σs ≤ 1 := by
      refine EReal.exp_le_exp_iff.mp ((exp_runningTotal_le hbelow).trans ?_)
      rw [expSum_eq_ofReal]
      exact ENNReal.ofReal_le_ofReal hinit
    refine ⟨fun pre τ hpre => ?_⟩
    rcases List.prefix_concat_iff.mp hpre with heq | hpre
    · obtain ⟨rfl, hτ⟩ := List.append_inj' heq rfl
      obtain rfl := List.singleton_injective hτ
      have hτ : (-400 : ℝ) ≤ τ := hlow τ (List.mem_append_right _ (List.mem_singleton_self τ))
      calc runningTotal pre - τ ≤ 1 - ((-400 : ℝ) : EReal) :=
            EReal.sub_le_sub htotal (EReal.coe_le_coe_iff.mpr hτ)
        _ < 500 := by
            rw [← EReal.coe_one, ← EReal.coe_sub]
            exact EReal.coe_lt_coe_iff.mpr (by norm_num : (1 : ℝ) - -400 < 500)
    · exact hbelow.diff_lt pre τ hpre

/-- Two arcs that read the symbol 1 and an arc that reads the symbol 2. -/
noncomputable def threeArcs : TrainerLocal 2 where
  fst := ⟨some 0, [⟨none, [⟨1, 1, 1, 1⟩, ⟨1, 2, 1, 1⟩, ⟨2, 1, 1, 1⟩]⟩, ⟨some 1, []⟩]⟩
  fstFeature := .empty
  dataFormatted := []
  dataFormattedFeatures := []
  features := [[0], [0, 1], [1]]
  weights := [0, 0]
  numArcs := 3
  symbolBound := 3
  regularizationCoefficient := 0
  observedCounts := [negDblMax, negDblMax, negDblMax]
  expectedCounts := [negDblMax, negDblMax, negDblMax]

def threeArcsWeights : ColumnVector 2 := fun _ => 1

theorem rows_threeArcs : Rows threeArcs.features threeArcs.fst.numArcs 2 := by
  intro e he
  match e, he with
  | 0, _ => exact ⟨[0], rfl, by decide⟩
  | 1, _ => exact ⟨[0, 1], rfl, by decide⟩
  | 2, _ => exact ⟨[1], rfl, by decide⟩

theorem labels_threeArcs : LabelsBelow threeArcs.fst threeArcs.symbolBound := by
  refine labelsBelow_iff_states.mpr fun s hs a ha => ?_
  rcases List.mem_cons.mp hs with rfl | hs
  · simp only [List.mem_cons, List.not_mem_nil, or_false] at ha
    rcases ha with rfl | rfl | rfl <;> exact ⟨by norm_num, by norm_num [threeArcs]⟩
  · obtain rfl := List.mem_singleton.mp hs
    exact absurd ha List.not_mem_nil

/-- With weight 1 for each feature the sums of the arcs are 1, 2 and 1. -/
theorem score_threeArcs {e : ℕ} (he : e < threeArcs.fst.numArcs) :
    1 ≤ score threeArcs.features threeArcsWeights e ∧
      score threeArcs.features threeArcsWeights e ≤ 2 := by
  match e, he with
  | 0, _ => norm_num [score, firings, threeArcs, threeArcsWeights]
  | 1, _ => norm_num [score, firings, threeArcs, threeArcsWeights]
  | 2, _ => norm_num [score, firings, threeArcs, threeArcsWeights]

theorem groupScores_threeArcs (q : ℕ) (l : ℤ) :
    (∀ σ ∈ groupScores threeArcs.features threeArcsWeights threeArcs.fst q l, -400 ≤ σ) ∧
      ((groupScores threeArcs.features threeArcsWeights threeArcs.fst q l).map Real.exp).sum <
        Real.exp 1 := by
  have hmem : ∀ σ ∈ groupScores threeArcs.features threeArcsWeights threeArcs.fst q l, -2 ≤ σ ∧
      σ ≤ -1 := by
    intro σ hσ
    obtain ⟨e, he, rfl⟩ := List.mem_map.mp hσ
    have hscore := score_threeArcs
      (VectorFst.lt_numArcs_of_mem_group (VectorFst.mem_groupArcs.mp he))
    exact ⟨neg_le_neg hscore.2, neg_le_neg hscore.1⟩
  refine ⟨fun σ hσ => by linarith [(hmem σ hσ).1], ?_⟩
  have hlen : (groupScores threeArcs.features threeArcsWeights threeArcs.fst q l).length ≤ 3 := by
    rw [groupScores, List.length_map]
    exact threeArcs.fst.length_groupArcs_le q l
  calc ((groupScores threeArcs.features threeArcsWeights threeArcs.fst q l).map Real.exp).sum
      ≤ (groupScores threeArcs.features threeArcsWeights threeArcs.fst q l).length •
        Real.exp (-1) := by
        rw [← List.length_map (f := Real.exp)]
        refine List.sum_le_card_nsmul _ _ fun x hx => ?_
        obtain ⟨σ, hσ, rfl⟩ := List.mem_map.mp hx
        exact Real.exp_le_exp.mpr (hmem σ hσ).2
    _ ≤ 3 • Real.exp (-1) := nsmul_le_nsmul_left (Real.exp_pos _).le hlen
    _ < Real.exp 1 := by
        have hone : 1 + 1 < Real.exp 1 := Real.add_one_lt_exp one_ne_zero
        have hinv : Real.exp (-1) * Real.exp 1 =
            1 := by rw [← Real.exp_add, neg_add_cancel, Real.exp_zero]
        rw [nsmul_eq_mul]
        push_cast
        nlinarith [Real.exp_pos (-1)]

theorem normalised_threeArcs :
    ∃ t', threeArcs.updateArcWeights logadd threeArcsWeights = some t' ∧
      t'.fst.Normalised t'.fst.arcWeight := by
  obtain ⟨t', ht, hiff⟩ := normalised_iff threeArcs threeArcsWeights rows_threeArcs labels_threeArcs
    fun q l => belowCutoff_of_sum_le (groupScores_threeArcs q l).1 (groupScores_threeArcs q l).2.le
  exact ⟨t', ht, hiff.mpr fun q l => noSpecialValue_of_sum_lt (groupScores_threeArcs q l).2⟩

/-! ### A single arc -/

theorem belowCutoff_of_length_le_one {σs : List ℝ} (h : σs.length ≤ 1) : BelowCutoff σs := by
  refine ⟨fun pre σ hpre => ?_⟩
  have hlen := hpre.length_le
  rw [List.length_append, List.length_singleton] at hlen
  obtain rfl : pre = [] := List.length_eq_zero_iff.mp (by omega)
  show (⊥ : EReal) - σ < 500
  rw [EReal.bot_sub]
  exact EReal.bot_lt_coe 500

/-- One arc from state 0 to the final state 1. -/
noncomputable def oneArc : VectorFst LogWeight :=
  ⟨some 0, [⟨none, [⟨1, 1, 1, 1⟩]⟩, ⟨some 1, []⟩]⟩

/-- One feature, which fires on the arc. -/
noncomputable def oneArcTrainer : TrainerLocal 1 where
  fst := oneArc
  fstFeature := .empty
  dataFormatted := []
  dataFormattedFeatures := []
  features := [[0]]
  weights := [0]
  numArcs := 1
  symbolBound := 2
  regularizationCoefficient := 0
  observedCounts := [negDblMax]
  expectedCounts := [negDblMax]

theorem oneArc_rows : Rows oneArcTrainer.features oneArcTrainer.fst.numArcs 1 := by
  intro e he
  obtain rfl : e = 0 := Nat.lt_one_iff.mp he
  exact ⟨[0], rfl, by decide⟩

theorem oneArc_arc? {e q : ℕ} {a : Arc LogWeight} (h : oneArc.arc? e = some (q, a)) :
    e = 0 ∧ q = 0 ∧ a = ⟨1, 1, 1, 1⟩ := by
  have he : e < 1 := VectorFst.lt_numArcs_of_arc? h
  obtain rfl : e = 0 := Nat.lt_one_iff.mp he
  obtain ⟨rfl, rfl⟩ := Prod.mk.inj (Option.some.inj h)
  exact ⟨rfl, rfl, rfl⟩

theorem oneArc_labels : LabelsBelow oneArcTrainer.fst oneArcTrainer.symbolBound := by
  intro e q a h
  obtain ⟨-, -, rfl⟩ := oneArc_arc? h
  exact ⟨by norm_num, by norm_num [oneArcTrainer]⟩

theorem oneArc_cutoff (θ : ColumnVector 1) (q : ℕ) (l : ℤ) :
    BelowCutoff (groupScores oneArcTrainer.features θ oneArcTrainer.fst q l) := by
  apply belowCutoff_of_length_le_one
  rw [groupScores, List.length_map]
  exact oneArcTrainer.fst.length_groupArcs_le q l

theorem oneArc_groupScores (θ : ColumnVector 1) :
    groupScores oneArcTrainer.features θ oneArcTrainer.fst 0 1 = [-θ 0] := by
  have harcs : oneArcTrainer.fst.groupArcs 0 1 = [0] := rfl
  rw [groupScores, harcs]
  simp [score, firings, oneArcTrainer]

/-- The score 1.0 is taken for an empty total. -/
theorem not_normalised_of_score_one : ¬ ∀ (n : ℕ) (t : TrainerLocal n) (θ : ColumnVector n),
    Rows t.features t.fst.numArcs n → LabelsBelow t.fst t.symbolBound →
    (∀ q l, BelowCutoff (groupScores t.features θ t.fst q l)) →
    ∃ t', t.updateArcWeights logadd θ = some t' ∧ t'.fst.Normalised t'.fst.arcWeight := by
  intro h
  obtain ⟨t', ht, hnorm⟩ :=
    h 1 oneArcTrainer (fun _ => -1) oneArc_rows oneArc_labels (oneArc_cutoff _)
  rw [updateArcWeights_eq logadd _ _ oneArc_rows oneArc_labels] at ht
  obtain rfl := Option.some.inj ht
  have hspecial := (normalised_reweighted_iff (oneArc_cutoff _)).mp hnorm 0 1
  rw [oneArc_groupScores] at hspecial
  exact hspecial.1 _ (List.mem_singleton_self _) (by norm_num)

end StochasticEdit.Trainer
