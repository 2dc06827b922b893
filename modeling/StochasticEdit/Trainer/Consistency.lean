import StochasticEdit.Trainer.Objective

/-! Whether `gradient2` is the gradient of `value2`. By Fisher's identity the
likelihood term of `gradient2` is right for the counts of an E-step at the same weights.
With the counts of another E-step it is right wherever the posteriors are the same. -/

namespace StochasticEdit.Trainer

open Wfst Estimation
open scoped ENNReal

variable {n : ℕ} {comp : Composer} {F : VectorFst LogWeight} {t : TrainerLocal n}

/-- `g` is the vector of the partial derivatives of `V` at `θ`. -/
def IsGradient (V : ColumnVector n → ℝ) (θ g : ColumnVector n) : Prop :=
  ∀ k, HasDerivAt (fun x => V (Function.update θ k x)) (g k) (θ k)

/-! ### Derivatives along a curve -/

section Curve
variable {γ : ℝ → ColumnVector n} {γ' : ColumnVector n} {x : ℝ}

theorem hasDerivAt_score (features : FeatureMap)
    (hγ : ∀ i, HasDerivAt (fun y => γ y i) (γ' i) x) (a : ℕ) :
    HasDerivAt (fun y => score features (γ y) a) (score features γ' a) x :=
  HasDerivAt.fun_sum fun i _ => (hγ i).const_mul _

theorem hasDerivAt_dotProduct (hγ : ∀ i, HasDerivAt (fun y => γ y i) (γ' i) x) :
    HasDerivAt (fun y => γ y ⬝ᵥ γ y) (2 * (γ x ⬝ᵥ γ')) x := by
  have hsum : HasDerivAt (fun y => γ y ⬝ᵥ γ y) (∑ i, (γ' i * γ x i + γ x i * γ' i)) x :=
    HasDerivAt.fun_sum fun i _ => (hγ i).mul (hγ i)
  refine hsum.congr_deriv ?_
  rw [dotProduct, Finset.mul_sum]
  exact Finset.sum_congr rfl fun i _ => by ring

/-- The slope of the likelihood term that the counts `c` predict, in direction `v`. -/
noncomputable def slope (F : VectorFst LogWeight) (features : FeatureMap) (c : ℕ → ℝ)
    (θ v : ColumnVector n) :
    ℝ := ∑ a ∈ arcIds F, score features v a * (c a - expectedCount F features θ c a)

/-- The derivative of an arc weight. -/
noncomputable def arcSlope (F : VectorFst LogWeight) (features : FeatureMap)
    (θ v : ColumnVector n) (a : ℕ) :
    ℝ := score features v a - ∑ b ∈ rivals (arcIds F) (groupKey F) a,
      localProb (arcIds F) (groupKey F) (score features θ) b * score features v b

theorem hasDerivAt_arcCost (features : FeatureMap) (hγ : ∀ i, HasDerivAt (fun y => γ y i) (γ' i) x)
    {a : ℕ} (ha : a ∈ arcIds F) : HasDerivAt (fun y => arcCost F features (γ y) a)
      (arcSlope F features (γ x) γ' a) x :=
  hasDerivAt_localWeight ha fun b _ => hasDerivAt_score features hγ b

theorem sum_mul_arcSlope (features : FeatureMap) (c : ℕ → ℝ) (θ v : ColumnVector n) :
    ∑ a ∈ arcIds F, c a * arcSlope F features θ v a = slope F features c θ v :=
  sum_counts_mul _ _ _

theorem IsTrainer.hasDerivAt_objective (h : IsTrainer comp F t)
    (hγ : ∀ i, HasDerivAt (fun y => γ y i) (γ' i) x) : HasDerivAt (fun y => h.objective (γ y))
      ((slope F t.features (h.countsAt (γ x)) (γ x) γ' +
        t.regularizationCoefficient * (2 * (γ x ⬝ᵥ γ'))) / t.dataFormatted.length) x := by
  have hloss : HasDerivAt (fun y => totalLoss (arcIds F) h.latticesOf (arcCost F t.features (γ y)))
      (slope F t.features (h.countsAt (γ x)) (γ x) γ') x := by
    rw [← sum_mul_arcSlope]
    exact hasDerivAt_totalLoss fun a ha => hasDerivAt_arcCost t.features hγ ha
  exact (hloss.add ((hasDerivAt_dotProduct hγ).const_mul _)).div_const _

end Curve

/-! ### Partial derivatives -/

theorem hasDerivAt_update (θ : ColumnVector n) (k i : Fin n) :
    HasDerivAt (fun y => Function.update θ k y i) ((Pi.single k 1 : ColumnVector n) i) (θ k) := by
  by_cases hi : i = k
  · subst hi
    simpa using hasDerivAt_id' (θ i)
  · simpa [hi] using hasDerivAt_const (θ k) (θ i)

theorem score_single (features : FeatureMap) (k : Fin n) (a : ℕ) :
    score features (Pi.single k 1) a = firings features n a k := by
  simp [score, Pi.single_apply]

/-- The partial derivatives of the objective. -/
noncomputable def IsTrainer.partials (h : IsTrainer comp F t) (θ : ColumnVector n) :
    ColumnVector n := fun k =>
  (slope F t.features (h.countsAt θ) θ (Pi.single k 1) + t.regularizationCoefficient * (2 * θ k)) /
    t.dataFormatted.length

theorem IsTrainer.isGradient_partials (h : IsTrainer comp F t) (θ : ColumnVector n) :
    IsGradient h.objective θ (h.partials θ) := by
  intro k
  have hderiv := h.hasDerivAt_objective (hasDerivAt_update θ k)
  rw [Function.update_eq_self, dotProduct_single_one] at hderiv
  exact hderiv

/-- `gradient2` has the slope that its counts predict, and half of the derivative of the
penalty. -/
theorem gradientFor_eq (N : ℕ) (F : VectorFst LogWeight) (t : TrainerLocal n) (c : ℕ → ℝ)
    (θ : ColumnVector n) (k : Fin n) :
    gradientFor N F t c θ k =
      (slope F t.features c θ (Pi.single k 1) + t.regularizationCoefficient * θ k) / N := by
  rw [gradientFor, slope, add_div, Finset.sum_div, add_comm]
  congr 1
  · refine Finset.sum_congr rfl fun a _ => ?_
    rw [score_single]
    ring
  · ring

theorem gradientAt_eq (F : VectorFst LogWeight) (t : TrainerLocal n) (c : ℕ → ℝ)
    (θ : ColumnVector n) (k : Fin n) :
    gradientAt F t c θ k = (slope F t.features c θ (Pi.single k 1) + t.regularizationCoefficient *
      θ k) / t.dataFormatted.length :=
  gradientFor_eq t.dataFormatted.length F t c θ k

theorem IsGradient.unique {V : ColumnVector n → ℝ} {θ g g' : ColumnVector n} (h : IsGradient V θ g)
    (k : Fin n) :
    HasDerivAt (fun x => V (Function.update θ k x)) (g' k) (θ k) ↔ g' k = g k := by
  constructor
  · exact fun h' => h'.unique (h k)
  · intro heq
    rw [heq]
    exact h k

/-- The trainer after an E-step at `θ₀`: the objective is the old one, and the gradients
use the counts of `θ₀`. -/
theorem IsTrainer.afterEStep (h : IsTrainer comp F t) (θ₀ : ColumnVector n) :
    ∃ t₁ t₂, t.updateArcWeights logsum θ₀ = some t₁ ∧ t₁.eStep logsum comp = some t₂ ∧
      (∀ θ, ∃ t', t₂.value2 logsum comp θ = some ((h.objective θ : EReal), t')) ∧
      ∀ θ, ∃ t', t₂.gradient2 logsum θ = some (gradientAt F t (h.countsAt θ₀) θ, t') := by
  obtain ⟨counts, hstep, hlen, htally⟩ := h.eStep_eq θ₀
  have h₂ := (h.reweighted θ₀).observe hlen
  refine ⟨_, _, h.updateArcWeights θ₀, hstep, fun θ => ⟨_, h₂.value2_eq θ⟩, fun θ => ?_⟩
  obtain ⟨t', hgradient, -⟩ := h₂.gradient2_eq θ (totalCounts_nonneg _ _ _) htally
  exact ⟨t', hgradient⟩

/-! ### Counts of the same weights -/

theorem IsTrainer.length_pos (h : IsTrainer comp F t) : (0 : ℝ) < t.dataFormatted.length :=
  Nat.cast_pos.mpr (List.length_pos_iff.mpr h.nonempty)

theorem IsTrainer.gradientAt_eq_partials_iff (h : IsTrainer comp F t) (θ : ColumnVector n)
    (k : Fin n) :
    gradientAt F t (h.countsAt θ) θ k = h.partials θ k ↔ t.regularizationCoefficient * θ k = 0 := by
  rw [gradientAt_eq, IsTrainer.partials, div_left_inj' h.length_pos.ne', add_right_inj]
  constructor
  · intro heq
    linarith
  · intro heq
    linarith

/-- After an E-step at `θ` a component of `gradient2` is the partial derivative of
`value2` if and only if the penalty has no slope there. -/
theorem gradient_eq_derivative_iff (h : IsTrainer comp F t) (θ : ColumnVector n) :
    ∃ (t₁ t₂ t₃ : TrainerLocal n) (g : ColumnVector n) (V : ColumnVector n → ℝ),
      t.updateArcWeights logsum θ = some t₁ ∧ t₁.eStep logsum comp = some t₂ ∧
      t₂.gradient2 logsum θ = some (g, t₃) ∧
      (∀ θ', ∃ t', t₂.value2 logsum comp θ' = some ((V θ' : EReal), t')) ∧
      ∀ k, HasDerivAt (fun x => V (Function.update θ k x)) (g k) (θ k) ↔
        t.regularizationCoefficient * θ k = 0 := by
  obtain ⟨t₁, t₂, hupdate, hstep, hvalue, hgradient⟩ := h.afterEStep θ
  obtain ⟨t₃, ht₃⟩ := hgradient θ
  refine ⟨t₁, t₂, t₃, _, _, hupdate, hstep, ht₃, hvalue, fun k => ?_⟩
  exact ((h.isGradient_partials θ).unique k).trans (h.gradientAt_eq_partials_iff θ k)

theorem gradient_eq_derivative_twoArcs :
    ∃ (t₁ t₂ t₃ : TrainerLocal 1) (g : ColumnVector 1) (V : ColumnVector 1 → ℝ),
      (twoArcsTrainer 1).updateArcWeights logsum 0 = some t₁ ∧
      t₁.eStep logsum composeParallel = some t₂ ∧ t₂.gradient2 logsum 0 = some (g, t₃) ∧
      (∀ θ', ∃ t', t₂.value2 logsum composeParallel θ' = some ((V θ' : EReal), t')) ∧
      IsGradient V 0 g := by
  obtain ⟨t₁, t₂, t₃, g, V, hupdate, hstep, hgradient, hvalue, hiff⟩ :=
    gradient_eq_derivative_iff (isTrainer_twoArcs 1) 0
  exact ⟨t₁, t₂, t₃, g, V, hupdate, hstep, hgradient, hvalue, fun k => (hiff k).mpr (mul_zero _)⟩

/-- The penalty `θ ⬝ᵥ θ` has twice the slope that `gradient2` adds. -/
theorem gradient_ne_derivative :
    ¬ ∀ (n : ℕ) (comp : Composer) (F : VectorFst LogWeight) (t : TrainerLocal n)
    (θ : ColumnVector n), IsTrainer comp F t → ∀ t₁ t₂ t₃ g (V : ColumnVector n → ℝ),
      t.updateArcWeights logsum θ = some t₁ → t₁.eStep logsum comp = some t₂ →
      t₂.gradient2 logsum θ = some (g, t₃) →
      (∀ θ', ∃ t', t₂.value2 logsum comp θ' = some ((V θ' : EReal), t')) → IsGradient V θ g := by
  intro hall
  have h := isTrainer_twoArcs 1
  obtain ⟨t₁, t₂, hupdate, hstep, hvalue, hgradient⟩ := h.afterEStep fun _ => 1
  obtain ⟨t₃, ht₃⟩ := hgradient fun _ => 1
  have hderiv := hall _ _ _ _ _ h t₁ t₂ t₃ _ _ hupdate hstep ht₃ hvalue 0
  rw [(h.isGradient_partials fun _ => 1).unique 0, h.gradientAt_eq_partials_iff] at hderiv
  norm_num [twoArcsTrainer] at hderiv

/-! ### Counts of other weights -/

/-- Under `θ` and `θ₀` any two accepting paths of a training lattice have the same ratio
of weights. -/
def SameRatios (comp : Composer) (t : TrainerLocal n) (θ θ₀ : ColumnVector n) : Prop :=
  ∀ t' t₀', t.updateArcWeights logsum θ = some t' → t.updateArcWeights logsum θ₀ = some t₀' →
    ∀ exemplar ∈ t.dataFormatted, ∀ p p',
      (logLattice comp t'.fst exemplar).value p * (logLattice comp t₀'.fst exemplar).value p' =
        (logLattice comp t₀'.fst exemplar).value p * (logLattice comp t'.fst exemplar).value p'

theorem IsTrainer.sameRatios_iff (h : IsTrainer comp F t) (θ θ₀ : ColumnVector n) :
    SameRatios comp t θ θ₀ ↔ ∀ L ∈ h.latticesOf, ∀ p ∈ L.paths,
      L.posterior (arcIds F) (arcCost F t.features θ) p =
        L.posterior (arcIds F) (arcCost F t.features θ₀) p := by
  have hw (θ : ColumnVector n) : ∀ a ∈ arcIds F, newWeight logsum (score t.features θ) F a =
      ENNReal.ofReal (Real.exp (-arcCost F t.features θ a)) :=
    fun a ha => newWeight_logsum (score t.features θ) ha
  constructor
  · intro hratios L hL
    obtain ⟨exemplar, hmem, rfl⟩ := List.mem_pmap.mp hL
    rw [(h.exemplars exemplar hmem).posterior_eq_iff (hw θ) (hw θ₀)]
    exact hratios _ _ (h.updateArcWeights θ) (h.updateArcWeights θ₀) exemplar hmem
  · intro hposterior t' t₀' ht ht₀ exemplar hmem
    obtain rfl := Option.some.inj ((h.updateArcWeights θ).symm.trans ht)
    obtain rfl := Option.some.inj ((h.updateArcWeights θ₀).symm.trans ht₀)
    exact ((h.exemplars exemplar hmem).posterior_eq_iff (hw θ) (hw θ₀)).mp
      (hposterior _ (List.mem_pmap.mpr ⟨exemplar, hmem, rfl⟩))

theorem IsTrainer.countsAt_eq (h : IsTrainer comp F t) {θ θ₀ : ColumnVector n}
    (hratios : SameRatios comp t θ θ₀) :
    h.countsAt θ = h.countsAt θ₀ := by
  funext a
  have hposterior := (h.sameRatios_iff θ θ₀).mp hratios
  refine congrArg List.sum (List.map_congr_left fun L hL => ?_)
  exact Finset.sum_congr rfl fun p hp => by rw [hposterior L hL p hp]

theorem slope_eq_sum (features : FeatureMap) (c : ℕ → ℝ) (θ v : ColumnVector n) :
    slope F features c θ v = ∑ k, v k * slope F features c θ (Pi.single k 1) := by
  simp only [slope, score_single, Finset.mul_sum]
  rw [Finset.sum_comm]
  refine Finset.sum_congr rfl fun a _ => ?_
  rw [score, Finset.sum_mul]
  exact Finset.sum_congr rfl fun k _ => by ring

/-- Without the penalty: the gradient with the counts of `θ₀` is right at `θ` if and only
if they predict the slope that the counts of `θ` predict. -/
theorem IsTrainer.isGradient_at_iff (h : IsTrainer comp F t)
    (hzero : t.regularizationCoefficient = 0) (θ₀ θ : ColumnVector n) :
    IsGradient h.objective θ (gradientAt F t (h.countsAt θ₀) θ) ↔
      ∀ k, slope F t.features (h.countsAt θ₀) θ (Pi.single k 1) =
        slope F t.features (h.countsAt θ) θ (Pi.single k 1) := by
  have hcomponent (k : Fin n) : gradientAt F t (h.countsAt θ₀) θ k = h.partials θ k ↔
      slope F t.features (h.countsAt θ₀) θ (Pi.single k 1) =
        slope F t.features (h.countsAt θ) θ (Pi.single k 1) := by
    rw [gradientAt_eq, IsTrainer.partials, div_left_inj' h.length_pos.ne', hzero,
      zero_mul, zero_mul, add_zero, add_zero]
  exact forall_congr' fun k => ((h.isGradient_partials θ).unique k).trans (hcomponent k)

theorem IsTrainer.isGradient_of_sameRatios (h : IsTrainer comp F t)
    (hzero : t.regularizationCoefficient = 0) {θ₀ θ : ColumnVector n}
    (hratios : SameRatios comp t θ θ₀) :
    IsGradient h.objective θ (gradientAt F t (h.countsAt θ₀) θ) := by
  rw [h.isGradient_at_iff hzero, h.countsAt_eq hratios]
  exact fun _ => rfl

/-- The gradients with the counts of `θ₀` are right everywhere if and only if no
posterior ever moves. -/
theorem IsTrainer.isGradient_iff (h : IsTrainer comp F t) (hzero : t.regularizationCoefficient = 0)
    (θ₀ : ColumnVector n) : (∀ θ, IsGradient h.objective θ (gradientAt F t (h.countsAt θ₀) θ)) ↔
      ∀ θ, SameRatios comp t θ θ₀ := by
  constructor
  · intro hall θ
    rw [h.sameRatios_iff]
    -- the slopes agree along the segment from `θ₀` to `θ`
    let γ : ℝ → ColumnVector n := fun x => θ₀ + x • (θ - θ₀)
    have hγ (x : ℝ) (i : Fin n) : HasDerivAt (fun y => γ y i) ((θ - θ₀) i) x := by
      have hline := ((hasDerivAt_id' x).mul_const ((θ - θ₀) i)).const_add (θ₀ i)
      rwa [one_mul] at hline
    have hγ₀ : γ 0 = θ₀ := by simp [γ]
    have hγ₁ : γ 1 = θ := by simp [γ]
    have hslope (x : ℝ) : slope F t.features (h.countsAt (γ x)) (γ x) (θ - θ₀) =
        slope F t.features (h.countsAt θ₀) (γ x) (θ - θ₀) := by
      rw [slope_eq_sum, slope_eq_sum t.features (h.countsAt θ₀)]
      refine Finset.sum_congr rfl fun k _ => ?_
      rw [(h.isGradient_at_iff hzero θ₀ (γ x)).mp (hall (γ x)) k]
    have hposterior := @posterior_eq_of_slope _ _ (arcIds F) h.latticesOf
      (fun x => arcCost F t.features (γ x)) (fun x => arcSlope F t.features (γ x) (θ - θ₀))
      (fun x a ha => hasDerivAt_arcCost t.features (hγ x) ha)
      (fun x => by
        rw [sum_mul_arcSlope, sum_mul_arcSlope]
        show slope F t.features (h.countsAt (γ x)) (γ x) (θ - θ₀) =
          slope F t.features (h.countsAt (γ 0)) (γ x) (θ - θ₀)
        rw [hγ₀]
        exact hslope x) 1
    simpa only [hγ₀, hγ₁] using hposterior
  · exact fun hratios θ => h.isGradient_of_sameRatios hzero (hratios θ)

/-- Without the penalty: after an E-step at `θ₀` the gradient is right at `θ₀`, it is right
wherever the accepting paths of each training lattice have the ratios they have at `θ₀`,
and it is right at all weights only if they have them at all weights. -/
theorem gradient_consistent_iff (h : IsTrainer comp F t) (hzero : t.regularizationCoefficient = 0)
    (θ₀ : ColumnVector n) :
    ∃ (t₁ t₂ : TrainerLocal n) (G : ColumnVector n → ColumnVector n) (V : ColumnVector n → ℝ),
      t.updateArcWeights logsum θ₀ = some t₁ ∧ t₁.eStep logsum comp = some t₂ ∧
      (∀ θ, ∃ t', t₂.gradient2 logsum θ = some (G θ, t')) ∧
      (∀ θ, ∃ t', t₂.value2 logsum comp θ = some ((V θ : EReal), t')) ∧ IsGradient V θ₀ (G θ₀) ∧
      (∀ θ, SameRatios comp t θ θ₀ → IsGradient V θ (G θ)) ∧
      ((∀ θ, IsGradient V θ (G θ)) ↔ ∀ θ, SameRatios comp t θ θ₀) := by
  obtain ⟨t₁, t₂, hupdate, hstep, hvalue, hgradient⟩ := h.afterEStep θ₀
  refine ⟨t₁, t₂, _, _, hupdate, hstep, hgradient, hvalue, fun k => ?_,
    fun θ hratios => h.isGradient_of_sameRatios hzero hratios, h.isGradient_iff hzero θ₀⟩
  rw [(h.isGradient_partials θ₀).unique k, h.gradientAt_eq_partials_iff, hzero, zero_mul]

theorem gradient_consistent_twoArcs :
    ∃ (t₁ t₂ : TrainerLocal 1) (G : ColumnVector 1 → ColumnVector 1) (V : ColumnVector 1 → ℝ),
      (twoArcsTrainer 0).updateArcWeights logsum 0 = some t₁ ∧
      t₁.eStep logsum composeParallel = some t₂ ∧
        (∀ θ, ∃ t', t₂.gradient2 logsum θ = some (G θ, t')) ∧
      (∀ θ, ∃ t', t₂.value2 logsum composeParallel θ = some ((V θ : EReal), t')) ∧
        IsGradient V 0 (G 0) ∧
      (∀ θ, SameRatios composeParallel (twoArcsTrainer 0) θ 0 → IsGradient V θ (G θ)) ∧
      ((∀ θ, IsGradient V θ (G θ)) ↔ ∀ θ, SameRatios composeParallel (twoArcsTrainer 0) θ 0) :=
  gradient_consistent_iff (isTrainer_twoArcs 0) rfl 0

/-! ### Two arcs that compete -/

theorem rivals_twoArcs {e : ℕ} (he : e < 2) :
    rivals (arcIds twoArcs) (groupKey twoArcs) e = {0, 1} := by
  have harc : twoArcs.arc? e = some (0, ⟨1, 1, 1, 1⟩) := by
    rw [twoArcs, arc?_parallel]
    obtain rfl | rfl : e = 0 ∨ e = 1 := by omega
    · rfl
    · rfl
  rw [rivals_eq harc]
  rfl

/-- The scores of the two arcs. -/
theorem score_twoArcs (lambda : ℝ) (θ : ColumnVector 1) :
    score (twoArcsTrainer lambda).features θ 0 = θ 0 ∧
    score (twoArcsTrainer lambda).features θ 1 = 0 := by
  simp [score, firings, twoArcsTrainer]

theorem arcCost_twoArcs (θ : ColumnVector 1) : arcCost twoArcs (twoArcsTrainer 0).features θ 0 -
    arcCost twoArcs (twoArcsTrainer 0).features θ 1 = θ 0 := by
  rw [arcCost, localWeight, localWeight, rivals_twoArcs Nat.two_pos, rivals_twoArcs Nat.one_lt_two,
    (score_twoArcs 0 θ).1, (score_twoArcs 0 θ).2]
  ring

/-- Different weights change the ratio of the two paths. -/
theorem eq_of_sameRatios_twoArcs {θ θ₀ : ColumnVector 1}
    (h : SameRatios composeParallel (twoArcsTrainer 0) θ θ₀) : θ 0 = θ₀ 0 := by
  have hvalue (θ : ColumnVector 1) {e : ℕ} (he : e < 2) :
      (logLattice composeParallel (reweightedTrainer twoArcs (twoArcsTrainer 0) θ).fst
        (oneSymbol, oneSymbol)).value [e] =
      ENNReal.ofReal (Real.exp (-arcCost twoArcs (twoArcsTrainer 0).features θ e)) := by
    have hmem : e ∈ arcIds twoArcs := Finset.mem_range.mpr he
    refine Eq.trans ?_ (newWeight_logsum (score (twoArcsTrainer 0).features θ) hmem)
    show (logLattice composeParallel (weighted twoArcs _) (oneSymbol, oneSymbol)).value [e] = _
    rw [logLattice_twoArcs]
    match e, he with
    | 0, _ => exact value_parallel rfl
    | 1, _ => exact value_parallel rfl
  have hcross := h _ _ ((isTrainer_twoArcs 0).updateArcWeights θ)
    ((isTrainer_twoArcs 0).updateArcWeights θ₀)
    _ (List.mem_singleton_self _) [0] [1]
  rw [hvalue θ Nat.two_pos, hvalue θ₀ Nat.one_lt_two, hvalue θ₀ Nat.two_pos,
    hvalue θ Nat.one_lt_two, ← ENNReal.ofReal_mul (Real.exp_pos _).le, ← ENNReal.ofReal_mul
      (Real.exp_pos _).le, ← Real.exp_add,
    ← Real.exp_add, ENNReal.ofReal_eq_ofReal_iff (Real.exp_pos _).le (Real.exp_pos _).le,
    Real.exp_eq_exp] at hcross
  have hθ := arcCost_twoArcs θ
  have hθ₀ := arcCost_twoArcs θ₀
  linarith

theorem paths_twoArcs : exemplar_twoArcs.toLattice.paths = {[0], [1]} := by
  ext p
  refine exemplar_twoArcs.finite.mem_toFinset.trans (accepts_parallel.trans ?_)
  constructor
  · rintro ⟨e, he, rfl⟩
    match e, he with
    | 0, _ => simp
    | 1, _ => simp
  · intro hp
    rcases Finset.mem_insert.mp hp with rfl | hp
    · exact ⟨0, Nat.two_pos, rfl⟩
    · exact ⟨1, Nat.one_lt_two, Finset.mem_singleton.mp hp⟩

/-- The count of an arc is the posterior of its path. -/
theorem counts_twoArcs (ω : ℕ → ℝ) : exemplar_twoArcs.toLattice.counts (arcIds twoArcs) ω 0 =
      exemplar_twoArcs.toLattice.posterior (arcIds twoArcs) ω [0] ∧
    exemplar_twoArcs.toLattice.counts (arcIds twoArcs) ω 1 =
      exemplar_twoArcs.toLattice.posterior (arcIds twoArcs) ω [1] := by
  have huses (e a : ℕ) (he : e < 2) : exemplar_twoArcs.toLattice.uses [e] a = if e = a then 1
      else 0 := by
    have howner : owner composeParallel twoArcs (oneSymbol, oneSymbol) e = e := by
      match e, he with
      | 0, _ => rfl
      | 1, _ => rfl
    show ([owner composeParallel twoArcs (oneSymbol, oneSymbol) e]).count a = _
    rw [howner, List.count_singleton]
    simp [beq_iff_eq]
  have hne : ([0] : List ℕ) ≠ [1] := by decide
  simp [Lattice.counts, paths_twoArcs, Finset.sum_pair hne, huses]

/-- With the counts of `θ₀ ≠ θ` the slope at `θ` is wrong. -/
theorem not_isGradient_twoArcs {θ θ₀ : ColumnVector 1} (hne : θ 0 ≠ θ₀ 0) :
    ¬ IsGradient (isTrainer_twoArcs 0).objective θ
      (gradientAt twoArcs (twoArcsTrainer 0) ((isTrainer_twoArcs 0).countsAt θ₀) θ) := by
  intro hgradient
  have hslope := ((isTrainer_twoArcs 0).isGradient_at_iff rfl θ₀ θ).mp hgradient 0
  have hposterior (v : ColumnVector 1) : exemplar_twoArcs.toLattice.posterior (arcIds twoArcs)
      (arcCost twoArcs (twoArcsTrainer 0).features v) [0] +
        exemplar_twoArcs.toLattice.posterior (arcIds twoArcs)
          (arcCost twoArcs (twoArcsTrainer 0).features v) [1] = 1 := by
    have hsum : ∑ p ∈ exemplar_twoArcs.toLattice.paths, exemplar_twoArcs.toLattice.posterior
        (arcIds twoArcs) (arcCost twoArcs (twoArcsTrainer 0).features v) p = 1 :=
      sum_posterior (exemplar_twoArcs.toLattice.partition_pos _)
    rwa [paths_twoArcs, Finset.sum_pair (by decide)] at hsum
  have hcounts (v : ColumnVector 1) (a : ℕ) : (isTrainer_twoArcs 0).countsAt v a =
      exemplar_twoArcs.toLattice.counts (arcIds twoArcs)
        (arcCost twoArcs (twoArcsTrainer 0).features v) a :=
    add_zero _
  have hvalue (v : ColumnVector 1) :
      slope twoArcs (twoArcsTrainer 0).features ((isTrainer_twoArcs 0).countsAt v)
      θ (Pi.single 0 1) = exemplar_twoArcs.toLattice.posterior (arcIds twoArcs)
        (arcCost twoArcs (twoArcsTrainer 0).features v) [0] -
          localProb (arcIds twoArcs) (groupKey twoArcs)
            (score (twoArcsTrainer 0).features θ) 0 := by
    have hids : arcIds twoArcs = {0, 1} := rfl
    rw [slope, hids, Finset.sum_pair Nat.zero_ne_one, (score_twoArcs 0 _).1,
      (score_twoArcs 0 _).2, zero_mul,
      add_zero, Pi.single_eq_same, one_mul, expectedCount, rivals_twoArcs Nat.two_pos,
      Finset.sum_pair Nat.zero_ne_one, hcounts, hcounts, (counts_twoArcs _).1, (counts_twoArcs _).2,
      hposterior, one_mul]
    rfl
  rw [hvalue, hvalue] at hslope
  have hratios : SameRatios composeParallel (twoArcsTrainer 0) θ θ₀ := by
    rw [(isTrainer_twoArcs 0).sameRatios_iff]
    intro L hL p hp
    obtain rfl : L = exemplar_twoArcs.toLattice := List.mem_singleton.mp hL
    have h₁ := hposterior θ
    have h₀ := hposterior θ₀
    rw [paths_twoArcs] at hp
    rcases Finset.mem_insert.mp hp with rfl | hp
    · linarith
    · rw [Finset.mem_singleton.mp hp]
      linarith
  exact hne (eq_of_sameRatios_twoArcs hratios)

/-- Away from the weights of the E-step `gradient2` need not be the gradient. -/
theorem gradient_not_consistent : ¬ ∀ (n : ℕ) (comp : Composer) (F : VectorFst LogWeight)
    (t : TrainerLocal n) (θ₀ θ : ColumnVector n), IsTrainer comp F t →
    t.regularizationCoefficient = 0 →
      ∀ t₁ t₂ t₃ g (V : ColumnVector n → ℝ), t.updateArcWeights logsum θ₀ = some t₁ →
        t₁.eStep logsum comp = some t₂ → t₂.gradient2 logsum θ = some (g, t₃) →
        (∀ θ', ∃ t', t₂.value2 logsum comp θ' = some ((V θ' : EReal), t')) → IsGradient V θ g := by
  intro hall
  have h := isTrainer_twoArcs 0
  obtain ⟨t₁, t₂, hupdate, hstep, hvalue, hgradient⟩ := h.afterEStep fun _ => 0
  obtain ⟨t₃, ht₃⟩ := hgradient fun _ => 1
  have hderiv := hall _ _ _ _ _ (fun _ => 1) h rfl t₁ t₂ t₃ _ _ hupdate hstep ht₃ hvalue
  exact not_isGradient_twoArcs (by norm_num) hderiv

end StochasticEdit.Trainer
