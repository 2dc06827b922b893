import StochasticEdit.Trainer.Gradient

/-! The training objective against the surrogate that an M-step minimises. The counts of
the E-step are posterior means, so the surrogate majorises the objective up to its value
at the weights of the E-step. -/

namespace StochasticEdit.Trainer

open Wfst Estimation
open scoped ENNReal

variable {n : ℕ} {comp : Composer} {F : VectorFst LogWeight} {t : TrainerLocal n}

/-- The observed counts times the arc weights that `update_arc_weights(weights)` writes. -/
noncomputable def TrainerLocal.countedCost (t : TrainerLocal n) (weights : ColumnVector n) :
    Option EReal := do
  let t' ← t.updateArcWeights logsum weights
  return ∑ a ∈ Finset.range t.numArcs,
    (expDouble (t.observedCounts[a]?.getD negDblMax) : EReal) * value (t'.fst.arcWeight a)

/-- The surrogate: the counted costs plus the penalty, over the number of exemplars. -/
noncomputable def TrainerLocal.surrogate (t : TrainerLocal n) (weights : ColumnVector n) :
    Option EReal := do
  let loss ← t.countedCost weights
  let penalty : ℝ := t.regularizationCoefficient * (weights ⬝ᵥ weights)
  return (loss + penalty) / (t.dataFormatted.length : ℝ)

theorem coe_sum (A : Finset ℕ) (f : ℕ → ℝ) : ((∑ a ∈ A, f a : ℝ) : EReal) = ∑ a ∈ A,
    (f a : EReal) := by
  induction A using Finset.induction with
  | empty => rfl
  | insert a A ha ih => rw [Finset.sum_insert ha, Finset.sum_insert ha, EReal.coe_add, ih]

/-- The weight that `update_arc_weights` writes on an arc. -/
theorem value_arcWeight (θ : ColumnVector n) {a : ℕ} (ha : a ∈ arcIds F) :
    value ((reweightedTrainer F t θ).fst.arcWeight a) = (arcCost F t.features θ a : EReal) := by
  obtain ⟨q, b, hb⟩ := exists_arc_of_mem_arcIds ha
  have hweight : (reweightedTrainer F t θ).fst.arcWeight a =
      ENNReal.ofReal (Real.exp (-arcCost F t.features θ a)) :=
    (arcWeight_reweighted hb).trans (newWeight_logsum _ ha)
  rw [hweight, value, ← EReal.exp_coe, EReal.log_exp, EReal.coe_neg, neg_neg]

theorem Sized.countedCost_eq (h : Sized F t) (θ : ColumnVector n) {c : ℕ → ℝ}
    (hc : ∀ a, 0 ≤ c a) (hobserved : ∀ a, tally t.observedCounts a = ENNReal.ofReal (c a)) :
    t.countedCost θ = some ((∑ a ∈ arcIds F, c a * arcCost F t.features θ a : ℝ) : EReal) := by
  rw [TrainerLocal.countedCost, h.updateArcWeights, Option.bind_eq_bind, Option.bind_some,
    coe_sum, h.numArcs]
  refine congrArg some (Finset.sum_congr rfl fun a ha => ?_)
  have hcount : expDouble (t.observedCounts[a]?.getD negDblMax) = c a := by
    show (tally t.observedCounts a).toReal = c a
    rw [hobserved, ENNReal.toReal_ofReal (hc a)]
  rw [hcount, value_arcWeight θ ha, EReal.coe_mul]

theorem IsTrainer.surrogate_eq (h : IsTrainer comp F t) (θ : ColumnVector n) {c : ℕ → ℝ}
    (hc : ∀ a, 0 ≤ c a) (hobserved : ∀ a, tally t.observedCounts a = ENNReal.ofReal (c a)) :
    t.surrogate θ = some (((∑ a ∈ arcIds F, c a * arcCost F t.features θ a +
      t.regularizationCoefficient * (θ ⬝ᵥ θ)) / t.dataFormatted.length : ℝ) : EReal) := by
  rw [TrainerLocal.surrogate, h.toSized.countedCost_eq θ hc hobserved, Option.bind_eq_bind,
    Option.bind_some, EReal.coe_div, EReal.coe_add]
  rfl

/-- After an E-step at `θ₀`, the objective grows from `θ₀` to `θ` by at most as much as
the surrogate. -/
theorem objective_sub_le (h : IsTrainer comp F t) (θ₀ θ : ColumnVector n) :
    ∃ t₁ t₂ t' t₀' v v₀ q q₀, t.updateArcWeights logsum θ₀ = some t₁ ∧
      t₁.eStep logsum comp = some t₂ ∧
      t₂.value2 logsum comp θ = some (((v : ℝ) : EReal), t') ∧
      t₂.value2 logsum comp θ₀ = some (((v₀ : ℝ) : EReal), t₀') ∧
      t₂.surrogate θ = some ((q : ℝ) : EReal) ∧ t₂.surrogate θ₀ = some ((q₀ : ℝ) : EReal) ∧
      v - v₀ ≤ q - q₀ := by
  obtain ⟨counts, hstep, hlen, htally⟩ := h.eStep_eq θ₀
  have h₂ := (h.reweighted θ₀).observe hlen
  have hc : ∀ a, 0 ≤ h.countsAt θ₀ a := totalCounts_nonneg _ _ _
  refine ⟨_, _, _, _, _, _, _, _, h.updateArcWeights θ₀, hstep, h₂.value2_eq θ, h₂.value2_eq θ₀,
    h₂.surrogate_eq θ hc htally, h₂.surrogate_eq θ₀ hc htally, ?_⟩
  have hmajor := @totalLoss_sub_le _ _ (arcIds F) h.latticesOf (arcCost F t.features θ)
    (arcCost F t.features θ₀)
  have hsub : ∑ a ∈ arcIds F, totalCounts (arcIds F) h.latticesOf (arcCost F t.features θ₀) a *
      (arcCost F t.features θ a - arcCost F t.features θ₀ a) =
        ∑ a ∈ arcIds F, h.countsAt θ₀ a * arcCost F t.features θ a -
          ∑ a ∈ arcIds F, h.countsAt θ₀ a * arcCost F t.features θ₀ a := by
    rw [← Finset.sum_sub_distrib]
    exact Finset.sum_congr rfl fun a _ => mul_sub _ _ _
  rw [hsub] at hmajor
  show (totalLoss (arcIds F) h.latticesOf (arcCost F t.features θ) +
      t.regularizationCoefficient * (θ ⬝ᵥ θ)) / t.dataFormatted.length -
    (totalLoss (arcIds F) h.latticesOf (arcCost F t.features θ₀) +
      t.regularizationCoefficient * (θ₀ ⬝ᵥ θ₀)) / t.dataFormatted.length ≤ _
  rw [← sub_div, ← sub_div]
  apply div_le_div_of_nonneg_right _ (Nat.cast_nonneg _)
  show _ ≤ (∑ a ∈ arcIds F, h.countsAt θ₀ a * arcCost F t.features θ a +
    t.regularizationCoefficient * (θ ⬝ᵥ θ)) - (∑ a ∈ arcIds F, h.countsAt θ₀ a *
      arcCost F t.features θ₀ a + t.regularizationCoefficient * (θ₀ ⬝ᵥ θ₀))
  linarith

/-! ### Parallel arcs -/

section Parallel
variable {W : Type*}

/-- Arcs from state 0 to the final state 1, all labelled 1:1. -/
def parallel (ws : List W) (f : W) : VectorFst W :=
  ⟨some 0, [⟨none, ws.map fun w => ⟨1, 1, w, 1⟩⟩, ⟨some f, []⟩]⟩

/-- The composition of such machines, in which every pair of arcs matches. -/
def composeParallel : Composer := fun F G =>
  parallel ((List.range F.numArcs ×ˢ List.range G.numArcs).map fun p => (some p.1, some p.2))
    (some 1, some 1)

theorem arc?_parallel (ws : List W) (f : W) (e : ℕ) :
    (parallel ws f).arc? e = ws[e]?.map fun w => (0, ⟨1, 1, w, 1⟩) := by
  simp [VectorFst.arc?, parallel, arcsFrom, Function.comp_def]

theorem ends_parallel {ws : List W} {f : W} {e : ℕ} (h : e < ws.length) :
    (parallel ws f).ends e = some (0, 1) := by
  rw [VectorFst.ends, arc?_parallel, List.getElem?_eq_getElem h]
  rfl

theorem numArcs_parallel (ws : List W) (f : W) : (parallel ws f).numArcs = ws.length := by
  simp [VectorFst.numArcs, parallel, arcsFrom]

theorem walk_parallel {ws : List W} {f : W} {e : ℕ} (h : e < ws.length) :
    walk (parallel ws f).ends 0 [e] = some 1 := walk_cons_of_ends (ends_parallel h) []

/-- Every accepting path is a single arc. -/
theorem accepts_parallel {ws : List W} {f : W} {p : List ℕ} :
    (parallel ws f).Accepts p ↔ ∃ e < ws.length, p = [e] := by
  constructor
  · rintro ⟨q, q₀, hstart, hwalk, hfinal⟩
    obtain rfl : 0 = q₀ := Option.some.inj hstart
    cases p with
    | nil =>
      obtain rfl : 0 = q := Option.some.inj hwalk
      exact absurd hfinal (by simp [VectorFst.final?, parallel])
    | cons e p =>
      obtain ⟨r, he, hp⟩ := walk_cons_iff.mp hwalk
      have hlt : e < ws.length := numArcs_parallel ws f ▸ VectorFst.lt_numArcs_of_ends he
      obtain rfl : 1 = r := (Prod.mk.inj (Option.some.inj ((ends_parallel hlt).symm.trans he))).2
      cases p with
      | nil => exact ⟨e, hlt, rfl⟩
      | cons e' p =>
        obtain ⟨r', he', -⟩ := walk_cons_iff.mp hp
        have hlt' : e' < ws.length := numArcs_parallel ws f ▸ VectorFst.lt_numArcs_of_ends he'
        have hends := (ends_parallel hlt').symm.trans he'
        simp at hends
  · rintro ⟨e, he, rfl⟩
    exact ⟨1, 0, rfl, walk_parallel he, rfl⟩

theorem final?_parallel {ws : List W} {f o : W} {q : ℕ} (h : (parallel ws f).final? q = some o) :
    q = 1 ∧ o = f := by
  match q with
  | 0 => simp [VectorFst.final?, parallel] at h
  | 1 => exact ⟨rfl, by simpa [VectorFst.final?, parallel] using h.symm⟩
  | q + 2 => simp [VectorFst.final?, parallel] at h

theorem composes_parallel {us vs : List Unit} (hu : us ≠ []) (hv : vs ≠ []) :
    Composes (parallel us ()) (parallel vs ())
      (composeParallel (parallel us ()) (parallel vs ())) := by
  have hpos : 0 < ((List.range (parallel us ()).numArcs ×ˢ List.range (parallel vs ()).numArcs).map
      fun p : ℕ × ℕ => ((some p.1, some p.2) : Origin)).length := by
    simp only [numArcs_parallel, List.length_map, List.length_product, List.length_range]
    exact Nat.mul_pos (List.length_pos_iff.mpr hu) (List.length_pos_iff.mpr hv)
  have harc : ∀ e q a, (composeParallel (parallel us ()) (parallel vs ())).arc? e = some (q, a) →
      ∃ i j, i < us.length ∧ j < vs.length ∧ a = ⟨1, 1, (some i, some j), 1⟩ := by
    intro e q a h
    rw [composeParallel, arc?_parallel] at h
    obtain ⟨o, ho, heq⟩ := Option.map_eq_some_iff.mp h
    obtain ⟨-, rfl⟩ := Prod.mk.inj heq
    obtain ⟨⟨i, j⟩, hij, rfl⟩ := List.mem_map.mp (List.mem_of_getElem? ho)
    rw [numArcs_parallel, numArcs_parallel] at hij
    obtain ⟨hi, hj⟩ := List.pair_mem_product.mp hij
    exact ⟨i, j, List.mem_range.mp hi, List.mem_range.mp hj, rfl⟩
  have hlabel {ws : List Unit} {i : ℕ} (hi : i < ws.length) :
      (parallel ws ()).ilabel? i = some 1 ∧ (parallel ws ()).olabel? i = some 1 := by
    rw [VectorFst.ilabel?, VectorFst.olabel?, arc?_parallel, List.getElem?_eq_getElem hi]
    exact ⟨rfl, rfl⟩
  have hstates {q : ℕ} (hq : q < (composeParallel (parallel us ()) (parallel vs ())).numStates) :
      q = 0 ∨ q = 1 := by
    have hlt : q < 2 := hq
    omega
  constructor
  · exact fun _ => rfl
  · exact fun h => absurd h (by simp [composeParallel, parallel])
  · intro e q a h
    obtain ⟨i, j, -, -, rfl⟩ := harc e q a h
    exact Nat.one_lt_two
  · intro q hq
    obtain rfl | rfl := hstates hq
    · exact ⟨[], rfl⟩
    · exact ⟨[0], walk_parallel hpos⟩
  · intro q hq
    obtain rfl | rfl := hstates hq
    · exact ⟨[0], 1, walk_parallel hpos, rfl⟩
    · exact ⟨[], 1, rfl, rfl⟩
  · intro e q a h
    obtain ⟨i, j, hi, hj, rfl⟩ := harc e q a h
    refine ⟨(hlabel hi).1, (hlabel hj).2,
      (hlabel hi).2.trans (hlabel hj).1.symm, by simp, fun _ => ?_⟩
    rw [show sideLabel (parallel us ()).olabel? (some i) = some 1 from (hlabel hi).2]
    decide
  · intro q o h
    obtain ⟨-, rfl⟩ := final?_parallel h
    exact ⟨1, 1, rfl, rfl, rfl⟩

/-- Two arcs that compete, and an exemplar that either of them explains. -/
noncomputable def twoArcs : VectorFst LogWeight := parallel [1, 1] 1

noncomputable def oneSymbol : VectorFst LogWeight := parallel [1] 1

theorem compose_one_two {W : Type*} [One W] [Mul W] (a b c f g : W) :
    VectorFst.compose composeParallel (parallel [a] f) (parallel [b, c] g) =
      parallel [a * b, a * c] (f * g) := rfl

theorem compose_two_one {W : Type*} [One W] [Mul W] (a b c f g : W) :
    VectorFst.compose composeParallel (parallel [b, c] g) (parallel [a] f) =
      parallel [b * a, c * a] (g * f) := rfl

theorem weighted_twoArcs (w : ℕ → LogWeight) : weighted twoArcs w = parallel [w 0, w 1] 1 := rfl

/-- The lattice is the machine. -/
theorem logLattice_twoArcs (w : ℕ → LogWeight) :
    logLattice composeParallel (weighted twoArcs w) (oneSymbol, oneSymbol) =
      parallel [w 0, w 1] 1 := by
  rw [logLattice, weighted_twoArcs, oneSymbol, compose_one_two, compose_two_one]
  simp only [one_mul, mul_one]

theorem value_parallel {ws : List LogWeight} {e : ℕ} {w : LogWeight} (h : ws[e]? = some w) :
    (parallel ws 1).value [e] = w := by
  have hlt : e < ws.length := (List.getElem?_eq_some_iff.mp h).1
  have hweight : (parallel ws 1).arcWeight e = w := by
    rw [VectorFst.arcWeight_eq (show (parallel ws 1).arc? e = some (0, ⟨1, 1, w, 1⟩) by
      rw [arc?_parallel, h]; rfl)]
  rw [VectorFst.value_of_acceptsAt ⟨0, rfl, walk_parallel hlt, rfl⟩, pathWeight_cons, hweight,
    pathWeight_nil, mul_one]
  exact mul_one w

theorem realFinals_parallel (ws : List LogWeight) : RealFinals (parallel ws 1) := by
  intro q w h
  obtain ⟨-, rfl⟩ := final?_parallel h
  exact ⟨one_ne_zero, ENNReal.one_ne_top⟩

theorem isAcceptor_oneSymbol : IsAcceptor oneSymbol := by
  have harc : ∀ e q a, oneSymbol.arc? e = some (q, a) → a = ⟨1, 1, 1, 1⟩ := by
    intro e q a h
    rw [oneSymbol, arc?_parallel] at h
    obtain ⟨w, hw, heq⟩ := Option.map_eq_some_iff.mp h
    obtain ⟨-, rfl⟩ := Prod.mk.inj heq
    rw [List.mem_singleton.mp (List.mem_of_getElem? hw)]
  refine ⟨fun e q a h => ?_, fun e q a h => ?_, fun e q a h => ?_, realFinals_parallel _⟩
  · rw [harc e q a h]
  · rw [harc e q a h]
    exact one_ne_zero
  · rw [harc e q a h]
    exact ENNReal.one_ne_top

theorem exemplar_twoArcs : Exemplar composeParallel twoArcs (oneSymbol, oneSymbol) := by
  refine ⟨⟨⟨realFinals_parallel _, ?_, ?_⟩, isAcceptor_oneSymbol, isAcceptor_oneSymbol⟩,
    ?_, [0], ?_⟩
  · exact composes_parallel (List.cons_ne_nil () []) (List.cons_ne_nil () [()])
  · exact composes_parallel (List.cons_ne_nil () [()]) (List.cons_ne_nil () [])
  · have hsub : {p | (latticeOrigins composeParallel twoArcs (oneSymbol, oneSymbol)).Accepts p} ⊆
        (fun e => [e]) '' Set.Iio 2 := by
      intro p hp
      obtain ⟨e, he, rfl⟩ := accepts_parallel.mp hp
      exact ⟨e, he, rfl⟩
    exact ((Set.finite_Iio 2).image _).subset hsub
  · rw [logLattice_twoArcs, value_parallel (w := 1) rfl]
    exact one_ne_zero

/-- A trainer for the two arcs, with a feature that fires on the first. -/
noncomputable def twoArcsTrainer (lambda : ℝ) : TrainerLocal 1 where
  fst := twoArcs
  fstFeature := mapToFeatureArcs twoArcs false
  dataFormatted := [(oneSymbol, oneSymbol)]
  dataFormattedFeatures :=
    [featureLattice composeParallel (mapToFeatureArcs twoArcs false) (oneSymbol, oneSymbol)]
  features := [[0], []]
  weights := [0]
  numArcs := 2
  symbolBound := 2
  regularizationCoefficient := lambda
  observedCounts := [0, 0]
  expectedCounts := [0, 0]

theorem isTrainer_twoArcs (lambda : ℝ) : IsTrainer composeParallel twoArcs
    (twoArcsTrainer lambda) := by
  have hrows : Rows [[0], []] twoArcs.numArcs 1 := by
    intro e he
    match e, he with
    | 0, _ => exact ⟨[0], rfl, by decide⟩
    | 1, _ => exact ⟨[], rfl, by decide⟩
  have hlabels : LabelsBelow twoArcs 2 := by
    intro e q a h
    rw [twoArcs, arc?_parallel] at h
    obtain ⟨w, -, heq⟩ := Option.map_eq_some_iff.mp h
    obtain ⟨-, rfl⟩ := Prod.mk.inj heq
    exact ⟨by norm_num, by norm_num⟩
  refine ⟨⟨⟨hlabels, rfl, rfl, rfl⟩, ⟨fun _ => 1, rfl⟩, hrows⟩, rfl, List.cons_ne_nil _ _, ?_⟩
  intro exemplar h
  rw [List.mem_singleton.mp h]
  exact exemplar_twoArcs

theorem objective_sub_le_twoArcs :
    ∃ t₁ t₂ t' t₀' v v₀ q q₀, (twoArcsTrainer 1).updateArcWeights logsum (fun _ => 0) = some t₁ ∧
      t₁.eStep logsum composeParallel = some t₂ ∧
      t₂.value2 logsum composeParallel (fun _ => 1) = some (((v : ℝ) : EReal), t') ∧
      t₂.value2 logsum composeParallel (fun _ => 0) = some (((v₀ : ℝ) : EReal), t₀') ∧
      t₂.surrogate (fun _ => 1) = some ((q : ℝ) : EReal) ∧
      t₂.surrogate (fun _ => 0) = some ((q₀ : ℝ) : EReal) ∧ v - v₀ ≤ q - q₀ :=
  objective_sub_le (isTrainer_twoArcs 1) _ _

end Parallel

end StochasticEdit.Trainer
