import StochasticEdit.Trainer.Consistency

/-! The function that an M-step minimises when there is no penalty. With the observed counts
held fixed, `gradient2` is its gradient at every vector of weights, whatever the counts,
the groups of the arcs and the features that they share. -/

namespace StochasticEdit.Trainer

open Wfst Estimation
open scoped ENNReal

variable {n : ℕ}

/-- The counted costs over the number of exemplars. -/
noncomputable def TrainerLocal.auxiliary (t : TrainerLocal n) (weights : ColumnVector n) :
    Option EReal := do
  let loss ← t.countedCost weights
  return loss / (t.dataFormattedFeatures.length : ℝ)

/-- A trainer without penalty that has observed the finite logarithms `counts` on the arcs
of its machine, from at least one exemplar. -/
structure MStep (t : TrainerLocal n) (counts : List ℝ) : Prop extends Counting t.fst t where
  rows : Rows t.features t.fst.numArcs n
  logs : t.observedCounts = counts.map fun x : ℝ => (x : EReal)
  exemplars : 1 ≤ t.dataFormattedFeatures.length
  penalty : t.regularizationCoefficient = 0

/-! ### The machine with its own weights -/

theorem numberArcs_self {f : ℕ → LogWeight} {e : ℕ} {arcs : List (Arc LogWeight)}
    (h : ∀ k a, arcs[k]? = some a → f (e + k) = a.weight) : numberArcs f e arcs = arcs := by
  induction arcs generalizing e with
  | nil => rfl
  | cons a arcs ih =>
    have hfirst : f e = a.weight := h 0 a rfl
    rw [numberArcs, hfirst, ih fun k b hb => by
      rw [← h (k + 1) b (by simpa using hb), show e + (k + 1) = e + 1 + k by omega]]

theorem weighted_arcWeight (F : VectorFst LogWeight) : weighted F F.arcWeight = F := by
  have hstates (ss : List (State LogWeight)) : ∀ e i, (∀ k p, (arcsFrom i ss)[k]? = some p →
      F.arcWeight (e + k) = p.2.weight) → numberStates F.arcWeight some e ss = ss := by
    induction ss with
    | nil => exact fun _ _ _ => rfl
    | cons s ss ih =>
      intro e i h
      have hlen : (s.arcs.map fun a => (i, a)).length = s.arcs.length := List.length_map ..
      rw [numberStates, Option.bind_fun_some, numberArcs_self fun k a ha => ?_,
        ih _ (i + 1) fun k p hp => ?_]
      · rw [← h (s.arcs.length + k) p ?_, Nat.add_assoc]
        rw [arcsFrom, List.getElem?_append_right (by omega), hlen, Nat.add_sub_cancel_left]
        exact hp
      · refine h k (i, a) ?_
        rw [arcsFrom,
          List.getElem?_append_left (by rw [hlen]; exact (List.getElem?_eq_some_iff.mp ha).1),
          List.getElem?_map, ha]
        rfl
  have hself := hstates F.states 0 0 fun k p hp => by
    rw [Nat.zero_add]
    exact VectorFst.arcWeight_eq hp
  rw [weighted, VectorFst.withWeights, hself]

theorem Counting.sized {t : TrainerLocal n} (h : Counting t.fst t)
    (hrows : Rows t.features t.fst.numArcs n) : Sized t.fst t :=
  ⟨h, ⟨t.fst.arcWeight, (weighted_arcWeight t.fst).symm⟩, hrows⟩

/-! ### The M-step -/

/-- The counts that the logarithms stand for. -/
noncomputable def countOf (counts : List ℝ) (a : ℕ) : ℝ := counts[a]?.elim 0 Real.exp

theorem countOf_nonneg (counts : List ℝ) (a : ℕ) : 0 ≤ countOf counts a := by
  unfold countOf
  cases counts[a]? with
  | none => exact le_rfl
  | some x => exact (Real.exp_pos x).le

theorem tally_map_coe (counts : List ℝ) (a : ℕ) :
    tally (counts.map fun x : ℝ => (x : EReal)) a = ENNReal.ofReal (countOf counts a) := by
  rw [tally, countOf, List.getElem?_map]
  cases counts[a]? with
  | none => simp [negDblMax]
  | some x => exact EReal.exp_coe x

variable {t : TrainerLocal n} {counts : List ℝ}

theorem MStep.tally (h : MStep t counts) (a : ℕ) :
    tally t.observedCounts a = ENNReal.ofReal (countOf counts a) := by rw [h.logs, tally_map_coe]

/-- The value of the function at `θ`. -/
noncomputable def mStepLoss (t : TrainerLocal n) (counts : List ℝ) (θ : ColumnVector n) : ℝ :=
  (∑ a ∈ arcIds t.fst, countOf counts a * arcCost t.fst t.features θ a) /
    t.dataFormattedFeatures.length

theorem MStep.auxiliary_eq (h : MStep t counts) (θ : ColumnVector n) :
    t.auxiliary θ = some ((mStepLoss t counts θ : ℝ) : EReal) := by
  rw [TrainerLocal.auxiliary, (h.sized h.rows).countedCost_eq θ (countOf_nonneg counts) h.tally,
    Option.bind_eq_bind, Option.bind_some, mStepLoss, EReal.coe_div]
  rfl

/-- Differentiating the weights of all groups and collecting the terms of each arc. -/
theorem isGradient_mStepLoss (t : TrainerLocal n) (counts : List ℝ) (θ : ColumnVector n) :
    IsGradient (mStepLoss t counts) θ fun k =>
      slope t.fst t.features (countOf counts) θ (Pi.single k 1) /
        t.dataFormattedFeatures.length := by
  intro k
  have harc : ∀ a ∈ arcIds t.fst, HasDerivAt
      (fun x => countOf counts a * arcCost t.fst t.features (Function.update θ k x) a)
      (countOf counts a * arcSlope t.fst t.features θ (Pi.single k 1) a) (θ k) := by
    intro a ha
    have hcost := hasDerivAt_arcCost t.features (hasDerivAt_update θ k) ha
    rw [Function.update_eq_self] at hcost
    exact hcost.const_mul _
  have hsum := (HasDerivAt.fun_sum harc).div_const (t.dataFormattedFeatures.length : ℝ)
  rw [sum_mul_arcSlope] at hsum
  exact hsum

/-- At every `θ`, `gradient2` is the gradient of the function that the M-step minimises. -/
theorem gradient2_isGradient (h : MStep t counts) : ∃ V : ColumnVector n → ℝ,
    (∀ θ, t.auxiliary θ = some ((V θ : ℝ) : EReal)) ∧
      ∀ θ, ∃ g t', t.gradient2 logsum θ = some (g, t') ∧ IsGradient V θ g := by
  refine ⟨mStepLoss t counts, h.auxiliary_eq, fun θ => ?_⟩
  obtain ⟨expected, -, hgradient⟩ := (h.sized h.rows).gradient2_eq θ (countOf_nonneg counts) h.tally
  refine ⟨_, _, hgradient, fun k => ?_⟩
  rw [gradientFor_eq, h.penalty, zero_mul, add_zero]
  exact isGradient_mStepLoss t counts θ k

/-- The two arcs share a feature that fires twice on the first. -/
noncomputable def sharedTrainer : TrainerLocal 2 where
  fst := twoArcs
  fstFeature := mapToFeatureArcs twoArcs false
  dataFormatted := [(oneSymbol, oneSymbol)]
  dataFormattedFeatures :=
    [featureLattice composeParallel (mapToFeatureArcs twoArcs false) (oneSymbol, oneSymbol)]
  features := [[0, 0, 1], [0]]
  weights := [0, 0]
  numArcs := 2
  symbolBound := 2
  regularizationCoefficient := 0
  observedCounts := [((1 : ℝ) : EReal), ((-1 : ℝ) : EReal)]
  expectedCounts := [0, 0]

theorem mStep_shared : MStep sharedTrainer [1, -1] where
  rows := by
    intro e he
    match e, he with
    | 0, _ => exact ⟨[0, 0, 1], rfl, by decide⟩
    | 1, _ => exact ⟨[0], rfl, by decide⟩
  labels := (isTrainer_twoArcs 0).labels
  numArcs := rfl
  observed := rfl
  expected := rfl
  logs := rfl
  exemplars := le_rfl
  penalty := rfl

theorem gradient2_isGradient_shared : ∃ V : ColumnVector 2 → ℝ,
    (∀ θ, sharedTrainer.auxiliary θ = some ((V θ : ℝ) : EReal)) ∧
      ∀ θ, ∃ g t', sharedTrainer.gradient2 logsum θ = some (g, t') ∧ IsGradient V θ g :=
  gradient2_isGradient mStep_shared

end StochasticEdit.Trainer
