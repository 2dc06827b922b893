import StochasticEdit.Trainer.Progress

/-! What the M-step is given. With the counts of an E-step, `gradient2` is at every vector the
gradient of the mean cost of the paths, where the mean is over the posterior of the E-step.
With the penalty it is the gradient of half of its square. -/

namespace StochasticEdit.Trainer

open Wfst Estimation
open scoped ENNReal

variable {n : ℕ} {comp : Composer} {F : VectorFst LogWeight} {t : TrainerLocal n}

/-- The cost of the arcs that were counted, with half of the penalty. -/
noncomputable def countedLoss (F : VectorFst LogWeight) (t : TrainerLocal n) (c : ℕ → ℝ)
    (θ : ColumnVector n) : ℝ :=
  (∑ a ∈ arcIds F, c a * arcCost F t.features θ a + t.regularizationCoefficient /
    (2 : ℕ) * (θ ⬝ᵥ θ)) /
    t.dataFormatted.length

/-- The counts stay when the weights are varied, so the cost has the slope that they predict. -/
theorem isGradient_countedLoss (F : VectorFst LogWeight) (t : TrainerLocal n) (c : ℕ → ℝ)
    (θ : ColumnVector n) :
    IsGradient (countedLoss F t c) θ (gradientAt F t c θ) := by
  intro k
  have harc : ∀ a ∈ arcIds F,
    HasDerivAt (fun x => c a * arcCost F t.features (Function.update θ k x) a)
      (c a * arcSlope F t.features θ (Pi.single k 1) a) (θ k) := by
    intro a ha
    have hcost := hasDerivAt_arcCost t.features (hasDerivAt_update θ k) ha
    rw [Function.update_eq_self] at hcost
    exact hcost.const_mul _
  have hpenalty := hasDerivAt_dotProduct (hasDerivAt_update θ k)
  rw [Function.update_eq_self, dotProduct_single_one] at hpenalty
  have hsum := ((HasDerivAt.fun_sum harc).add
    (hpenalty.const_mul (t.regularizationCoefficient / (2 : ℕ)))).div_const
      (t.dataFormatted.length : ℝ)
  refine hsum.congr_deriv ?_
  rw [gradientAt_eq, sum_mul_arcSlope]
  apply congrArg (· / (t.dataFormatted.length : ℝ))
  ring

/-- The trainer after an E-step: the function that it gives the gradient of. -/
theorem Ready.exists_gradients (h : Ready comp F t) {θ₀ : ColumnVector n}
    (hθ₀ : t.updateArcWeights logsum θ₀ = some t) :
    ∃ t₁, t.eStep logsum comp = some t₁ ∧ ∀ θ, ∃ g t₂, t₁.gradient2 logsum θ = some (g, t₂) ∧
      IsGradient (countedLoss F t (h.countsAt θ₀)) θ g := by
  rw [h.updateArcWeights, Option.some.injEq] at hθ₀
  obtain ⟨counts, hcounts, hlen, htally⟩ := h.eStep_eq θ₀
  rw [hθ₀] at hcounts
  have hobserved : IsTrainer comp F ({ t with observedCounts := counts } : TrainerLocal n) :=
    h.toIsTrainer.observe hlen
  refine ⟨_, hcounts, fun θ => ?_⟩
  obtain ⟨t₂, hgradient, -⟩ := hobserved.gradient2_eq θ (totalCounts_nonneg _ _ _) htally
  exact ⟨_, t₂, hgradient, isGradient_countedLoss F t (h.countsAt θ₀) θ⟩

/-- A sum over the lattices is one over the exemplars. -/
theorem sum_map_lattices {ι : Type*} {l : List ι}
    {exemplars : List (VectorFst LogWeight × VectorFst LogWeight)}
    {exemplar : ι → VectorFst LogWeight × VectorFst LogWeight} (heq : exemplars = l.map exemplar)
    (hexemplars : ∀ exemplar ∈ exemplars, Exemplar comp F exemplar) (g : Lattice (List ℕ) ℕ → ℝ)
    {f : ι → ℝ}
    (hf : ∀ i (hexemplar : Exemplar comp F (exemplar i)), i ∈ l → g hexemplar.toLattice = f i) :
    ((exemplars.pmap (fun _ hexemplar => Exemplar.toLattice hexemplar) hexemplars).map g).sum =
      (l.map f).sum := by
  subst heq
  rw [List.map_pmap, List.pmap_map]
  apply congrArg List.sum
  rw [← List.pmap_eq_map fun i hi => hexemplars _ (List.mem_map_of_mem hi)]
  apply List.pmap_congr_left
  intro i hi hexemplar _
  exact hf i hexemplar hi

/-- The counts of an E-step take the mean over the paths of each lattice. -/
theorem IsTrainer.sum_countsAt (h : IsTrainer comp F t) {ι : Type*} {l : List ι}
    {exemplar : ι → VectorFst LogWeight × VectorFst LogWeight}
    (heq : t.dataFormatted = l.map exemplar) (θ₀ : ColumnVector n) (v : ℕ → ℝ) {f : ι → ℝ}
    (hf : ∀ i (hexemplar : Exemplar comp F (exemplar i)), i ∈ l → ∑ p ∈ hexemplar.toLattice.paths,
      hexemplar.toLattice.posterior (arcIds F) (arcCost F t.features θ₀) p *
        hexemplar.toLattice.energy (arcIds F) v p = f i) :
    ∑ a ∈ arcIds F, h.countsAt θ₀ a * v a = (l.map f).sum := by
  unfold IsTrainer.countsAt
  rw [sum_totalCounts]
  apply sum_map_lattices heq
  intro i hexemplar hi
  rw [← Lattice.sum_posterior_energy]
  exact hf i hexemplar hi

end StochasticEdit.Trainer
