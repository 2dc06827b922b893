import StochasticEdit.Trainer.Auxiliary
import StochasticEdit.Trainer.Calls

/-! Whole runs of `train`. A trainer whose exemplars are usable, with the arc weights of some
vector, goes through an outer iteration whatever the optimiser does in it, and is such a
trainer again. So no call of `train` reads or writes outside of a vector. -/

namespace StochasticEdit.Trainer

open Wfst Estimation
open scoped ENNReal

variable {n : ℕ} {comp : Composer} {F : VectorFst LogWeight} {t t' : TrainerLocal n}

theorem weighted_of_skeleton {G : VectorFst LogWeight} {w : ℕ → LogWeight}
    (h : skeleton G = skeleton (weighted F w)) :
    G = weighted F G.arcWeight := by
  rw [skeleton_eq_weighted, skeleton_eq_weighted, weighted_weighted] at h
  calc G =
    weighted (weighted G fun _ => 1) G.arcWeight := by rw [weighted_weighted, weighted_arcWeight]
    _ = weighted F G.arcWeight := by rw [h, weighted_weighted]

theorem weighted_congr {w w' : ℕ → LogWeight} (h : ∀ e < F.numArcs, w e = w' e) :
    weighted F w = weighted F w' := by
  rw [← weighted_arcWeight (weighted F w), ← weighted_arcWeight (weighted F w'), weighted_weighted,
    weighted_weighted]
  apply congrArg
  funext e
  by_cases he : e < F.numArcs
  · exact (weightAt_weighted he).trans ((h e he).trans (weightAt_weighted he).symm)
  · have hnone : F.arc? e = none := by
      by_contra hne
      exact he (VectorFst.arc?_isSome_iff.mp (Option.ne_none_iff_isSome.mp hne))
    simp [VectorFst.arcWeight, VectorFst.weightAt, weighted, hnone]

/-- Other arc weights and counts leave a trainer. -/
theorem Kept.isTrainer (hk : Kept t t') (h : IsTrainer comp F t) : IsTrainer comp F t' := by
  obtain ⟨G, observed, expected, hG, hobserved, hexpected, rfl⟩ := hk
  obtain ⟨w, hw⟩ := h.machine
  rw [hw] at hG
  exact { h with
    machine := ⟨G.arcWeight, weighted_of_skeleton hG⟩
    observed := hobserved.trans h.observed
    expected := hexpected.trans h.expected }

/-- A trainer at the start of an outer iteration or of a call of `train`. -/
structure Ready (comp : Composer) (F : VectorFst LogWeight) (t : TrainerLocal n) : Prop extends
    IsTrainer comp F t where
  model : ∃ θ, t.updateArcWeights logsum θ = some t
  weights : n ≤ t.weights.length

theorem Ready.of_updateArcWeights (h : IsTrainer comp F t) (hweights : n ≤ t.weights.length)
    {θ : ColumnVector n} (hθ : t.updateArcWeights logsum θ = some t') : Ready comp F t' := by
  rw [h.updateArcWeights] at hθ
  obtain rfl := Option.some.inj hθ
  exact ⟨h.reweighted θ, ⟨θ, (h.reweighted θ).updateArcWeights θ⟩, hweights⟩

/-- The counts of all exemplars are their expected traversals. -/
theorem ofReal_totalCounts {w : ℕ → LogWeight} {ω : ℕ → ℝ}
    (hw : ∀ a ∈ arcIds F, w a = ENNReal.ofReal (Real.exp (-ω a)))
    {exemplars : List (VectorFst LogWeight × VectorFst LogWeight)}
    (hexemplars : ∀ exemplar ∈ exemplars, Exemplar comp F exemplar) (a : ℕ) :
    ENNReal.ofReal (totalCounts (arcIds F)
        (exemplars.pmap (fun _ hexemplar => Exemplar.toLattice hexemplar) hexemplars) ω a) =
      (exemplars.map fun exemplar => expectedTraversals comp F exemplar w a).sum := by
  induction exemplars with
  | nil => simp [totalCounts]
  | cons exemplar exemplars ih =>
    have hrest : ∀ x ∈ exemplars, Exemplar comp F x := fun x hx => hexemplars x (by simp [hx])
    rw [List.map_cons, List.sum_cons, ← ih hrest,
      (hexemplars exemplar (by simp)).expectedTraversals_eq hw,
      ← ENNReal.ofReal_add (counts_nonneg _ _ _ _) (totalCounts_nonneg _ _ _ _)]
    rfl

/-- The E-step returns. It counts the expected traversals of the arcs under the weights that
the machine has. -/
theorem Ready.exists_eStep (h : Ready comp F t) {θ : ColumnVector n}
    (hθ : t.updateArcWeights logsum θ = some t) :
    ∃ t₁, t.eStep logsum comp = some t₁ ∧ IsTrainer comp F t₁ ∧ ∀ a, tally t₁.observedCounts a =
      (t.dataFormatted.map fun exemplar =>
        expectedTraversals comp F exemplar (newWeight logsum (score t.features θ) F) a).sum := by
  rw [h.updateArcWeights, Option.some.injEq] at hθ
  obtain ⟨counts, hcounts, hlen, htally⟩ := h.eStep_eq θ
  rw [hθ] at hcounts
  refine ⟨_, hcounts, h.toIsTrainer.observe hlen, fun a => (htally a).trans ?_⟩
  exact ofReal_totalCounts (fun a ha => newWeight_logsum (score t.features θ) ha) h.exemplars a

theorem Ready.exists_counts (h : Ready comp F t) :
    ∃ t₁, t.eStep logsum comp = some t₁ ∧ IsTrainer comp F t₁ ∧
    ∃ c : ℕ → ℝ, (∀ a, 0 ≤ c a) ∧ ∀ a, tally t₁.observedCounts a = ENNReal.ofReal (c a) := by
  obtain ⟨θ, hθ⟩ := h.model
  obtain ⟨t₁, ht₁, htrainer, htally⟩ := h.exists_eStep hθ
  refine ⟨t₁, ht₁, htrainer, h.countsAt θ, totalCounts_nonneg _ _ _, fun a => (htally a).trans ?_⟩
  exact (ofReal_totalCounts (fun a ha => newWeight_logsum (score t.features θ) ha)
    h.exemplars a).symm

/-- One outer iteration. -/
theorem Ready.exists_iteration (h : Ready comp F t) (debugMode : Bool) (opt : FindMin n) :
    ∃ t₁ r t₂, t.eStep logsum comp = some t₁ ∧
      callLoop logsum comp debugMode t₁ opt.calls = some r ∧
      r.2.updateArcWeights logsum opt.result = some t₂ ∧ Ready comp F t₂ := by
  obtain ⟨t₁, heStep, ht₁, c, hc, hobserved⟩ := h.exists_counts
  obtain ⟨r, hr⟩ := ht₁.exists_callLoop hc hobserved debugMode opt.calls
  have hkept : Kept t r.2 := (kept_eStep heStep).trans (kept_callLoop hr).1
  have htrainer : IsTrainer comp F r.2 := hkept.isTrainer h.toIsTrainer
  have hweights : n ≤ r.2.weights.length := by
    obtain ⟨_, _, _, -, -, -, heq⟩ := hkept
    rw [heq]
    exact h.weights
  have hupdate := htrainer.updateArcWeights opt.result
  exact ⟨t₁, r, _, heStep, hr, hupdate, Ready.of_updateArcWeights htrainer hweights hupdate⟩

theorem Ready.exists_trainLoop (h : Ready comp F t) (debugMode : Bool) (tmpWeights : ColumnVector n)
    (opts : List (FindMin n)) :
    ∃ r, trainLoop logsum comp debugMode t tmpWeights opts = some r ∧ Ready comp F r.1 := by
  induction opts generalizing t tmpWeights with
  | nil => exact ⟨(t, tmpWeights), rfl, h⟩
  | cons opt opts ih =>
    obtain ⟨t₁, r, t₂, heStep, hcalls, hupdate, hready⟩ := h.exists_iteration debugMode opt
    obtain ⟨r', hr', hready'⟩ := ih hready opt.result
    refine ⟨r', ?_, hready'⟩
    unfold trainLoop
    simp only [heStep, hcalls, hupdate, Option.bind_eq_bind, Option.bind_some, hr']

/-- However often `train` is called, it returns. -/
theorem Ready.exists_trainCalls (h : Ready comp F t) (debugMode : Bool)
    (calls : List (List (FindMin n))) :
    ∃ t', trainCalls logsum comp debugMode t calls = some t' ∧ Ready comp F t' := by
  induction calls generalizing t with
  | nil => exact ⟨t, rfl, h⟩
  | cons opts calls ih =>
    obtain ⟨θ, hθ⟩ : ∃ θ, t.tmpWeights = some θ := ⟨_, dif_pos h.weights⟩
    obtain ⟨r, hr, hready⟩ := h.exists_trainLoop debugMode θ opts
    obtain ⟨t', ht', hready'⟩ := ih hready
    refine ⟨t', ?_, hready'⟩
    unfold trainCalls TrainerLocal.train
    simp only [hθ, hr, Option.bind_eq_bind, Option.bind_some, Option.pure_def, ht']

end StochasticEdit.Trainer
