import StochasticEdit.Trainer.Posterior

/-! The state of the trainer. The machine it holds is always the one it was built with,
under other arc weights, so the lattices keep their paths from one reweighting to the
next. -/

namespace StochasticEdit.Trainer

open Wfst Estimation
open scoped ENNReal

variable {n : ℕ}

/-- The input labels are indices of the tables, and the vectors have an entry for every arc. -/
structure Counting (F : VectorFst LogWeight) (t : TrainerLocal n) : Prop where
  labels : LabelsBelow F t.symbolBound
  numArcs : t.numArcs = F.numArcs
  observed : t.observedCounts.length = t.numArcs
  expected : t.expectedCounts.length = t.numArcs

/-- What the loops over the arcs need: rows, tables and vectors of the size of the machine. -/
structure Sized (F : VectorFst LogWeight) (t : TrainerLocal n) : Prop extends Counting F t where
  machine : ∃ w, t.fst = weighted F w
  rows : Rows t.features F.numArcs n

/-- A trainer for the machine `F`, as the constructor builds it and as every step of the
training leaves it. -/
structure IsTrainer (comp : Composer) (F : VectorFst LogWeight) (t : TrainerLocal n) : Prop extends
    Sized F t where
  lattices : t.dataFormattedFeatures =
    t.dataFormatted.map (featureLattice comp (mapToFeatureArcs F false))
  nonempty : t.dataFormatted ≠ []
  exemplars : ∀ exemplar ∈ t.dataFormatted, Exemplar comp F exemplar

variable {comp : Composer} {F : VectorFst LogWeight} {t : TrainerLocal n}

/-! ### Reweighting -/

theorem weighted_weighted (F : VectorFst LogWeight) (v w : ℕ → LogWeight) :
    weighted (weighted F v) w = weighted F w := F.withWeights_withWeights v some w some

theorem numArcs_weighted (F : VectorFst LogWeight) (w : ℕ → LogWeight) :
    (weighted F w).numArcs = F.numArcs := by
  rw [← VectorFst.numArcs_map (fun _ => ()) (fun _ => ()) F, ← VectorFst.numArcs_map (fun _ => ())
    (fun _ => ()) (weighted F w)]
  exact congrArg VectorFst.numArcs (shape_weighted F w)

theorem newWeight_weighted (add : EReal → EReal → EReal) (s : ℕ → ℝ) (F : VectorFst LogWeight)
    (w : ℕ → LogWeight) : newWeight add s (weighted F w) = newWeight add s F := by
  funext e
  have htotal (q : ℕ) (l : ℤ) : groupTotal add s (weighted F w) q l = groupTotal add s F q l := by
    rw [groupTotal, groupTotal, VectorFst.groupArcs_of_shape_eq (shape_weighted F w)]
  rw [newWeight, newWeight, weighted, VectorFst.arc?_withWeights]
  cases F.arc? e with
  | none => rfl
  | some p => exact congrArg (fun x => ofValue (s e + x)) (htotal p.1 p.2.ilabel)

/-- The trainer with the arc weights of `θ`. -/
noncomputable def reweightedTrainer (F : VectorFst LogWeight) (t : TrainerLocal n)
    (θ : ColumnVector n) :
    TrainerLocal n := { t with fst := weighted F (newWeight logsum (score t.features θ) F) }

theorem Sized.updateArcWeights (h : Sized F t) (θ : ColumnVector n) :
    t.updateArcWeights logsum θ = some (reweightedTrainer F t θ) := by
  obtain ⟨w, hw⟩ := h.machine
  have hrows : Rows t.features t.fst.numArcs n := by
    rw [hw, numArcs_weighted]
    exact h.rows
  have hlabels : LabelsBelow t.fst t.symbolBound := by
    intro e q a ha
    rw [hw, weighted, VectorFst.arc?_withWeights] at ha
    obtain ⟨⟨r, b⟩, hb, heq⟩ := Option.map_eq_some_iff.mp ha
    obtain ⟨-, rfl⟩ := Prod.mk.inj heq
    exact h.labels e r b hb
  rw [updateArcWeights_eq logsum t θ hrows hlabels]
  show some { t with fst := weighted t.fst (newWeight logsum (score t.features θ) t.fst) } = _
  rw [hw, newWeight_weighted, weighted_weighted]
  rfl

theorem IsTrainer.updateArcWeights (h : IsTrainer comp F t) (θ : ColumnVector n) :
    t.updateArcWeights logsum θ = some (reweightedTrainer F t θ) := h.toSized.updateArcWeights θ

theorem IsTrainer.reweighted (h : IsTrainer comp F t) (θ : ColumnVector n) :
    IsTrainer comp F (reweightedTrainer F t θ) := { h with machine := ⟨_, rfl⟩ }

theorem mapToFeatureArcs_weighted (F : VectorFst LogWeight) (w : ℕ → LogWeight) (zero : Bool) :
    mapToFeatureArcs (weighted F w) zero = mapToFeatureArcs F zero := by
  rw [mapToFeatureArcs_eq, mapToFeatureArcs_eq, weighted, VectorFst.withWeights_withWeights]
  rfl

/-- The constructor builds a trainer. Its own reweighting has a table of `num_arcs`
entries. -/
theorem construct_isTrainer (add : EReal → EReal → EReal) {features : FeatureMap} {weights : List ℝ}
    {exemplars : List (VectorFst LogWeight × VectorFst LogWeight)} {symbolBound : ℕ} (lambda : ℝ)
    (hrows : Rows features F.numArcs weights.length) (hlabels : LabelsBelow F symbolBound)
    (hmember : LabelsBelow F F.numArcs) (hne : exemplars ≠ [])
    (hexemplars : ∀ exemplar ∈ exemplars, Exemplar comp F exemplar) :
    ∃ t : TrainerLocal weights.length, construct comp add F exemplars F.numArcs symbolBound features
      weights lambda weights.length = some t ∧ IsTrainer comp F t := by
  have hupdate := updateArcWeightsMember_eq add
    { fst := F, fstFeature := .empty, dataFormatted := [], dataFormattedFeatures := []
      features := features, weights := weights, numArcs := F.numArcs, symbolBound := symbolBound
      regularizationCoefficient := lambda, observedCounts := List.replicate F.numArcs 0
      expectedCounts := List.replicate F.numArcs 0 : TrainerLocal weights.length } hrows hmember
  rw [construct, hupdate]
  refine ⟨_, rfl,
    ⟨⟨⟨hlabels, rfl, List.length_replicate .., List.length_replicate ..⟩, ⟨_, rfl⟩, hrows⟩,
    ?_, hne, hexemplars⟩⟩
  exact congrArg (fun G => exemplars.map (featureLattice comp G))
    (mapToFeatureArcs_weighted F _ false)

/-! ### Local weights -/

/-- Arcs compete within a state and an input label. -/
def groupKey (F : VectorFst LogWeight) (e : ℕ) : Option (ℕ × ℤ) :=
  (F.arc? e).map fun p => (p.1, p.2.ilabel)

/-- The weight, as a cost, that `update_arc_weights` writes on an arc. -/
noncomputable def arcCost (F : VectorFst LogWeight) (features : FeatureMap)
    (θ : ColumnVector n) : ℕ → ℝ :=
  localWeight (arcIds F) (groupKey F) (score features θ)

theorem rivals_eq {q e : ℕ} {a : Arc LogWeight} (h : F.arc? e = some (q, a)) :
    rivals (arcIds F) (groupKey F) e = (F.groupArcs q a.ilabel).toFinset := by
  ext b
  have hkey : groupKey F e = some (q, a.ilabel) := by
    rw [groupKey, h]
    rfl
  rw [mem_rivals, List.mem_toFinset, VectorFst.mem_groupArcs, VectorFst.mem_group, hkey, groupKey,
    arcIds, Finset.mem_range, Option.map_eq_some_iff]
  constructor
  · rintro ⟨-, ⟨r, c⟩, hc, heq⟩
    obtain ⟨rfl, hl⟩ := Prod.mk.inj heq
    exact ⟨c, hc, hl⟩
  · rintro ⟨c, hc, hl⟩
    exact ⟨VectorFst.lt_numArcs_of_arc? hc, (q, c), hc, by rw [hl]⟩

theorem sum_groupArcs {q e : ℕ} {a : Arc LogWeight} (h : F.arc? e = some (q, a)) {f : ℕ → ℝ}
    (hf : ∀ b, 0 ≤ f b) : ((F.groupArcs q a.ilabel).map fun b => ENNReal.ofReal (f b)).sum =
      ENNReal.ofReal (∑ b ∈ rivals (arcIds F) (groupKey F) e, f b) := by
  rw [rivals_eq h, ENNReal.ofReal_sum_of_nonneg fun b _ => hf b,
    List.sum_toFinset _ (F.groupArcs_nodup q a.ilabel)]

theorem exists_arc_of_mem_arcIds {e : ℕ} (h : e ∈ arcIds F) : ∃ q a, F.arc? e = some (q, a) :=
  VectorFst.exists_arc? (Finset.mem_range.mp h)

/-- With exact sums of logarithms the new weights are locally normalised. -/
theorem newWeight_logsum (s : ℕ → ℝ) {e : ℕ} (h : e ∈ arcIds F) :
    newWeight logsum s F e = ENNReal.ofReal
      (Real.exp (-localWeight (arcIds F) (groupKey F) s e)) := by
  obtain ⟨q, a, ha⟩ := exists_arc_of_mem_arcIds h
  have htotal : EReal.exp (groupTotal logsum s F q a.ilabel) =
      ENNReal.ofReal (partition (rivals (arcIds F) (groupKey F) e) 1 s) := by
    have hone : partition (rivals (arcIds F) (groupKey F) e) 1 s =
        ∑ b ∈ rivals (arcIds F) (groupKey F) e, Real.exp (-s b) := by
      simp only [partition, Pi.one_apply, one_mul]
    have hexp : ((F.groupArcs q a.ilabel).map fun b => -(s b : EReal)).map EReal.exp =
        (F.groupArcs q a.ilabel).map fun b => ENNReal.ofReal (Real.exp (-s b)) := by
      rw [List.map_map]
      exact List.map_congr_left fun b _ => EReal.exp_coe (-s b)
    rw [groupTotal, exp_foldl_logsum, hexp, hone, ← sum_groupArcs ha fun b => (Real.exp_pos _).le,
      negDblMax, EReal.exp_bot, zero_add]
  have hpos := partition_rivals_pos (g := groupKey F) s h
  rw [newWeight_eq ha, htotal, ← localProb_eq_exp s h, localProb, posterior, Pi.one_apply, one_mul,
    ENNReal.ofReal_div_of_pos hpos, div_eq_mul_inv]
  exact congrArg (· * _) (EReal.exp_coe (-s e))

/-! ### The E-step -/

/-- The lattices of the training set. -/
noncomputable def IsTrainer.latticesOf (h : IsTrainer comp F t) : List (Lattice (List ℕ) ℕ) :=
  t.dataFormatted.pmap (fun _ hexemplar => Exemplar.toLattice hexemplar) h.exemplars

theorem counts_nonneg (L : Lattice (List ℕ) ℕ) (A : Finset ℕ) (ω : ℕ → ℝ) (a : ℕ) :
    0 ≤ L.counts A ω a :=
  Finset.sum_nonneg fun _ hp =>
    mul_nonneg (posterior_nonneg L.coef_nonneg _ hp) (Nat.cast_nonneg _)

theorem totalCounts_nonneg (D : List (Lattice (List ℕ) ℕ)) (A : Finset ℕ) (ω : ℕ → ℝ) (a : ℕ) :
    0 ≤ totalCounts A D ω a := by
  apply List.sum_nonneg
  intro x hx
  obtain ⟨L, -, rfl⟩ := List.mem_map.mp hx
  exact counts_nonneg L A ω a

/-- The loop over the exemplars adds up their expected numbers of uses. -/
theorem exemplarLoop_eq {w : ℕ → LogWeight} {ω : ℕ → ℝ}
    (hw : ∀ a ∈ arcIds F, w a = ENNReal.ofReal (Real.exp (-ω a)))
    (exemplars : List (VectorFst LogWeight × VectorFst LogWeight))
    (hexemplars : ∀ exemplar ∈ exemplars, Exemplar comp F exemplar) (t : TrainerLocal n)
    (hfst : t.fst = weighted F w) (hlen : F.numArcs ≤ t.observedCounts.length) :
    ∃ counts, exemplarLoop logsum comp t
        (exemplars.zip (exemplars.map (featureLattice comp (mapToFeatureArcs F false)))) =
          some { t with observedCounts := counts } ∧
      counts.length = t.observedCounts.length ∧
      ∀ i, tally counts i = tally t.observedCounts i + ENNReal.ofReal (totalCounts (arcIds F)
        (exemplars.pmap (fun _ hexemplar => Exemplar.toLattice hexemplar) hexemplars) ω i) := by
  induction exemplars generalizing t with
  | nil => exact ⟨t.observedCounts, rfl, rfl, fun i => by simp [totalCounts]⟩
  | cons exemplar exemplars ih =>
    have hfirst : Exemplar comp F exemplar := hexemplars exemplar (by simp)
    obtain ⟨counts₁, hcounts₁, hlen₁, htally₁⟩ := hfirst.observedCounts_eq hw t hlen
    obtain ⟨counts, hcounts, hlen₂, htally⟩ := ih (fun x hx => hexemplars x (by simp [hx]))
      { t with observedCounts := counts₁ } hfst (hlen.trans_eq hlen₁.symm)
    refine ⟨counts, ?_, hlen₂.trans hlen₁, fun i => ?_⟩
    · rw [← hfst] at hcounts₁
      rw [List.map_cons, List.zip_cons_cons, exemplarLoop, hcounts₁, Option.bind_eq_bind,
        Option.bind_some]
      exact hcounts
    · have hsplit : totalCounts (arcIds F) ((exemplar :: exemplars).pmap
          (fun _ hexemplar => Exemplar.toLattice hexemplar) hexemplars) ω i =
            hfirst.toLattice.counts (arcIds F) ω i + totalCounts (arcIds F) (exemplars.pmap
              (fun _ hexemplar => Exemplar.toLattice hexemplar)
              fun x hx => hexemplars x (by simp [hx])) ω i := by
        rw [totalCounts, List.pmap_cons, List.map_cons, List.sum_cons]
        rfl
      rw [hsplit, ENNReal.ofReal_add (counts_nonneg _ _ _ _) (totalCounts_nonneg _ _ _ _), htally,
        htally₁, add_assoc]

/-- The counts that the E-step leaves, as expected numbers of uses under `θ`. -/
noncomputable def IsTrainer.countsAt (h : IsTrainer comp F t) (θ : ColumnVector n) : ℕ → ℝ :=
  totalCounts (arcIds F) h.latticesOf (arcCost F t.features θ)

/-- The E-step right after a reweighting with `θ`. -/
theorem IsTrainer.eStep_eq (h : IsTrainer comp F t) (θ : ColumnVector n) :
    ∃ counts, (reweightedTrainer F t θ).eStep logsum comp =
        some { reweightedTrainer F t θ with observedCounts := counts } ∧
      counts.length = t.numArcs ∧ ∀ i, tally counts i = ENNReal.ofReal (h.countsAt θ i) := by
  obtain ⟨counts, hcounts, hlen, htally⟩ := exemplarLoop_eq
    (fun a ha => newWeight_logsum (score t.features θ) ha) t.dataFormatted h.exemplars
    { reweightedTrainer F t θ with observedCounts := List.replicate t.numArcs negDblMax } rfl
    (by rw [List.length_replicate, h.numArcs])
  refine ⟨counts, ?_, hlen.trans (List.length_replicate ..), fun i => ?_⟩
  · have hlattices : (reweightedTrainer F t θ).dataFormattedFeatures =
        t.dataFormatted.map (featureLattice comp (mapToFeatureArcs F false)) := h.lattices
    have hfill : fillNegDblMax (reweightedTrainer F t θ).numArcs
      (reweightedTrainer F t θ).observedCounts =
        some (List.replicate t.numArcs negDblMax) := fillNegDblMax_length h.observed
    rw [← hlattices] at hcounts
    rw [TrainerLocal.eStep, hfill, Option.bind_eq_bind, Option.bind_some]
    exact hcounts
  · rw [htally]
    show tally (List.replicate t.numArcs negDblMax) i + _ = _
    rw [tally_replicate, zero_add]
    rfl

theorem IsTrainer.observe (h : IsTrainer comp F t) {counts : List EReal}
    (hlen : counts.length = t.numArcs) :
    IsTrainer comp F ({ t with observedCounts := counts } : TrainerLocal n) :=
      { h with observed := hlen }

/-! ### The objective -/

theorem likelihoodLoop_eq {w : ℕ → LogWeight} {ω : ℕ → ℝ}
    (hw : ∀ a ∈ arcIds F, w a = ENNReal.ofReal (Real.exp (-ω a)))
    (exemplars : List (VectorFst LogWeight × VectorFst LogWeight))
    (hexemplars : ∀ exemplar ∈ exemplars, Exemplar comp F exemplar) (x : ℝ) :
    likelihoodLoop comp (weighted F w) x exemplars = ((x + totalLoss (arcIds F)
      (exemplars.pmap (fun _ hexemplar => Exemplar.toLattice hexemplar) hexemplars) ω : ℝ) :
        EReal) := by
  induction exemplars generalizing x with
  | nil => simp [likelihoodLoop, totalLoss]
  | cons exemplar exemplars ih =>
    rw [likelihoodLoop, (hexemplars exemplar (by simp)).value_shortestDistance hw, ← EReal.coe_add,
      ih fun y hy => hexemplars y (by simp [hy])]
    rw [List.pmap_cons, totalLoss, totalLoss, List.map_cons, List.sum_cons, add_assoc]

/-- What `value2` computes. -/
noncomputable def IsTrainer.objective (h : IsTrainer comp F t) (θ : ColumnVector n) : ℝ :=
  (totalLoss (arcIds F) h.latticesOf (arcCost F t.features θ) +
    t.regularizationCoefficient * (θ ⬝ᵥ θ)) / t.dataFormatted.length

theorem IsTrainer.value2_eq (h : IsTrainer comp F t) (θ : ColumnVector n) :
    t.value2 logsum comp θ = some ((h.objective θ : EReal), reweightedTrainer F t θ) := by
  have hloop := likelihoodLoop_eq (fun a ha => newWeight_logsum (score t.features θ) ha)
    t.dataFormatted h.exemplars 0
  rw [TrainerLocal.value2, h.updateArcWeights, Option.bind_eq_bind, Option.bind_some]
  show some (_, _) = _
  congr 2
  show (likelihoodLoop comp (weighted F (newWeight logsum (score t.features θ) F)) (0 : ℝ)
    t.dataFormatted + _) / _ = _
  rw [hloop, zero_add, ← EReal.coe_add, ← EReal.coe_div]
  rfl

end StochasticEdit.Trainer
