import StochasticEdit.Trainer.Auxiliary

/-! The expected counts share out the observed ones. On a locally normalised machine every
group keeps its mass, so the data have no say in the weight of a feature that does not tell
the arcs of any group apart. -/

namespace StochasticEdit.Trainer

open Wfst Estimation
open scoped ENNReal

variable {n : ℕ} {F : VectorFst LogWeight} {t : TrainerLocal n}

/-- `calculate_expected_counts`, after the loop that resets the expected counts. -/
noncomputable def TrainerLocal.recount (add : EReal → EReal → EReal) (t : TrainerLocal n) :
    Option (TrainerLocal n) := do
  let expected ← fillNegDblMax t.numArcs t.expectedCounts
  { t with expectedCounts := expected }.calculateExpectedCounts add

/-- The total of `exp` of the counts over the arcs of a state with an input label. -/
noncomputable def groupMass (F : VectorFst LogWeight) (counts : List EReal) (q : ℕ)
    (l : ℤ) : ℝ≥0∞ :=
  tsum fun e : F.group q l => tally counts e

/-! ### Mass -/

theorem expectedAmount_of_mem_group {observed : List EReal} {q : ℕ} {l : ℤ} {e : ℕ}
    (h : e ∈ F.group q l) :
    expectedAmount F observed e = groupMass F observed q l * F.arcWeight e := by
  obtain ⟨a, ha, rfl⟩ := h
  rw [expectedAmount_eq ha, VectorFst.arcWeight_eq ha, groupMass, VectorFst.tsum_group]

/-- The weights of a group share out its mass. -/
theorem tsum_expectedAmount (hnorm : F.Normalised F.arcWeight) (observed : List EReal)
    (q : ℕ) (l : ℤ) :
    (tsum fun e : F.group q l => expectedAmount F observed e) = groupMass F observed q l := by
  have hamount : (fun e : F.group q l => expectedAmount F observed e) =
      fun e : F.group q l => groupMass F observed q l * F.arcWeight e :=
    funext fun e => expectedAmount_of_mem_group e.2
  rw [hamount, ENNReal.tsum_mul_left]
  by_cases hne : (F.group q l).Nonempty
  · rw [hnorm q l hne, mul_one]
  · have hempty : IsEmpty (F.group q l) :=
      Set.isEmpty_coe_sort.mpr (Set.not_nonempty_iff_eq_empty.mp hne)
    rw [groupMass, tsum_empty, tsum_empty, zero_mul]

theorem Counting.recount_eq (h : Counting t.fst t) : ∃ expected,
    t.recount logsum = some { t with expectedCounts := expected } ∧
      ∀ e < t.fst.numArcs, tally expected e = expectedAmount t.fst t.observedCounts e := by
  obtain ⟨expected, hstates, -, htally⟩ := h.labels.expectedStates_eq (h.observed.trans h.numArcs)
  refine ⟨expected, ?_, htally⟩
  rw [TrainerLocal.recount, fillNegDblMax_length h.expected, h.numArcs, Option.bind_eq_bind,
    Option.bind_some]
  show Option.bind (expectedStates logsum t.observedCounts t.symbolBound 0
    (List.replicate t.fst.numArcs negDblMax) t.fst.states) _ = _
  rw [hstates]
  rfl

/-- Every group has its observed mass as its expected mass. -/
theorem Counting.groupMass_recount (h : Counting t.fst t)
    (hnorm : t.fst.Normalised t.fst.arcWeight) :
    ∃ t', t.recount logsum = some t' ∧
      ∀ q l, groupMass t.fst t'.expectedCounts q l = groupMass t.fst t.observedCounts q l := by
  obtain ⟨expected, hrecount, htally⟩ := h.recount_eq
  refine ⟨_, hrecount, fun q l => ?_⟩
  calc groupMass t.fst expected q l
      = tsum fun e : t.fst.group q l => expectedAmount t.fst t.observedCounts e :=
        tsum_congr fun e => htally e (VectorFst.lt_numArcs_of_mem_group e.2)
    _ = groupMass t.fst t.observedCounts q l := tsum_expectedAmount hnorm _ q l

/-! ### Features that do not tell arcs apart -/

/-- The feature fires the same number of times on all arcs of each group. -/
def EvenOnGroups {W : Type*} (F : VectorFst W) (features : FeatureMap) (k : Fin n) : Prop :=
  ∀ q l, ∀ e ∈ F.group q l, ∀ e' ∈ F.group q l, firings features n e k = firings features n e' k

theorem EvenOnGroups.of_shape_eq {V W : Type*} {F : VectorFst V} {G : VectorFst W}
    {features : FeatureMap} {k : Fin n} (h : EvenOnGroups G features k)
    (hshape : F.shape = G.shape) : EvenOnGroups F features k := by
  intro q l
  rw [VectorFst.group_of_shape_eq hshape]
  exact h q l

theorem EvenOnGroups.of_mem_rivals {features : FeatureMap} {k : Fin n}
    (h : EvenOnGroups F features k) {a b : ℕ} (hb : b ∈ rivals (arcIds F) (groupKey F) a)
    (ha : a ∈ arcIds F) :
    firings features n b k = firings features n a k := by
  obtain ⟨q, arc, harc⟩ := exists_arc_of_mem_arcIds ha
  have hmem : b ∈ F.group q arc.ilabel := by
    rw [rivals_eq harc, List.mem_toFinset, VectorFst.mem_groupArcs] at hb
    exact hb
  exact h q arc.ilabel b hmem a ⟨arc, harc, rfl⟩

/-- Its derivative vanishes on every arc weight, and so in the sum over the counts. -/
theorem EvenOnGroups.slope_eq_zero {features : FeatureMap} {k : Fin n}
    (h : EvenOnGroups F features k) (c : ℕ → ℝ) (θ : ColumnVector n) :
    slope F features c θ (Pi.single k 1) = 0 := by
  rw [← sum_mul_arcSlope]
  refine Finset.sum_eq_zero fun a ha => ?_
  have hscore : ∀ b ∈ rivals (arcIds F) (groupKey F) a,
      score features (Pi.single k 1) b = score features (Pi.single k 1) a := by
    intro b hb
    rw [score_single, score_single, h.of_mem_rivals hb ha]
  rw [arcSlope, sum_localProb_mul_of_const _ ha hscore, sub_self, mul_zero]

theorem tally_ne_top {counts : List EReal} (h : ∀ x ∈ counts, x ≠ ⊤) (a : ℕ) :
    tally counts a ≠ ⊤ := by
  rw [tally, ne_eq, EReal.exp_eq_top_iff]
  cases ha : counts[a]? with
  | none => exact bot_ne_top
  | some x => exact h x (List.mem_of_getElem? ha)

/-- The data add nothing to an entry of `gradient2`, at any weights. -/
def TrainerLocal.PenaltyOnly (t : TrainerLocal n) (k : Fin n) : Prop :=
  ∀ θ, ∃ g t', t.gradient2 logsum θ = some (g, t') ∧
    g k = 1 / t.dataFormattedFeatures.length * t.regularizationCoefficient * θ k

theorem Counting.penaltyOnly (h : Counting t.fst t) (hrows : Rows t.features t.fst.numArcs n)
    (hfinite : ∀ x ∈ t.observedCounts, x ≠ ⊤) {k : Fin n}
    (heven : EvenOnGroups t.fst t.features k) : t.PenaltyOnly k := by
  intro θ
  obtain ⟨expected, -, hgradient⟩ := (h.sized hrows).gradient2_eq θ
    (c := fun a => (tally t.observedCounts a).toReal) (fun a => ENNReal.toReal_nonneg)
    fun a => (ENNReal.ofReal_toReal (tally_ne_top hfinite a)).symm
  refine ⟨_, _, hgradient, ?_⟩
  rw [gradientFor_eq, heven.slope_eq_zero, zero_add]
  ring

end StochasticEdit.Trainer
