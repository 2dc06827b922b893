import StochasticEdit.Trainer.Training

/-! `gradient2`. The expected count of an arc is its weight times the observed count of
its group, and the loop over the arcs adds the difference of the two counts to the entry
of every feature of the arc. -/

namespace StochasticEdit.Trainer

open Wfst Estimation
open scoped ENNReal

variable {n : ℕ} {comp : Composer} {F : VectorFst LogWeight} {t : TrainerLocal n}

/-! ### Expected counts -/

section Expected
variable {amount : ℕ → ℝ≥0∞}

/-- One state: every arc adds its amount to its own entry. -/
theorem expectedPass_eq {total : List EReal} {T : ℤ → EReal} (e : ℕ) (arcs : List (Arc LogWeight))
    (expected : List EReal) (htotal : ∀ a ∈ arcs, readAt total a.ilabel = some (T a.ilabel))
    (hlen : e + arcs.length ≤ expected.length)
    (hamount : ∀ k a, arcs[k]? = some a → EReal.exp (T a.ilabel) * a.weight = amount (e + k)) :
    ∃ expected', expectedPass logsum total e expected arcs = some expected' ∧
      expected'.length = expected.length ∧
      ∀ i, tally expected' i = tally expected i + contribution id amount e (e + arcs.length) i := by
  induction arcs generalizing e expected with
  | nil => exact ⟨expected, rfl, rfl, fun i => by simp [contribution]⟩
  | cons a arcs ih =>
    rw [List.length_cons] at hlen
    have hlt : e < expected.length := by omega
    have hread : expected[e]? = some expected[e] := List.getElem?_eq_getElem hlt
    obtain ⟨expected', hpass, hlength, htally⟩ := ih (e + 1)
      (expected.set e (logsum expected[e] (T a.ilabel - value a.weight)))
      (fun b hb => htotal b (by simp [hb])) (by rw [List.length_set]; omega)
      (fun k b hb => by
        have hnext := hamount (k + 1) b (by simpa using hb)
        rwa [show e + (k + 1) = e + 1 + k by omega] at hnext)
    refine ⟨expected', ?_, by rw [hlength, List.length_set], fun i => ?_⟩
    · simp only [expectedPass, hread, htotal a (by simp), writeAt_natCast hlt, Option.bind_eq_bind,
        Option.bind_some]
      exact hpass
    · have hone : tally (expected.set e (logsum expected[e] (T a.ilabel - value a.weight))) i =
          tally expected i + if e = i then amount e else 0 := by
        have hfirst : EReal.exp (T a.ilabel - value a.weight) = amount e := by
          rw [sub_eq_add_neg, EReal.exp_add, exp_neg_value]
          exact hamount 0 a rfl
        rw [tally_set_logsum hlt, hfirst]
      have hlast : e < e + (arcs.length + 1) := by omega
      rw [htally, hone, List.length_cons, add_assoc, contribution_succ_left hlast,
        show e + 1 + arcs.length = e + (arcs.length + 1) by omega]
      rfl

/-- All states. The totals are those of the observed counts in each group. -/
theorem expectedStates_eq {observed : List EReal} {bound : ℕ} (e : ℕ) (expected : List EReal)
    (ss : List (State LogWeight)) (hobserved : e + arcsBefore ss ss.length ≤ observed.length)
    (hexpected : e + arcsBefore ss ss.length ≤ expected.length)
    (hlabel : ∀ s ∈ ss, ∀ a ∈ s.arcs, 0 ≤ a.ilabel ∧ a.ilabel < bound)
    (hamount : ∀ j s k a, ss[j]? = some s → s.arcs[k]? = some a →
      ((labelled a.ilabel (e + arcsBefore ss j) s.arcs).map (tally observed)).sum * a.weight =
        amount (e + arcsBefore ss j + k)) :
    ∃ expected', expectedStates logsum observed bound e expected ss = some expected' ∧
      expected'.length = expected.length ∧
      ∀ i, tally expected' i =
        tally expected i + contribution id amount e (e + arcsBefore ss ss.length) i := by
  induction ss generalizing e expected with
  | nil => exact ⟨expected, rfl, rfl, fun i => by simp [contribution, arcsBefore]⟩
  | cons s ss ih =>
    have hlen : arcsBefore (s :: ss) (s :: ss).length = s.arcs.length +
        arcsBefore ss ss.length := rfl
    rw [hlen] at hobserved hexpected
    let x : ℕ → EReal := fun i => observed[i]?.getD negDblMax
    let T : ℤ → EReal := fun l => ((labelled l e s.arcs).map x).foldl logsum negDblMax
    obtain ⟨total, htotals, hread⟩ :=
      @stateTotals_eq logsum LogWeight (fun i => observed[i]?) x bound e s.arcs
      (fun k hk => by
        have hlt : e + k < observed.length := by omega
        simp only [x, List.getElem?_eq_getElem hlt, Option.getD_some])
      (hlabel s (by simp))
    have hT (l : ℤ) : EReal.exp (T l) = ((labelled l e s.arcs).map (tally observed)).sum := by
      simp only [T]
      rw [exp_foldl_logsum, negDblMax, EReal.exp_bot, zero_add, List.map_map]
      rfl
    obtain ⟨expected₁, hpass, hlen₁, htally₁⟩ :=
      @expectedPass_eq amount total T e s.arcs expected hread
      (by omega) (fun k a ha => by rw [hT]; exact hamount 0 s k a rfl ha)
    obtain ⟨expected₂, hrest, hlen₂, htally₂⟩ :=
      ih (e + s.arcs.length) expected₁ (by omega) (by omega)
      (fun u hu => hlabel u (by simp [hu]))
      (fun j u k a hu ha => by
        have hnext := hamount (j + 1) u k a (by simpa using hu) ha
        rwa [arcsBefore, ← Nat.add_assoc] at hnext)
    refine ⟨expected₂, ?_, hlen₂.trans hlen₁, fun i => ?_⟩
    · simp only [expectedStates, htotals, hpass, Option.bind_eq_bind, Option.bind_some]
      exact hrest
    · rw [htally₂, htally₁, add_assoc,
        contribution_trans (Nat.le_add_right _ _) (Nat.le_add_right _ _), hlen, Nat.add_assoc]

/-- Every entry is added to by its own arc. -/
theorem contribution_id_of_lt (amount : ℕ → ℝ≥0∞) {a N : ℕ} (h : a < N) :
    contribution id amount 0 N a = amount a := by
  rw [contribution, Finset.sum_eq_single a]
  · exact if_pos rfl
  · exact fun b _ hb => if_neg hb
  · exact fun hno => absurd (Finset.mem_Ico.mpr ⟨Nat.zero_le a, h⟩) hno

/-- The observed count of the group of an arc times the weight of the arc. -/
noncomputable def expectedAmount (F : VectorFst LogWeight) (observed : List EReal) (e : ℕ) : ℝ≥0∞ :=
  (F.arc? e).elim 0 fun p => ((F.groupArcs p.1 p.2.ilabel).map (tally observed)).sum * p.2.weight

theorem expectedAmount_eq {observed : List EReal} {e q : ℕ} {a : Arc LogWeight}
    (h : F.arc? e = some (q, a)) :
    expectedAmount F observed e = ((F.groupArcs q a.ilabel).map (tally observed)).sum *
      a.weight := by
  rw [expectedAmount, h, Option.elim_some]

/-- From entries that are all `-DBL_MAX`, every arc of a machine ends with its own amount. -/
theorem LabelsBelow.expectedStates_eq {observed : List EReal} {bound : ℕ} (h : LabelsBelow F bound)
    (hobserved : observed.length = F.numArcs) :
    ∃ expected, expectedStates logsum observed bound 0
      (List.replicate F.numArcs negDblMax) F.states =
        some expected ∧ expected.length = F.numArcs ∧
      ∀ e < F.numArcs, tally expected e = expectedAmount F observed e := by
  have hnum : arcsBefore F.states F.states.length = F.numArcs := F.numArcs_eq.symm
  obtain ⟨expected, hstates, hlength, htally⟩ :=
    @Trainer.expectedStates_eq (expectedAmount F observed) observed
    bound 0 (List.replicate F.numArcs negDblMax) F.states (by omega)
    (by rw [List.length_replicate]; omega) (labelsBelow_iff_states.mp h)
    (fun j s k a hs ha => by
      have harc : F.arc? (F.firstArc j + k) = some (j, a) :=
        VectorFst.arc?_eq_some_iff.mpr ⟨s, k, hs, ha, rfl⟩
      rw [Nat.zero_add]
      refine Eq.trans ?_ (expectedAmount_eq harc).symm
      rw [VectorFst.groupArcs, hs]
      rfl)
  refine ⟨expected, hstates, hlength.trans (List.length_replicate ..), fun e he => ?_⟩
  rw [htally, tally_replicate, zero_add, Nat.zero_add, hnum, contribution_id_of_lt _ he]

end Expected

/-! ### The loops over the features -/

theorem gradientRow_eq {row : List ℤ} (h : ∀ i ∈ row, 0 ≤ i ∧ i.toNat < n) (term : ℝ)
    (gradient : ColumnVector n) : gradientRow term gradient row =
      some fun i => gradient i + (row.count (i.val : ℤ) : ℝ) * term := by
  induction row generalizing gradient with
  | nil => simp [gradientRow]
  | cons j row ih =>
    obtain ⟨hj, hlt⟩ := h j (by simp)
    rw [gradientRow, dif_pos ⟨hj, hlt⟩, ih fun i hi => h i (by simp [hi])]
    congr 1
    funext i
    rw [count_cons_index hj hlt]
    by_cases hi : i = ⟨j.toNat, hlt⟩
    · subst hi
      rw [Function.update_self, if_pos rfl, Nat.cast_add, Nat.cast_one]
      ring
    · rw [Function.update_of_ne hi, if_neg hi, add_zero]

theorem gradientArcs_eq {N : ℕ} (hrows : Rows t.features F.numArcs n) (i k : ℕ)
    (gradient : ColumnVector n) (hk : i + k ≤ F.numArcs)
    (hobserved : i + k ≤ t.observedCounts.length) (hexpected : i + k ≤ t.expectedCounts.length) :
    gradientArcs N t i k gradient = some fun f => gradient f + ∑ a ∈ Finset.Ico i (i + k),
      (firings t.features n a f : ℝ) *
        (1 / N * ((tally t.observedCounts a).toReal - (tally t.expectedCounts a).toReal)) := by
  induction k generalizing i gradient with
  | zero => simp [gradientArcs]
  | succ k ih =>
    obtain ⟨row, hrow, hmem⟩ := hrows i (by omega)
    have hobs : t.observedCounts[i]? = some t.observedCounts[i] :=
      List.getElem?_eq_getElem (by omega)
    have hexp : t.expectedCounts[i]? = some t.expectedCounts[i] :=
      List.getElem?_eq_getElem (by omega)
    simp only [gradientArcs, hrow, hobs, hexp, gradientRow_eq hmem, Option.bind_eq_bind,
      Option.bind_some]
    rw [ih (i + 1) _ (by omega) (by omega) (by omega)]
    congr 1
    funext f
    have hfirst : firings t.features n i f = row.count (f.val : ℤ) := by
      rw [firings, hrow]
      rfl
    rw [Finset.sum_eq_sum_Ico_succ_bot
      (show i < i + (k + 1) by omega), hfirst, tally, tally, hobs, hexp,
      show i + 1 + k = i + (k + 1) by omega, add_assoc (gradient f)]
    rfl

/-! ### The gradient -/

/-- The expected count of an arc: its probability times the observed count of its group. -/
noncomputable def expectedCount (F : VectorFst LogWeight) (features : FeatureMap)
    (θ : ColumnVector n) (c : ℕ → ℝ) (a : ℕ) : ℝ :=
  (∑ b ∈ rivals (arcIds F) (groupKey F) a, c b) *
    localProb (arcIds F) (groupKey F) (score features θ) a

/-- `gradient2` at `θ` with `N` exemplars, from the observed counts `c`. -/
noncomputable def gradientFor (N : ℕ) (F : VectorFst LogWeight) (t : TrainerLocal n) (c : ℕ → ℝ)
    (θ : ColumnVector n) : ColumnVector n := fun k =>
  1 / N * t.regularizationCoefficient * θ k + ∑ a ∈ arcIds F,
    (firings t.features n a k : ℝ) * (1 / N * (c a - expectedCount F t.features θ c a))

/-- `gradient2` at `θ`, from the observed counts `c`. -/
noncomputable def gradientAt (F : VectorFst LogWeight) (t : TrainerLocal n) (c : ℕ → ℝ)
    (θ : ColumnVector n) :
    ColumnVector n := gradientFor t.dataFormatted.length F t c θ

theorem LabelsBelow.weighted {bound : ℕ} (h : LabelsBelow F bound) (w : ℕ → LogWeight) :
    LabelsBelow (weighted F w) bound := by
  intro e q a ha
  rw [Trainer.weighted, VectorFst.arc?_withWeights] at ha
  obtain ⟨⟨p, b⟩, hb, heq⟩ := Option.map_eq_some_iff.mp ha
  obtain ⟨rfl, rfl⟩ := Prod.mk.inj heq
  exact h e p b hb

/-- On the reweighted machine the amount of an arc is its expected count. -/
theorem expectedAmount_weighted (θ : ColumnVector n) {features : FeatureMap} {observed : List EReal}
    {c : ℕ → ℝ} (hc : ∀ a, 0 ≤ c a) (hobserved : ∀ a, tally observed a = ENNReal.ofReal (c a))
    {e : ℕ} (he : e ∈ arcIds F) :
    expectedAmount (weighted F (newWeight logsum (score features θ) F)) observed e =
      ENNReal.ofReal (expectedCount F features θ c e) := by
  obtain ⟨q, a, ha⟩ := exists_arc_of_mem_arcIds he
  have harc : (weighted F (newWeight logsum (score features θ) F)).arc? e =
      some (q, a.map fun _ => newWeight logsum (score features θ) F e) := by
    rw [weighted, VectorFst.arc?_withWeights, ha]
    rfl
  have htally : tally observed = fun b => ENNReal.ofReal (c b) := funext hobserved
  rw [expectedAmount_eq harc, VectorFst.groupArcs_of_shape_eq (shape_weighted F _),
    Arc.map_ilabel, htally, sum_groupArcs ha hc]
  show _ * newWeight logsum (score features θ) F e = _
  rw [newWeight_logsum _ he, ← localProb_eq_exp _ he,
    ← ENNReal.ofReal_mul (Finset.sum_nonneg fun b _ => hc b)]
  rfl

/-- The loops of `calculate_expected_counts`, from entries that are all `-DBL_MAX`. -/
theorem Sized.expectedStates_eq (h : Sized F t) (θ : ColumnVector n) {c : ℕ → ℝ}
    (hc : ∀ a, 0 ≤ c a) (hobserved : ∀ a, tally t.observedCounts a = ENNReal.ofReal (c a)) :
    ∃ expected, expectedStates logsum t.observedCounts t.symbolBound 0
      (List.replicate t.numArcs negDblMax)
        (reweightedTrainer F t θ).fst.states = some expected ∧ expected.length = t.numArcs ∧
      ∀ a ∈ arcIds F, tally expected a = ENNReal.ofReal (expectedCount F t.features θ c a) := by
  let w := newWeight logsum (score t.features θ) F
  have hnum : (weighted F w).numArcs = t.numArcs := (numArcs_weighted F w).trans h.numArcs.symm
  obtain ⟨expected, hexpected, hlen, htally⟩ :=
    (h.labels.weighted w).expectedStates_eq (h.observed.trans hnum.symm)
  rw [hnum] at hexpected hlen htally
  refine ⟨expected, hexpected, hlen, fun a ha => ?_⟩
  rw [htally a (h.numArcs ▸ Finset.mem_range.mp ha), expectedAmount_weighted θ hc hobserved ha]

theorem expectedCount_nonneg {c : ℕ → ℝ} (hc : ∀ a, 0 ≤ c a) (features : FeatureMap)
    (θ : ColumnVector n) {a : ℕ} (ha : a ∈ arcIds F) : 0 ≤ expectedCount F features θ c a := by
  apply mul_nonneg (Finset.sum_nonneg fun b _ => hc b)
  rw [localProb_eq_exp _ ha]
  exact (Real.exp_pos _).le

/-- `calculate_expected_counts` on the reweighted machine, with all entries reset. -/
theorem Sized.calculateExpectedCounts_eq (h : Sized F t) (θ : ColumnVector n) {c : ℕ → ℝ}
    (hc : ∀ a, 0 ≤ c a) (hobserved : ∀ a, tally t.observedCounts a = ENNReal.ofReal (c a)) :
    ∃ expected,
      ({ reweightedTrainer F t θ with expectedCounts := List.replicate t.numArcs negDblMax } :
        TrainerLocal n).calculateExpectedCounts logsum =
          some { reweightedTrainer F t θ with expectedCounts := expected } ∧
            expected.length = t.numArcs ∧
      ∀ a ∈ arcIds F, tally expected a = ENNReal.ofReal (expectedCount F t.features θ c a) := by
  obtain ⟨expected, hexpected, hlen, htally⟩ := h.expectedStates_eq θ hc hobserved
  refine ⟨expected, ?_, hlen, htally⟩
  rw [TrainerLocal.calculateExpectedCounts]
  show Option.bind (expectedStates logsum t.observedCounts t.symbolBound 0
    (List.replicate t.numArcs negDblMax) (reweightedTrainer F t θ).fst.states) _ = _
  rw [hexpected]
  rfl

/-- The terms of the loop over the arcs add up to the gradient. -/
theorem Sized.sum_terms_eq (h : Sized F t) (θ : ColumnVector n) {c : ℕ → ℝ} (hc : ∀ a, 0 ≤ c a)
    (hobserved : ∀ a, tally t.observedCounts a = ENNReal.ofReal (c a)) {expected : List EReal}
    (hexpected : ∀ a ∈ arcIds F, tally expected a =
      ENNReal.ofReal (expectedCount F t.features θ c a))
    (N : ℕ) :
    (fun f : Fin n => 1 / (N : ℝ) * t.regularizationCoefficient * θ f +
      ∑ a ∈ Finset.Ico 0 (0 + t.numArcs), (firings t.features n a f : ℝ) *
        (1 / N * ((tally t.observedCounts a).toReal - (tally expected a).toReal))) =
          gradientFor N F t c θ := by
  funext f
  have hrange : Finset.Ico 0 (0 + t.numArcs) = arcIds F := by
    rw [Nat.zero_add, h.numArcs, arcIds, Finset.range_eq_Ico]
  rw [gradientFor, hrange]
  refine congrArg (_ + ·) (Finset.sum_congr rfl fun a ha => ?_)
  rw [hobserved, hexpected a ha, ENNReal.toReal_ofReal (hc a),
    ENNReal.toReal_ofReal (expectedCount_nonneg hc _ _ ha)]

/-- `gradient2`, from observed counts that stand for `c`. -/
theorem Sized.gradient2_eq (h : Sized F t) (θ : ColumnVector n) {c : ℕ → ℝ}
    (hc : ∀ a, 0 ≤ c a) (hobserved : ∀ a, tally t.observedCounts a = ENNReal.ofReal (c a)) :
    ∃ expected, expected.length = t.numArcs ∧ t.gradient2 logsum θ =
      some (gradientFor t.dataFormattedFeatures.length F t c θ,
        { reweightedTrainer F t θ with expectedCounts := expected }) := by
  obtain ⟨expected, hcalc, hlen, htally⟩ := h.calculateExpectedCounts_eq θ hc hobserved
  let N := t.dataFormattedFeatures.length
  let t' : TrainerLocal n := { reweightedTrainer F t θ with expectedCounts := expected }
  have harcs := @gradientArcs_eq n F t' N h.rows 0 t.numArcs
    (fun f => 1 / N * t.regularizationCoefficient * θ f)
    (by rw [h.numArcs, Nat.zero_add]) (by rw [Nat.zero_add]; exact h.observed.ge)
    (by rw [Nat.zero_add]; exact hlen.ge)
  refine ⟨expected, hlen, ?_⟩
  rw [TrainerLocal.gradient2, h.updateArcWeights]
  show Option.bind (fillNegDblMax t.numArcs t.expectedCounts) _ = _
  rw [fillNegDblMax_length h.expected, Option.bind_some]
  show Option.bind (TrainerLocal.calculateExpectedCounts logsum
    ({ reweightedTrainer F t θ with expectedCounts := List.replicate t.numArcs negDblMax } :
      TrainerLocal n)) _ = _
  rw [hcalc, Option.bind_some]
  show Option.bind (gradientArcs N t' 0 t.numArcs
    fun f => 1 / N * t.regularizationCoefficient * θ f) _ = _
  rw [harcs]
  exact congrArg (fun gradient => some (gradient, t')) (h.sum_terms_eq θ hc hobserved htally N)

theorem IsTrainer.gradient2_eq (h : IsTrainer comp F t) (θ : ColumnVector n) {c : ℕ → ℝ}
    (hc : ∀ a, 0 ≤ c a) (hobserved : ∀ a, tally t.observedCounts a = ENNReal.ofReal (c a)) :
    ∃ t', t.gradient2 logsum θ = some (gradientAt F t c θ, t') ∧ IsTrainer comp F t' := by
  obtain ⟨expected, hlen, hgradient⟩ := h.toSized.gradient2_eq θ hc hobserved
  have hN : t.dataFormattedFeatures.length = t.dataFormatted.length := by
    rw [h.lattices, List.length_map]
  rw [hN] at hgradient
  exact ⟨_, hgradient, { h.reweighted θ with expected := hlen }⟩

end StochasticEdit.Trainer
