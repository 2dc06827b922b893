import StochasticEdit.Trainer.Restart

/-! The tables that the loops over the arcs index by input label. `update_arc_weights()`
gives its table `num_arcs` entries, while `update_arc_weights(weights)` and
`calculate_expected_counts` take `symbol_bound`, which is documented as the highest id of a
symbol and so is itself no index of the table. -/

namespace StochasticEdit.Trainer

open Wfst

variable {n : ℕ} {add : EReal → EReal → EReal} {t : TrainerLocal n} {θ : ColumnVector n}

/-- The trainer with `θ` as its own weights. -/
def TrainerLocal.withMember (t : TrainerLocal n) (θ : ColumnVector n) : TrainerLocal n :=
  { t with weights := List.ofFn θ }

/-- With `θ` as the weights of the instance and as an argument, the three functions index
their tables within range, and the two reweightings leave the same machine. -/
def TablesAgree (add : EReal → EReal → EReal) (t : TrainerLocal n) (θ : ColumnVector n) : Prop :=
  ∃ t₁ t₂ t₃, (t.withMember θ).updateArcWeightsMember add = some t₁ ∧
    t.updateArcWeights add θ = some t₂ ∧ t.calculateExpectedCounts add = some t₃ ∧ t₁.fst = t₂.fst

/-! ### Expected counts -/

theorem exists_expectedPass {total : List EReal} {e : ℕ} {arcs : List (Arc LogWeight)}
    {expected : List EReal} (hlabel : ∀ a ∈ arcs, (readAt total a.ilabel).isSome)
    (hlen : e + arcs.length ≤ expected.length) :
    ∃ expected', expectedPass add total e expected arcs = some expected' := by
  induction arcs generalizing e expected with
  | nil => exact ⟨expected, rfl⟩
  | cons a arcs ih =>
    rw [List.length_cons] at hlen
    have hlt : e < expected.length := by omega
    have hread : expected[e]? = some expected[e] := List.getElem?_eq_getElem hlt
    obtain ⟨x, hx⟩ := Option.isSome_iff_exists.mp (hlabel a (by simp))
    have hnext : e + 1 + arcs.length ≤
        (expected.set e (add expected[e] (x - value a.weight))).length := by
      rw [List.length_set]
      omega
    obtain ⟨expected', h⟩ := ih (fun b hb => hlabel b (by simp [hb])) hnext
    refine ⟨expected', ?_⟩
    simp only [expectedPass, hread, hx, writeAt_natCast hlt, Option.bind_eq_bind, Option.bind_some]
    exact h

/-- The counts are computed if every label is an index of the table and every arc has its
entries. -/
theorem exists_expectedStates {observed : List EReal} {bound e : ℕ} {expected : List EReal}
    {ss : List (State LogWeight)} (hobserved : e + arcsBefore ss ss.length ≤ observed.length)
    (hexpected : e + arcsBefore ss ss.length ≤ expected.length)
    (hlabel : ∀ s ∈ ss, ∀ a ∈ s.arcs, 0 ≤ a.ilabel ∧ a.ilabel < bound) :
    ∃ expected', expectedStates add observed bound e expected ss = some expected' := by
  induction ss generalizing e expected with
  | nil => exact ⟨expected, rfl⟩
  | cons s ss ih =>
    have hlen : arcsBefore (s :: ss) (s :: ss).length = s.arcs.length +
        arcsBefore ss ss.length := rfl
    rw [hlen] at hobserved hexpected
    obtain ⟨total, htotal, hread⟩ := @stateTotals_eq add LogWeight (fun i => observed[i]?)
      (fun i => observed[i]?.getD negDblMax) bound e s.arcs
      (fun k hk => by
        have hlt : e + k < observed.length := by omega
        simp only [List.getElem?_eq_getElem hlt, Option.getD_some])
      (hlabel s (by simp))
    obtain ⟨expected₁, hpass⟩ := @exists_expectedPass add total e s.arcs expected
      (fun a ha => by rw [hread a ha]; rfl) (by omega)
    have hnext : e + s.arcs.length + arcsBefore ss ss.length ≤ expected₁.length := by
      rw [length_expectedPass hpass]
      omega
    obtain ⟨expected', hrest⟩ := ih (by omega) hnext fun u hu => hlabel u (by simp [hu])
    refine ⟨expected', ?_⟩
    simp only [expectedStates, htotal, hpass, Option.bind_eq_bind, Option.bind_some]
    exact hrest

/-! ### Which labels fit -/

/-- Both overloads of `mult_features_by_weights` read the same numbers. -/
theorem multFeatures_ofFn (t : TrainerLocal n) (θ : ColumnVector n) :
    (t.withMember θ).multFeatures = multFeaturesByWeights t.features θ := by
  funext e
  rw [TrainerLocal.multFeatures, multFeaturesByWeights, ← readAt_ofFn]
  rfl

theorem labels_of_tablesAgree (h : TablesAgree add t θ) :
    LabelsBelow t.fst t.symbolBound ∧ LabelsBelow t.fst t.numArcs := by
  obtain ⟨t₁, t₂, t₃, hmember, hupdate, -, -⟩ := h
  obtain ⟨states₁, hstates₁, -⟩ := Option.bind_eq_some_iff.mp hmember
  obtain ⟨states₂, hstates₂, -⟩ := Option.bind_eq_some_iff.mp hupdate
  exact ⟨labelsBelow_iff_states.mpr (reweightStates_inv hstates₂).2,
    labelsBelow_iff_states.mpr (reweightStates_inv hstates₁).2⟩

/-- The three functions stay within their tables and agree if and only if every input label
is less than the bound and less than the number of arcs. -/
theorem tablesAgree_iff (add : EReal → EReal → EReal) (t : TrainerLocal n) (θ : ColumnVector n)
    (hrows : Rows t.features t.fst.numArcs n) (hobserved : t.fst.numArcs ≤ t.observedCounts.length)
    (hexpected : t.fst.numArcs ≤ t.expectedCounts.length) :
    TablesAgree add t θ ↔ LabelsBelow t.fst t.symbolBound ∧ LabelsBelow t.fst t.numArcs := by
  refine ⟨labels_of_tablesAgree, fun ⟨hbound, harcs⟩ => ?_⟩
  have hscore : ∀ e < t.fst.numArcs, multFeaturesByWeights t.features θ e =
      some (score t.features θ e) :=
    fun e he => multFeaturesByWeights_eq hrows θ he
  have hupdate := reweightStates_reweighted add hscore hbound
  have hmember := reweightStates_reweighted add hscore harcs
  rw [← multFeatures_ofFn] at hmember
  have hnum : t.fst.numArcs = arcsBefore t.fst.states t.fst.states.length := t.fst.numArcs_eq
  obtain ⟨expected, hcounts⟩ :=
    @exists_expectedStates add t.observedCounts t.symbolBound 0 t.expectedCounts
    t.fst.states (by rwa [Nat.zero_add, ← hnum]) (by rwa [Nat.zero_add, ← hnum])
    (labelsBelow_iff_states.mp hbound)
  exact ⟨_, _, _, Option.bind_eq_some_iff.mpr ⟨_, hmember, rfl⟩,
    Option.bind_eq_some_iff.mpr ⟨_, hupdate, rfl⟩,
    Option.bind_eq_some_iff.mpr ⟨_, hcounts, rfl⟩, rfl⟩

theorem tablesAgree_twoArcs : TablesAgree logadd (twoArcsTrainer 1) fun _ => 1 := by
  have h := isTrainer_twoArcs 1
  exact (tablesAgree_iff logadd (twoArcsTrainer 1) (fun _ => 1) h.rows le_rfl le_rfl).mpr
    ⟨h.labels, h.labels⟩

/-- A machine that copies its one symbol, whose id is the highest of its table. -/
noncomputable def copyOne : TrainerLocal 1 where
  fst := ⟨some 0, [⟨some 1, [⟨1, 1, 1, 0⟩]⟩]⟩
  fstFeature := .empty
  dataFormatted := []
  dataFormattedFeatures := []
  features := [[0]]
  weights := [0]
  numArcs := 1
  symbolBound := 1
  regularizationCoefficient := 0
  observedCounts := [0]
  expectedCounts := [0]

theorem arc?_copyOne {e q : ℕ} {a : Arc LogWeight} (h : copyOne.fst.arc? e = some (q, a)) :
    a = ⟨1, 1, 1, 0⟩ := by
  have hmem : (q, a) ∈ [(0, (⟨1, 1, 1, 0⟩ : Arc LogWeight))] := List.mem_of_getElem? h
  exact (Prod.mk.inj (List.mem_singleton.mp hmem)).2

theorem rows_copyOne : Rows copyOne.features copyOne.fst.numArcs 1 := by
  intro e he
  match e, he with
  | 0, _ => exact ⟨[0], rfl, by decide⟩

/-- The highest id of a symbol is no index of a table of that size. -/
theorem not_tablesAgree : ¬ ∀ (n : ℕ) (t : TrainerLocal n) (θ : ColumnVector n),
    Rows t.features t.fst.numArcs n → t.numArcs = t.fst.numArcs →
      t.observedCounts.length = t.numArcs →
    t.expectedCounts.length = t.numArcs →
    (∀ e q a, t.fst.arc? e = some (q, a) → 0 ≤ a.ilabel ∧ a.ilabel ≤ t.symbolBound) →
    TablesAgree logadd t θ := by
  intro hclaim
  have hagree := hclaim 1 copyOne (fun _ => 0) rows_copyOne rfl rfl rfl fun e q a ha => by
    rw [arc?_copyOne ha]
    exact ⟨zero_le_one, le_rfl⟩
  have hlt := ((labels_of_tablesAgree hagree).1 0 0 ⟨1, 1, 1, 0⟩ rfl).2
  exact absurd hlt (lt_irrefl (1 : ℤ))

end StochasticEdit.Trainer
