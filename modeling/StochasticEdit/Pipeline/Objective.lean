import StochasticEdit.Pipeline.Trained
import Mathlib.Algebra.BigOperators.Finprod

/-! What is minimised. The objective of the trainer is the penalised negative log-likelihood of
the log-linear models, as a function of the weights of named features. The numbers of states,
arcs and features do not occur in it. -/

namespace StochasticEdit.Pipeline

open Wfst Generator Features Trainer Evaluation Text
open scoped ENNReal

/-- The negative log-likelihood of some pairs. -/
noncomputable def negLogLikelihood (args : Args) (p : EditModel)
    (data : List (List Sym × List Sym)) : EReal :=
  (data.map fun d => value (editProb args p d.1 d.2)).sum

/-- The objective for the weights `w` of the features; `a` is the weight of feature 0, which no
edit has. -/
noncomputable def loss (args : Args) (data : List (List Sym × List Sym)) (lambda : ℝ)
    (w : Str → ℝ) (a : ℝ) : EReal :=
  (negLogLikelihood args (logLinear args w) data +
    (lambda * (a ^ 2 + ∑ᶠ f ∈ featureNames args, w f ^ 2) : ℝ)) / (data.length : ℝ)

section Distances
variable {ord : HashOrder} {args : Args} {M : Machine LogWeight} {reader : FeatureReader}
  {order : List Str}
  {comp : Composer} {w : Str → ℝ} {a : ℝ} {θ : ColumnVector reader.numberFeatures.toNat}

/-- The distance of a pair under `θ` is its probability. -/
theorem Table.shortestDistance_eq (htable : Table args M reader order)
    (h : contextualEdit LogWeight ord args = some M) (hV : args.Valid) (hu : args.sizes.ulcMax ≤ 1)
    (hl : args.sizes.llcMax ≤ 1) (hr : 1 ≤ args.sizes.urcMax) (hw : Names order θ w a)
    {p : List Sym × List Sym} (hp : Over args p)
    (hexact : ExactLattice comp M.fst (exemplar args p)) :
    (logLattice comp (machineOf M reader θ) (exemplar args p)).shortestDistance =
      editProb args (logLinear args w) p.1 p.2 := by
  have hprobs : ∀ path ∈ {path | M.Labels args (p.1 ++ padding args) p.2 path}, ∀ e ∈ path,
      newWeight logsum (score reader.features θ) M.fst e = M.probs args (logLinear args w) e := by
    rintro path ⟨⟨q, q₀, -, hwalk, -⟩, -⟩ e he
    obtain ⟨r, b, hb⟩ := VectorFst.exists_arc_of_walk hwalk he
    exact htable.newWeight_eq h hV hu hl hr hw (VectorFst.lt_numArcs_of_arc? hb)
  rw [machineOf, Pipeline.shortestDistance_eq h hV _ hp hexact, totalWeight_congr hprobs]
  exact totalWeight_labels h hV hu hl hr _ hp.1 hp.2

theorem likelihoodLoop_eq_sum (comp : Composer) (F : VectorFst LogWeight) (likelihood : EReal)
    (data : List (VectorFst LogWeight × VectorFst LogWeight)) :
    likelihoodLoop comp F likelihood data =
      likelihood + (data.map fun d => value (logLattice comp F d).shortestDistance).sum := by
  induction data generalizing likelihood with
  | nil => simp [likelihoodLoop]
  | cons d data ih => rw [likelihoodLoop, ih, List.map_cons, List.sum_cons, add_assoc]

/-- The loop of `value2` adds up the pairs. -/
theorem Table.likelihoodLoop_eq (htable : Table args M reader order)
    (h : contextualEdit LogWeight ord args = some M) (hV : args.Valid) (hu : args.sizes.ulcMax ≤ 1)
    (hl : args.sizes.llcMax ≤ 1) (hr : 1 ≤ args.sizes.urcMax) (hw : Names order θ w a)
    {data : List (List Sym × List Sym)} (hdata : ∀ p ∈ data, Over args p)
    (hexact : ∀ p ∈ data, ExactLattice comp M.fst (exemplar args p)) :
    likelihoodLoop comp (machineOf M reader θ) 0 (data.map (exemplar args)) =
      negLogLikelihood args (logLinear args w) data := by
  rw [likelihoodLoop_eq_sum, zero_add, List.map_map, negLogLikelihood]
  refine congrArg List.sum (List.map_congr_left fun p hp => congrArg value ?_)
  exact htable.shortestDistance_eq h hV hu hl hr hw (hdata p hp) (hexact p hp)

theorem Table.dotProduct_eq (htable : Table args M reader order) (hw : Names order θ w a) :
    θ ⬝ᵥ θ = a ^ 2 + ∑ᶠ f ∈ featureNames args, w f ^ 2 := by
  have hset : featureNames args = order.toFinset := by
    ext f
    rw [Finset.mem_coe, List.mem_toFinset, htable.mem]
  rw [hw.dotProduct htable.size htable.nodup, hset, finsum_mem_coe_finset,
    List.sum_toFinset _ htable.nodup]

variable {data : List (List Sym × List Sym)} {lambda : ℝ}
  {t : TrainerLocal reader.numberFeatures.toNat}

/-- `value2` is the objective for the named weights. -/
theorem Holds.value2_eq (hholds : Holds args M reader data lambda t)
    (htable : Table args M reader order) (h : contextualEdit LogWeight ord args = some M)
    (hV : args.Valid) (hu : args.sizes.ulcMax ≤ 1) (hl : args.sizes.llcMax ≤ 1)
    (hr : 1 ≤ args.sizes.urcMax) (hw : Names order θ w a) (hdata : ∀ p ∈ data, Over args p)
    (hexact : ∀ p ∈ data, ExactLattice comp M.fst (exemplar args p)) :
    t.value2 logsum comp θ = some
      (loss args data lambda w a, { t with fst := machineOf M reader θ }) := by
  rw [TrainerLocal.value2, hholds.updateArcWeights, Option.bind_eq_bind, Option.bind_some]
  simp only [hholds.data, hholds.lambda, List.length_map]
  rw [htable.likelihoodLoop_eq h hV hu hl hr hw hdata hexact, htable.dotProduct_eq hw]
  rfl

end Distances

/-- The values of the objective, at every stage of the training, are those of the log-linear
models: every vector has named weights with the same value, and all weights occur. -/
theorem objective_range (ord : HashOrder) (args : Args)
    (hV1 : CharAlphabet (· ∉ separators) args.V1) (hV2 : CharAlphabet (· ∉ separators) args.V2)
    (hu : args.sizes.ulcMax ≤ 1) (hl : args.sizes.llcMax ≤ 1) (hr : 1 ≤ args.sizes.urcMax)
    {symbolBound : ℕ} (hbound : args.V1.length + 2 ≤ symbolBound) :
    ∃ M reader, contextualEdit LogWeight ord args = some M ∧ tableReader args M = some reader ∧
      ∀ (comp : Composer) (data : List (List Sym × List Sym)) (lambda : ℝ),
        (∀ p ∈ data, Over args p) →
        (∀ p ∈ data, ExactLattice comp M.fst (exemplar args p)) →
        (∃ t, Trained comp logsum args M reader symbolBound data lambda t) ∧
        ∀ t, Trained comp logsum args M reader symbolBound data lambda t →
          {v | ∃ θ t', t.value2 logsum comp θ = some (v, t')} =
            Set.range fun wa : (Str → ℝ) × ℝ => loss args data lambda wa.1 wa.2 := by
  obtain ⟨M, h⟩ := exists_contextualEdit LogWeight ord (.inl hu : Completes args)
  obtain ⟨reader, order, htable⟩ := exists_table h hu hl hr hV1 hV2
  have hV : args.Valid := valid_of_charAlphabet hV1 hV2
  have hlabels := labelsBelow h (le_numArcs h hV hu hl hr)
  have hlabels' := labelsBelow h hbound
  refine ⟨M, reader, h, htable.read, fun comp data lambda hdata hexact => ⟨?_, fun t ht => ?_⟩⟩
  · obtain ⟨t₀, ht₀, -⟩ := exists_initial comp data lambda htable hlabels hlabels'
    exact ⟨t₀, t₀, false, [], ht₀, rfl⟩
  · have hholds := (ht.holds htable hlabels hlabels').1
    ext v
    constructor
    · rintro ⟨θ, t', hvalue⟩
      obtain ⟨w, a, hw⟩ := exists_names htable.size θ
      rw [hholds.value2_eq htable h hV hu hl hr hw hdata hexact] at hvalue
      exact ⟨(w, a), congrArg Prod.fst (Option.some.inj hvalue)⟩
    · rintro ⟨⟨w, a⟩, rfl⟩
      obtain ⟨θ, hw⟩ : ∃ θ : ColumnVector reader.numberFeatures.toNat, Names order θ w a := by
        rw [htable.size]
        exact ⟨_, names_numbered order w a⟩
      exact ⟨θ, _, hholds.value2_eq htable h hV hu hl hr hw hdata hexact⟩

theorem objective_range_one_one_one : ∃ M reader,
    contextualEdit LogWeight insertionOrder (smallArgs ⟨1, 1, 1⟩) = some M ∧
    tableReader (smallArgs ⟨1, 1, 1⟩) M = some reader ∧
    ∃ t, Trained product logsum (smallArgs ⟨1, 1, 1⟩) M reader 100 [(["a"], ["b"])] 1 t ∧
      {v | ∃ θ t', t.value2 logsum product θ = some (v, t')} = Set.range fun wa : (Str → ℝ) × ℝ =>
        loss (smallArgs ⟨1, 1, 1⟩) [(["a"], ["b"])] 1 wa.1 wa.2 := by
  obtain ⟨M, reader, h, hread, hrange⟩ := objective_range insertionOrder (smallArgs ⟨1, 1, 1⟩)
    (charAlphabet_a (by decide)) (charAlphabet_b (by decide)) le_rfl le_rfl le_rfl
    (show (smallArgs ⟨1, 1, 1⟩).V1.length + 2 ≤ 100 by decide)
  obtain ⟨⟨t, ht⟩, hall⟩ :=
    hrange product [(["a"], ["b"])] 1 (over_small _) (exactLattice_small _ M.fst)
  exact ⟨M, reader, h, hread, t, ht, hall t ht⟩

end StochasticEdit.Pipeline
