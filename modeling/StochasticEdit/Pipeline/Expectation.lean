import StochasticEdit.Pipeline.Objective
import StochasticEdit.Pipeline.Progress

/-! What the E-step counts. The observed count of an arc is the expected number of times that
its edit is made in its context, when the upper and the lower string of each training pair are
known and the alignment is not. -/

namespace StochasticEdit.Pipeline

open Wfst Generator Features Trainer Evaluation Text
open scoped ENNReal

/-- The expected number of times that a step is taken by a script that turns `x` into `y`. -/
noncomputable def expectedSteps (args : Args) (m : EditModel) (s : Context × Option Edit)
    (x y : List Sym) : ℝ≥0∞ :=
  (tsum fun es : scripts x y => (steps args [] x [] es).count s * scriptProb args m [] x [] es) /
  editProb args m x y

section Pair
variable {comp : Composer} {ord : HashOrder} {args : Args} {M : Machine LogWeight}
  {p : List Sym × List Sym}

theorem filterMap_traversed? (comp : Composer) (F : VectorFst LogWeight)
    (exemplar : VectorFst LogWeight × VectorFst LogWeight) (path : List ℕ) :
    path.filterMap (traversed? comp F exemplar) = machinePath comp F exemplar path := by
  rw [machinePath, VectorFst.rightPath, VectorFst.leftPath, List.filterMap_filterMap]
  rfl

/-- The traversals of an arc on the paths of a lattice are the steps of the scripts. -/
theorem traversalSum_eq (h : contextualEdit LogWeight ord args = some M) (hV : args.Valid)
    (hu : args.sizes.ulcMax ≤ 1) (hl : args.sizes.llcMax ≤ 1) (hr : 1 ≤ args.sizes.urcMax)
    (hp : Over args p) (hexact : ExactLattice comp M.fst (exemplar args p)) (m : EditModel) {e : ℕ}
    {s : Context × Option Edit} (hs : M.step? args e = some s) :
    traversalSum comp M.fst (exemplar args p) (M.probs args m) e =
      tsum fun es : scripts p.1 p.2 => (steps args [] p.1 [] es).count s *
        scriptProb args m [] p.1 [] es := by
  have hbij := latticeScript_bijOn h hV hu hl hr hp hexact
  have hsupport : (Function.support fun path =>
      ((path.filterMap (traversed? comp M.fst (exemplar args p))).count e : ℝ≥0∞) *
        (logLattice comp (weighted M.fst (M.probs args m)) (exemplar args p)).value path) ⊆
      {path | (latticeOrigins comp M.fst (exemplar args p)).Accepts path} := by
    intro path hpath
    exact accepts_of_value_ne_zero (right_ne_zero_of_mul hpath)
  rw [traversalSum, ← tsum_subtype_eq_of_support_subset
    hsupport, ← (Set.BijOn.equiv _ hbij).tsum_eq]
  apply tsum_congr
  intro path
  have hlabels := machinePath_labels hV hp hexact path.2
  have hcount : (machinePath comp M.fst (exemplar args p) path).count e =
      (steps args [] p.1 [] (latticeScript comp args M p path)).count s := by
    rw [← count_step h hV hs, steps_labels h hV hu hl hr hp.1 hlabels]
    rfl
  rw [filterMap_traversed?, hcount, value_lattice_probs h hV hu hl hr hp hexact m path.2]
  rfl

theorem expectedTraversals_eq (h : contextualEdit LogWeight ord args = some M) (hV : args.Valid)
    (hu : args.sizes.ulcMax ≤ 1) (hl : args.sizes.llcMax ≤ 1) (hr : 1 ≤ args.sizes.urcMax)
    (hp : Over args p) (hexact : ExactLattice comp M.fst (exemplar args p)) (m : EditModel) {e : ℕ}
    {s : Context × Option Edit} (hs : M.step? args e = some s) :
    expectedTraversals comp M.fst (exemplar args p) (M.probs args m) e =
      expectedSteps args m s p.1 p.2 := by
  rw [expectedTraversals, traversalSum_eq h hV hu hl hr hp hexact m hs, expectedSteps,
    shortestDistance_eq h hV _ hp hexact, totalWeight_labels h hV hu hl hr m hp.1 hp.2]

end Pair

/-- At every stage of the training the E-step returns. Its counts are the expected traversals of
the arcs under a log-linear model. -/
theorem Trained.exists_eStep {comp : Composer} {ord : HashOrder} {args : Args}
    {M : Machine LogWeight} {reader : FeatureReader} {order : List Str} {symbolBound : ℕ}
    {data : List (List Sym × List Sym)} {lambda : ℝ} {t : TrainerLocal reader.numberFeatures.toNat}
    (htable : Table args M reader order) (h : contextualEdit LogWeight ord args = some M)
    (hV : args.Valid) (hu : args.sizes.ulcMax ≤ 1) (hl : args.sizes.llcMax ≤ 1)
    (hr : 1 ≤ args.sizes.urcMax) (hbound : args.V1.length + 2 ≤ symbolBound) (hne : data ≠ [])
    (hdata : ∀ p ∈ data, Over args p)
    (hexact : ∀ p ∈ data, TrimmedLattice comp M.fst (exemplar args p))
    (ht : Trained comp logsum args M reader symbolBound data lambda t) : ∃ (w : Str → ℝ) (t' : _),
      t.fst = weighted M.fst (M.probs args (logLinear args w)) ∧ t.eStep logsum comp = some t' ∧
      ∀ e, tally t'.observedCounts e = (data.map fun p =>
        expectedTraversals comp M.fst (exemplar args p)
          (M.probs args (logLinear args w)) e).sum := by
  have hlabels := labelsBelow h (le_numArcs h hV hu hl hr)
  have hlabels' := labelsBelow h hbound
  obtain ⟨hholds, θ, hθ⟩ := ht.holds htable hlabels hlabels'
  obtain ⟨w, a, hw⟩ := exists_names htable.size θ
  have hready := ht.ready htable hlabels hlabels' hne fun p hp =>
    (hexact p hp).exemplar h hV hu hl hr (hdata p hp)
  have hself : t.updateArcWeights logsum θ = some t := by
    rw [hholds.updateArcWeights, ← hθ]
  have hweights : weighted M.fst (newWeight logsum (score reader.features θ) M.fst) =
      weighted M.fst (M.probs args (logLinear args w)) :=
    weighted_congr fun e he => htable.newWeight_eq h hV hu hl hr hw he
  obtain ⟨t', ht', -, htally⟩ := hready.exists_eStep hself
  refine ⟨w, t', hθ.trans hweights, ht', fun e => ?_⟩
  rw [htally, hholds.data, hholds.features, List.map_map]
  apply congrArg List.sum
  apply List.map_congr_left
  intro p _
  show expectedTraversals comp M.fst (exemplar args p) _ e = _
  rw [expectedTraversals, expectedTraversals, traversalSum, traversalSum, hweights]

end StochasticEdit.Pipeline
