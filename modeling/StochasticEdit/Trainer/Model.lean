import StochasticEdit.Trainer.LogArithmetic
import StochasticEdit.Wfst.ShortestDistance
import Mathlib.Data.Matrix.Mul
import Mathlib.Algebra.Order.Round

/-! The local trainer (`wfst-train.cpp`, `wfst-train-local-fast.cpp`). A vector index
outside the vector is undefined behaviour, which is `none` here. The functions that
add logarithms take the addition as an argument, so that they can be read with
`logadd` itself or with the exact sum it stands for. -/

namespace StochasticEdit.Trainer

open Wfst

/-- A vector of doubles, indexed by `int`. -/
def readAt {α : Type*} (v : List α) (i : ℤ) : Option α := if 0 ≤ i then v[i.toNat]? else none

def writeAt {α : Type*} (v : List α) (i : ℤ) (x : α) : Option (List α) :=
  if 0 ≤ i ∧ i.toNat < v.length then some (v.set i.toNat x) else none

abbrev FeatureMap := List (List ℤ)

/-- A dlib `column_vector` with one entry for each feature. -/
abbrev ColumnVector (n : ℕ) := Fin n → ℝ

def ColumnVector.at {n : ℕ} (weights : ColumnVector n) (i : ℤ) : Option ℝ :=
  if h : 0 ≤ i ∧ i.toNat < n then some (weights ⟨i.toNat, h.2⟩) else none

/-- The members of the trainer, for `n` features. -/
structure TrainerLocal (n : ℕ) where
  fst : VectorFst LogWeight
  fstFeature : VectorFst FeatureWeight
  dataFormatted : List (VectorFst LogWeight × VectorFst LogWeight)
  dataFormattedFeatures : List (VectorFst FeatureWeight)
  features : FeatureMap
  weights : List ℝ
  numArcs : ℕ
  symbolBound : ℕ
  regularizationCoefficient : ℝ
  observedCounts : List EReal
  expectedCounts : List EReal

variable {n : ℕ}

/-! ### Scores -/

/-- The loop of `mult_features_by_weights` over the features of an arc. -/
noncomputable def dotRow (read : ℤ → Option ℝ) : ℝ → List ℤ → Option ℝ
  | total, [] => some total
  | total, i :: row => do
    let w ← read i
    dotRow read (total + w) row

noncomputable def multFeaturesByWeights (features : FeatureMap) (weights : ColumnVector n)
    (arcId : ℕ) : Option ℝ := do
  let row ← features[arcId]?
  dotRow weights.at 0 row

/-- The overload that uses the weights of the instance. -/
noncomputable def TrainerLocal.multFeatures (t : TrainerLocal n) (arcId : ℕ) : Option ℝ := do
  let row ← t.features[arcId]?
  dotRow (readAt t.weights) 0 row

/-! ### Reweighting -/

section Loops
variable (add : EReal → EReal → EReal)

/-- A first loop over the arcs of a state: `term arcId` is added to the entry of the
arc's input label. -/
def totalsPass (term : ℕ → Option EReal) {W : Type*} : ℕ → List EReal → List (Arc W) → Option
    (List EReal)
  | _, total, [] => some total
  | tmpArcId, total, curArc :: arcs => do
    let old ← readAt total curArc.ilabel
    let x ← term tmpArcId
    let total ← writeAt total curArc.ilabel (add old x)
    totalsPass term (tmpArcId + 1) total arcs

/-- The second loop of `update_arc_weights`: `aiter.SetValue`. -/
noncomputable def reweightPass (score : ℕ → Option ℝ) (total : List EReal) :
    ℕ → List (Arc LogWeight) → Option (List (Arc LogWeight))
  | _, [] => some []
  | arcId, curArc :: arcs => do
    let s ← score arcId
    let t ← readAt total curArc.ilabel
    let rest ← reweightPass score total (arcId + 1) arcs
    return ⟨curArc.ilabel, curArc.olabel, ofValue (s + t), curArc.nextstate⟩ :: rest

/-- The loop of `update_arc_weights` over the states, with a table of `bound` entries. -/
noncomputable def reweightStates (score : ℕ → Option ℝ) (bound : ℕ) :
    ℕ → List (State LogWeight) → Option (List (State LogWeight))
  | _, [] => some []
  | arcId, s :: states => do
    let total ← totalsPass add (fun e => (score e).map fun x : ℝ => -(x : EReal)) arcId
      (List.replicate bound negDblMax) s.arcs
    let arcs ← reweightPass score total arcId s.arcs
    let rest ← reweightStates score bound (arcId + s.arcs.length) states
    return ⟨s.final, arcs⟩ :: rest

/-- `update_arc_weights(weights)`. -/
noncomputable def TrainerLocal.updateArcWeights (t : TrainerLocal n) (weights : ColumnVector n) :
    Option (TrainerLocal n) := do
  let states ← reweightStates add (multFeaturesByWeights t.features weights) t.symbolBound 0
    t.fst.states
  return { t with fst := { t.fst with states := states } }

/-- `update_arc_weights()`, whose table has `num_arcs` entries. -/
noncomputable def TrainerLocal.updateArcWeightsMember (t : TrainerLocal n) :
    Option (TrainerLocal n) := do
  let states ← reweightStates add t.multFeatures t.numArcs 0 t.fst.states
  return { t with fst := { t.fst with states := states } }

end Loops

/-! ### Feature arcs -/

/-- The loop of `map_to_feature_arcs` over the arcs of a state. -/
noncomputable def mapArcs (zero : Bool) : ℕ → List (Arc LogWeight) → List (Arc FeatureWeight)
  | _, [] => []
  | arcId, arc :: arcs =>
    let f : FeatureWeight :=
      if !zero then ⟨1, ofValue (-(Real.log (arcId + 1) : EReal))⟩ else ⟨1, 0⟩
    ⟨arc.ilabel, arc.olabel, f, arc.nextstate⟩ :: mapArcs zero (arcId + 1) arcs

noncomputable def mapStates (zero : Bool) : ℕ → List (State LogWeight) → List (State FeatureWeight)
  | _, [] => []
  | arcId, s :: states =>
    let final := s.final.bind fun w => if w ≠ 0 then some (⟨1, 0⟩ : FeatureWeight) else none
    ⟨final, mapArcs zero arcId s.arcs⟩ :: mapStates zero (arcId + s.arcs.length) states

/-- `map_to_feature_arcs` into an empty machine. -/
noncomputable def mapToFeatureArcs (fst : VectorFst LogWeight) (zero : Bool) :
    VectorFst FeatureWeight :=
  ⟨fst.start, mapStates zero 0 fst.states⟩

section Compose
variable (comp : Composer)

/-- The FeatureArc lattice of an exemplar, as in the loop of `add_training_data`. -/
noncomputable def featureLattice (fstFeature : VectorFst FeatureWeight)
    (exemplar : VectorFst LogWeight × VectorFst LogWeight) : VectorFst FeatureWeight :=
  let medialFeatures := VectorFst.compose comp (mapToFeatureArcs exemplar.1 true) fstFeature
  VectorFst.compose comp medialFeatures (mapToFeatureArcs exemplar.2 true)

noncomputable def TrainerLocal.addTrainingData (t : TrainerLocal n)
    (dataFormatted : List (VectorFst LogWeight × VectorFst LogWeight)) : TrainerLocal n :=
  { t with
    dataFormatted := dataFormatted
    dataFormattedFeatures := dataFormatted.map (featureLattice comp t.fstFeature) }

/-- The LogArc lattice of an exemplar. -/
noncomputable def logLattice (fst : VectorFst LogWeight)
    (exemplar : VectorFst LogWeight × VectorFst LogWeight) : VectorFst LogWeight :=
  let medial := VectorFst.compose comp exemplar.1 fst
  VectorFst.compose comp medial exemplar.2

/-- The constructor. -/
noncomputable def construct (add : EReal → EReal → EReal) (fst : VectorFst LogWeight)
    (dataFormatted : List (VectorFst LogWeight × VectorFst LogWeight)) (numArcs symbolBound : ℕ)
    (features : FeatureMap) (weights : List ℝ) (regularizationCoefficient : ℝ) (n : ℕ) :
    Option (TrainerLocal n) := do
  let t : TrainerLocal n :=
    { fst := fst, fstFeature := .empty, dataFormatted := [], dataFormattedFeatures := []
      features := features, weights := weights, numArcs := numArcs, symbolBound := symbolBound
      regularizationCoefficient := regularizationCoefficient
      observedCounts := List.replicate numArcs 0, expectedCounts := List.replicate numArcs 0 }
  let t ← t.updateArcWeightsMember add
  let t := { t with fstFeature := mapToFeatureArcs t.fst false }
  return t.addTrainingData comp dataFormatted

end Compose

/-! ### Counts -/

/-- `round(exp(-v))`. -/
noncomputable def roundExpNeg (v : EReal) : ℤ := round (EReal.exp (-v)).toReal

/-- The loop that fills `arc_mapper`. -/
noncomputable def mapperPass : ℕ → (ℕ → ℤ) → List (Arc FeatureWeight) → ℕ → ℤ
  | _, arcMapper, [] => arcMapper
  | tmp, arcMapper, arc :: arcs =>
    let oldArcId := roundExpNeg (value arc.weight.value2)
    mapperPass (tmp + 1) (Function.update arcMapper tmp (oldArcId - 1)) arcs

section Counts
variable (add : EReal → EReal → EReal)

/-- The loop of `calculate_observed_counts` over the arcs of a state. -/
noncomputable def countPass (arcMapper : ℕ → ℤ) (alpha beta : List LogWeight) (Z : LogWeight)
    (stateId : ℕ) : ℕ → List EReal → List (Arc LogWeight) → Option (List EReal)
  | _, counts, [] => some counts
  | arcId, counts, arc :: arcs => do
    let oldArcId2 := arcMapper arcId
    let a ← alpha[stateId]?
    let b ← beta[arc.nextstate]?
    let val := a * arc.weight * b
    let logVal := value (val / Z)
    let old ← readAt counts oldArcId2
    let counts ← writeAt counts oldArcId2 (add old (-logVal))
    countPass arcMapper alpha beta Z stateId (arcId + 1) counts arcs

/-- The loop of `calculate_observed_counts` over the states of the feature lattice. -/
noncomputable def countStates (fstLog : VectorFst LogWeight) (alpha beta : List LogWeight)
    (Z : LogWeight) : ℕ → ℕ → List EReal → List (State FeatureWeight) → Option (List EReal)
  | _, _, counts, [] => some counts
  | stateId, arcId, counts, s :: states => do
    let arcMapper := mapperPass arcId (fun _ => 0) s.arcs
    let logState ← fstLog.states[stateId]?
    let counts ← countPass add arcMapper alpha beta Z stateId arcId counts logState.arcs
    countStates fstLog alpha beta Z (stateId + 1) (arcId + logState.arcs.length) counts states

noncomputable def TrainerLocal.calculateObservedCounts (t : TrainerLocal n)
    (fst : VectorFst FeatureWeight) (fstLog : VectorFst LogWeight) (alpha beta : List LogWeight) :
    Option (TrainerLocal n) := do
  let a ← alpha[0]?
  let b ← beta[0]?
  let counts ← countStates add fstLog alpha beta (a * b) 0 0 t.observedCounts fst.states
  return { t with observedCounts := counts }

/-- Set the entries `0, ..., k - 1` of a vector to `-DBL_MAX`. -/
noncomputable def fillNegDblMax (k : ℕ) (v : List EReal) : Option (List EReal) :=
  if k ≤ v.length then some (List.replicate k negDblMax ++ v.drop k) else none

/-- The loop of `train` over the exemplars. -/
noncomputable def exemplarLoop (comp : Composer) : TrainerLocal n →
    List ((VectorFst LogWeight × VectorFst LogWeight) × VectorFst FeatureWeight) →
      Option (TrainerLocal n)
  | t, [] => some t
  | t, (exemplarLog, exemplarFeature) :: rest => do
    let finalLog := logLattice comp t.fst exemplarLog
    let alpha := finalLog.forwardDistances
    let beta := finalLog.backwardDistances
    let t ← t.calculateObservedCounts add exemplarFeature finalLog alpha beta
    exemplarLoop comp t rest

/-- The E-step at the start of an outer iteration of `train`. -/
noncomputable def TrainerLocal.eStep (comp : Composer) (t : TrainerLocal n) :
    Option (TrainerLocal n) := do
  let counts ← fillNegDblMax t.numArcs t.observedCounts
  exemplarLoop add comp { t with observedCounts := counts }
    (t.dataFormatted.zip t.dataFormattedFeatures)

/-- The second loop of `calculate_expected_counts` over the arcs of a state. -/
noncomputable def expectedPass (totalTraversals : List EReal) :
    ℕ → List EReal → List (Arc LogWeight) → Option (List EReal)
  | _, expected, [] => some expected
  | arcId, expected, arc :: arcs => do
    let arcProb := value arc.weight
    let old ← expected[arcId]?
    let total ← readAt totalTraversals arc.ilabel
    let expected ← writeAt expected arcId (add old (total - arcProb))
    expectedPass totalTraversals (arcId + 1) expected arcs

noncomputable def expectedStates (observed : List EReal) (bound : ℕ) :
    ℕ → List EReal → List (State LogWeight) → Option (List EReal)
  | _, expected, [] => some expected
  | arcId, expected, s :: states => do
    let totalTraversals ← totalsPass add (fun e => observed[e]?) arcId
      (List.replicate bound negDblMax) s.arcs
    let expected ← expectedPass add totalTraversals arcId expected s.arcs
    expectedStates observed bound (arcId + s.arcs.length) expected states

noncomputable def TrainerLocal.calculateExpectedCounts (t : TrainerLocal n) :
    Option (TrainerLocal n) := do
  let expected ← expectedStates add t.observedCounts t.symbolBound 0 t.expectedCounts t.fst.states
  return { t with expectedCounts := expected }

/-! ### Objective and gradient -/

/-- The loop of `value2` over the exemplars. -/
noncomputable def likelihoodLoop (comp : Composer) (fst : VectorFst LogWeight) : EReal →
    List (VectorFst LogWeight × VectorFst LogWeight) → EReal
  | likelihood, [] => likelihood
  | likelihood, exemplar :: rest =>
    let expectedWeight := (logLattice comp fst exemplar).shortestDistance
    likelihoodLoop comp fst (likelihood + value expectedWeight) rest

/-- `value2`, which leaves its arc weights on the machine. -/
noncomputable def TrainerLocal.value2 (comp : Composer) (t : TrainerLocal n)
    (weights : ColumnVector n) :
    Option (EReal × TrainerLocal n) := do
  let t ← t.updateArcWeights add weights
  let likelihood := likelihoodLoop comp t.fst 0 t.dataFormatted
  let penalty : ℝ := t.regularizationCoefficient * (weights ⬝ᵥ weights)
  return ((likelihood + penalty) / (t.dataFormatted.length : ℝ), t)

/-- `exp(x)`. -/
noncomputable def expDouble (x : EReal) : ℝ := (EReal.exp x).toReal

/-- The inner loop of `gradient2`: one term for each feature of an arc. -/
noncomputable def gradientRow (term : ℝ) : ColumnVector n → List ℤ → Option (ColumnVector n)
  | gradient, [] => some gradient
  | gradient, feat :: row =>
    if h : 0 ≤ feat ∧ feat.toNat < n then
      let i : Fin n := ⟨feat.toNat, h.2⟩
      gradientRow term (Function.update gradient i (gradient i + term)) row
    else none

/-- The loop of `gradient2` over `k` arcs from arc `i` on. -/
noncomputable def gradientArcs (N : ℕ) (t : TrainerLocal n) : ℕ → ℕ → ColumnVector n →
    Option (ColumnVector n)
  | _, 0, gradient => some gradient
  | i, k + 1, gradient => do
    let row ← t.features[i]?
    let observed ← t.observedCounts[i]?
    let expected ← t.expectedCounts[i]?
    let gradient ← gradientRow (1 / N * (expDouble observed - expDouble expected)) gradient row
    gradientArcs N t (i + 1) k gradient

/-- `gradient2`, without the printout of the debug mode. -/
noncomputable def TrainerLocal.gradient2 (t : TrainerLocal n) (weights : ColumnVector n) :
    Option (ColumnVector n × TrainerLocal n) := do
  let N := t.dataFormattedFeatures.length
  let t ← t.updateArcWeights add weights
  let gradient : ColumnVector n := fun f => 1 / N * t.regularizationCoefficient * weights f
  let expected ← fillNegDblMax t.numArcs t.expectedCounts
  let t ← { t with expectedCounts := expected }.calculateExpectedCounts add
  let gradient ← gradientArcs N t 0 t.numArcs gradient
  return (gradient, t)

end Counts

end StochasticEdit.Trainer
