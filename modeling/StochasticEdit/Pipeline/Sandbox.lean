import StochasticEdit.Evaluation.Csv
import StochasticEdit.Features.Tokens
import StochasticEdit.Pipeline.Report

/-! The program (`main` of `sandbox.cpp`), from the contents of its files to the three numbers
that it prints. On the files that the scripts write it returns, whatever the optimiser does,
and the numbers are those of one log-linear model. -/

namespace StochasticEdit.Pipeline.Sandbox

open Wfst Generator Features Trainer Evaluation Text Program Outcome
open Evaluation.Csv (Examples ingest reversed)
open scoped ENNReal

/-! ### The program -/

/-- The arguments of `main`, with the contents of the files. -/
structure Arguments where
  train : Examples
  test : Examples
  upper : List (Sym × ℤ)
  lower : List (Sym × ℤ)
  fst : VectorFst LogWeight
  arcMap : Str
  featureFile : Str
  outerIterations : ℕ
  regularizationCoefficient : ℝ

/-- What comes from other libraries: the operations on machines, the sort of the arcs, and the
runs of `find_min` over vectors of `n` entries. -/
structure Externals where
  lib : Library
  arcSort : VectorFst LogWeight → VectorFst LogWeight
  findMin : (n : ℕ) → ℕ → FindMin n

/-- `LOG LOSS`, `EDIT` and `EXPECTED EDIT`. -/
structure Report where
  logLoss : EReal
  edit : EReal
  expectedEdit : EReal

/-- `main`, with `add` for `logadd`. -/
noncomputable def main (add : EReal → EReal → EReal) (ext : Externals) (argv : Arguments) :
    Outcome Report := do
  let fr ← orExit (featureReader argv.featureFile)
  let (dataStringTrain, dataStringTest) ← ingest argv.train argv.test
  let _arcMapper ← orUndefined (Features.readArcMapper argv.arcMap)
  let trainingData ← orUndefined (dataStringTrain.mapM (convert argv.upper argv.lower))
  let testData ← orUndefined (dataStringTest.mapM (convert argv.upper argv.lower))
  let numFeatures := fr.numberFeatures.toNat
  let weights := List.replicate numFeatures 0
  let numArcs := argv.fst.numArcs
  -- the size of the first row is printed
  let _row ← orUndefined fr.features[0]?
  let trainer ← orUndefined
    (construct ext.lib.compose add argv.fst trainingData numArcs 100 fr.features weights
    argv.regularizationCoefficient numFeatures)
  let trainer ← orUndefined (trainer.train add ext.lib.compose false
    ((List.range argv.outerIterations).map (ext.findMin numFeatures)))
  let evaluator := logEvaluator trainer.fst argv.upper argv.lower numFeatures testData
  return ⟨evaluator.logLoss ext.lib.compose, evaluator.oneBestEdit ext.lib,
    evaluator.expectedEditDistance ext.lib.compose ext.arcSort⟩

/-! ### The run -/

section Run
variable {ord : HashOrder} {args : Args} {M : Machine LogWeight} {reader : FeatureReader}
  {order : List Str} {ext : Externals} {train test : Examples}
  {trainPairs testPairs : List (List Sym × List Sym)} {text table : Str}

/-- Training returns, with the machine of a log-linear model. -/
theorem exists_trained (h : contextualEdit LogWeight ord args = some M)
    (htable : Table args M reader order) (hV : args.Valid) (hu : args.sizes.ulcMax ≤ 1)
    (hl : args.sizes.llcMax ≤ 1) (hr : 1 ≤ args.sizes.urcMax) (hbound : args.V1.length + 2 ≤ 100)
    (hlib : Documented ext.lib) (hne : trainPairs ≠ []) (hover : ∀ p ∈ trainPairs, Over args p)
    (lambda : ℝ) (opts : List (FindMin reader.numberFeatures.toNat)) :
    ∃ t₀ t, initial ext.lib.compose logsum args M reader 100 trainPairs lambda = some t₀ ∧
      t₀.train logsum ext.lib.compose false opts = some t ∧
      ∃ w : Str → ℝ, t.fst = weighted M.fst (M.probs args (logLinear args w)) := by
  have hlabels := labelsBelow h (le_numArcs h hV hu hl hr)
  have hlabels' := labelsBelow h hbound
  have hexemplars : ∀ p ∈ trainPairs, Exemplar ext.lib.compose M.fst (exemplar args p) := by
    intro p hp
    have htrimmed : TrimmedLattice ext.lib.compose M.fst (exemplar args p) :=
      ⟨⟨hlib.exact _ _, hlib.exact _ _⟩, hlib.trimmed _ _, hlib.trimmed _ _⟩
    exact htrimmed.exemplar h hV hu hl hr (hover p hp)
  obtain ⟨t₀, hinitial, -⟩ :=
    exists_initial ext.lib.compose trainPairs lambda htable hlabels hlabels'
  have hready := ready_of_initial htable hlabels hlabels' hne hexemplars hinitial
  obtain ⟨t, ht, -⟩ := hready.exists_trainCalls false [opts]
  have htrain : t₀.train logsum ext.lib.compose false opts = some t := by
    rw [trainCalls, Option.bind_eq_bind, Option.bind_eq_some_iff] at ht
    obtain ⟨t', htrain, hrest⟩ := ht
    obtain rfl := Option.some.inj hrest
    exact htrain
  have htrained : Trained ext.lib.compose logsum args M reader 100 trainPairs lambda t :=
    ⟨t₀, false, [opts], hinitial, ht⟩
  obtain ⟨-, θ, hθ⟩ := htrained.holds htable hlabels hlabels'
  obtain ⟨w, a, hw⟩ := exists_names htable.size θ
  refine ⟨t₀, t, hinitial, htrain, w, ?_⟩
  rw [hθ, machineOf]
  exact weighted_congr fun e he => htable.newWeight_eq h hV hu hl hr hw he

/-- On files that hold the pairs `main` reaches its report. -/
theorem exists_report (h : contextualEdit LogWeight ord args = some M)
    (htable : Table args M reader order) (hV1 : CharAlphabet (· ∉ separators) args.V1)
    (hV2 : CharAlphabet (· ∉ separators) args.V2) (hu : args.sizes.ulcMax ≤ 1)
    (hl : args.sizes.llcMax ≤ 1) (hr : 1 ≤ args.sizes.urcMax) (hbound : args.V1.length + 2 ≤ 100)
    (hlib : Documented ext.lib) (htext : arcToActionText args M = some text)
    (hread : featureReader table = some reader) (htrain : HasRows args train trainPairs)
    (htest : HasRows args test testPairs) (hne : trainPairs ≠ []) (outerIterations : ℕ)
    (lambda : ℝ) :
    ∃ w : Str → ℝ,
      let ev := logEvaluator (weighted M.fst (M.probs args (logLinear args w))) args.symsIn
        args.symsOut reader.numberFeatures.toNat (testPairs.map (exemplar args))
      main logsum ext ⟨train, test, args.symsIn, args.symsOut, M.fst, text, table,
        outerIterations, lambda⟩ =
        .value ⟨ev.logLoss ext.lib.compose, ev.oneBestEdit ext.lib,
          ev.expectedEditDistance ext.lib.compose ext.arcSort⟩ := by
  have hV : args.Valid := valid_of_charAlphabet hV1 hV2
  obtain ⟨rows, hrows, hreversed⟩ := htrain.exists_rows hV1.toCharSymbols hV2.toCharSymbols
  obtain ⟨rows', hrows', hreversed'⟩ := htest.exists_rows hV1.toCharSymbols hV2.toCharSymbols
  have hingest : ingest train test =
      .value (trainPairs.map (rowTexts args), testPairs.map (rowTexts args)) := by
    rw [ingest, hrows, hrows', ← hreversed, ← hreversed']
    rfl
  have hconvert := htrain.mapM_convert hV1.toCharSymbols hV2.toCharSymbols hr
  have hconvert' := htest.mapM_convert hV1.toCharSymbols hV2.toCharSymbols hr
  obtain ⟨text', arcMapper, htext', hmapper, -⟩ := exists_readArcMapper h (hV1.notMem (by decide))
    (hV2.notMem (by decide))
  obtain rfl := Option.some.inj (htext.symm.trans htext')
  obtain ⟨row, hrow, -⟩ := htable.rows 0 (by have := le_numArcs h hV hu hl hr; omega)
  obtain ⟨t₀, t, hinitial, htrained, w, hw⟩ :=
    exists_trained h htable hV hu hl hr hbound hlib hne htrain.symbols lambda
    ((List.range outerIterations).map (ext.findMin reader.numberFeatures.toNat))
  refine ⟨w, ?_⟩
  unfold initial at hinitial
  simp only [main, hread, hingest, hmapper, hconvert, hconvert', hrow, hinitial, htrained, hw,
    orExit, orUndefined, value_bind, pure_eq]

end Run

/-- The library, and an optimiser that always ends at the vector of ones. -/
noncomputable def smallExternals : Externals :=
  ⟨documentedLibrary, arcSort, fun _ _ => ⟨[.value 0, .gradient 1], 1⟩⟩

end StochasticEdit.Pipeline.Sandbox
