import StochasticEdit.Generator.Records
import StochasticEdit.Trainer.Model
import StochasticEdit.Wfst.Relation
import Mathlib.Algebra.Tropical.Basic

/-! The evaluator (`evaluator.h`). The composition, the shortest path and the reversal
are those of the library and parameters here. An arc iterator over a state that does not
exist is undefined behaviour, which is `none`. -/

namespace StochasticEdit.Evaluation

open Wfst Trainer Generator

/-- `TropicalWeight`. -/
abbrev StdWeight := Tropical EReal

/-- `WeightConvertMapper<LogArc, StdArc>`. -/
noncomputable def convertWeight (w : LogWeight) : StdWeight := Tropical.trop (value w)

noncomputable def toStd (fst : VectorFst LogWeight) : VectorFst StdWeight :=
  fst.map convertWeight convertWeight

/-! ### Symbol tables -/

/-- `Find(symbol)`, which is -1 for a symbol that the table does not have. -/
def findKey (table : List (Sym × ℤ)) (symbol : Sym) : ℤ := (symbolId table symbol).getD (-1)

/-- `Find(key)`, which is the empty text for a key that the table does not have. -/
def findText (table : List (Sym × ℤ)) (key : ℤ) : Sym := (findSymbol table key).getD ""

/-- `arc_idSymbolTable`: the text of `i - 1` has the key `i`. -/
def arcIdSymbolTable (numFeatures : ℕ) : List (Sym × ℤ) :=
  ("<eps>", 0) :: (List.range' 1 numFeatures).map fun i : ℕ =>
    let key := toString ((i : ℤ) - 1)
    (key ++ " ", (i : ℤ))

/-! ### The edit distance machine -/

section Edit
variable (isymbols osymbols : List (Sym × ℤ))

noncomputable def deletions : List (Arc StdWeight) :=
  isymbols.filterMap fun iit =>
    if iit.2 ≠ 0 then some ⟨iit.2, 0, Tropical.trop 1, 0⟩ else none

noncomputable def insertions : List (Arc StdWeight) :=
  osymbols.filterMap fun oit =>
    if oit.2 ≠ 0 then some ⟨0, oit.2, Tropical.trop 1, 0⟩ else none

noncomputable def substitutions : List (Arc StdWeight) :=
  isymbols.flatMap fun iit => osymbols.filterMap fun oit =>
    if iit.2 ≠ 0 ∧ oit.2 ≠ 0 then
      if iit.2 = oit.2 then some ⟨iit.2, oit.2, Tropical.trop 0, 0⟩
      else some ⟨iit.2, oit.2, Tropical.trop 1, 0⟩
    else none

/-- `edit_dist_std`. -/
noncomputable def editDistStd : VectorFst StdWeight :=
  (deletions isymbols ++ insertions osymbols ++ substitutions isymbols osymbols).foldl
    (fun F arc => F.addArc 0 arc)
      ((VectorFst.empty.addState.setStart 0).setFinal 0 (Tropical.trop 0))

end Edit

/-! ### The evaluator -/

/-- The members of the evaluator. -/
structure Evaluator where
  fst : VectorFst LogWeight
  fstStd : VectorFst StdWeight
  fstFeature : VectorFst FeatureWeight
  testData : List (VectorFst LogWeight × VectorFst LogWeight)
  numFeatures : ℕ
  editDistStd : VectorFst StdWeight

/-- The constructor, for a transducer with the given symbol tables. -/
noncomputable def evaluator (fst : VectorFst LogWeight) (isymbols osymbols : List (Sym × ℤ))
    (numFeatures : ℕ) (testData : List (VectorFst LogWeight × VectorFst LogWeight)) : Evaluator :=
  { fst := fst
    fstStd := toStd fst
    fstFeature := mapToFeatureArcs fst false
    testData := testData
    numFeatures := numFeatures
    editDistStd := editDistStd isymbols osymbols }

/-! ### The edit distance of the best outputs -/

/-- The operations of the library. -/
structure Library where
  compose : Composer
  shortestPath : VectorFst StdWeight → VectorFst StdWeight
  reverse : VectorFst StdWeight → VectorFst StdWeight

/-- `ShortestDistance`: the least weight of an accepting path. -/
noncomputable def shortestDistance (F : VectorFst StdWeight) : EReal :=
  sInf {c | ∃ s t, F.Relates s t (Tropical.trop c)}

/-- `Project` on the output side. -/
def projectOutput {W : Type*} (F : VectorFst W) : VectorFst W :=
  F.mapArcs (fun a => ⟨a.olabel, a.olabel, a.weight, a.nextstate⟩) id

section Project
variable {W : Type*} (F : VectorFst W)

theorem arc?_projectOutput (e : ℕ) : (projectOutput F).arc? e =
    (F.arc? e).map fun p => (p.1, ⟨p.2.olabel, p.2.olabel, p.2.weight, p.2.nextstate⟩) :=
  VectorFst.arc?_mapArcs _ _ F e

theorem final?_projectOutput (q : ℕ) : (projectOutput F).final? q = F.final? q := by
  rw [projectOutput, VectorFst.final?_mapArcs, Option.map_id_fun, id]

theorem weightAt_projectOutput [One W] (e : Option ℕ) :
    (projectOutput F).weightAt e = F.weightAt e := by
  cases e with
  | none => rfl
  | some e =>
    rw [VectorFst.weightAt, VectorFst.weightAt, Option.bind_some, Option.bind_some,
      arc?_projectOutput]
    cases F.arc? e <;> rfl

theorem ends_projectOutput : (projectOutput F).ends = F.ends := by
  funext e
  rw [VectorFst.ends, VectorFst.ends, arc?_projectOutput, Option.map_map]
  rfl

theorem labels_projectOutput (e : ℕ) :
    (projectOutput F).ilabel? e = F.olabel? e ∧ (projectOutput F).olabel? e = F.olabel? e := by
  simp only [VectorFst.ilabel?, VectorFst.olabel?, arc?_projectOutput, Option.map_map]
  exact ⟨rfl, rfl⟩

/-- Both tapes hold what the machine writes. -/
theorem strings_projectOutput (p : List ℕ) :
    (projectOutput F).istring p = F.ostring p ∧ (projectOutput F).ostring p = F.ostring p := by
  have hi : (projectOutput F).ilabel? = F.olabel? := funext fun e => (labels_projectOutput F e).1
  have ho : (projectOutput F).olabel? = F.olabel? := funext fun e => (labels_projectOutput F e).2
  constructor
  · rw [VectorFst.istring, hi]
    rfl
  · rw [VectorFst.ostring, ho]
    rfl

theorem noEmpty_projectOutput {F : VectorFst W} (h : NoEmpty F) : NoEmpty (projectOutput F) :=
  ⟨fun e => (labels_projectOutput F e).1 ▸ h.olabel e, fun e =>
    (labels_projectOutput F e).2 ▸ h.olabel e⟩

end Project

/-- `RmWeightMapper`. -/
noncomputable def rmWeight (F : VectorFst StdWeight) : VectorFst StdWeight :=
  F.map (fun w => if w ≠ 0 then 1 else 0) fun w => if w ≠ 0 then 1 else 0

section Edit
variable (lib : Library)

/-- The loop of `one_best_edit`. -/
noncomputable def Evaluator.oneBestLoop (ev : Evaluator) : EReal →
    List (VectorFst LogWeight × VectorFst LogWeight) → EReal
  | editDist, [] => editDist
  | editDist, (inputFst, outputFst) :: rest =>
    let final := VectorFst.compose lib.compose (toStd inputFst) ev.fstStd
    let shortestPath := projectOutput (lib.shortestPath final)
    let shortestPathReversed := rmWeight (lib.reverse shortestPath)
    let medialEdit := VectorFst.compose lib.compose (toStd outputFst) ev.editDistStd
    let finalEdit := VectorFst.compose lib.compose medialEdit shortestPathReversed
    Evaluator.oneBestLoop ev (editDist + shortestDistance finalEdit) rest

noncomputable def Evaluator.oneBestEdit (ev : Evaluator) : EReal := ev.oneBestLoop lib 0 ev.testData

end Edit

/-! ### The log loss -/

section LogLoss
variable (comp : Composer)

/-- The loop of `log_loss`. -/
noncomputable def Evaluator.logLossLoop (ev : Evaluator) : EReal →
    List (VectorFst LogWeight × VectorFst LogWeight) → EReal
  | logLoss, [] => logLoss
  | logLoss, (inputFst, outputFst) :: rest =>
    let medial := VectorFst.compose comp inputFst ev.fst
    let final := VectorFst.compose comp medial outputFst
    Evaluator.logLossLoop ev (logLoss + value final.shortestDistance) rest

noncomputable def Evaluator.logLoss (ev : Evaluator) : EReal := ev.logLossLoop comp 0 ev.testData

end LogLoss

/-! ### Alignments -/

/-- The loop that fills `arc_mapper`. -/
noncomputable def idPass : ℕ → (ℕ → ℤ) → List (Arc FeatureWeight) → ℕ → ℤ
  | _, arcMapper, [] => arcMapper
  | tmp, arcMapper, arc :: arcs =>
    let oldArcId := roundExpNeg (value arc.weight.value2)
    idPass (tmp + 1) (Function.update arcMapper tmp oldArcId) arcs

section Relabel
variable {W : Type*} (arcIdSymbolTable : List (Sym × ℤ))

/-- The loop that sets both labels of an arc to the key of its arc id. -/
def relabelPass (arcMapper : ℕ → ℤ) : ℕ → List (Arc W) → List (Arc W)
  | _, [] => []
  | arcId, curArc :: arcs =>
    let key := toString (arcMapper arcId)
    let arcLabel := findKey arcIdSymbolTable (key ++ " ")
    ⟨arcLabel, arcLabel, curArc.weight, curArc.nextstate⟩ :: relabelPass arcMapper (arcId + 1) arcs

/-- The loop over the states of the FeatureArc lattice, beside those of the other one. -/
noncomputable def relabelStates : ℕ → List (State FeatureWeight) → List (State W) → Option
    (List (State W))
  | _, [], final => some final
  | _, _ :: _, [] => none
  | arcId, s :: states, t :: final => do
    let arcMapper := idPass arcId (fun _ => 0) s.arcs
    let rest ← relabelStates (arcId + t.arcs.length) states final
    return ⟨t.final, relabelPass arcIdSymbolTable arcMapper arcId t.arcs⟩ :: rest

end Relabel

section Decode
variable (comp : Composer) (ev : Evaluator)

/-- The machine on which `alignment_decode` runs `ShortestPath`. -/
noncomputable def Evaluator.alignmentDecode (x : VectorFst LogWeight) :
    Option (VectorFst StdWeight) := do
  let xFeature := mapToFeatureArcs x true
  let medial := VectorFst.compose comp xFeature ev.fstFeature
  let final := VectorFst.compose comp (toStd x) ev.fstStd
  let states ← relabelStates (arcIdSymbolTable ev.numFeatures) 0 medial.states final.states
  return { final with states := states }

/-- The machine on which `alignment_decode_forced` runs `ShortestPath`. -/
noncomputable def Evaluator.alignmentDecodeForced (x y : VectorFst LogWeight) :
    Option (VectorFst StdWeight) := do
  let xFeature := mapToFeatureArcs x true
  let yFeature := mapToFeatureArcs y true
  let medialFeature := VectorFst.compose comp xFeature ev.fstFeature
  let finalFeature := VectorFst.compose comp medialFeature yFeature
  let medialStd := VectorFst.compose comp (toStd x) ev.fstStd
  let finalStd := VectorFst.compose comp medialStd (toStd y)
  let states ← relabelStates (arcIdSymbolTable ev.numFeatures) 0 finalFeature.states finalStd.states
  return { finalStd with states := states }

/-- The text that `fst_to_string` emits for an arc, in path order. -/
def Evaluator.token (final : VectorFst StdWeight) (e : ℕ) : Sym :=
  match final.olabel? e with
  | none => ""
  | some olabel => if olabel ≠ 0 then findText (arcIdSymbolTable ev.numFeatures) olabel else ""

end Decode

/-! ### The arc mapper of `sandbox.cpp` -/

/-- `isspace`. -/
def isSpace (c : Char) : Bool := c = ' ' || (9 ≤ c.toNat && c.toNat ≤ 13)

/-- The digits at the start of a text, as a number. -/
def leadingNumber (s : List Char) : ℤ := (Nat.ofDigitChars 10 (s.takeWhile Char.isDigit) 0 : ℕ)

/-- `atoi`. -/
def atoi (s : Sym) : ℤ :=
  match s.toList.dropWhile isSpace with
  | '-' :: t => -leadingNumber t
  | '+' :: t => leadingNumber t
  | t => leadingNumber t

end StochasticEdit.Evaluation
