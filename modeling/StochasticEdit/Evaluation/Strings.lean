import StochasticEdit.Evaluation.Decode
import StochasticEdit.Wfst.Chain

/-! The strings that the evaluator returns (`fst_to_string`, `one_best` and the ends of the
two decoders of `evaluator.h`). `ShortestPath` numbers the states of its chain from the end,
so the loop over the states meets the labels backwards. It reverses every name, and the
reversal of the whole string puts names and labels right at once. -/

namespace StochasticEdit.Evaluation

open Wfst Trainer Generator

/-! ### The program -/

/-- `Find(key)`, by its characters. -/
def name (table : List (Sym × ℤ)) (key : ℤ) : List Char := (findText table key).toList

section Strings
variable {W : Type*} (osymbols : List (Sym × ℤ))

/-- The loop of `fst_to_string` over the arcs of a state. -/
def Evaluator.outputPass : List Char → List (Arc W) → List Char
  | output, [] => output
  | output, curArc :: arcs =>
    if curArc.olabel ≠ 0 then
      let label := (name osymbols curArc.olabel).reverse
      outputPass (output ++ label) arcs
    else outputPass output arcs

/-- The loop over the states. -/
def Evaluator.outputStates : List Char → List (State W) → List Char
  | output, [] => output
  | output, s :: states => outputStates (outputPass osymbols output s.arcs) states

/-- `fst_to_string`, for a machine with the given output symbols. -/
def Evaluator.fstToString (fst : VectorFst W) : List Char := outputStates osymbols [] fst.states

end Strings

section Best
variable (lib : Library) (ev : Evaluator)

/-- `one_best`, with the output symbols of the machine. -/
noncomputable def Evaluator.oneBest (osymbols : List (Sym × ℤ)) (x : VectorFst LogWeight) :
    List Char :=
  let final := VectorFst.compose lib.compose (toStd x) ev.fstStd
  let shortestPath := lib.shortestPath final
  (fstToString osymbols shortestPath).reverse

/-- What both decoders return for their machine `final`. -/
noncomputable def Evaluator.decoded (final : VectorFst StdWeight) : List Char × EReal :=
  let shortestPath := lib.shortestPath final
  let w := shortestDistance final
  ((fstToString (arcIdSymbolTable ev.numFeatures) shortestPath).reverse, w)

end Best

/-! ### The order of the names -/

/-- The result of `ShortestPath` is the chain of the accepting path `p`, with its states
numbered from the final state back to the start. -/
structure SelectsPath (final shortestPath : VectorFst StdWeight) (p : List ℕ) : Prop where
  accepts : final.Accepts p
  chain : Chain shortestPath (p.filterMap final.labels?) Fin.revPerm

section Order
variable {W : Type*} (osymbols : List (Sym × ℤ))

/-- What one label adds to the output. -/
def piece (o : ℤ) : List Char := if o ≠ 0 then (name osymbols o).reverse else []

theorem Evaluator.outputPass_eq (output : List Char) (arcs : List (Arc W)) :
    outputPass osymbols output arcs = output ++ (arcs.map Arc.olabel).flatMap (piece osymbols) := by
  induction arcs generalizing output with
  | nil => exact (List.append_nil output).symm
  | cons curArc arcs ih =>
    rw [outputPass, List.map_cons, List.flatMap_cons, piece]
    split_ifs with h
    · rw [ih, List.append_assoc]
    · rw [ih, List.nil_append]

theorem Evaluator.outputStates_eq (output : List Char) (states : List (State W)) :
    outputStates osymbols output states =
      output ++ (states.flatMap fun s => s.arcs.map Arc.olabel).flatMap (piece osymbols) := by
  induction states generalizing output with
  | nil => exact (List.append_nil output).symm
  | cons s states ih =>
    rw [outputStates, ih, outputPass_eq, List.flatMap_cons, List.flatMap_append, List.append_assoc]

theorem Evaluator.fstToString_eq (fst : VectorFst W) :
    fstToString osymbols fst = fst.olabels.flatMap (piece osymbols) := by
  rw [fstToString, outputStates_eq, List.nil_append]
  rfl

/-- Empty words add nothing. -/
theorem flatMap_reverse_piece (l : List ℤ) :
    (l.reverse.flatMap (piece osymbols)).reverse = (l.filter (· ≠ 0)).flatMap (name osymbols) := by
  rw [List.reverse_flatMap, List.reverse_reverse]
  induction l with
  | nil => rfl
  | cons o l ih =>
    rw [List.flatMap_cons, ih, Function.comp_apply, piece]
    by_cases h : o = 0
    · rw [if_neg (not_not.mpr h), List.filter_cons_of_neg (by simpa using h)]
      rfl
    · rw [if_pos h, List.filter_cons_of_pos (by simpa using h), List.reverse_reverse,
        List.flatMap_cons]

/-- The reversed text of the chain names the labels in path order. -/
theorem SelectsPath.reverse_fstToString {final shortestPath : VectorFst StdWeight} {p : List ℕ}
    (h : SelectsPath final shortestPath p) :
    (Evaluator.fstToString osymbols shortestPath).reverse =
      (final.ostring p).flatMap (name osymbols) := by
  rw [Evaluator.fstToString_eq, h.chain.olabels_back, map_snd_labels?, flatMap_reverse_piece]
  rfl

end Order

/-- `one_best` names the output labels of the path in their order. -/
theorem oneBest_eq (lib : Library) (fst : VectorFst LogWeight) (isymbols osymbols : List (Sym × ℤ))
    (n : ℕ) (testData : List (VectorFst LogWeight × VectorFst LogWeight)) (x : VectorFst LogWeight)
    {p : List ℕ}
    (h : SelectsPath (VectorFst.compose lib.compose (toStd x) (toStd fst))
      (lib.shortestPath (VectorFst.compose lib.compose (toStd x) (toStd fst))) p) :
    (evaluator fst isymbols osymbols n testData).oneBest lib osymbols x =
      ((VectorFst.compose lib.compose (toStd x) (toStd fst)).ostring p).flatMap (name osymbols) :=
  h.reverse_fstToString osymbols

/-! ### A path with an empty word and a long name -/

section LongNames

/-- One symbol is read; `ab`, the empty word and `c` are written. -/
noncomputable def longNames : VectorFst LogWeight :=
  ⟨some 0, [⟨none, [⟨1, 2, 1, 1⟩]⟩, ⟨none, [⟨0, 0, 1, 2⟩]⟩, ⟨none, [⟨0, 3, 1, 3⟩]⟩, ⟨some 1, []⟩]⟩

/-- The operations on this machine and the acceptor of its input. -/
noncomputable def longNamesLibrary : Library :=
  { compose :=
    fun _ _ => ⟨some 0, [⟨none, [⟨1, 2, (some 0, some 0), 1⟩]⟩, ⟨none, [⟨0, 0, (none, some 1), 2⟩]⟩,
      ⟨none, [⟨0, 3, (none, some 2), 3⟩]⟩, ⟨some (some 1, some 3), []⟩]⟩
    shortestPath := fun final => backChain StdWeight ([0, 1, 2].filterMap final.labels?)
    reverse := id }

theorem oneBest_longNames :
    (evaluator longNames [] [("<eps>", 0), ("ab", 2), ("c", 3)] 0 []).oneBest
    longNamesLibrary [("<eps>", 0), ("ab", 2), ("c", 3)] (oneLetter 1) = "abc".toList :=
  oneBest_eq longNamesLibrary longNames [] [("<eps>", 0), ("ab", 2), ("c", 3)] 0 [] (oneLetter 1)
    ⟨⟨3, 0, rfl, rfl, rfl⟩, chain_backChain _⟩

end LongNames

end StochasticEdit.Evaluation
