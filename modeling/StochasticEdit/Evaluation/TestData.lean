import StochasticEdit.Evaluation.Csv
import StochasticEdit.Evaluation.Model
import StochasticEdit.Wfst.Linear

/-! How the rows of a CSV file become acceptors (`string_to_logfst` of `wfst-train.cpp`,
`main` of `sandbox.cpp`). The last column is read backwards and reversed again, so both
acceptors spell the text of their column. A state that does not exist is undefined
behaviour. -/

namespace StochasticEdit.Evaluation

open Wfst Trainer Generator Program
open Outcome (orUndefined value_bind)
open Csv (Str Examples reversed exists_readRows rowFields_two)

/-! ### Acceptors -/

/-- The loop of `string_to_logfst` over the characters. -/
noncomputable def stringLoop (isyms osyms : List (Sym × ℤ)) :
    ℕ → VectorFst LogWeight → List Char → VectorFst LogWeight
  | _, fst, [] => fst
  | stateId, fst, c :: str =>
    let s := String.singleton c
    let fst := if stateId = 0 then fst.addState.setStart 0 else fst
    let fst := fst.addState
    let fst := fst.addArc stateId ⟨findKey isyms s, findKey osyms s, 1, stateId + 1⟩
    stringLoop isyms osyms (stateId + 1) fst str

/-- `string_to_logfst` into an empty machine. -/
noncomputable def stringToLogfst (str : List Char) (isyms osyms : List (Sym × ℤ)) :
    Option (VectorFst LogWeight) :=
  let fst := stringLoop isyms osyms 0 .empty str
  if str.length < fst.numStates then some (fst.setFinal str.length 1) else none

/-- The body of the loops of `main` that convert the examples. -/
noncomputable def convert (upper lower : List (Sym × ℤ)) (p : Str × Str) :
    Option (VectorFst LogWeight × VectorFst LogWeight) := do
  let fst1 ← stringToLogfst p.1 upper upper
  let fst2 ← stringToLogfst p.2 lower lower
  return (fst1, fst2)

/-- The test data of `main`. -/
noncomputable def readTestData (data : Examples) (upper lower : List (Sym × ℤ)) :
    Outcome (List (VectorFst LogWeight × VectorFst LogWeight)) := do
  let dataString ← data.readRows 1 data.count
  orUndefined ((reversed dataString).mapM (convert upper lower))

/-! ### What the acceptors spell -/

/-- The labels of the arcs for a text. -/
def labelPairs (isyms osyms : List (Sym × ℤ)) (str : List Char) : List (ℤ × ℤ) :=
  str.map fun c => (findKey isyms (String.singleton c), findKey osyms (String.singleton c))

section Chain
variable (isyms osyms : List (Sym × ℤ))

/-- The last but one state gets its arc. -/
theorem addArc_append (done : List (State LogWeight)) (a : Arc LogWeight) :
    (⟨some 0, done ++ [⟨none, []⟩, ⟨none, []⟩]⟩ : VectorFst LogWeight).addArc done.length a =
      ⟨some 0, (done ++ [⟨none, [a]⟩]) ++ [⟨none, []⟩]⟩ := by
  have hmodify (f : State LogWeight → State LogWeight) (s : State LogWeight)
    (rest : List (State LogWeight)) :
      (done ++ s :: rest).modify done.length f = done ++ f s :: rest := by
    induction done with
    | nil => rfl
    | cons t done ih => rw [List.cons_append, List.length_cons, List.modify_succ_cons, ih]; rfl
  rw [VectorFst.addArc, hmodify, List.append_assoc]
  rfl

/-- After the first character every round adds one state to the chain. -/
theorem stringLoop_eq (n : ℕ) (done : List (State LogWeight)) (hdone : done.length = n + 1)
    (str : List Char) : stringLoop isyms osyms (n + 1) ⟨some 0, done ++ [⟨none, []⟩]⟩ str =
      ⟨some 0, done ++ chainStates none (n + 1) (labelPairs isyms osyms str)⟩ := by
  induction str generalizing n done with
  | nil => rfl
  | cons c str ih =>
    have hadd (a : Arc LogWeight) :
        ((⟨some 0, done ++ [⟨none, []⟩]⟩ : VectorFst LogWeight).addState).addArc
        (n + 1) a = ⟨some 0, (done ++ [⟨none, [a]⟩]) ++ [⟨none, []⟩]⟩ := by
      rw [← hdone, ← addArc_append, VectorFst.addState, List.append_assoc]
      rfl
    rw [stringLoop]
    simp only [if_neg (Nat.succ_ne_zero n), hadd]
    rw [ih (n + 1) _ (by rw [List.length_append, hdone]; rfl), List.append_assoc]
    rfl

theorem stringLoop_empty {str : List Char} (h : str ≠ []) : stringLoop isyms osyms 0 .empty str =
    ⟨some 0, chainStates none 0 (labelPairs isyms osyms str)⟩ := by
  cases str with
  | nil => exact absurd rfl h
  | cons c str =>
    rw [stringLoop]
    exact stringLoop_eq isyms osyms 0 [_] rfl str

/-- `string_to_logfst` makes a linear machine of every text but the empty one. -/
theorem stringToLogfst_eq (str : List Char) : stringToLogfst str isyms osyms =
    if str = [] then none else some (linear LogWeight (labelPairs isyms osyms str)) := by
  have hlen : (labelPairs isyms osyms str).length =
      str.length := by rw [labelPairs, List.length_map]
  by_cases h : str = []
  · rw [if_pos h, h]
    rfl
  · have hlt : str.length < (⟨some 0, chainStates none 0 (labelPairs isyms osyms str)⟩ :
        VectorFst LogWeight).numStates := by
      rw [VectorFst.numStates, length_chainStates, hlen]
      exact Nat.lt_succ_self _
    rw [if_neg h, stringToLogfst]
    simp only [stringLoop_empty isyms osyms h, if_pos hlt]
    rw [VectorFst.setFinal, ← hlen, modify_chainStates]
    rfl

end Chain

/-- The acceptor of a text. -/
noncomputable def textAcceptor (table : List (Sym × ℤ)) (str : List Char) : VectorFst LogWeight :=
  linear LogWeight (labelPairs table table str)

/-- The string that the acceptor of a text spells. -/
def spelling (table : List (Sym × ℤ)) (str : List Char) : List ℤ :=
  (str.map fun c => findKey table (String.singleton c)).filter (· ≠ 0)

section Rows
variable {upper lower : List (Sym × ℤ)} {pairs : List (Str × Str)}

theorem convert_eq (p : Str × Str) : convert upper lower p =
    if p.1 ≠ [] ∧ p.2 ≠ [] then some (textAcceptor upper p.1, textAcceptor lower p.2)
      else none := by
  rw [convert, stringToLogfst_eq, stringToLogfst_eq]
  split_ifs with h1 h2 h h <;> first | rfl | tauto

/-- All pairs of texts can be converted but those with an empty one. -/
theorem mapM_convert : pairs.mapM (convert upper lower) =
    if ∀ p ∈ pairs, p.1 ≠ [] ∧ p.2 ≠ [] then
      some (pairs.map fun p => (textAcceptor upper p.1, textAcceptor lower p.2)) else none := by
  induction pairs with
  | nil => rfl
  | cons p pairs ih =>
    rw [List.mapM_cons, ih, convert_eq]
    simp only [List.forall_mem_cons]
    split_ifs <;> first | rfl | tauto

variable {data : Examples} (hcount : data.count = pairs.length)
  (hcomma : ∀ p ∈ pairs, ',' ∉ p.1 ∧ ',' ∉ p.2)
  (hlines : ∀ (k : ℕ) (p : Str × Str), pairs[k]? = some p →
    (data.text.splitOn '\n')[k]? = some (p.1 ++ ',' :: p.2))

include hcount hcomma hlines

theorem exists_rows : ∃ rows, data.readRows 1 data.count = .value rows ∧ reversed rows = pairs := by
  refine exists_readRows data hcount fun k p hp => ?_
  obtain ⟨hx, hy⟩ := hcomma p (List.mem_of_getElem? hp)
  exact rowFields_two hx hy (hlines k p hp)

/-- The rows are read and converted as they are written. -/
theorem readTestData_eq_mapM : readTestData data upper lower = orUndefined
    (pairs.mapM (convert upper lower)) := by
  obtain ⟨rows, hrows, rfl⟩ := exists_rows hcount hcomma hlines
  rw [readTestData, hrows, value_bind]

/-- Both acceptors of a row spell the text of their column from left to right. -/
theorem readTestData_eq {testData : List (VectorFst LogWeight × VectorFst LogWeight)}
    (h : readTestData data upper lower = .value testData) :
    testData = pairs.map fun p => (textAcceptor upper p.1, textAcceptor lower p.2) := by
  rw [readTestData_eq_mapM hcount hcomma hlines, mapM_convert] at h
  split_ifs at h
  · exact (Outcome.value.inj h).symm
  · cases h

end Rows

theorem convertWeight_one : convertWeight 1 = 1 := by
  rw [convertWeight, value, ENNReal.log_one, neg_zero]
  rfl

/-- The acceptor relates its string to itself at no cost. -/
theorem relates_textAcceptor {table : List (Sym × ℤ)} {str : List Char} {s t : List ℤ}
    {w : StdWeight} :
    (toStd (textAcceptor table str)).Relates s t w ↔ s = spelling table str ∧
      t = spelling table str ∧ w = 1 := by
  rw [toStd, textAcceptor, map_linear convertWeight_one, relates_linear, labelPairs, List.map_map,
    List.map_map]
  rfl

end StochasticEdit.Evaluation
