import StochasticEdit.Features.Featurize
import StochasticEdit.Evaluation.Decode
import StochasticEdit.Trainer.Reweight

/-! The feature table as the trainer reads it (`FeatureReader` of `data-io.cpp`). The id
column is not looked at, so the rows belong to the arcs by their order alone. -/

namespace StochasticEdit.Features

open Wfst Generator Trainer Text

/-! ### The program -/

/-- The members of the reader while it reads. -/
structure FeatureReader where
  features : FeatureMap
  featureMax : ℤ

/-- `get_number_features`. -/
def FeatureReader.numberFeatures (reader : FeatureReader) : ℤ := reader.featureMax + 1

/-- `atoi(s.c_str())`. -/
def atoi (s : Str) : ℤ := Evaluation.atoi (String.ofList s)

/-- The loop over `features_str`, which fills `feature_vec`. -/
def readFeatures : ℤ → List Str → ℤ × List ℤ
  | featureMax, [] => (featureMax, [])
  | featureMax, s :: strs =>
    let (last, featureVec) := readFeatures (if atoi s > featureMax then atoi s else featureMax) strs
    (last, atoi s :: featureVec)

/-- The body of the loop over the lines; `at(0)` of an empty token raises an exception. -/
def readLine (reader : FeatureReader) (line : Str) : Option FeatureReader :=
  match line.splitOn '\t' with
  | first :: second :: rest => do
    let c ← first.head?
    if c ≠ '#' ∧ rest = [] then
      let (featureMax, featureVec) := readFeatures reader.featureMax (second.splitOn ',')
      return ⟨reader.features ++ [featureVec], featureMax⟩
    else return reader
  | _ => some reader

def readLoop : FeatureReader → List Str → Option FeatureReader
  | reader, [] => some reader
  | reader, line :: lines => do
    let reader ← readLine reader line
    readLoop reader lines

/-- The constructor, on a file with the given content. -/
def featureReader (text : Str) : Option FeatureReader := readLoop ⟨[], 0⟩ (fileLines text)

/-! ### What is read -/

theorem atoi_str (n : ℕ) : atoi (str n) = n := by
  rw [atoi, str, String.ofList_toList]
  exact Evaluation.atoi_toString n

/-- The ids of a row are read as numbers that the maximum bounds. -/
theorem readFeatures_eq (featureMax : ℤ) (ids : List ℕ) :
    (readFeatures featureMax (ids.map str)).2 = ids.map (fun i : ℕ => (i : ℤ)) ∧
      featureMax ≤ (readFeatures featureMax (ids.map str)).1 ∧
      ∀ i ∈ ids, (i : ℤ) ≤ (readFeatures featureMax (ids.map str)).1 := by
  induction ids generalizing featureMax with
  | nil => exact ⟨rfl, le_rfl, fun i hi => absurd hi List.not_mem_nil⟩
  | cons j ids ih =>
    obtain ⟨hvec, hmax, hids⟩ := ih (if (j : ℤ) > featureMax then (j : ℤ) else featureMax)
    rw [List.map_cons, readFeatures, atoi_str]
    refine ⟨congrArg _ hvec, ?_, fun i hi => ?_⟩
    · refine le_trans ?_ hmax
      split_ifs <;> omega
    · rcases List.mem_cons.mp hi with rfl | hi
      · refine le_trans ?_ hmax
        split_ifs <;> omega
      · exact hids i hi

theorem splitOn_rowText {e : ℕ} {ids : List ℕ} (h : ids ≠ []) :
    (rowText e ids).splitOn '\t' = [str e, [','].intercalate (ids.map str)] ∧
      ([','].intercalate (ids.map str)).splitOn ',' = ids.map str := by
  have hno {c : Char} (hc : c.isDigit = false) : ∀ p ∈ ids.map str, c ∉ p := by
    intro p hp
    obtain ⟨i, -, rfl⟩ := List.mem_map.mp hp
    exact notMem_str hc i
  have htab : '\t' ∉ [','].intercalate (ids.map str) := by
    rw [mem_intercalate_iff (by decide)]
    rintro ⟨p, hp, hmem⟩
    exact hno (by decide) p hp hmem
  constructor
  · rw [rowText, List.splitOn_append_cons_self_of_not_mem (notMem_str (by decide) e),
      List.splitOn_eq_singleton htab]
  · exact List.splitOn_intercalate ',' (hno (by decide)) (by simpa using h)

/-- The rows that were read, with a bound for their ids. -/
structure FeatureReader.Holds (reader : FeatureReader) (rows : List (List ℕ)) : Prop where
  features : reader.features = rows.map fun ids => ids.map fun i : ℕ => (i : ℤ)
  le_max : ∀ ids ∈ rows, ∀ i ∈ ids, (i : ℤ) ≤ reader.featureMax

/-- A line adds a row. -/
theorem FeatureReader.Holds.readLine {reader : FeatureReader} {rows : List (List ℕ)}
    (h : reader.Holds rows) (e : ℕ) {ids : List ℕ} (hids : ids ≠ []) :
    ∃ reader', readLine reader (rowText e ids) = some reader' ∧ reader'.Holds (rows ++ [ids]) := by
  obtain ⟨hline, hrow⟩ := splitOn_rowText (e := e) hids
  obtain ⟨hvec, hmax, hle⟩ := readFeatures_eq reader.featureMax ids
  have hid : str e ≠ [] := by
    intro hnil
    have hdigits : Nat.toDigits 10 e = [] := Nat.toList_repr.symm.trans hnil
    exact Nat.toDigits_ne_nil hdigits
  obtain ⟨c, t, hc⟩ := List.exists_cons_of_ne_nil hid
  have hsharp : c ≠ '#' := by
    rintro rfl
    exact notMem_str (by decide) e (hc ▸ List.mem_cons_self)
  refine ⟨⟨reader.features ++ [ids.map fun i : ℕ => (i : ℤ)],
    (readFeatures reader.featureMax (ids.map str)).1⟩, ?_, ?_, ?_⟩
  · simp only [Features.readLine, hline, hc, List.head?_cons, Option.bind_eq_bind, Option.bind_some,
      hrow, hsharp, ne_eq, not_false_eq_true, and_self, if_true, hvec]
    rfl
  · rw [h.features, List.map_append]
    rfl
  · intro ids' hids' i hi
    rcases List.mem_append.mp hids' with hids' | hids'
    · exact (h.le_max ids' hids' i hi).trans hmax
    · rw [List.mem_singleton.mp hids'] at hi
      exact hle i hi

theorem FeatureReader.Holds.readLoop {reader : FeatureReader} {rows : List (List ℕ)}
    (h : reader.Holds rows) (lines : List (ℕ × List ℕ)) (hlines : ∀ l ∈ lines, l.2 ≠ []) :
    ∃ reader', readLoop reader (lines.map fun l => rowText l.1 l.2) = some reader' ∧
      reader'.Holds (rows ++ lines.map Prod.snd) := by
  induction lines generalizing reader rows with
  | nil => exact ⟨reader, rfl, by simpa using h⟩
  | cons l lines ih =>
    obtain ⟨reader', hline, hholds⟩ := h.readLine l.1 (hlines l (by simp))
    obtain ⟨last, hlast, hall⟩ := ih hholds fun l hl => hlines l (by simp [hl])
    refine ⟨last, ?_, ?_⟩
    · rw [List.map_cons, Features.readLoop, hline, Option.bind_eq_bind, Option.bind_some, hlast]
    · rwa [List.append_assoc] at hall

theorem newline_notMem_rowText (e : ℕ) (ids : List ℕ) : '\n' ∉ rowText e ids := by
  have hids : '\n' ∉ [','].intercalate (ids.map str) := by
    rw [mem_intercalate_iff (by decide)]
    rintro ⟨q, hq, hmem⟩
    obtain ⟨i, -, rfl⟩ := List.mem_map.mp hq
    exact notMem_str (by decide) i hmem
  rw [rowText, List.mem_append, List.mem_cons]
  rintro (h | h | h)
  · exact notMem_str (by decide) e h
  · exact absurd h (by decide)
  · exact hids h

theorem fileLines_rows (lines : List (ℕ × List ℕ)) :
    fileLines (terminated '\n' (lines.map fun l => rowText l.1 l.2)) = lines.map fun l =>
      rowText l.1 l.2 := by
  rw [fileLines, terminatedParts_terminated]
  intro p hp
  obtain ⟨l, -, rfl⟩ := List.mem_map.mp hp
  exact newline_notMem_rowText l.1 l.2

/-- A table of rows is read row by row. -/
theorem exists_featureReader (lines : List (ℕ × List ℕ)) (hlines : ∀ l ∈ lines, l.2 ≠ []) :
    ∃ reader, featureReader (terminated '\n' (lines.map fun l => rowText l.1 l.2)) = some reader ∧
      reader.Holds (lines.map Prod.snd) := by
  have hempty : FeatureReader.Holds ⟨[], 0⟩ [] :=
    ⟨rfl, fun ids hids => absurd hids List.not_mem_nil⟩
  obtain ⟨reader, hread, hholds⟩ := hempty.readLoop lines hlines
  refine ⟨reader, ?_, hholds⟩
  rw [featureReader, fileLines_rows, hread]

/-! ### The largest id -/

theorem readFeatures_le {m featureMax : ℤ} (hmax : featureMax ≤ m) {ids : List ℕ}
    (h : ∀ i ∈ ids, (i : ℤ) ≤ m) :
    (readFeatures featureMax (ids.map str)).1 ≤ m := by
  induction ids generalizing featureMax with
  | nil => exact hmax
  | cons j ids ih =>
    rw [List.map_cons, readFeatures, atoi_str]
    apply ih
    · have hj := h j List.mem_cons_self
      split_ifs <;> omega
    · exact fun i hi => h i (List.mem_cons_of_mem j hi)

/-- A row does not raise the maximum above its own ids. -/
theorem readLine_le {m : ℤ} {reader reader' : FeatureReader} (hmax : reader.featureMax ≤ m) {e : ℕ}
    {ids : List ℕ} (hne : ids ≠ []) (h : ∀ i ∈ ids, (i : ℤ) ≤ m)
    (hread : readLine reader (rowText e ids) = some reader') : reader'.featureMax ≤ m := by
  obtain ⟨hline, hrow⟩ := splitOn_rowText (e := e) hne
  simp only [readLine, hline, hrow, Option.bind_eq_bind, Option.bind_eq_some_iff] at hread
  obtain ⟨c, -, hread⟩ := hread
  split_ifs at hread
  · obtain rfl := Option.some.inj hread
    exact readFeatures_le hmax h
  · obtain rfl := Option.some.inj hread
    exact hmax

theorem readLoop_le {m : ℤ} {reader reader' : FeatureReader} (hmax : reader.featureMax ≤ m)
    {lines : List (ℕ × List ℕ)} (h : ∀ l ∈ lines, l.2 ≠ [] ∧ ∀ i ∈ l.2, (i : ℤ) ≤ m)
    (hread : readLoop reader (lines.map fun l => rowText l.1 l.2) = some reader') :
    reader'.featureMax ≤ m := by
  induction lines generalizing reader with
  | nil =>
    obtain rfl := Option.some.inj hread
    exact hmax
  | cons l lines ih =>
    obtain ⟨hne, hle⟩ := h l List.mem_cons_self
    simp only [List.map_cons, readLoop, Option.bind_eq_bind, Option.bind_eq_some_iff] at hread
    obtain ⟨next, hnext, hread⟩ := hread
    exact ih (readLine_le hmax hne hle hnext) (fun l hl => h l (List.mem_cons_of_mem _ hl)) hread

theorem featureMax_le {m : ℕ} {lines : List (ℕ × List ℕ)}
    (h : ∀ l ∈ lines, l.2 ≠ [] ∧ ∀ i ∈ l.2, i ≤ m) {reader : FeatureReader}
    (hread : featureReader (terminated '\n' (lines.map fun l => rowText l.1 l.2)) = some reader) :
    reader.featureMax ≤ m := by
  rw [featureReader, fileLines_rows] at hread
  refine readLoop_le (Int.natCast_nonneg m) (fun l hl => ⟨(h l hl).1, fun i hi => ?_⟩) hread
  exact Int.ofNat_le.mpr ((h l hl).2 i hi)

end StochasticEdit.Features
