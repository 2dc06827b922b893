import StochasticEdit.Features.KeyColumn

/-! Which lines the readers of `data-io.cpp` keep (`FeatureReader`, `WeightReader`,
`DataReader`). All three look at the first character of the first column of every line with
more than one column, so they raise on a line that starts with a tab. -/

namespace StochasticEdit.Features

open Text

/-! ### The third reader -/

/-- What `DataReader` does with the columns of a line. -/
def addDatum (data : List (Str × Str)) (first second : Str) : List (Str × Str) :=
  data ++ [(first, second)]

/-- The body of the loop of `DataReader` over the lines. -/
def readDatum (data : List (Str × Str)) (line : Str) : Option (List (Str × Str)) :=
  scanLine addDatum data line

def readData : List (Str × Str) → List Str → Option (List (Str × Str))
  | data, [] => some data
  | data, line :: lines => do
    let data ← readDatum data line
    readData data lines

/-- The constructor, on a file with the given content. -/
def dataReader (text : Str) : Option (List (Str × Str)) := readData [] (fileLines text)

theorem readData_eq (data : List (Str × Str)) (lines : List Str) :
    readData data lines = lines.foldlM (scanLine addDatum) data := by
  induction lines generalizing data with
  | nil => rfl
  | cons line lines ih => simp only [readData, List.foldlM_cons, ih, readDatum]

theorem id_addDatum (data : List (Str × Str)) (entry : Entry) :
    id (addDatum data entry.key entry.value) = id data ++ [(entry.key, entry.value)] := rfl

/-! ### Data lines of any file -/

/-- The entry of a line with two columns, of which the first starts with something but `#`. -/
def dataLine? (line : Str) : Option Entry :=
  match h : line.splitOn '\t' with
  | [c :: key, value] =>
    if hc : c ≠ '#' then
      some ⟨c :: key, value, ⟨c, rfl, hc⟩, notMem_of_mem_splitOn (h ▸ List.mem_cons_self),
        notMem_of_mem_splitOn (h ▸ List.mem_cons_of_mem _ List.mem_cons_self)⟩
    else none
  | _ => none

/-- The entries of a file, in its order. -/
def dataLines (text : Str) : List Entry := (fileLines text).filterMap dataLine?

/-- A line with columns, of which the first is empty. -/
def TabFirst (line : Str) : Prop := line.head? = some '\t'

/-- A line is data exactly if it is written as an entry. -/
theorem dataLine?_eq_some_iff {line : Str} {entry : Entry} :
    dataLine? line = some entry ↔ line = (Line.data entry).text := by
  unfold dataLine?
  constructor
  · intro h
    split at h
    · next c key value hsplit =>
      split_ifs at h with hc
      obtain rfl := Option.some.inj h
      obtain ⟨-, -, hjoin⟩ := splitOn_eq_iff.mp hsplit
      refine hjoin.symm.trans ?_
      simp [Line.text, List.intercalate]
    · exact absurd h (Option.some_ne_none entry).symm
  · rintro rfl
    obtain ⟨key, value, ⟨c, hhead, hc⟩, htab, htab'⟩ := entry
    obtain ⟨rest, rfl⟩ := List.head?_eq_some_iff.mp hhead
    have hsplit := Entry.splitOn_text ⟨c :: rest, value, ⟨c, hhead, hc⟩, htab, htab'⟩
    split
    · next c' key' value' hsplit' =>
      rw [hsplit] at hsplit'
      obtain ⟨hkey, hvalue⟩ := List.cons.inj hsplit'
      obtain ⟨rfl, rfl⟩ := List.cons.inj hkey
      obtain ⟨rfl, -⟩ := List.cons.inj hvalue
      rw [dif_pos hc]
    · next hne => exact absurd hsplit (hne c rest value)

section Scan
variable {S : Type} {add : S → Str → Str → S}

/-- The loop body raises on a line with an empty first column. -/
theorem scanLine_tabFirst (s : S) {line : Str} (h : TabFirst line) :
    scanLine add s line = none := by
  obtain ⟨rest, rfl⟩ : ∃ rest, line = '\t' :: rest := List.head?_eq_some_iff.mp h
  obtain ⟨second, tokens, hsplit⟩ := List.exists_cons_of_ne_nil (List.splitOn_ne_nil '\t' rest)
  rw [scanLine, List.splitOn_cons_eq_if_modifyHead, if_pos (beq_self_eq_true '\t'), hsplit]
  rfl

/-- It leaves everything as it is on any other line that is no data. -/
theorem scanLine_skip (s : S) {line : Str} (hnone : dataLine? line = none)
    (htab : ¬ TabFirst line) :
    scanLine add s line = some s := by
  rw [scanLine]
  split
  · next first second tokens hsplit =>
    obtain ⟨-, hno, hjoin⟩ := splitOn_eq_iff.mp hsplit
    cases first with
    | nil =>
      refine absurd ?_ htab
      rw [← hjoin]
      rfl
    | cons c first =>
      rw [List.head?_cons, Option.bind_eq_bind, Option.bind_some]
      by_cases hdata : c ≠ '#' ∧ tokens = []
      · obtain ⟨hc, rfl⟩ := hdata
        have hentry : dataLine? line =
          some ⟨c :: first, second, ⟨c, rfl, hc⟩, hno _ List.mem_cons_self,
            hno _ (List.mem_cons_of_mem _ List.mem_cons_self)⟩ := by
          rw [dataLine?_eq_some_iff, ← hjoin, Line.text]
          simp [List.intercalate]
        exact absurd hnone (hentry ▸ Option.some_ne_none _)
      · rw [if_neg hdata]
        rfl
  · rfl

theorem scans_dataLines {β : Type} {kept : S → List β} {value : Entry → β}
    (hadd : ∀ s entry, kept (add s entry.key entry.value) = kept s ++ [value entry]) :
    Scans (scanLine add) dataLine? TabFirst kept value where
  item := by
    intro s line entry hentry
    obtain rfl := dataLine?_eq_some_iff.mp hentry
    exact ⟨_, scanLine_data s entry, hadd s entry⟩
  skip := fun s _ => scanLine_skip s
  fail := fun s _ => scanLine_tabFirst s

/-- From nothing kept, the loop ends with the entries of the file exactly if no line starts
with a tab. -/
theorem scan_iff {β : Type} {kept : S → List β} {value : Entry → β}
    (hadd : ∀ s entry, kept (add s entry.key entry.value) = kept s ++ [value entry]) {s : S}
    (hs : kept s = []) (text : Str) :
    (∃ s', (fileLines text).foldlM (scanLine add) s = some s' ∧
      kept s' = (dataLines text).map value) ↔
      ∀ line ∈ fileLines text, ¬ TabFirst line := by
  have hrun := (scans_dataLines hadd).run_iff s (fileLines text)
  rwa [hs, List.nil_append] at hrun

end Scan

/-! ### The three readers -/

/-- Each reader ends with exactly the entries of its file, in their order, if and only if no
line of the file starts with a tab. -/
theorem readers_skip_iff {V : Type} (atof : Str → V) (text : Str) :
    ((∃ reader, featureReader text = some reader ∧
        reader.features = (dataLines text).map Entry.features) ↔ ∀ line ∈ fileLines text,
          ¬ TabFirst line) ∧
      ((∃ weights, weightReader atof text = some weights ∧
        weights = (dataLines text).map fun entry => atof entry.value) ↔
          ∀ line ∈ fileLines text, ¬ TabFirst line) ∧
      ((∃ data, dataReader text = some data ∧
        data = (dataLines text).map fun entry => (entry.key, entry.value)) ↔
          ∀ line ∈ fileLines text, ¬ TabFirst line) := by
  rw [featureReader, weightReader, dataReader, readLoop_eq, readWeights_eq, readData_eq]
  exact ⟨scan_iff addFeatures_features rfl text, scan_iff (id_addWeight atof) rfl text,
    scan_iff id_addDatum rfl text⟩

/-- A line with an empty first column ends all three readers. -/
theorem not_readers_skip : ¬ ∀ (V : Type) (atof : Str → V) (text : Str),
    (∃ reader, featureReader text = some reader ∧
      reader.features = (dataLines text).map Entry.features) ∧
      (∃ weights, weightReader atof text = some weights ∧
        weights = (dataLines text).map fun entry => atof entry.value) ∧
      ∃ data, dataReader text = some data ∧
        data = (dataLines text).map fun entry => (entry.key, entry.value) := by
  intro h
  obtain ⟨⟨reader, hread, -⟩, -⟩ := h ℤ atoi ['0', '\t', '7', '\n', '\t', '5', '\n']
  have hnone : featureReader ['0', '\t', '7', '\n', '\t', '5', '\n'] = none := rfl
  exact absurd (hread.symm.trans hnone) (Option.some_ne_none reader)

end StochasticEdit.Features
