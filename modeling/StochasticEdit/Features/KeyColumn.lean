import StochasticEdit.Features.Reader
import StochasticEdit.Text.Scan

/-! The key column of the two tables that are read (`FeatureReader` and `WeightReader` of
`data-io.cpp`). Both readers parse the key of a line and then append its value behind those
of the lines before, so an entry of the result belongs to a place in the file. -/

namespace StochasticEdit.Features

open Trainer Text

/-! ### The program -/

section Weights
variable {V : Type} (atof : Str → V)

/-- The body of the loop of `WeightReader` over the lines; `at(0)` of an empty token raises
an exception. -/
def readWeight (weights : List V) (line : Str) : Option (List V) :=
  match line.splitOn '\t' with
  | first :: second :: rest => do
    let c ← first.head?
    if c ≠ '#' ∧ rest = [] then return weights ++ [atof second] else return weights
  | _ => some weights

def readWeights : List V → List Str → Option (List V)
  | weights, [] => some weights
  | weights, line :: lines => do
    let weights ← readWeight atof weights line
    readWeights weights lines

/-- The constructor, on a file with the given content. -/
def weightReader (text : Str) : Option (List V) := readWeights atof [] (fileLines text)

end Weights

/-- What the bodies of the loops share: a line with two columns is added, unless the first
column starts with `#`. -/
def scanLine {S : Type} (add : S → Str → Str → S) (s : S) (line : Str) : Option S :=
  match line.splitOn '\t' with
  | first :: second :: rest => do
    let c ← first.head?
    if c ≠ '#' ∧ rest = [] then return add s first second else return s
  | _ => some s

/-- What `FeatureReader` does with the columns of a line. -/
def addFeatures (reader : FeatureReader) (_ second : Str) : FeatureReader :=
  let (featureMax, featureVec) := readFeatures reader.featureMax (second.splitOn ',')
  ⟨reader.features ++ [featureVec], featureMax⟩

/-- What `WeightReader` does with them. -/
def addWeight {V : Type} (atof : Str → V) (weights : List V) (_ second : Str) : List V :=
  weights ++ [atof second]

/-! ### Files in the documented format -/

/-- A data line: a key that is no comment, a tab and a value. -/
structure Entry where
  key : Str
  value : Str
  head : ∃ c ∈ key.head?, c ≠ '#'
  key_tab : '\t' ∉ key
  value_tab : '\t' ∉ value

inductive Line
  | comment (rest : Str)
  | data (entry : Entry)

def Line.text : Line → Str
  | .comment rest => '#' :: rest
  | .data entry => entry.key ++ '\t' :: entry.value

def Line.entry? : Line → Option Entry
  | .comment _ => none
  | .data entry => some entry

/-- The data lines in the order of the file. -/
def entries (lines : List Line) : List Entry := lines.filterMap Line.entry?

/-- `arc_num`. -/
def Entry.id (entry : Entry) : ℤ := atoi entry.key

/-- The file has the given lines, with every id below their number once. -/
structure Documented (text : Str) (lines : List Line) : Prop where
  content : fileLines text = lines.map Line.text
  ids : ((entries lines).map Entry.id).Perm
    ((List.range (entries lines).length).map fun k : ℕ => (k : ℤ))

/-- What `FeatureReader` makes of the value of a line. -/
def Entry.features (entry : Entry) : List ℤ := (entry.value.splitOn ',').map atoi

/-! ### What is read -/

theorem readFeatures_snd (featureMax : ℤ) (strs : List Str) :
    (readFeatures featureMax strs).2 = strs.map atoi := by
  induction strs generalizing featureMax with
  | nil => rfl
  | cons s strs ih =>
    rw [readFeatures, List.map_cons]
    exact congrArg (atoi s :: ·) (ih _)

theorem Entry.splitOn_text (entry : Entry) :
    (Line.data entry).text.splitOn '\t' = [entry.key, entry.value] := by
  rw [Line.text, List.splitOn_append_cons_self_of_not_mem entry.key_tab,
    List.splitOn_eq_singleton entry.value_tab]

/-- A comment is one token, or its first token is a comment. -/
theorem splitOn_comment (rest : Str) :
    ∃ first tokens, (Line.comment rest).text.splitOn '\t' = ('#' :: first) :: tokens := by
  rw [Line.text, List.splitOn_cons_eq_if_modifyHead, if_neg (by decide)]
  obtain ⟨first, tokens, hsplit⟩ := List.exists_cons_of_ne_nil (List.splitOn_ne_nil '\t' rest)
  exact ⟨first, tokens, by rw [hsplit, List.modifyHead_cons]⟩

section Scan
variable {S : Type} {add : S → Str → Str → S}

theorem scanLine_comment (s : S) (rest : Str) :
    scanLine add s (Line.comment rest).text = some s := by
  obtain ⟨first, tokens, hsplit⟩ := splitOn_comment rest
  rw [scanLine, hsplit]
  cases tokens with
  | nil => rfl
  | cons second tokens => simp

theorem scanLine_data (s : S) (entry : Entry) :
    scanLine add s (Line.data entry).text = some (add s entry.key entry.value) := by
  obtain ⟨c, hc, hne⟩ := entry.head
  rw [scanLine, entry.splitOn_text]
  simp [Option.mem_def.mp hc, hne]

/-- What is made of the entries is appended in the order of the file. -/
theorem scans_lines {β : Type} {kept : S → List β} {value : Entry → β}
    (hadd : ∀ s entry, kept (add s entry.key entry.value) = kept s ++ [value entry]) :
    Scans (fun s (line : Line) => scanLine add s line.text) Line.entry?
      (fun _ => False) kept value where
  item := by
    intro s line entry hentry
    cases line with
    | comment rest => exact absurd hentry (Option.some_ne_none entry).symm
    | data entry' =>
      obtain rfl := Option.some.inj hentry
      exact ⟨_, scanLine_data s entry', hadd s entry'⟩
  skip := by
    intro s line hnone _
    cases line with
    | comment rest => exact scanLine_comment s rest
    | data entry => exact absurd hnone (Option.some_ne_none entry)
  fail := fun _ _ hbad => hbad.elim

end Scan

theorem readLine_eq : readLine = scanLine addFeatures := rfl

theorem readLoop_eq (reader : FeatureReader) (lines : List Str) :
    readLoop reader lines = lines.foldlM (scanLine addFeatures) reader := by
  induction lines generalizing reader with
  | nil => rfl
  | cons line lines ih => simp only [readLoop, List.foldlM_cons, ih, readLine_eq]

theorem addFeatures_features (reader : FeatureReader) (entry : Entry) :
    (addFeatures reader entry.key entry.value).features = reader.features ++ [entry.features] := by
  rw [Entry.features, ← readFeatures_snd reader.featureMax]
  rfl

/-- The features of the data lines are appended in the order of the file, -/
theorem readLoop_lines (reader : FeatureReader) (lines : List Line) : ∃ featureMax, readLoop reader
    (lines.map Line.text) = some
      ⟨reader.features ++ (entries lines).map Entry.features, featureMax⟩ := by
  obtain ⟨reader', hloop, hfeatures⟩ :=
    (scans_lines addFeatures_features).run reader lines fun _ _ => id
  refine ⟨reader'.featureMax, ?_⟩
  rw [readLoop_eq, List.foldlM_map, hloop]
  exact congrArg (fun features => some (FeatureReader.mk features reader'.featureMax)) hfeatures

section Weights
variable {V : Type} {atof : Str → V}

theorem readWeight_eq : readWeight atof = scanLine (addWeight atof) := rfl

theorem readWeights_eq (weights : List V) (lines : List Str) :
    readWeights atof weights lines = lines.foldlM (scanLine (addWeight atof)) weights := by
  induction lines generalizing weights with
  | nil => rfl
  | cons line lines ih => simp only [readWeights, List.foldlM_cons, ih, readWeight_eq]

theorem id_addWeight (atof : Str → V) (weights : List V) (entry : Entry) :
    id (addWeight atof weights entry.key entry.value) = id weights ++ [atof entry.value] := rfl

/-- and so are the weights. -/
theorem readWeights_lines (weights : List V) (lines : List Line) : readWeights atof weights
    (lines.map Line.text) =
    some (weights ++ (entries lines).map fun entry => atof entry.value) := by
  have hscans := scans_lines (id_addWeight atof)
  obtain ⟨weights', hloop, hweights⟩ := hscans.run weights lines fun _ _ => id
  rw [readWeights_eq, List.foldlM_map, hloop]
  exact congrArg some hweights

end Weights

/-! ### Keys and places -/

section Keys
variable {β : Type*} {data : List Entry} {value : Entry → β}

/-- The table has under every id the value of the line with that id. -/
def Keyed (value : Entry → β) (data : List Entry) (table : List β) : Prop :=
  ∀ entry ∈ data, table[entry.id.toNat]? = some (value entry)

/-- The line at place `k` has the value of the line with the id `k`. -/
def InPlace (value : Entry → β) (data : List Entry) : Prop :=
  ∀ (k : ℕ) (other entry : Entry), data[k]? = some other → entry ∈ data → entry.id = k →
    value other = value entry

theorem exists_place
    (hids : (data.map Entry.id).Perm ((List.range data.length).map fun k : ℕ => (k : ℤ)))
    {entry : Entry} (hmem : entry ∈ data) :
    ∃ (k : ℕ) (other : Entry), entry.id = k ∧ data[k]? = some other := by
  obtain ⟨k, hk, hid⟩ := List.mem_map.mp (hids.subset (List.mem_map_of_mem hmem))
  exact ⟨k, _, hid.symm, List.getElem?_eq_getElem (List.mem_range.mp hk)⟩

/-- Appended values stand under their ids exactly if every line is in its place. -/
theorem keyed_map_iff
    (hids : (data.map Entry.id).Perm ((List.range data.length).map fun k : ℕ => (k : ℤ))) :
    Keyed value data (data.map value) ↔ InPlace value data := by
  constructor
  · intro h k other entry hother hentry hid
    have hvalue := h entry hentry
    rw [hid, Int.toNat_natCast, List.getElem?_map, hother] at hvalue
    exact Option.some.inj hvalue
  · intro h entry hentry
    obtain ⟨k, other, hid, hother⟩ := exists_place hids hentry
    rw [hid, Int.toNat_natCast, List.getElem?_map, hother, Option.map_some,
      h k other entry hother hentry hid]

end Keys

/-- Both readers put every value under its id exactly if the line at each place has the
value of the line with that id. -/
theorem keyed_iff {V : Type} (atof : Str → V) {text : Str} {lines : List Line}
    (h : Documented text lines) :
    ((∃ reader, featureReader text = some reader ∧
      Keyed Entry.features (entries lines) reader.features) ↔
        InPlace Entry.features (entries lines)) ∧
      ((∃ weights, weightReader atof text = some weights ∧
          Keyed (fun entry => atof entry.value) (entries lines) weights) ↔
        InPlace (fun entry => atof entry.value) (entries lines)) := by
  obtain ⟨featureMax, hfeatures⟩ := readLoop_lines ⟨[], 0⟩ lines
  have hweights := @readWeights_lines V atof [] lines
  rw [List.nil_append] at hfeatures hweights
  rw [featureReader, weightReader, h.content, hfeatures, hweights]
  simp only [Option.some.injEq, exists_eq_left', keyed_map_iff h.ids, and_self]

/-- A line with a one-digit key and value. -/
def digitEntry (key value : Char) (h : key ≠ '#' ∧ key ≠ '\t' ∧ value ≠ '\t') : Entry :=
  { key := [key]
    value := [value]
    head := ⟨key, rfl, h.1⟩
    key_tab := by simpa using h.2.1.symm
    value_tab := by simpa using h.2.2.symm }

theorem documented_sorted : Documented ['0', '\t', '7', '\n', '#', '\n', '1', '\t', '5', '\n']
    [.data (digitEntry '0' '7' (by decide)), .comment [], .data (digitEntry '1' '5' (by decide))] :=
  ⟨by decide, by decide⟩

theorem documented_swapped : Documented ['1', '\t', '5', '\n', '0', '\t', '7', '\n']
    [.data (digitEntry '1' '5' (by decide)), .data (digitEntry '0' '7' (by decide))] :=
  ⟨by decide, by decide⟩

theorem keyed_sorted :
    ((∃ reader, featureReader ['0', '\t', '7', '\n', '#', '\n', '1', '\t', '5', '\n'] =
      some reader ∧
        Keyed Entry.features [digitEntry '0' '7' (by decide), digitEntry '1' '5' (by decide)]
          reader.features) ↔
      InPlace Entry.features [digitEntry '0' '7' (by decide), digitEntry '1' '5' (by decide)]) ∧
    ((∃ weights, weightReader atoi ['0', '\t', '7', '\n', '#', '\n', '1', '\t', '5', '\n'] =
      some weights ∧
        Keyed (fun entry => atoi entry.value)
          [digitEntry '0' '7' (by decide), digitEntry '1' '5' (by decide)]
          weights) ↔
      InPlace (fun entry => atoi entry.value)
        [digitEntry '0' '7' (by decide), digitEntry '1' '5' (by decide)]) :=
  keyed_iff atoi documented_sorted

/-- Two lines in descending order get each other's values. -/
theorem not_keyed : ¬ ∀ (V : Type) (atof : Str → V) (text : Str) (lines : List Line),
    Documented text lines →
    (∃ reader, featureReader text = some reader ∧
      Keyed Entry.features (entries lines) reader.features) ∧
      ∃ weights, weightReader atof text = some weights ∧
        Keyed (fun entry => atof entry.value) (entries lines) weights := by
  intro h
  obtain ⟨⟨reader, hread, hkeyed⟩, -⟩ := h ℤ atoi _ _ documented_swapped
  have hfeatures : featureReader ['1', '\t', '5', '\n', '0', '\t', '7', '\n'] =
      some ⟨[[5], [7]], 7⟩ := rfl
  obtain rfl := Option.some.inj (hread.symm.trans hfeatures)
  exact absurd (hkeyed _ List.mem_cons_self) (by decide)

end StochasticEdit.Features
