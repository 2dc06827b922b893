import StochasticEdit.Program.Outcome
import StochasticEdit.Text.Separated

/-! The rows of a CSV file from its text to `string_to_logfst` (`csv_parser.cpp`, `main` of
`sandbox.cpp`). A call of `get_value` can leave the program, and it can run past the end of a
line; which of the two happens on a short row depends on the order in which the arguments of
the pair are evaluated. -/

namespace StochasticEdit.Evaluation.Csv

open Program Outcome Text

abbrev Str := List Char

/-! ### The file -/

/-- `csv_file`: what is left to read, and the end-of-file bit. -/
structure CsvFile where
  rest : Str
  eof : Bool

/-- `clear` and `seekg`. -/
def rewind (text : Str) : CsvFile := ⟨text, false⟩

/-- `getline(csv_file, line)`. Once the end has been met, `line` stays as it is. -/
def getline (file : CsvFile) (line : Str) : CsvFile × Str :=
  if file.eof then (file, line)
  else if '\n' ∈ file.rest then
    (⟨(file.rest.dropWhile (· ≠ '\n')).tail, false⟩, file.rest.takeWhile (· ≠ '\n'))
  else (⟨[], true⟩, file.rest)

/-- The loop of `get_line`. -/
def getlines : ℕ → CsvFile → Str → Str
  | 0, _, line => line
  | n + 1, file, line => getlines n (getline file line).1 (getline file line).2

/-- `get_line`. -/
def getLine (text : Str) (lineNumber : ℕ) : Str := getlines lineNumber (rewind text) []

/-- A line that ends before the file does, -/
theorem getline_append {x y : Str} (hx : '\n' ∉ x) (line : Str) :
    getline ⟨x ++ '\n' :: y, false⟩ line = (⟨y, false⟩, x) := by
  have hpos : ∀ c ∈ x, decide (c ≠ '\n') = true := fun c hc => decide_eq_true fun heq =>
    hx (heq ▸ hc)
  rw [getline, if_neg Bool.false_ne_true, if_pos (List.mem_append_right _ List.mem_cons_self),
    List.dropWhile_append_of_pos hpos, List.takeWhile_append_of_pos hpos]
  simp

/-- and the last one. -/
theorem getline_last {x : Str} (hx : '\n' ∉ x) (line : Str) :
    getline ⟨x, false⟩ line = (⟨[], true⟩, x) := by
  rw [getline, if_neg Bool.false_ne_true, if_neg hx]

/-- How many calls of `getline` can still find something. -/
def CsvFile.size (file : CsvFile) : ℕ := if file.eof then 0 else file.rest.length + 1

theorem size_getline {file : CsvFile} (h : file.eof = false) (line : Str) :
    (getline file line).1.size < file.size := by
  obtain ⟨rest, eof⟩ := file
  obtain rfl : eof = false := h
  by_cases hmem : '\n' ∈ rest
  · obtain ⟨x, y, rfl, hx⟩ := List.eq_append_cons_of_mem hmem
    rw [getline_append hx]
    simp only [CsvFile.size, Bool.false_eq_true, if_false, List.length_append, List.length_cons]
    omega
  · rw [getline_last hmem]
    simp [CsvFile.size]

/-- The loop of `total_lines`. -/
def countLines (file : CsvFile) (line : Str) (noLines : ℕ) : ℕ :=
  if h : file.eof = false then countLines (getline file line).1 (getline file line).2 (noLines + 1)
    else noLines
termination_by file.size
decreasing_by exact size_getline h line

/-- `total_lines`. -/
def totalLines (text : Str) : ℕ := countLines (rewind text) [] 0

/-! ### Lines -/

/-- The lines that are still ahead, with what follows the last newline as a line. -/
def CsvFile.ahead (file : CsvFile) : List Str := if file.eof then [] else file.rest.splitOn '\n'

theorem ahead_getline {file : CsvFile} {l : Str} {ls : List Str} (h : file.ahead = l :: ls)
    (line : Str) :
    (getline file line).2 = l ∧ (getline file line).1.ahead = ls := by
  obtain ⟨rest, eof⟩ := file
  cases eof with
  | true => exact absurd h (List.cons_ne_nil l ls).symm
  | false =>
    have hsplit : rest.splitOn '\n' = l :: ls := h
    by_cases hmem : '\n' ∈ rest
    · obtain ⟨x, y, rfl, hx⟩ := List.eq_append_cons_of_mem hmem
      rw [List.splitOn_append_cons_self_of_not_mem hx] at hsplit
      rw [getline_append hx]
      exact List.cons.inj hsplit
    · rw [List.splitOn_eq_singleton hmem] at hsplit
      rw [getline_last hmem]
      exact List.cons.inj hsplit

theorem getline_of_ahead_nil {file : CsvFile} (h : file.ahead = []) (line : Str) :
    getline file line = (file, line) := by
  obtain ⟨rest, eof⟩ := file
  cases eof with
  | true => rfl
  | false => exact absurd h (List.splitOn_ne_nil '\n' rest)

/-- `get_line` goes through the lines, and stays at the last one. -/
theorem getlines_eq (n : ℕ) (file : CsvFile) (line : Str) :
    getlines n file line = ((file.ahead.take n).getLast?).getD line := by
  induction n generalizing file line with
  | zero => rfl
  | succ n ih =>
    cases hahead : file.ahead with
    | nil =>
      rw [getlines, getline_of_ahead_nil hahead, ih, hahead, List.take_nil, List.take_nil]
    | cons l ls =>
      obtain ⟨hline, hrest⟩ := ahead_getline hahead line
      rw [getlines, ih, hline, hrest, List.take_succ_cons, List.getLast?_cons]
      rfl

/-- `total_lines` counts what follows the last newline too. -/
theorem countLines_eq (file : CsvFile) (line : Str) (noLines : ℕ) :
    countLines file line noLines = noLines + file.ahead.length := by
  have hlines (ls : List Str) (file : CsvFile) (line : Str) (noLines : ℕ) (h : file.ahead = ls) :
      countLines file line noLines = noLines + ls.length := by
    induction ls generalizing file line noLines with
    | nil =>
      have heof : ¬ file.eof = false := by
        intro heof
        rw [CsvFile.ahead, heof, if_neg Bool.false_ne_true] at h
        exact List.splitOn_ne_nil '\n' _ h
      rw [countLines, dif_neg heof]
      rfl
    | cons l ls ih =>
      have heof : file.eof = false := by
        by_contra heof
        rw [CsvFile.ahead, if_pos (by simpa using heof)] at h
        exact List.cons_ne_nil l ls h.symm
      obtain ⟨-, hrest⟩ := ahead_getline h line
      rw [countLines, dif_pos heof, ih _ _ _ hrest, List.length_cons]
      omega
  exact hlines file.ahead file line noLines rfl

theorem totalLines_eq (text : Str) : totalLines text = (text.splitOn '\n').length := by
  rw [totalLines, countLines_eq, Nat.zero_add]
  rfl

theorem getLine_eq {text : Str} {k : ℕ} {line : Str} (h : (text.splitOn '\n')[k]? = some line) :
    getLine text (k + 1) = line := by
  rw [getLine, getlines_eq]
  show (((text.splitOn '\n').take (k + 1)).getLast?).getD [] = line
  rw [List.take_add_one, h, Option.toList_some, List.getLast?_concat, Option.getD_some]

/-! ### Columns -/

/-- `fields`. -/
def fields (line : Str) : ℕ := line.count ',' + 1

/-- The loop that collects the characters up to a comma. -/
def upToComma (line : Str) : Option Str :=
  if ',' ∈ line then some (line.takeWhile (· ≠ ',')) else none

/-- The loop for a column between the first and the last. -/
def middleColumn (column : ℕ) : ℕ → Str → Option Str
  | _, [] => none
  | totalFields, c :: line =>
    if c = ',' then
      if totalFields + 1 = column - 1 then upToComma line
        else middleColumn column (totalFields + 1) line
    else middleColumn column totalFields line

/-- `get_value`. -/
def getValue (text : Str) (row column : ℕ) : Outcome Str :=
  let line := getLine text row
  let totalColumns := fields line
  if column > totalColumns ∨ row > totalLines text then .exit
  else if column = 1 then orUndefined (upToComma line)
  else if column = totalColumns then orUndefined (upToComma line.reverse)
  else orUndefined (middleColumn column 0 line)

theorem upToComma_eq {x y : Str} (hx : ',' ∉ x) : upToComma (x ++ ',' :: y) = some x := by
  have hpos : ∀ c ∈ x, decide (c ≠ ',') = true := fun c hc => decide_eq_true fun heq =>
    hx (heq ▸ hc)
  rw [upToComma, if_pos (by simp), List.takeWhile_append_of_pos hpos]
  simp

section Values
variable {text line : Str} {k column : ℕ}

theorem getValue_beyond (h : (text.splitOn '\n').length ≤ k) :
    getValue text (k + 1) column = .exit := by
  rw [getValue, totalLines_eq, if_pos (.inr (Nat.lt_succ_of_le h))]

variable (hline : (text.splitOn '\n')[k]? = some line)
include hline

theorem getValue_exit (h : fields line < column) : getValue text (k + 1) column = .exit := by
  rw [getValue, getLine_eq hline, if_pos (.inl h)]

theorem getValue_line (h : column ≤ fields line) : getValue text (k + 1) column =
    if column = 1 then orUndefined (upToComma line)
    else if column = fields line then orUndefined (upToComma line.reverse)
    else orUndefined (middleColumn column 0 line) := by
  have hlt : k < (text.splitOn '\n').length := (List.getElem?_eq_some_iff.mp hline).1
  rw [getValue, getLine_eq hline, totalLines_eq, if_neg (by omega)]

end Values

theorem fields_eq_length (line : Str) : fields line = (line.splitOn ',').length := by
  rw [length_splitOn]
  rfl

theorem middleColumn_two {x : Str} (hx : ',' ∉ x) (y : Str) :
    middleColumn 2 0 (x ++ ',' :: y) = upToComma y := by
  induction x with
  | nil => rfl
  | cons c x ih =>
    have hc : c ≠ ',' := fun h => hx (h ▸ List.mem_cons_self)
    rw [List.cons_append, middleColumn, if_neg hc, ih fun h => hx (List.mem_cons_of_mem _ h)]

/-! ### Rows -/

/-- The order in which the arguments of a call are evaluated. -/
inductive ArgumentOrder where
  | leftToRight
  | rightToLeft
  deriving DecidableEq

/-- One of the two loops of `main`: its file, the number of its rows, and the order in which
it evaluates the arguments of `p(csv.get_value(i,1), csv.get_value(i,2))`. -/
structure Examples where
  text : Str
  count : ℕ
  order : ArgumentOrder

section Program
variable (data : Examples)

/-- The pair `p`. -/
def Examples.readRow (i : ℕ) : Outcome (Str × Str) :=
  match data.order with
  | .leftToRight => do
    let first ← getValue data.text i 1
    let second ← getValue data.text i 2
    return (first, second)
  | .rightToLeft => do
    let second ← getValue data.text i 2
    let first ← getValue data.text i 1
    return (first, second)

/-- The loop that reads `k` rows from row `i` on. -/
def Examples.readRows : ℕ → ℕ → Outcome (List (Str × Str))
  | _, 0 => return []
  | i, k + 1 => do
    let p ← data.readRow i
    let rest ← readRows (i + 1) k
    return p :: rest

/-- What the loop that converts the rows hands to `string_to_logfst`. -/
def reversed (dataString : List (Str × Str)) : List (Str × Str) :=
  dataString.map fun p => (p.1, p.2.reverse)

end Program

/-- The strings of the training data and of the test data in `main`. -/
def ingest (train test : Examples) : Outcome (List (Str × Str) × List (Str × Str)) := do
  let dataStringTrain ← train.readRows 1 train.count
  let dataStringTest ← test.readRows 1 test.count
  return (reversed dataStringTrain, reversed dataStringTest)

/-! ### Fields as written -/

/-- The fields of row `k + 1`; a row that does not exist has a single empty one. -/
def rowFields (text : Str) (k : ℕ) : List Str :=
  ((terminatedParts '\n' text)[k]?.getD []).splitOn ','

/-- The first two fields of a row. -/
def firstTwo : List Str → Option (Str × Str)
  | field1 :: field2 :: _ => some (field1, field2)
  | _ => none

section Row
variable (data : Examples) (k : ℕ)

/-- The two strings of a row at their calls of `string_to_logfst`. -/
def Examples.delivered : Outcome (Str × Str) := do
  let p ← data.readRow (k + 1)
  return (p.1, p.2.reverse)

/-- A second field that is not the last is reversed once only, and of a row with one field
the first column runs past its end unless the second is asked for before it. -/
def Examples.Kept : Prop :=
  match rowFields data.text k with
  | _ :: field2 :: rest => rest = [] ∨ field2.reverse = field2
  | _ => data.order = .rightToLeft ∨ data.text.count '\n' < k

end Row

theorem rowFields_of_line {text line : Str} {k : ℕ} (h : (text.splitOn '\n')[k]? = some line) :
    rowFields text k = line.splitOn ',' := by
  rw [rowFields, getD_terminatedParts, h, Option.getD_some]

/-- A line with one comma has two fields. -/
theorem rowFields_two {text x y : Str} {k : ℕ} (hx : ',' ∉ x) (hy : ',' ∉ y)
    (h : (text.splitOn '\n')[k]? = some (x ++ ',' :: y)) : rowFields text k = [x, y] := by
  rw [rowFields_of_line h, List.splitOn_append_cons_self_of_not_mem hx,
    List.splitOn_eq_singleton hy]

theorem rowFields_beyond {text : Str} {k : ℕ} (h : (text.splitOn '\n').length ≤ k) :
    rowFields text k = [[]] := by
  rw [rowFields, getD_terminatedParts, List.getElem?_eq_none h, Option.getD_none, List.splitOn_nil]

section Short
variable {text : Str} {k : ℕ} {field1 : Str} (h : rowFields text k = [field1])
include h

/-- A row with one field has no second column, -/
theorem getValue_short_second : getValue text (k + 1) 2 = .exit := by
  cases hline : (text.splitOn '\n')[k]? with
  | none => exact getValue_beyond (List.getElem?_eq_none_iff.mp hline)
  | some line =>
    rw [rowFields_of_line hline] at h
    refine getValue_exit hline ?_
    rw [fields_eq_length, h, List.length_singleton]
    omega

/-- and the loop for its first column meets no comma. -/
theorem getValue_short_first :
    getValue text (k + 1) 1 = if text.count '\n' < k then .exit else .undefined := by
  have hlen := length_splitOn '\n' text
  cases hline : (text.splitOn '\n')[k]? with
  | none =>
    have hbeyond := List.getElem?_eq_none_iff.mp hline
    rw [getValue_beyond hbeyond, if_pos (by omega)]
  | some line =>
    have hlt : k < (text.splitOn '\n').length := (List.getElem?_eq_some_iff.mp hline).1
    rw [rowFields_of_line hline] at h
    have hno : ',' ∉ line := by
      obtain ⟨rfl, hno⟩ := eq_of_splitOn_singleton h
      exact hno
    have hfields : fields line = 1 := by rw [fields_eq_length, h, List.length_singleton]
    rw [getValue_line hline (by omega), if_pos rfl, upToComma, if_neg hno, if_neg (by omega)]
    rfl

end Short

section Long
variable {text : Str} {k : ℕ} {field1 field2 : Str} {rest : List Str}
  (h : rowFields text k = field1 :: field2 :: rest)
include h

/-- Both columns of a row with two fields are read, -/
theorem getValue_long : getValue text (k + 1) 1 = .value field1 ∧
    getValue text (k + 1) 2 = .value (if rest = [] then field2.reverse else field2) := by
  cases hline : (text.splitOn '\n')[k]? with
  | none =>
    rw [rowFields_beyond (List.getElem?_eq_none_iff.mp hline)] at h
    exact absurd h (by simp)
  | some line =>
    rw [rowFields_of_line hline] at h
    have hfields : fields line = rest.length + 2 := by rw [fields_eq_length, h]; rfl
    obtain ⟨y, rfl, hfirst, hy⟩ := eq_append_of_splitOn h
    constructor
    · rw [getValue_line hline (by omega), if_pos rfl, upToComma_eq hfirst]
      rfl
    rw [getValue_line hline (by omega), if_neg (by omega)]
    cases rest with
    | nil =>
      obtain ⟨rfl, hsecond⟩ := eq_of_splitOn_singleton hy
      have hrev : (field1 ++ ',' :: y).reverse = y.reverse ++ ',' :: field1.reverse := by simp
      rw [if_pos (by rw [hfields]; rfl), hrev, upToComma_eq (by simpa using hsecond), if_pos rfl]
      rfl
    | cons field3 rest =>
      obtain ⟨z, rfl, hsecond, -⟩ := eq_append_of_splitOn hy
      have hmore : ¬ 2 = fields (field1 ++ ',' :: (field2 ++ ',' :: z)) := by
        rw [hfields, List.length_cons]
        omega
      rw [if_neg hmore, middleColumn_two hfirst, upToComma_eq hsecond,
        if_neg (List.cons_ne_nil _ _)]
      rfl

end Long

section Row
variable (data : Examples) (k : ℕ)

/-- A row with two fields is delivered, its second field reversed if a third follows, -/
theorem delivered_long {field1 field2 : Str} {rest : List Str}
    (h : rowFields data.text k = field1 :: field2 :: rest) :
    data.delivered k = .value (field1, if rest = [] then field2 else field2.reverse) := by
  obtain ⟨hfirst, hsecond⟩ := getValue_long h
  rw [Examples.delivered, Examples.readRow]
  cases data.order <;> simp only [hfirst, hsecond, value_bind, pure_eq]
  all_goals split_ifs <;> simp

/-- and a row with one field ends the program. -/
theorem delivered_short {field1 : Str} (h : rowFields data.text k = [field1]) : data.delivered k =
    if data.order = .rightToLeft ∨ data.text.count '\n' < k then .exit else .undefined := by
  have hfirst := getValue_short_first h
  have hsecond := getValue_short_second h
  rw [Examples.delivered, Examples.readRow]
  cases data.order with
  | leftToRight =>
    by_cases hk : data.text.count '\n' < k
    · simp [hfirst, hk]
    · simp [hfirst, hk]
  | rightToLeft => simp [hsecond]

/-- A row is delivered as written exactly if it is kept. -/
theorem delivered_eq_iff :
    data.delivered k = orExit (firstTwo (rowFields data.text k)) ↔ data.Kept k := by
  rw [Examples.Kept]
  rcases hfields : rowFields data.text k with _ | ⟨field1, _ | ⟨field2, rest⟩⟩
  · exact absurd hfields (List.splitOn_ne_nil ',' _)
  · rw [delivered_short data k hfields]
    split_ifs with h <;> simp [firstTwo, orExit, h]
  · rw [delivered_long data k hfields]
    by_cases hrest : rest = []
    · simp [firstTwo, orExit, hrest]
    · simp [firstTwo, orExit, hrest]

end Row

/-! ### All rows -/

section Runs
variable (data train test : Examples)

/-- The rows that a loop reads. -/
def Examples.rows : List (Examples × ℕ) := (List.range' 0 data.count).map fun k => (data, k)

/-- The two fields that a row should deliver. -/
def asWritten (row : Examples × ℕ) : Option (Str × Str) := firstTwo (rowFields row.1.text row.2)

/-- What `main` should hand over, if all rows have two fields. -/
def written : Option (List (Str × Str) × List (Str × Str)) := do
  let dataTrain ← train.rows.mapM asWritten
  let dataTest ← test.rows.mapM asWritten
  return (dataTrain, dataTest)

/-- The loops of `main` treat one row after the other. -/
theorem readRows_reversed (i n : ℕ) : (do
    let dataString ← data.readRows (i + 1) n
    return reversed dataString) = (List.range' i n).mapM data.delivered := by
  induction n generalizing i with
  | zero => rfl
  | succ n ih =>
    rw [List.range'_succ, List.mapM_cons, ← ih, Examples.readRows, Examples.delivered]
    simp only [bind_assoc, pure_bind]
    rfl

theorem readRows_eq_mapM : (do
    let dataString ← data.readRows 1 data.count
    return reversed dataString) = data.rows.mapM fun row => row.1.delivered row.2 := by
  rw [readRows_reversed data 0, Examples.rows, List.mapM_map]
  rfl

theorem ingest_eq_mapM : ingest train test = do
    let dataTrain ← train.rows.mapM fun row => row.1.delivered row.2
    let dataTest ← test.rows.mapM fun row => row.1.delivered row.2
    return (dataTrain, dataTest) := by
  rw [ingest, ← readRows_eq_mapM, ← readRows_eq_mapM]
  simp only [bind_assoc, pure_bind]

/-- Rows of two fields are read, and the second reversal undoes the first. -/
theorem exists_readRows {pairs : List (Str × Str)} (hcount : data.count = pairs.length)
    (hrows : ∀ (k : ℕ) (p : Str × Str), pairs[k]? = some p → rowFields data.text k = [p.1, p.2]) :
    ∃ rows, data.readRows 1 data.count = .value rows ∧ reversed rows = pairs := by
  have hmapM (i : ℕ) {pairs : List (Str × Str)}
      (hrows : ∀ (k : ℕ) (p : Str × Str), pairs[k]? = some p →
        rowFields data.text (i + k) = [p.1, p.2]) :
      (List.range' i pairs.length).mapM data.delivered = .value pairs := by
    induction pairs generalizing i with
    | nil => rfl
    | cons p pairs ih =>
      have hrest := ih (i + 1) fun k q hq => by
        rw [Nat.add_right_comm]
        exact hrows (k + 1) q hq
      rw [List.length_cons, List.range'_succ, List.mapM_cons,
        delivered_long data i (hrows 0 p rfl), hrest]
      rfl
  have hread := readRows_reversed data 0 data.count
  rw [hcount, hmapM 0 fun k p hp => by rw [Nat.zero_add]; exact hrows k p hp] at hread
  rw [hcount]
  cases hvalue : data.readRows 1 pairs.length with
  | value rows =>
    rw [hvalue] at hread
    exact ⟨rows, rfl, Outcome.value.inj hread⟩
  | exit =>
    rw [hvalue] at hread
    cases hread
  | undefined =>
    rw [hvalue] at hread
    cases hread

/-- Exactly the rows with two fields return. -/
theorem returns_delivered :
    Returns (fun row : Examples × ℕ => row.1.delivered row.2) asWritten where
  value := by
    rintro ⟨data, k⟩ p h
    rcases hfields : rowFields data.text k with _ | ⟨field1, _ | ⟨field2, rest⟩⟩
    · exact absurd hfields (List.splitOn_ne_nil ',' _)
    · rw [asWritten, hfields] at h
      exact absurd h (by simp [firstTwo])
    · exact ⟨_, delivered_long data k hfields⟩
  stops := by
    rintro ⟨data, k⟩ h
    rcases hfields : rowFields data.text k with _ | ⟨field1, _ | ⟨field2, rest⟩⟩
    · exact absurd hfields (List.splitOn_ne_nil ',' _)
    · rw [delivered_short data k hfields]
      split_ifs <;> rfl
    · rw [asWritten, hfields] at h
      exact absurd h (by simp [firstTwo])

/-- `main` hands all rows over as written, or leaves at the first that has no two fields. -/
theorem ingest_eq_iff : ingest train test = orExit (written train test) ↔
    match (train.rows ++ test.rows).find? (fun row => (asWritten row).isNone) with
    | none => ∀ row ∈ train.rows ++ test.rows, row.1.Kept row.2
    | some row => row.1.Kept row.2 := by
  have hkept (row : Examples × ℕ) : row.1.delivered row.2 = orExit (asWritten row) ↔
      row.1.Kept row.2 :=
    delivered_eq_iff row.1 row.2
  rw [ingest_eq_mapM, written, returns_delivered.both_iff]
  cases (train.rows ++ test.rows).find? (fun row => (asWritten row).isNone) with
  | none => exact forall₂_congr fun row _ => hkept row
  | some row => exact hkept row

end Runs

/-- A row reaches `string_to_logfst` as it is written, or leaves the program if it has no two
fields, exactly if it is kept; a run of `main` does so exactly if the rows up to the first
without two fields allow it. -/
theorem rows_as_written_iff (train test : Examples) :
    (∀ (data : Examples) (k : ℕ), data.delivered k = orExit (asWritten (data, k)) ↔ data.Kept k) ∧
    (ingest train test = orExit (written train test) ↔
    match (train.rows ++ test.rows).find? (fun row => (asWritten row).isNone) with
    | none => ∀ row ∈ train.rows ++ test.rows, row.1.Kept row.2
    | some row => row.1.Kept row.2) :=
  ⟨delivered_eq_iff, ingest_eq_iff train test⟩

/-- Of the row `a,bc,d` the second field is delivered as `cb`. -/
theorem not_rows_as_written : ¬ ∀ train test : Examples, ingest train test = orExit
    (written train test) := by
  intro h
  have hkept := (ingest_eq_iff ⟨"a,bc,d\n".toList, 1, .rightToLeft⟩ ⟨[], 0, .rightToLeft⟩).mp
    (h _ _)
  have hrow : rowFields "a,bc,d\n".toList 0 = [['a'], ['b', 'c'], ['d']] := by decide
  have hfind : ((Examples.rows ⟨"a,bc,d\n".toList, 1, .rightToLeft⟩ ++
    Examples.rows ⟨[], 0, .rightToLeft⟩).find?
    fun row => (asWritten row).isNone) = none := by decide
  rw [hfind] at hkept
  have hlong := hkept (⟨"a,bc,d\n".toList, 1, .rightToLeft⟩, 0) (by simp [Examples.rows])
  rw [Examples.Kept, hrow] at hlong
  exact absurd hlong (by decide)

end StochasticEdit.Evaluation.Csv
