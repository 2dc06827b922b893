import StochasticEdit.Features.Lines
import StochasticEdit.Text.Numbering

/-! The feature extraction (`featurize.py`). Every line but those of ABS arcs gives rise
to fourteen features, and a feature gets its number when it is first seen. What raises an
exception is `none`. -/

namespace StochasticEdit.Features

open Wfst Generator Text

/-! ### The program -/

/-- The strings in `feats`, from the consumed symbol, the written one and the windows. -/
def templates (s t c0 c1 c2 : Str) : List Str :=
  [[s, t, c0, c1, c2],
    [s, t, ['9'], c1, c2],
    [s, t, c0, ['9'], c2],
    [s, t, c0, c1, ['9']],
    [s, t, ['9'], ['9'], c2],
    [s, t, c0, ['9'], ['9']],
    [s, t, ['9'], c1, ['9']],
    [s, t, ['9'], ['9'], ['9']],
    [['9'], t, c0, c1, ['9']],
    [['9'], t, c0, c1, c2],
    [s, ['9'], c0, c1, c2],
    [s, ['9'], ['9'], c1, c2],
    [s, ['9'], c0, ['9'], c2],
    [s, ['9'], ['9'], ['9'], c2]].map fun cont => ['0'].intercalate cont

/-- `features_seen` and `feature_counter`. -/
structure Seen where
  featuresSeen : List (Str × Str)
  featureCounter : ℕ

/-- The loop over `feats`, which fills `feature_vector`. -/
def numberFeatures : Seen → List Str → Seen × List Str
  | seen, [] => (seen, [])
  | seen, feature :: feats =>
    match seen.featuresSeen.lookup feature with
    | some id =>
      let (seen, featureVector) := numberFeatures seen feats
      (seen, id :: featureVector)
    | none =>
      let id := str seen.featureCounter
      let (seen, featureVector) :=
        numberFeatures ⟨(feature, id) :: seen.featuresSeen, seen.featureCounter + 1⟩ feats
      (seen, id :: featureVector)

/-- `feats` of a line. Without INS the first character of the right window is consumed. -/
def lineFeatures (rest act : Str) : Option (List Str) := do
  let c1 ← (contexts rest)[1]?
  let (s, c1) ←
    if act = "INS".toList then some (epsilon.toList, c1)
    else c1.head?.map fun s => ([s], c1.tail)
  let t ← outputSymbol rest
  let c0 ← (contexts rest)[0]?
  let c2 ← (contexts rest)[2]?
  return templates s t c0 c1 c2

/-- The body of the loop over the lines, with what it prints. -/
def featurizeLine (seen : Seen) (line : Str) : Option (Seen × Str) := do
  let (arcId, rest) ← arcIdAndRest line
  let act ← action rest
  let (seen, featureVector) ←
    if act = "ABS".toList then some (seen, [['0']])
    else (lineFeatures rest act).map (numberFeatures seen)
  return (seen, arcId ++ '\t' :: [','].intercalate featureVector)

def featurizeLoop : Seen → List Str → Option (List Str)
  | _, [] => some []
  | seen, line :: lines => do
    let (seen, printed) ← featurizeLine seen line
    let rest ← featurizeLoop seen lines
    return printed :: rest

/-- What the program prints for a file. -/
def featurize (text : Str) : Option Str :=
  (featurizeLoop ⟨[], 1⟩ (fileLines text)).map (terminated '\n')

/-! ### Numbering -/

/-- The dictionary has the features in `order`, numbered from 1 on. -/
structure Numbered (seen : Seen) (order : List Str) : Prop where
  counter : seen.featureCounter = order.length + 1
  lookup : ∀ f, seen.featuresSeen.lookup f = if f ∈ order then some (str (number order f)) else none

theorem numbered_init : Numbered ⟨[], 1⟩ [] := ⟨rfl, fun _ => rfl⟩

/-- A feature that is not in the dictionary gets the next number. -/
theorem Numbered.insert {seen : Seen} {order : List Str} (h : Numbered seen order) {feature : Str}
    (hno : feature ∉ order) : Numbered
      ⟨(feature, str seen.featureCounter) :: seen.featuresSeen, seen.featureCounter + 1⟩
        (order ++ [feature]) := by
  constructor
  · rw [List.length_append, h.counter]
    rfl
  · intro f
    rw [List.lookup_cons]
    by_cases hf : f = feature
    · rw [hf, beq_self_eq_true, if_pos (by simp), number_concat hno, h.counter]
    · have hb : (f == feature) = false := beq_eq_false_iff_ne.mpr hf
      rw [hb, h.lookup]
      by_cases hmem : f ∈ order
      · rw [if_pos hmem, if_pos (List.mem_append_left _ hmem), number_append_of_mem hmem]
      · rw [if_neg hmem, if_neg (by simp [hmem, hf])]

/-- The loop writes the numbers that the features have at its end. -/
theorem numberFeatures_eq {seen : Seen} {order : List Str} (h : Numbered seen order)
    (feats : List Str) :
    Numbered (numberFeatures seen feats).1 (firstSeen order feats) ∧ (numberFeatures seen feats).2 =
      feats.map fun f => str (number (firstSeen order feats) f) := by
  induction feats generalizing seen order with
  | nil => exact ⟨h, rfl⟩
  | cons feature feats ih =>
    have hlookup := h.lookup feature
    by_cases hmem : feature ∈ order
    · rw [if_pos hmem] at hlookup
      obtain ⟨hseen, hids⟩ := ih h
      rw [numberFeatures, hlookup, firstSeen, if_pos hmem, List.map_cons,
        number_firstSeen_of_mem hmem]
      exact ⟨hseen, congrArg _ hids⟩
    · rw [if_neg hmem] at hlookup
      obtain ⟨hseen, hids⟩ := ih (h.insert hmem)
      have hlast : feature ∈ order ++ [feature] := by simp
      rw [numberFeatures, hlookup, firstSeen, if_neg hmem, List.map_cons,
        number_firstSeen_of_mem hlast, number_concat hmem, h.counter]
      exact ⟨h.counter ▸ hseen, congrArg _ (h.counter ▸ hids)⟩

/-! ### Rows -/

/-- The features of a record with source `c`. -/
def features (r : Record) (c : Context) : List Str :=
  if r.action = .INS then
    templates epsilon.toList r.olabel.toList (chars c.ulc) (chars c.urc) (chars c.llc)
  else templates ((chars c.urc).take 1) r.olabel.toList (chars c.ulc) ((chars c.urc).drop 1)
    (chars c.llc)

/-- The features that fire on an arc. -/
def fired (r : Record) : List Str := if r.action = .ABS then [] else r.source.elim [] (features r)

/-- The feature ids of an arc; feature 0 stands for none. -/
def rowIds (order : List Str) (r : Record) : List ℕ :=
  if r.action = .ABS then [0] else (fired r).map (number order)

/-- A line of the output. -/
def rowText (e : ℕ) (ids : List ℕ) : Str := str e ++ '\t' :: [','].intercalate (ids.map str)

/-- A record whose line the program can take apart. -/
structure Readable (r : Record) : Prop where
  comma : ',' ∉ recordText r
  tab : ∀ f ∈ recordFields r, '\t' ∉ f
  newline : '\n' ∉ recordText r
  hyphen : ∀ w ∈ contextParts r.source, '-' ∉ w
  source : ∃ c, r.source = some c ∧ (r.action ≠ .INS → r.action ≠ .ABS → chars c.urc ≠ [])

section Lines
variable {r : Record}

theorem action_abs_iff {act : Action} : actionText act = "ABS".toList ↔ act = .ABS :=
  ⟨fun h => actionText_inj (b := .ABS) h, fun h => h ▸ rfl⟩

theorem action_ins_iff {act : Action} : actionText act = "INS".toList ↔ act = .INS :=
  ⟨fun h => actionText_inj (b := .INS) h, fun h => h ▸ rfl⟩

/-- The program finds the features of the record. -/
theorem Readable.lineFeatures (h : Readable r) (hact : r.action ≠ .ABS) :
    lineFeatures (recordText r) (actionText r.action) = some (fired r) := by
  have hsplit := splitOn_recordText_iff.mpr h.tab
  obtain ⟨c, hc, hurc⟩ := h.source
  have hcontexts := (contexts_eq_iff hsplit).mpr h.hyphen
  rw [hc, contextParts] at hcontexts
  have hfired : fired r = features r c := by rw [fired, if_neg hact, hc, Option.elim_some]
  rw [hfired, features]
  simp only [Features.lineFeatures, hcontexts, outputSymbol_eq hsplit, action_ins_iff]
  by_cases hins : r.action = .INS
  · simp [hins]
  · obtain ⟨x, xs, hx⟩ := List.exists_cons_of_ne_nil (hurc hins hact)
    simp [hins, hx]

/-- One line: its features are numbered and its row is printed with the numbers that they
have from then on. -/
theorem Readable.featurizeLine (h : Readable r) {seen : Seen} {order : List Str}
    (hseen : Numbered seen order) (e : ℕ) : ∃ seen', Numbered seen' (firstSeen order (fired r)) ∧
      featurizeLine seen (lineText (toString e, r)) =
        some (seen', rowText e (rowIds (firstSeen order (fired r)) r)) := by
  have hsplit := splitOn_recordText_iff.mpr h.tab
  have hline : arcIdAndRest (lineText (toString e, r)) = some (str e, recordText r) :=
    (arcIdAndRest_eq_iff (notMem_str (by decide) e)).mpr h.comma
  by_cases hact : r.action = .ABS
  · refine ⟨seen, ?_, ?_⟩
    · rwa [fired, if_pos hact, firstSeen]
    · simp only [Features.featurizeLine, hline, action_eq hsplit, action_abs_iff, hact,
        Option.bind_eq_bind, Option.bind_some, if_true, rowIds]
      rfl
  · obtain ⟨hnumbered, hids⟩ := numberFeatures_eq hseen (fired r)
    refine ⟨_, hnumbered, ?_⟩
    simp only [Features.featurizeLine, hline, action_eq hsplit, action_abs_iff, hact,
      Option.bind_eq_bind,
      Option.bind_some, if_false, h.lineFeatures hact, Option.map_some, hids, rowIds, rowText,
        List.map_map]
    rfl

/-- A row does not change when more features are seen. -/
theorem rowIds_firstSeen {order : List Str} (h : ∀ f ∈ fired r, f ∈ order) (l : List Str) :
    rowIds (firstSeen order l) r = rowIds order r := by
  unfold rowIds
  split_ifs
  · rfl
  · exact List.map_congr_left fun f hf => number_firstSeen_of_mem (h f hf)

end Lines

/-- The whole loop prints every row with the final numbers. -/
theorem featurizeLoop_eq (lines : List (ℕ × Record)) (h : ∀ l ∈ lines, Readable l.2) {seen : Seen}
    {order : List Str} (hseen : Numbered seen order) :
    featurizeLoop seen (lines.map fun l => lineText (toString l.1, l.2)) =
      some (lines.map fun l => rowText l.1
        (rowIds (firstSeen order (lines.flatMap fun l => fired l.2)) l.2)) := by
  induction lines generalizing seen order with
  | nil => rfl
  | cons l lines ih =>
    obtain ⟨seen', hseen', hline⟩ := (h l (by simp)).featurizeLine hseen l.1
    have hrest := ih (fun l hl => h l (by simp [hl])) hseen'
    have hmem : ∀ f ∈ fired l.2, f ∈ firstSeen order (fired l.2) :=
      fun f hf => mem_firstSeen.mpr (.inr hf)
    rw [List.flatMap_cons, firstSeen_append, List.map_cons, List.map_cons, rowIds_firstSeen hmem,
      featurizeLoop, hline, Option.bind_eq_bind, Option.bind_some]
    simp only [hrest]
    rfl

end StochasticEdit.Features
