import StochasticEdit.Features.Reader

/-! The rows of the feature table belong to the arcs of the transducer: every arc has an
entry in `arc_map` and so a line in `arc_to_action`, `featurize.py` prints a row for every
line, and the reader keeps every row. -/

namespace StochasticEdit.Features

open Wfst Generator Trainer Text

/-- The characters that separate the parts of the files. -/
def separators : List Char := [',', '-', '\t', '\n']

section Arcs
variable {W : Type*} [One W] {ord : HashOrder} {args : Args} {M : Machine W}

/-- The entry of an arc is the action of the call that added it. -/
theorem arcMap_entries (h : contextualEdit W ord args = some M) (hV : args.Unreserved) {start : ℕ}
    {calls : List ArcCall} (hcalls : arcCalls ord args = some (start, calls)) :
    (∀ e < M.fst.numArcs, ∃ call ∈ calls, M.fst.arc? e = some (call.src, call.toArc)) ∧
      ∀ call ∈ calls, M.arcMap.lookup call.key = some call.action := by
  have hsz := completes_of_contextualEdit h hV
  constructor
  · intro e he
    obtain ⟨q, a, ha⟩ := VectorFst.exists_arc? he
    obtain ⟨c, m, hc, rfl, hm, rfl⟩ := exists_move_of_arc? h ha
    exact ⟨_, moveCall_mem_arcCalls hcalls hc hm, ha⟩
  · intro call hcall
    obtain ⟨c, m, hc, hm, rfl⟩ := src_pos_of_mem_arcCalls hcalls hcall
    exact arcMap_lookup h hV hsz hc hm

theorem chars_ne_nil {w : List Sym} (hw : w ≠ []) (h : ∀ s ∈ w, s.toList ≠ []) : chars w ≠ [] := by
  obtain ⟨s, t, rfl⟩ := List.exists_cons_of_ne_nil hw
  unfold chars
  rw [List.flatMap_cons, ne_eq, List.append_eq_nil_iff]
  exact fun hnil => h s (by simp) hnil.1

/-- A line with consumption or the end of the string has a right window. -/
theorem urc_ne_nil {c : Context} {m : Move} {t : Option Context} (hm : (m, t) ∈ moves args c)
    (hurc : 1 ≤ args.sizes.urcMax) (hins : m.action ≠ .INS) (habs : m.action ≠ .ABS) :
    c.urc ≠ [] := by
  cases m with
  | final =>
    rintro hnil
    have hlength := (mem_moves_final.mp hm).2.1
    rw [hnil, List.length_nil] at hlength
    omega
  | ins v => exact absurd rfl hins
  | sub v =>
    obtain ⟨-, -, u, l, hu, -⟩ := mem_moves_sub.mp hm
    rw [hu]
    exact List.cons_ne_nil u l
  | del =>
    obtain ⟨-, u, l, hu, -⟩ := mem_moves_del.mp hm
    rw [hu]
    exact List.cons_ne_nil u l
  | abs v => exact absurd rfl habs

variable (hV1 : CharSymbols (· ∉ separators) args.V1) (hV2 : CharSymbols (· ∉ separators) args.V2)

include hV1 hV2

theorem readable_of_record? (h : contextualEdit W ord args = some M) (hurc : 1 ≤ args.sizes.urcMax)
    {e : ℕ} {r : Record} (hr : M.record? args e = some r) : Readable r := by
  have hV : args.Unreserved := ⟨hV1.unreserved, hV2.unreserved⟩
  have hsymbols {x : Char} (hx : x ∈ separators) :
      (∀ v ∈ args.V1, x ∉ v.toList) ∧ ∀ v ∈ args.V2, x ∉ v.toList :=
    ⟨hV1.notMem (not_not.mpr hx), hV2.notMem (not_not.mpr hx)⟩
  have hfields {x : Char} (hx : x ∈ separators) (hformat : x ∉ formatChars) :
      ∀ f ∈ recordFields r, x ∉ f :=
    notMem_recordFields (hsymbols hx).1 h (hsymbols hx).2 hformat hr
  have hjoined {x : Char} (hx : x ∈ separators) (hformat : x ∉ formatChars) (htab : x ≠ '\t') :
      x ∉ recordText r := by
    rw [recordText, mem_intercalate_iff htab]
    rintro ⟨f, hf, hmem⟩
    exact hfields hx hformat f hf hmem
  obtain ⟨c, m, t, hc, hm, -, rfl⟩ := exists_move_of_record? h hV hr
  refine ⟨hjoined (by decide) (by decide) (by decide), hfields (by decide) (by decide),
    hjoined (by decide) (by decide) (by decide), ?_, c, rfl, fun hins habs => ?_⟩
  · have hhyphen := hsymbols (x := '-') (by decide)
    exact notMem_contextParts hhyphen.1 hc (by decide) (.inr hhyphen.2)
  · refine chars_ne_nil (urc_ne_nil hm hurc hins habs) fun s hs => ?_
    rcases hc.urc_mem s hs with hs | rfl
    · obtain ⟨x, hx, -⟩ := hV1.single s hs
      rw [hx]
      exact List.cons_ne_nil x []
    · decide

end Arcs

/-! ### The table -/

section Table
variable {n : ℕ} {r : ℕ → Record}

/-- The features of the first `n` records in the order in which they are first seen. -/
def featureOrder (r : ℕ → Record) (n : ℕ) : List Str :=
  firstSeen [] ((List.range n).flatMap fun e => fired (r e))

/-- The table that `featurize.py` prints. -/
def tableText (r : ℕ → Record) (n : ℕ) : Str :=
  terminated '\n' ((List.range n).map fun e => rowText e (rowIds (featureOrder r n) (r e)))

theorem rowIds_ne_nil (order : List Str) (r : Record) (h : ∃ c, r.source = some c) :
    rowIds order r ≠ [] := by
  obtain ⟨c, hc⟩ := h
  unfold rowIds
  split_ifs with habs
  · exact List.cons_ne_nil 0 []
  · rw [fired, if_neg habs, hc, Option.elim_some, features]
    split_ifs <;> exact List.cons_ne_nil _ _

variable (h : ∀ e < n, Readable (r e))

include h

/-- One row for every line, with the numbers that the features have in the end. -/
theorem featurize_eq : featurize (terminated '\n' (arcLines r n)) = some (tableText r n) := by
  have hloop := featurizeLoop_eq ((List.range n).map fun e => (e, r e)) (fun l hl => by
    obtain ⟨e, he, rfl⟩ := List.mem_map.mp hl
    exact h e (List.mem_range.mp he)) numbered_init
  rw [List.map_map, List.flatMap_map, List.map_map] at hloop
  rw [featurize, fileLines_arcLines fun e he => (h e he).newline]
  exact congrArg (Option.map (terminated '\n')) hloop

/-- The reader gets the rows. -/
theorem exists_reader : ∃ reader, featureReader (tableText r n) = some reader ∧
    reader.Holds ((List.range n).map fun e => rowIds (featureOrder r n) (r e)) := by
  obtain ⟨reader, hread, hholds⟩ := exists_featureReader
    ((List.range n).map fun e => (e, rowIds (featureOrder r n) (r e))) fun l hl => by
      obtain ⟨e, he, rfl⟩ := List.mem_map.mp hl
      obtain ⟨c, hc, -⟩ := (h e (List.mem_range.mp he)).source
      exact rowIds_ne_nil _ _ ⟨c, hc⟩
  rw [List.map_map] at hread hholds
  exact ⟨reader, hread, hholds⟩

end Table

/-- The row of an arc. -/
theorem FeatureReader.Holds.getElem? {reader : FeatureReader} {n : ℕ} {row : ℕ → List ℕ}
    (h : reader.Holds ((List.range n).map row)) {e : ℕ} (he : e < n) :
    reader.features[e]? = some ((row e).map fun i : ℕ => (i : ℤ)) := by
  rw [h.features, List.map_map, List.getElem?_map, List.getElem?_range he]
  rfl

theorem FeatureReader.Holds.bound {reader : FeatureReader} {rows : List (List ℕ)}
    (h : reader.Holds rows) :
    ∀ row ∈ reader.features, ∀ i ∈ row, 0 ≤ i ∧ i < reader.numberFeatures := by
  intro row hrow i hi
  rw [h.features] at hrow
  obtain ⟨ids, hids, rfl⟩ := List.mem_map.mp hrow
  obtain ⟨k, hk, rfl⟩ := List.mem_map.mp hi
  have hle := h.le_max ids hids k hk
  unfold FeatureReader.numberFeatures
  omega

/-- Rows with bounded ids are indices into a vector of weights. -/
theorem FeatureReader.Holds.rows {reader : FeatureReader} {n : ℕ} {row : ℕ → List ℕ}
    (h : reader.Holds ((List.range n).map row)) :
    Rows reader.features n reader.numberFeatures.toNat := by
  intro e he
  refine ⟨_, h.getElem? he, fun i hi => ?_⟩
  obtain ⟨hpos, hlt⟩ := h.bound _ (List.mem_of_getElem? (h.getElem? he)) i hi
  omega

/-! ### The pipeline -/

/-- The file of a transducer is written, made into a table and read. -/
theorem exists_pipeline {W : Type*} [One W] {ord : HashOrder} {args : Args} {M : Machine W}
    (h : contextualEdit W ord args = some M) (hurc : 1 ≤ args.sizes.urcMax)
    (hV1 : CharSymbols (· ∉ separators) args.V1) (hV2 : CharSymbols (· ∉ separators) args.V2) :
    ∃ r text reader, (∀ e < M.fst.numArcs, M.record? args e = some (r e)) ∧
      arcToActionText args M = some text ∧
      featurize text = some (tableText r M.fst.numArcs) ∧
      featureReader (tableText r M.fst.numArcs) = some reader ∧
      reader.Holds ((List.range M.fst.numArcs).map fun e =>
        rowIds (featureOrder r M.fst.numArcs) (r e)) := by
  obtain ⟨r, hr, hlines⟩ := exists_arcToAction h
  have hreadable : ∀ e < M.fst.numArcs, Readable (r e) := fun e he =>
    readable_of_record? hV1 hV2 h hurc (hr e he)
  obtain ⟨reader, hread, hholds⟩ := exists_reader hreadable
  exact ⟨r, _, reader, hr, arcToActionText_eq hlines, featurize_eq hreadable, hread, hholds⟩

/-- Every arc was added by a call, and every call has its action under its key. -/
def ArcMapComplete {W : Type*} [One W] (ord : HashOrder) (args : Args) (M : Machine W) : Prop :=
  ∃ start calls, arcCalls ord args = some (start, calls) ∧
    (∀ e < M.fst.numArcs, ∃ call ∈ calls, M.fst.arc? e = some (call.src, call.toArc)) ∧
    ∀ call ∈ calls, M.arcMap.lookup call.key = some call.action

/-- The file is written, made into a table and read; the rows belong to the arcs, and
their ids are indices into the weights. -/
structure RowsLineUp {W : Type*} (args : Args) (M : Machine W) (r : ℕ → Record) (text : Str)
    (reader : FeatureReader) : Prop where
  record : ∀ e < M.fst.numArcs, M.record? args e = some (r e)
  written : arcToActionText args M = some text
  printed : featurize text = some (tableText r M.fst.numArcs)
  read : featureReader (tableText r M.fst.numArcs) = some reader
  length : reader.features.length = M.fst.numArcs
  row : ∀ e < M.fst.numArcs, reader.features[e]? =
    some ((rowIds (featureOrder r M.fst.numArcs) (r e)).map fun i : ℕ => (i : ℤ))
  bound : ∀ row ∈ reader.features, ∀ i ∈ row, 0 ≤ i ∧ i < reader.numberFeatures
  scores : ∀ weights : ColumnVector reader.numberFeatures.toNat, ∀ e < M.fst.numArcs,
    (multFeaturesByWeights reader.features weights e).isSome
  member_scores : ∀ t : TrainerLocal reader.numberFeatures.toNat, t.features = reader.features →
    t.weights.length = reader.numberFeatures.toNat → ∀ e < M.fst.numArcs, (t.multFeatures e).isSome

theorem feature_rows {W : Type*} [One W] {ord : HashOrder} {args : Args} {M : Machine W}
    (h : contextualEdit W ord args = some M) (hurc : 1 ≤ args.sizes.urcMax)
    (hV1 : CharAlphabet (· ∉ separators) args.V1) (hV2 : CharAlphabet (· ∉ separators) args.V2) :
    ArcMapComplete ord args M ∧ ∃ r text reader, RowsLineUp args M r text reader := by
  have hV : args.Unreserved := ⟨hV1.unreserved, hV2.unreserved⟩
  obtain ⟨start, calls, hcalls, -⟩ := exists_arcCalls h
  obtain ⟨r, text, reader, hr, hwritten, hprinted, hread, hholds⟩ :=
    exists_pipeline h hurc hV1.toCharSymbols hV2.toCharSymbols
  have hrows := hholds.rows
  refine ⟨⟨start, calls, hcalls, arcMap_entries h hV hcalls⟩, r, text, reader, hr, hwritten,
    hprinted, hread, ?_,
    fun e he => hholds.getElem? he, hholds.bound, fun weights e he =>
      ?_, fun t ht hlength e he => ?_⟩
  · rw [hholds.features, List.length_map, List.length_map, List.length_range]
  · rw [multFeaturesByWeights_eq hrows weights he]
    rfl
  · have hrows' : Rows t.features M.fst.numArcs t.weights.length := by rwa [ht, hlength]
    rw [multFeatures_eq, multFeaturesByWeights_eq hrows' _ he]
    rfl

theorem charAlphabet_a {ok : Char → Prop} (h : ok 'a') : CharAlphabet ok ["a"] :=
  ⟨⟨alphabet_a.sharp, fun _ hv => ⟨'a', List.mem_singleton.mp hv ▸ rfl, h⟩⟩, alphabet_a.nodup⟩

theorem charAlphabet_b {ok : Char → Prop} (h : ok 'b') : CharAlphabet ok ["b"] :=
  ⟨⟨alphabet_b.sharp, fun _ hv => ⟨'b', List.mem_singleton.mp hv ▸ rfl, h⟩⟩, alphabet_b.nodup⟩

theorem feature_rows_one_one_one : ∃ M, contextualEdit ℚ insertionOrder
    (smallArgs ⟨1, 1, 1⟩) = some M ∧
    ArcMapComplete insertionOrder (smallArgs ⟨1, 1, 1⟩) M ∧
    ∃ r text reader, RowsLineUp (smallArgs ⟨1, 1, 1⟩) M r text reader := by
  obtain ⟨M, hM⟩ := exists_contextualEdit ℚ insertionOrder
    (show Completes (smallArgs ⟨1, 1, 1⟩) from .inl le_rfl)
  exact ⟨M, hM, feature_rows hM le_rfl (charAlphabet_a (by decide)) (charAlphabet_b (by decide))⟩

end StochasticEdit.Features
