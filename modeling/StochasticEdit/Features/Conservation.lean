import StochasticEdit.Features.Backoff
import StochasticEdit.Generator.Mass
import StochasticEdit.Trainer.Conservation

/-! Feature 0 of the contextual edit machine. It stands for the ABS arcs, which are alone in
their groups, so it tells no two arcs of a group apart and the data do not move its weight. -/

namespace StochasticEdit.Features

open Wfst Generator Trainer Text

/-- The table of a transducer, from `arc_to_action` by way of `featurize.py` to the reader. -/
def tableReader {W : Type*} (args : Args) (M : Machine W) : Option FeatureReader := do
  let text ← arcToActionText args M
  let table ← featurize text
  featureReader table

/-- Every ABS arc is the only arc of its group; feature 0 fires on it once, and on no arc
with another action. -/
structure AbsAlone {W : Type*} (args : Args) (M : Machine W) (reader : FeatureReader) : Prop where
  alone : ∀ e q a r, M.fst.arc? e = some (q, a) → M.record? args e = some r → r.action = .ABS →
    M.fst.group q a.ilabel = {e}
  fires : ∀ e r, M.record? args e = some r →
    (reader.features[e]?.getD []).count 0 = if r.action = .ABS then 1 else 0

section Arcs
variable {W : Type*} [One W] {ord : HashOrder} {args : Args} {M : Machine W}

/-- The arcs with an input label are those of ABS. -/
theorem action_abs_iff_ilabel (h : contextualEdit W ord args = some M) (hV : args.Unreserved)
    {e q : ℕ} {a : Arc W} {r : Record} (ha : M.fst.arc? e = some (q, a))
    (hr : M.record? args e = some r) :
    r.action = .ABS ↔ a.ilabel ≠ 0 := by
  obtain ⟨c, m, t, -, hm, harc, rfl⟩ := exists_move_of_record? h hV hr
  obtain ⟨rfl, rfl⟩ := Prod.mk.inj (Option.some.inj (ha.symm.trans harc))
  have hlabel : (moveArc W ord args c (m, t)).ilabel ≠ 0 ↔ ∃ v, m = .abs v :=
    ilabel_ne_zero_iff hV hm
  rw [hlabel]
  cases m with
  | abs v => exact iff_of_true rfl ⟨v, rfl⟩
  | _ => exact iff_of_false (by simp [Move.action]) (by simp)

/-- Two ABS arcs of a state have different labels. -/
theorem group_abs (h : contextualEdit W ord args = some M) (hV : args.Valid) {e q : ℕ} {a : Arc W}
    {r : Record} (ha : M.fst.arc? e = some (q, a)) (hr : M.record? args e = some r)
    (hact : r.action = .ABS) :
    M.fst.group q a.ilabel = {e} := by
  have hsz := completes_of_contextualEdit h hV.unreserved
  have hlabel := (action_abs_iff_ilabel h hV.unreserved ha hr).mp hact
  obtain ⟨c, ⟨m, t⟩, hc, rfl, hm, rfl⟩ := exists_move_of_arc? h ha
  obtain ⟨v, rfl⟩ := (ilabel_ne_zero_iff hV.unreserved hm).mp hlabel
  ext e'
  rw [Set.mem_singleton_iff]
  constructor
  · rintro ⟨b, hb, hbl⟩
    obtain ⟨c', ⟨m', t'⟩, hc', hq, hm', rfl⟩ := exists_move_of_arc? h hb
    obtain rfl := stateNum_inj ord hc hc' hq
    have hlabel' : m'.ilabel args = idIn args v := hbl
    obtain ⟨v', rfl⟩ := (ilabel_ne_zero_iff hV.unreserved hm').mp (hlabel'.trans_ne hlabel)
    obtain rfl := idIn_inj hV.unreserved (mem_moves_abs.mp hm').2.1
      (mem_moves_abs.mp hm).2.1 hlabel'
    obtain rfl := target_unique hm hm'
    exact arc_unique h hV hsz hc hm hb ha
  · rintro rfl
    exact ⟨_, ha, rfl⟩

theorem count_zero_rowIds (order : List Str) (r : Record) :
    (rowIds order r).count 0 = if r.action = .ABS then 1 else 0 := by
  by_cases hact : r.action = .ABS
  · rw [if_pos hact, rowIds, if_pos hact]
    rfl
  · rw [if_neg hact, List.count_eq_zero]
    exact fun hmem => hact ((zero_mem_rowIds order r).mp hmem)

/-- The table that is read has feature 0 on the ABS arcs. -/
theorem exists_tableReader (h : contextualEdit W ord args = some M) (hurc : 1 ≤ args.sizes.urcMax)
    (hV1 : CharAlphabet (· ∉ separators) args.V1) (hV2 : CharAlphabet (· ∉ separators) args.V2) :
    ∃ reader, tableReader args M = some reader ∧ AbsAlone args M reader ∧
      Rows reader.features M.fst.numArcs reader.numberFeatures.toNat := by
  have hV : args.Valid := valid_of_charAlphabet hV1 hV2
  obtain ⟨r, text, reader, hr, hwritten, hprinted, hread, hholds⟩ :=
    exists_pipeline h hurc hV1.toCharSymbols hV2.toCharSymbols
  refine ⟨reader, ?_, ⟨fun e q a s => group_abs h hV, fun e s hs => ?_⟩, hholds.rows⟩
  · rw [tableReader, hwritten, Option.bind_eq_bind, Option.bind_some, hprinted]
    exact hread
  · obtain ⟨⟨q, a⟩, ha, -⟩ := Option.bind_eq_some_iff.mp hs
    have he : e < M.fst.numArcs := VectorFst.lt_numArcs_of_arc? ha
    obtain rfl : r e = s := Option.some.inj ((hr e he).symm.trans hs)
    rw [hholds.getElem? he, Option.getD_some, ← count_zero_rowIds (featureOrder r M.fst.numArcs)]
    exact List.count_map_of_injective _ _ Nat.cast_injective 0

/-- So feature 0 does not tell the arcs of any group apart. -/
theorem AbsAlone.even {n : ℕ} {reader : FeatureReader} (habs : AbsAlone args M reader)
    (h : contextualEdit W ord args = some M) (hV : args.Unreserved) {k : Fin n} (hk : k.val = 0) :
    EvenOnGroups M.fst reader.features k := by
  rintro q l e ⟨a, ha, rfl⟩ e' ⟨a', ha', hlabel⟩
  have hcount {e : ℕ} {b : Arc W} (hb : M.fst.arc? e = some (q, b)) :
      firings reader.features n e k = if b.ilabel ≠ 0 then 1 else 0 := by
    have he : e < M.fst.numArcs := VectorFst.lt_numArcs_of_arc? hb
    obtain ⟨r, hr⟩ := Option.isSome_iff_exists.mp (record?_isSome h he)
    have hfires := habs.fires e r hr
    simp only [action_abs_iff_ilabel h hV hb hr] at hfires
    rw [firings, hk]
    exact hfires
  rw [hcount ha, hcount ha', hlabel]

end Arcs

/-! ### Conservation -/

/-- Expected counts have the mass of the observed ones in every group of a locally normalised
machine. Of the gradient at a feature that is even on the groups only the penalty is left, as
at feature 0 of the contextual edit machine. -/
theorem mass_conserved {n : ℕ} {t : TrainerLocal n} (h : Counting t.fst t) :
    (t.fst.Normalised t.fst.arcWeight → ∃ t', t.recount logsum = some t' ∧
      ∀ q l, groupMass t.fst t'.expectedCounts q l = groupMass t.fst t.observedCounts q l) ∧
    ((∀ x ∈ t.observedCounts, x ≠ ⊤) →
      (Rows t.features t.fst.numArcs n → ∀ k, EvenOnGroups t.fst t.features k → t.PenaltyOnly k) ∧
      ∀ (W : Type) [One W] (ord : HashOrder) (args : Args) (M : Machine W),
        contextualEdit W ord args = some M → 1 ≤ args.sizes.urcMax →
        CharAlphabet (· ∉ separators) args.V1 → CharAlphabet (· ∉ separators) args.V2 →
        ∃ reader, tableReader args M = some reader ∧ AbsAlone args M reader ∧
          (t.fst.shape = M.fst.shape → t.features = reader.features →
            n = reader.numberFeatures.toNat →
            ∀ k : Fin n, k.val = 0 → t.PenaltyOnly k)) := by
  refine ⟨h.groupMass_recount, fun hfinite => ⟨fun hrows k => h.penaltyOnly hrows hfinite, ?_⟩⟩
  intro W _ ord args M hM hurc hV1 hV2
  obtain ⟨reader, hread, habs, hrows⟩ := exists_tableReader hM hurc hV1 hV2
  refine ⟨reader, hread, habs, fun hshape hfeatures hn k hk => ?_⟩
  have hV : args.Unreserved := ⟨hV1.unreserved, hV2.unreserved⟩
  have hnum : t.fst.numArcs = M.fst.numArcs := by
    rw [← VectorFst.numArcs_shape, hshape, VectorFst.numArcs_shape]
  apply h.penaltyOnly _ hfinite
  · rw [hfeatures]
    exact (habs.even hM hV hk).of_shape_eq hshape
  · rw [hfeatures, hnum, hn]
    exact hrows

/-- A trainer for a contextual edit machine with uniform weights, with one exemplar. -/
noncomputable def uniformTrainer (M : Machine LogWeight) (reader : FeatureReader) :
    TrainerLocal reader.numberFeatures.toNat where
  fst := weighted M.fst (uniform M.fst)
  fstFeature := mapToFeatureArcs M.fst false
  dataFormatted := [(.empty, .empty)]
  dataFormattedFeatures := [.empty]
  features := reader.features
  weights := List.replicate reader.numberFeatures.toNat 0
  numArcs := M.fst.numArcs
  symbolBound := 3
  regularizationCoefficient := 1
  observedCounts := List.replicate M.fst.numArcs 0
  expectedCounts := List.replicate M.fst.numArcs 0

theorem uniformTrainer_normalised (M : Machine LogWeight) (reader : FeatureReader) :
    (uniformTrainer M reader).fst.Normalised (uniformTrainer M reader).fst.arcWeight := by
  have hshape : (uniformTrainer M reader).fst.shape = M.fst.shape :=
    shape_weighted M.fst (uniform M.fst)
  intro q l hne
  rw [VectorFst.group_of_shape_eq hshape] at hne ⊢
  rw [← uniform_normalised M.fst q l hne]
  exact tsum_congr fun e => weightAt_weighted (VectorFst.lt_numArcs_of_mem_group e.2)

theorem counting_uniformTrainer {M : Machine LogWeight} {ord : HashOrder} {sz : Sizes}
    (h : contextualEdit LogWeight ord (smallArgs sz) = some M) (reader : FeatureReader) :
    Counting (uniformTrainer M reader).fst (uniformTrainer M reader) where
  labels := by
    have hlabels : LabelsBelow M.fst 3 := by
      intro e q a ha
      obtain ⟨c, ⟨m, t⟩, -, -, hm, rfl⟩ := exists_move_of_arc? h ha
      show 0 ≤ m.ilabel (smallArgs sz) ∧ m.ilabel (smallArgs sz) < 3
      cases m with
      | abs v =>
        have hid : ∀ v ∈ ["a", "#"], 0 ≤ (symbolId (symbolTable epsilonTable ["a"]) v).getD 0 ∧
            (symbolId (symbolTable epsilonTable ["a"]) v).getD 0 < 3 := by decide
        refine hid v ?_
        rcases (mem_moves_abs.mp hm).2.1 with hv | rfl
        · exact List.mem_cons.mpr (.inl (List.mem_singleton.mp hv))
        · decide
      | _ => exact ⟨le_rfl, by norm_num [Move.ilabel]⟩
    exact hlabels.weighted _
  numArcs := (numArcs_weighted M.fst _).symm
  observed := List.length_replicate ..
  expected := List.length_replicate ..

theorem mass_conserved_one_one_one : ∃ M reader,
    contextualEdit LogWeight insertionOrder (smallArgs ⟨1, 1, 1⟩) = some M ∧
    tableReader (smallArgs ⟨1, 1, 1⟩) M = some reader ∧
    (∃ t', (uniformTrainer M reader).recount logsum = some t' ∧ ∀ q l,
      groupMass (uniformTrainer M reader).fst t'.expectedCounts q l =
        groupMass (uniformTrainer M reader).fst (uniformTrainer M reader).observedCounts q l) ∧
    ∀ k : Fin reader.numberFeatures.toNat, k.val = 0 → (uniformTrainer M reader).PenaltyOnly k := by
  obtain ⟨M, hM⟩ := exists_contextualEdit LogWeight insertionOrder
    (show Completes (smallArgs ⟨1, 1, 1⟩) from .inl le_rfl)
  have hV1 : CharAlphabet (· ∉ separators) (smallArgs ⟨1, 1, 1⟩).V1 := charAlphabet_a (by decide)
  have hV2 : CharAlphabet (· ∉ separators) (smallArgs ⟨1, 1, 1⟩).V2 := charAlphabet_b (by decide)
  obtain ⟨reader, hread, -, -⟩ := exists_tableReader hM le_rfl hV1 hV2
  obtain ⟨hmass, hgradient⟩ := mass_conserved (counting_uniformTrainer hM reader)
  have hfinite : ∀ x ∈ (uniformTrainer M reader).observedCounts, x ≠ ⊤ := by
    intro x hx
    rw [List.eq_of_mem_replicate hx]
    exact EReal.zero_ne_top
  obtain ⟨reader', hread', -, hpenalty⟩ :=
    (hgradient hfinite).2 LogWeight insertionOrder (smallArgs ⟨1, 1, 1⟩) M hM
    le_rfl hV1 hV2
  obtain rfl : reader = reader' := Option.some.inj (hread.symm.trans hread')
  exact ⟨M, reader, hM, hread, hmass (uniformTrainer_normalised M reader),
    hpenalty (shape_weighted M.fst _) rfl rfl⟩

end StochasticEdit.Features
