import StochasticEdit.Pipeline.Distances
import StochasticEdit.Trainer.Restart

/-! The trainer of the pipeline. `main` builds it of the transducer, the table of features and
the training pairs. Whatever the optimiser does in its calls, the machine has the arc weights
of some vector, and these are the probabilities of a log-linear model. -/

namespace StochasticEdit.Pipeline

open Wfst Generator Features Trainer Evaluation Text
open scoped ENNReal

/-! ### Input labels -/

section Labels
variable {W : Type*} [One W] {ord : HashOrder} {args : Args} {M : Machine W}

theorem labelsBelow (h : contextualEdit W ord args = some M) {bound : ℕ}
    (hbound : args.V1.length + 2 ≤ bound) : LabelsBelow M.fst bound := by
  intro e q a ha
  obtain ⟨c, ⟨m, t⟩, -, -, hm, rfl⟩ := exists_move_of_arc? h ha
  show 0 ≤ m.ilabel args ∧ m.ilabel args < bound
  cases m with
  | abs v =>
    obtain ⟨hpos, hlt⟩ := symbolId_lt (symbolId_idIn (mem_moves_abs.mp hm).2.1)
    exact ⟨hpos, lt_of_lt_of_le hlt (by exact_mod_cast hbound)⟩
  | _ => exact ⟨le_rfl, by show (0 : ℤ) < bound; omega⟩

/-- The start state has an arc for each upper symbol. -/
theorem exists_abs_arc (h : contextualEdit W ord args = some M) (hr : 1 ≤ args.sizes.urcMax)
    {v : Sym} (hv : v ∈ args.V1 ∨ v = stopStartChar) :
    ∃ e q a, M.fst.arc? e = some (q, a) ∧ a.ilabel = idIn args v := by
  have hurc : (startKey args.sizes).urc = [] := startKey_urc args.sizes
  have hb : ¬ isBold args.sizes (startKey args.sizes) := by
    rw [isBold_iff, hurc]
    rintro ⟨-, hlen, -⟩
    rw [← hlen] at hr
    exact Nat.not_succ_le_zero 0 hr
  have hkey : (absKey args.sizes (startKey args.sizes) v).urc = [v] := by
    show addReverse (startKey args.sizes).urc v args.sizes.urcMax = [v]
    rw [hurc]
    exact addReverse_of_lt (show ([] : List Sym).length < args.sizes.urcMax from hr) v
  have hm : (.abs v, some (absKey args.sizes (startKey args.sizes) v)) ∈
      moves args (startKey args.sizes) := by
    refine mem_moves_abs.mpr ⟨hb, hv, fun hzero => ?_, ?_, rfl⟩
    · omega
    · rw [hkey]
      simp [sharpAtEnd_iff]
  obtain ⟨e, he⟩ := exists_arc?_of_move h startKey_isKey hm
  exact ⟨e, _, _, he, rfl⟩

/-- There is an arc for every input label. -/
theorem le_numArcs (h : contextualEdit W ord args = some M) (hV : args.Valid)
    (hu : args.sizes.ulcMax ≤ 1) (hl : args.sizes.llcMax ≤ 1) (hr : 1 ≤ args.sizes.urcMax) :
    args.V1.length + 2 ≤ M.fst.numArcs := by
  let ids : List ℤ := 0 :: (stopStartChar :: args.V1).map (idIn args)
  have hmem : ∀ v ∈ stopStartChar :: args.V1, v ∈ args.V1 ∨ v = stopStartChar := by
    intro v hv
    exact (List.mem_cons.mp hv).symm
  have hnodup : ids.Nodup := by
    refine List.nodup_cons.mpr ⟨fun hzero => ?_, ?_⟩
    · obtain ⟨v, hv, hid⟩ := List.mem_map.mp hzero
      exact idIn_ne_zero hV.unreserved (hmem v hv) hid
    · exact List.Nodup.map_on (fun v hv w hw => idIn_inj hV.unreserved (hmem v hv) (hmem w hw))
        (List.nodup_cons.mpr ⟨hV.upper.sharp, hV.upper.nodup⟩)
  have harc : ∀ l ∈ ids, ∃ e q a, M.fst.arc? e = some (q, a) ∧ a.ilabel = l := by
    intro l hl'
    rcases List.mem_cons.mp hl' with rfl | hl'
    · obtain ⟨e, a, he, hlabel⟩ :=
        @group_window_nonempty W _ ord args M h hV hu hl hr [] [] [] (by simp) (by simp)
      exact ⟨e, _, a, he, hlabel⟩
    · obtain ⟨v, hv, rfl⟩ := List.mem_map.mp hl'
      exact exists_abs_arc h hr (hmem v hv)
  have hsub : ids.toFinset ⊆ (Finset.range M.fst.numArcs).image fun e =>
      (M.fst.ilabel? e).getD 0 := by
    intro l hl'
    obtain ⟨e, q, a, he, rfl⟩ := harc l (List.mem_toFinset.mp hl')
    refine Finset.mem_image.mpr ⟨e, Finset.mem_range.mpr (VectorFst.lt_numArcs_of_arc? he), ?_⟩
    rw [VectorFst.ilabel?, he]
    rfl
  calc args.V1.length + 2 = ids.toFinset.card := by
        rw [List.toFinset_card_of_nodup hnodup, List.length_cons, List.length_map, List.length_cons]
    _ ≤ ((Finset.range M.fst.numArcs).image fun e => (M.fst.ilabel? e).getD 0).card :=
      Finset.card_le_card hsub
    _ ≤ M.fst.numArcs := Finset.card_image_le.trans_eq (Finset.card_range _)

end Labels

/-! ### The trainer -/

section Trainer
variable (comp : Composer) (add : EReal → EReal → EReal) (args : Args) (M : Machine LogWeight)
  (reader : FeatureReader) (symbolBound : ℕ) (data : List (List Sym × List Sym)) (lambda : ℝ)

/-- The trainer that `main` constructs, with all weights 0 and `add` for `logadd`. -/
noncomputable def initial : Option (TrainerLocal reader.numberFeatures.toNat) :=
  construct comp add M.fst (data.map (exemplar args)) M.fst.numArcs symbolBound reader.features
    (List.replicate reader.numberFeatures.toNat 0) lambda _

/-- A trainer after some calls of `train`. -/
def Trained (t : TrainerLocal reader.numberFeatures.toNat) : Prop :=
  ∃ t₀ debugMode calls, initial comp add args M reader symbolBound data lambda = some t₀ ∧
    trainCalls add comp debugMode t₀ calls = some t

end Trainer

section Trained
variable {comp : Composer} {ord : HashOrder} {args : Args} {M : Machine LogWeight}
  {reader : FeatureReader} {order : List Str} {symbolBound : ℕ} {data : List (List Sym × List Sym)}
  {lambda : ℝ} {t : TrainerLocal reader.numberFeatures.toNat}

/-- What no call changes: the machine up to its arc weights, the table and the data. -/
structure Holds (args : Args) (M : Machine LogWeight) (reader : FeatureReader)
    (data : List (List Sym × List Sym)) (lambda : ℝ)
    (t : TrainerLocal reader.numberFeatures.toNat) : Prop extends Sized M.fst t where
  features : t.features = reader.features
  data : t.dataFormatted = data.map (exemplar args)
  lambda : t.regularizationCoefficient = lambda

theorem exists_initial (comp : Composer) (data : List (List Sym × List Sym)) (lambda : ℝ)
    (htable : Table args M reader order) (hlabels : LabelsBelow M.fst M.fst.numArcs)
    (hbound : LabelsBelow M.fst symbolBound) :
    ∃ t₀, initial comp logsum args M reader symbolBound data lambda = some t₀ ∧
      Holds args M reader data lambda t₀ := by
  let t₀ : TrainerLocal reader.numberFeatures.toNat :=
    { fst := M.fst, fstFeature := .empty, dataFormatted := [], dataFormattedFeatures := []
      features := reader.features, weights := List.replicate reader.numberFeatures.toNat 0
      numArcs := M.fst.numArcs, symbolBound := symbolBound, regularizationCoefficient := lambda
      observedCounts := List.replicate M.fst.numArcs 0, expectedCounts :=
        List.replicate M.fst.numArcs 0 }
  have hrows : Rows t₀.features t₀.fst.numArcs t₀.weights.length := by
    rw [List.length_replicate]
    exact htable.rows
  rw [initial, construct, updateArcWeightsMember_eq logsum t₀ hrows hlabels]
  exact ⟨_, rfl, ⟨⟨⟨hbound, rfl, List.length_replicate, List.length_replicate⟩, ⟨_, rfl⟩,
    htable.rows⟩, rfl, rfl, rfl⟩⟩

/-- The machine with the arc weights of `θ`. -/
noncomputable def machineOf (M : Machine LogWeight) (reader : FeatureReader)
    (θ : ColumnVector reader.numberFeatures.toNat) : VectorFst LogWeight :=
  weighted M.fst (newWeight logsum (score reader.features θ) M.fst)

theorem Holds.updateArcWeights (h : Holds args M reader data lambda t)
    (θ : ColumnVector reader.numberFeatures.toNat) :
    t.updateArcWeights logsum θ = some { t with fst := machineOf M reader θ } := by
  rw [h.toSized.updateArcWeights, reweightedTrainer, h.features, machineOf]

theorem Holds.machineAt (h : Holds args M reader data lambda t)
    (θ : ColumnVector reader.numberFeatures.toNat) :
    t.machineAt logsum θ = some (machineOf M reader θ) := by
  obtain ⟨F, hF, heq⟩ := updateArcWeights_eq_some (h.updateArcWeights θ)
  rw [hF]
  exact congrArg some (congrArg TrainerLocal.fst heq).symm

/-- A trainer that main has constructed and trained. -/
theorem Trained.holds (htable : Table args M reader order)
    (hlabels : LabelsBelow M.fst M.fst.numArcs) (hbound : LabelsBelow M.fst symbolBound)
    (h : Trained comp logsum args M reader symbolBound data lambda t) :
    Holds args M reader data lambda t ∧ ∃ θ, t.fst = machineOf M reader θ := by
  obtain ⟨t₀, debugMode, calls, hinitial, ht⟩ := h
  obtain ⟨t₁, hinitial₁, hholds⟩ := exists_initial comp data lambda htable hlabels hbound
  obtain rfl := Option.some.inj (hinitial.symm.trans hinitial₁)
  have hkept := kept_trainCalls ht
  have hmachine : ∃ θ, t.fst = machineOf M reader θ := by
    rcases trainCalls_last ht with ⟨-, rfl⟩ | ⟨last, -, hlast⟩
    · obtain ⟨θ, -, hθ⟩ := construct_machineAt List.length_replicate hbound hinitial
      rw [hholds.machineAt] at hθ
      exact ⟨θ, (Option.some.inj hθ).symm⟩
    · rw [hkept.machineAt, hholds.machineAt] at hlast
      exact ⟨_, (Option.some.inj hlast).symm⟩
  refine ⟨?_, hmachine⟩
  obtain ⟨θ, hθ⟩ := hmachine
  obtain ⟨F, observed, expected, -, hobserved, hexpected, rfl⟩ := hkept
  exact { hholds with
    machine := ⟨_, hθ⟩
    observed := hobserved.trans hholds.observed
    expected := hexpected.trans hholds.expected }

end Trained

/-- The trainer of one pair, before any call. -/
theorem exists_trained_small (comp : Composer) {M : Machine LogWeight} {reader : FeatureReader}
    (h : contextualEdit LogWeight insertionOrder (smallArgs ⟨1, 1, 1⟩) = some M)
    (hread : tableReader (smallArgs ⟨1, 1, 1⟩) M = some reader) :
    ∃ t, Trained comp logsum (smallArgs ⟨1, 1, 1⟩) M reader 100 [(["a"], ["b"])] 1 t := by
  obtain ⟨reader', order, htable⟩ := exists_table h le_rfl le_rfl le_rfl
    (charAlphabet_a (by decide)) (charAlphabet_b (by decide))
  obtain rfl := Option.some.inj (hread.symm.trans htable.read)
  obtain ⟨t, ht, -⟩ := exists_initial comp [(["a"], ["b"])] 1 htable
    (labelsBelow h (le_numArcs h (smallArgs_valid ⟨1, 1, 1⟩) le_rfl le_rfl le_rfl))
    (@labelsBelow _ _ _ _ _ h 100 (by decide))
  exact ⟨t, t, false, [], ht, rfl⟩

end StochasticEdit.Pipeline
