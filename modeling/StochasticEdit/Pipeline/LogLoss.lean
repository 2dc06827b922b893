import StochasticEdit.Pipeline.Objective

/-! What `log_loss` reports. For every input the model that was trained is a distribution over
all outputs, none of which it excludes, so the loss of any test set is the negative logarithm
of a positive probability. -/

namespace StochasticEdit.Pipeline

open Wfst Generator Features Trainer Evaluation Text
open Program.Outcome (orUndefined value_bind)
open Evaluation.Csv (Examples reversed)
open scoped ENNReal

/-! ### The distribution over the outputs -/

section Outputs
variable {W : Type*} [One W] {ord : HashOrder} {args : Args} {M : Machine W} {p : EditModel}

/-- The lower strings. -/
def LowerStrings (args : Args) : Set (List Sym) := {y | ∀ s ∈ y, s ∈ args.V2}

/-- Every reading of an input writes one lower string. -/
theorem reads_eq_iUnion (h : contextualEdit W ord args = some M) (hV : args.Valid)
    (hu : args.sizes.ulcMax ≤ 1) (hl : args.sizes.llcMax ≤ 1) (hr : 1 ≤ args.sizes.urcMax)
    (x : List Sym) :
    M.reads args (x ++ padding args) =
      ⋃ y : LowerStrings args, {path | M.Labels args (x ++ padding args) y path} := by
  ext path
  rw [Set.mem_iUnion]
  constructor
  · rintro ⟨hacc, hspells⟩
    obtain ⟨ms, htr⟩ := (accepts_iff h (.inl hu)).mp hacc
    have hlabels : M.Labels args (x ++ padding args) (spelled (editsOf ms)) path :=
      ⟨hacc, hspells, (htr.spells h hV.unreserved (.inl hu) hu hl).2⟩
    exact ⟨⟨_, ((exists_labels_iff h hV hu hl hr).mp ⟨path, hlabels⟩).2⟩, hlabels⟩
  · rintro ⟨y, hacc, hspells, -⟩
    exact ⟨hacc, hspells⟩

theorem totalWeight_reads (h : contextualEdit W ord args = some M) (hV : args.Valid)
    (hu : args.sizes.ulcMax ≤ 1) (hl : args.sizes.llcMax ≤ 1) (hr : 1 ≤ args.sizes.urcMax)
    (p : EditModel) {x : List Sym} (hx : ∀ s ∈ x, s ∈ args.V1) :
    totalWeight (M.probs args p) (M.reads args (x ++ padding args)) =
      tsum fun y : LowerStrings args => editProb args p x y := by
  rw [reads_eq_iUnion h hV hu hl hr, totalWeight, ENNReal.tsum_biUnion]
  · exact tsum_congr fun y => totalWeight_labels h hV hu hl hr p hx y.2
  · intro y _ y' _ hne
    refine Set.disjoint_left.mpr fun path hpath hpath' => hne ?_
    exact Subtype.ext (hpath.2.2.unique hpath'.2.2)

theorem probs_ne_zero (h : contextualEdit W ord args = some M) (hV : args.Valid)
    (hpos : ∀ c o, p c o ≠ 0) {e : ℕ} (he : e < M.fst.numArcs) : M.probs args p e ≠ 0 := by
  obtain ⟨q, a, ha⟩ := VectorFst.exists_arc? he
  obtain ⟨c, ⟨m, t⟩, hc, rfl, hm, rfl⟩ := exists_move_of_arc? h ha
  rw [probs_of_move h hV.unreserved hc hm ha]
  split_ifs
  · exact one_ne_zero
  · exact hpos c m.edit?

end Outputs

section Models
variable {args : Args} {p : EditModel} {x y : List Sym}

/-- A model that excludes no edit is a distribution over the outputs of an input. -/
theorem tsum_editProb (hV : args.Valid) (hne : args.V2 ≠ []) (hu : args.sizes.ulcMax ≤ 1)
    (hl : args.sizes.llcMax ≤ 1) (hr : 1 ≤ args.sizes.urcMax) (hp : p.Normalised args)
    (hpos : ∀ c o, p c o ≠ 0) (hx : ∀ s ∈ x, s ∈ args.V1) :
    (tsum fun y : LowerStrings args => editProb args p x y) = 1 := by
  obtain ⟨M, h⟩ := exists_contextualEdit ℕ insertionOrder (.inl hu : Completes args)
  rw [← totalWeight_reads h hV hu hl hr p hx]
  exact totalWeight_reads_of_pos h hV hne hu hl hr ((normalised_probs_iff h hV hu hl hr).mpr hp)
    (fun e => probs_ne_zero h hV hpos) hx

theorem scriptProb_ne_zero (hpos : ∀ c o, p c o ≠ 0) {es : List Edit} {left right low : List Sym}
    (hes : consumptions es = right.length) : scriptProb args p left right low es ≠ 0 := by
  induction es generalizing left right low with
  | nil =>
    obtain rfl := List.length_eq_zero_iff.mp hes.symm
    rw [scriptProb]
    exact hpos _ _
  | cons o es ih =>
    rw [consumptions_cons] at hes
    cases o with
    | ins v =>
      rw [scriptProb]
      exact mul_ne_zero (hpos _ _) (ih (by simpa [Edit.consumes] using hes))
    | sub v =>
      obtain ⟨u, right, rfl⟩ : ∃ u right', right = u :: right' := by
        refine List.exists_cons_of_length_pos ?_
        rw [← hes]
        simp [Edit.consumes]
      rw [scriptProb]
      exact mul_ne_zero (hpos _ _) (ih (by simpa [Edit.consumes] using hes))
    | del =>
      obtain ⟨u, right, rfl⟩ : ∃ u right', right = u :: right' := by
        refine List.exists_cons_of_length_pos ?_
        rw [← hes]
        simp [Edit.consumes]
      rw [scriptProb]
      exact mul_ne_zero (hpos _ _) (ih (by simpa [Edit.consumes] using hes))

theorem editProb_ne_zero (hpos : ∀ c o, p c o ≠ 0) (x y : List Sym) : editProb args p x y ≠ 0 := by
  let es : scripts x y := ⟨rewriteAll x.length y, rewriteAll_mem_scripts x y⟩
  intro hzero
  exact scriptProb_ne_zero hpos es.2.1 (ENNReal.tsum_eq_zero.mp hzero es)

/-- The loss of a pair is that of a positive probability. -/
theorem negLogLikelihood_nonneg (hV : args.Valid) (hne : args.V2 ≠ []) (hu : args.sizes.ulcMax ≤ 1)
    (hl : args.sizes.llcMax ≤ 1) (hr : 1 ≤ args.sizes.urcMax) (hp : p.Normalised args)
    (hpos : ∀ c o, p c o ≠ 0) {data : List (List Sym × List Sym)}
    (hdata : ∀ d ∈ data, Over args d) :
    0 ≤ negLogLikelihood args p data ∧ negLogLikelihood args p data ≠ ⊤ := by
  have hpair : ∀ d ∈ data, 0 ≤ value (editProb args p d.1 d.2) ∧
      value (editProb args p d.1 d.2) ≠ ⊤ := by
    intro d hd
    constructor
    · have hle : editProb args p d.1 d.2 ≤ 1 := by
        rw [← tsum_editProb hV hne hu hl hr hp hpos (hdata d hd).1]
        exact ENNReal.le_tsum (⟨d.2, (hdata d hd).2⟩ : LowerStrings args)
      have hlog := ENNReal.log_monotone hle
      rw [ENNReal.log_one] at hlog
      exact EReal.neg_nonneg.mpr hlog
    · rw [value, Ne, EReal.neg_eq_top_iff, ENNReal.log_eq_bot_iff]
      exact editProb_ne_zero hpos d.1 d.2
  clear hdata
  induction data with
  | nil => exact ⟨le_rfl, EReal.zero_ne_top⟩
  | cons d data ih =>
    obtain ⟨hnonneg, htop⟩ := hpair d List.mem_cons_self
    obtain ⟨hnonneg', htop'⟩ := ih fun d hd => hpair d (List.mem_cons_of_mem _ hd)
    rw [negLogLikelihood, List.map_cons, List.sum_cons]
    exact ⟨add_nonneg hnonneg hnonneg', EReal.add_ne_top htop htop'⟩

end Models

/-! ### The test data -/

theorem comma_notMem_chars {V w : List Sym} (hV : CharSymbols (· ∉ separators) V)
    (hw : ∀ s ∈ w, s ∈ V ∨ s = stopStartChar) : ',' ∉ chars w := by
  intro hmem
  obtain ⟨s, hs, hc⟩ := List.mem_flatMap.mp hmem
  rcases hw s hs with hs | rfl
  · obtain ⟨c, hsingle, hsep⟩ := hV.single s hs
    rw [hsingle, List.mem_singleton] at hc
    exact hsep (hc ▸ by decide)
  · exact absurd hc (by decide)

theorem chars_ne_nil {V w : List Sym} (hV : CharSymbols (· ∉ separators) V)
    (hw : ∀ s ∈ w, s ∈ V ∨ s = stopStartChar) (hne : w ≠ []) : chars w ≠ [] := by
  rw [chars_eq_map fun s hs => hV.exists_char (hw s hs)]
  exact fun h => hne (List.map_eq_nil_iff.mp h)

/-- The first rows of the file are the pairs, the upper strings padded. -/
structure HasRows (args : Args) (data : Examples) (pairs : List (List Sym × List Sym)) : Prop where
  count : data.count = pairs.length
  row : ∀ (k : ℕ) (p : List Sym × List Sym), pairs[k]? = some p →
    (data.text.splitOn '\n')[k]? = some (chars (p.1 ++ padding args) ++ ',' :: chars p.2)
  symbols : ∀ p ∈ pairs, Over args p
  ne_nil : ∀ p ∈ pairs, p.2 ≠ []

section Rows
variable {args : Args} {data : Examples} {pairs : List (List Sym × List Sym)}
  (hV1 : CharSymbols (· ∉ separators) args.V1) (hV2 : CharSymbols (· ∉ separators) args.V2)

/-- The two columns of a pair. -/
def rowTexts (args : Args) (p : List Sym × List Sym) : List Char × List Char :=
  (chars (p.1 ++ padding args), chars p.2)

theorem over_lower {p : List Sym × List Sym} (hp : Over args p) :
    ∀ s ∈ p.2, s ∈ args.V2 ∨ s = stopStartChar :=
  fun s hs => .inl (hp.2 s hs)

include hV1 hV2

/-- The rows are read, -/
theorem HasRows.exists_rows (h : HasRows args data pairs) :
    ∃ rows, data.readRows 1 data.count = .value rows ∧
      reversed rows = pairs.map (rowTexts args) := by
  refine Evaluation.exists_rows (h.count.trans (List.length_map _).symm) ?_ fun k r hk => ?_
  · refine List.forall_mem_map.mpr fun p hp => ?_
    exact ⟨comma_notMem_chars hV1 (mem_padded (h.symbols p hp).1),
      comma_notMem_chars hV2 (over_lower (h.symbols p hp))⟩
  · rw [List.getElem?_map] at hk
    obtain ⟨p, hp, rfl⟩ := Option.map_eq_some_iff.mp hk
    exact h.row k p hp

/-- and converted into the acceptors of the pairs. -/
theorem HasRows.mapM_convert (h : HasRows args data pairs) (hr : 1 ≤ args.sizes.urcMax) :
    (pairs.map (rowTexts args)).mapM (convert args.symsIn args.symsOut) =
      some (pairs.map (exemplar args)) := by
  have hpadding (x : List Sym) : x ++ padding args ≠ [] := by
    intro h
    have hlen : (padding args).length = args.sizes.urcMax := List.length_replicate
    rw [(List.append_eq_nil_iff.mp h).2] at hlen
    exact absurd (hr.trans_eq hlen.symm) (Nat.not_succ_le_zero 0)
  rw [Evaluation.mapM_convert, if_pos, List.map_map]
  · refine congrArg some (List.map_congr_left fun p hp => ?_)
    rw [exemplar_eq hV1 hV2 (h.symbols p hp)]
    rfl
  · refine List.forall_mem_map.mpr fun p hp => ⟨?_, ?_⟩
    · exact chars_ne_nil hV1 (mem_padded (h.symbols p hp).1) (hpadding p.1)
    · exact chars_ne_nil hV2 (over_lower (h.symbols p hp)) (h.ne_nil p hp)

theorem HasRows.readTestData_eq (h : HasRows args data pairs) (hr : 1 ≤ args.sizes.urcMax) :
    readTestData data args.symsIn args.symsOut = .value (pairs.map (exemplar args)) := by
  obtain ⟨rows, hrows, hreversed⟩ := h.exists_rows hV1 hV2
  rw [readTestData, hrows, value_bind, hreversed, h.mapM_convert hV1 hV2 hr, orUndefined]

end Rows

/-! ### The report -/

theorem logLossLoop_eq (comp : Composer) (ev : Evaluator) (logLoss : EReal)
    (data : List (VectorFst LogWeight × VectorFst LogWeight)) :
    ev.logLossLoop comp logLoss data = likelihoodLoop comp ev.fst logLoss data := by
  induction data generalizing logLoss with
  | nil => rfl
  | cons d data ih =>
    rw [Evaluator.logLossLoop, likelihoodLoop]
    exact ih _

/-- Whatever the calls of `train` do, they leave the transducer with the arc weights of a
log-linear model, which is a distribution over the lower strings for every upper string, and
`log_loss` reports the negative log-likelihood of the test data under this model. -/
theorem logLoss_trained (ord : HashOrder) (args : Args)
    (hV1 : CharAlphabet (· ∉ separators) args.V1) (hV2 : CharAlphabet (· ∉ separators) args.V2)
    (hne : args.V2 ≠ []) (hu : args.sizes.ulcMax ≤ 1) (hl : args.sizes.llcMax ≤ 1)
    (hr : 1 ≤ args.sizes.urcMax) {symbolBound : ℕ} (hbound : args.V1.length + 2 ≤ symbolBound) :
    ∃ M reader, contextualEdit LogWeight ord args = some M ∧ tableReader args M = some reader ∧
      ∀ (comp : Composer) (data : List (List Sym × List Sym)) (lambda : ℝ) t,
        Trained comp logsum args M reader symbolBound data lambda t → ∃ w : Str → ℝ,
          (∀ e < M.fst.numArcs, t.fst.arcWeight e = M.probs args (logLinear args w) e) ∧
          (∀ x : List Sym, (∀ s ∈ x, s ∈ args.V1) →
            (tsum fun y : LowerStrings args => editProb args (logLinear args w) x y) = 1) ∧
          ∀ (test : Examples) (pairs : List (List Sym × List Sym)) (numFeatures : ℕ),
            HasRows args test pairs → (∀ p ∈ pairs, ExactLattice comp M.fst (exemplar args p)) →
            ∃ testData,
              readTestData test args.symsIn args.symsOut = .value testData ∧
              let ev := evaluator t.fst args.symsIn args.symsOut numFeatures testData
              ev.logLoss comp = negLogLikelihood args (logLinear args w) pairs ∧
                0 ≤ ev.logLoss comp ∧ ev.logLoss comp ≠ ⊤ := by
  obtain ⟨M, h⟩ := exists_contextualEdit LogWeight ord (.inl hu : Completes args)
  obtain ⟨reader, order, htable⟩ := exists_table h hu hl hr hV1 hV2
  have hV : args.Valid := valid_of_charAlphabet hV1 hV2
  refine ⟨M, reader, h, htable.read, fun comp data lambda t ht => ?_⟩
  obtain ⟨-, θ, hθ⟩ := ht.holds htable (labelsBelow h (le_numArcs h hV hu hl hr))
    (labelsBelow h hbound)
  obtain ⟨w, a, hw⟩ := exists_names htable.size θ
  have hnormalised : (logLinear args w).Normalised args := logLinear_normalised hV hr w
  have hpos : ∀ c o, logLinear args w c o ≠ 0 := logLinear_ne_zero args w
  refine ⟨w, fun e he => ?_, fun x hx => tsum_editProb hV hne hu hl hr hnormalised hpos hx,
    fun test pairs numFeatures htest hexact => ?_⟩
  · obtain ⟨q, a, ha⟩ := VectorFst.exists_arc? he
    rw [← htable.newWeight_eq h hV hu hl hr hw he, hθ]
    exact arcWeight_reweighted ha
  · have hloss : (evaluator t.fst args.symsIn args.symsOut numFeatures
        (pairs.map (exemplar args))).logLoss comp =
          negLogLikelihood args (logLinear args w) pairs := by
      rw [Evaluator.logLoss, logLossLoop_eq]
      show likelihoodLoop comp t.fst 0 (pairs.map (exemplar args)) = _
      rw [hθ]
      exact htable.likelihoodLoop_eq h hV hu hl hr hw htest.symbols hexact
    have hfinite := negLogLikelihood_nonneg hV hne hu hl hr hnormalised hpos htest.symbols
    exact ⟨_, htest.readTestData_eq hV1.toCharSymbols hV2.toCharSymbols hr, hloss, hloss ▸ hfinite⟩

/-- A file with one row. -/
def smallExamples : Examples := ⟨['a', '#', ',', 'b', '\n'], 1, .rightToLeft⟩

theorem hasRows_small : HasRows (smallArgs ⟨1, 1, 1⟩) smallExamples [(["a"], ["b"])] where
  count := rfl
  row := by
    intro k p hk
    match k with
    | 0 =>
      obtain rfl := Option.some.inj hk
      decide
    | k + 1 => simp at hk
  symbols := over_small _
  ne_nil := by
    intro p hp
    rw [List.mem_singleton.mp hp]
    exact List.cons_ne_nil _ _

theorem logLoss_trained_one_one_one : ∃ M reader t testData,
    contextualEdit LogWeight insertionOrder (smallArgs ⟨1, 1, 1⟩) = some M ∧
    Trained product logsum (smallArgs ⟨1, 1, 1⟩) M reader 100 [(["a"], ["b"])] 1 t ∧
    readTestData smallExamples (smallArgs ⟨1, 1, 1⟩).symsIn (smallArgs ⟨1, 1, 1⟩).symsOut =
      .value testData ∧
    ∃ w : Str → ℝ, (evaluator t.fst (smallArgs ⟨1, 1, 1⟩).symsIn
      (smallArgs ⟨1, 1, 1⟩).symsOut 1 testData).logLoss product =
      negLogLikelihood (smallArgs ⟨1, 1, 1⟩) (logLinear (smallArgs ⟨1, 1, 1⟩) w)
        [(["a"], ["b"])] := by
  obtain ⟨M, reader, h, hread, hloss⟩ := logLoss_trained insertionOrder (smallArgs ⟨1, 1, 1⟩)
    (charAlphabet_a (by decide)) (charAlphabet_b (by decide))
      (List.cons_ne_nil _ _) le_rfl le_rfl le_rfl
    (show (smallArgs ⟨1, 1, 1⟩).V1.length + 2 ≤ 100 by decide)
  obtain ⟨t, htrained⟩ := exists_trained_small product h hread
  obtain ⟨w, -, -, hreport⟩ := hloss product [(["a"], ["b"])] 1 t htrained
  obtain ⟨testData, hdata, heq, -⟩ :=
    hreport smallExamples [(["a"], ["b"])] 1 hasRows_small (exactLattice_small _ M.fst)
  exact ⟨M, reader, t, testData, h, htrained, hdata, w, heq⟩

end StochasticEdit.Pipeline
