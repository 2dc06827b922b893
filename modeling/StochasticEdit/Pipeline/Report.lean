import StochasticEdit.Evaluation.BestPath
import StochasticEdit.Pipeline.Balance
import StochasticEdit.Pipeline.Viterbi

/-! What `one_best_edit` and `expected_edit_distance` report of a model. The one compares the
gold outputs with reversed best outputs, and the other adds to the log loss a number that does
not depend on the model. Both are infinite as soon as a gold output has a symbol with an id
that the upper table lacks. -/

namespace StochasticEdit.Pipeline

open Wfst Generator Features Trainer Evaluation Text
open scoped ENNReal

/-! ### Known symbols -/

/-- The symbols have ids that the upper table has too. -/
def Known (args : Args) (y : List Sym) : Prop := ∀ s ∈ y, s ∈ args.V2.take args.V1.length

instance (args : Args) (y : List Sym) : Decidable (Known args y) :=
  inferInstanceAs (Decidable (∀ s ∈ y, s ∈ args.V2.take args.V1.length))

section Known
variable {args : Args}

section Table
variable {new : NewTable} {V : List Sym} {s : Sym} {i : ℤ} (hnodup : V.Nodup)
  (hV : Generator.Unreserved new V)

include hnodup hV

/-- Symbol number `k` of the alphabet has the id `k + 2`. -/
theorem mem_symbolTable_iff : (s, i) ∈ symbolTable new V ↔
    (s, i) ∈ symbolTable new [] ∨ ∃ k : ℕ, V[k]? = some s ∧ i = k + 2 := by
  induction V using List.reverseRecOn with
  | nil => simp
  | append_singleton V w ih =>
    obtain ⟨hnodup, -, hdisjoint⟩ := List.nodup_append.mp hnodup
    have hw : w ∉ (symbolTable new V).map Prod.fst := by
      intro hmem
      rcases mem_fst_symbolTable.mp hmem with hmem | hmem | rfl
      · exact hV.empty w (by simp) hmem
      · exact hdisjoint w hmem w (by simp) rfl
      · exact hV.sharp (by simp)
    rw [symbolTable_concat, mem_addSymbol, and_iff_right hw,
      ih hnodup ⟨fun h => hV.sharp (by simp [h]), fun v hv => hV.empty v (by simp [hv])⟩, or_assoc]
    refine or_congr_right ?_
    constructor
    · rintro (⟨k, hk, rfl⟩ | ⟨rfl, rfl⟩)
      · exact ⟨k, List.getElem?_append_left (List.getElem?_eq_some_iff.mp hk).1 ▸ hk, rfl⟩
      · exact ⟨V.length, List.getElem?_concat_length, rfl⟩
    · rintro ⟨k, hk, rfl⟩
      rcases lt_trichotomy k V.length with hlt | rfl | hlt
      · exact .inl ⟨k, (List.getElem?_append_left hlt).symm.trans hk, rfl⟩
      · exact .inr ⟨(Option.some.inj (List.getElem?_concat_length.symm.trans hk)).symm, rfl⟩
      · rw [List.getElem?_eq_none (by simpa using hlt)] at hk
        cases hk

theorem getElem?_of_symbolId (hs : s ∈ V) (h : symbolId (symbolTable new V) s = some i) :
    ∃ k : ℕ, i = k + 2 ∧ V[k]? = some s := by
  rcases (mem_symbolTable_iff hnodup hV).mp (mem_of_lookup_eq_some h) with hmem | ⟨k, hk, hi⟩
  · rcases mem_fst_symbolTable.mp (List.mem_map_of_mem hmem) with hempty | hnil | rfl
    · exact absurd hempty (hV.empty s hs)
    · exact absurd hnil List.not_mem_nil
    · exact absurd hs hV.sharp
  · exact ⟨k, hi, hk⟩

theorem mem_ids_symbolTable : i ∈ ids (symbolTable new V) ↔ 0 < i ∧ i < V.length + 2 := by
  constructor
  · rintro ⟨hne, hmem⟩
    obtain ⟨⟨v, i⟩, hp, rfl⟩ := List.mem_map.mp hmem
    obtain ⟨hnonneg, hlt⟩ := id_bounds hp
    exact ⟨lt_of_le_of_ne hnonneg hne.symm, hlt⟩
  · rintro ⟨hpos, hlt⟩
    have hsome (v : Sym) (hv : (v, i) ∈ symbolTable new V) : i ∈ ids (symbolTable new V) :=
      ⟨hpos.ne', List.mem_map_of_mem (f := Prod.snd) hv⟩
    rcases eq_or_ne i 1 with rfl | hone
    · refine hsome stopStartChar ((mem_symbolTable_iff hnodup hV).mpr (.inl ?_))
      rw [symbolTable_nil]
      exact List.mem_cons_self
    · have hk : (i - 2).toNat < V.length := by omega
      refine hsome V[(i - 2).toNat]
        ((mem_symbolTable_iff hnodup hV).mpr (.inr ⟨(i - 2).toNat, ?_, by omega⟩))
      exact List.getElem?_eq_getElem hk

end Table

theorem known_iff (hV : args.Valid) {y : List Sym} (hy : ∀ s ∈ y, s ∈ args.V2) :
    (∀ l ∈ y.map (idOut args), l ∈ ids args.symsIn) ↔ Known args y := by
  rw [List.forall_mem_map]
  apply forall₂_congr
  intro s hs
  obtain ⟨k, hk, hget⟩ := getElem?_of_symbolId hV.lower.nodup hV.unreserved.lower (hy s hs)
    (symbolId_idOut (hy s hs))
  obtain ⟨hlt, hV2⟩ := List.getElem?_eq_some_iff.mp hget
  rw [Args.symsIn, mem_ids_symbolTable hV.upper.nodup hV.unreserved.upper, hk,
    List.mem_take_iff_getElem]
  constructor
  · rintro ⟨-, hbound⟩
    exact ⟨k, by omega, hV2⟩
  · rintro ⟨j, hj, hjs⟩
    have hjk : j = k := (List.Nodup.getElem_inj_iff hV.lower.nodup).mp (hjs.trans hV2.symm)
    omega

theorem mem_ids_lower (hV : args.Valid) {y : List Sym} (hy : ∀ s ∈ y, s ∈ args.V2) :
    ∀ l ∈ y.map (idOut args), l ∈ ids args.symsOut := by
  intro l hl
  obtain ⟨s, hs, rfl⟩ := List.mem_map.mp hl
  obtain ⟨hnonneg, hlt⟩ := symbolId_lt (symbolId_idOut (hy s hs))
  rw [Args.symsOut, mem_ids_symbolTable hV.lower.nodup hV.unreserved.lower]
  exact ⟨lt_of_le_of_ne hnonneg (idOut_ne_zero hV.unreserved (hy s hs)).symm, hlt⟩

theorem idOut_injOn (hV : args.Valid) {y z : List Sym} (hy : ∀ s ∈ y, s ∈ args.V2)
    (hz : ∀ s ∈ z, s ∈ args.V2) :
    ∀ s ∈ y, ∀ t ∈ z, idOut args s = idOut args t → s = t :=
  fun s hs t ht => idOut_inj hV.unreserved (hy s hs) (hz t ht)

end Known

/-! ### The log loss -/

theorem editProb_ne_top {args : Args} {m : EditModel} (hV : args.Valid) (hne : args.V2 ≠ [])
    (hu : args.sizes.ulcMax ≤ 1) (hl : args.sizes.llcMax ≤ 1) (hr : 1 ≤ args.sizes.urcMax)
    (hm : m.Normalised args) (hpos : ∀ c o, m c o ≠ 0) {p : List Sym × List Sym}
    (hp : Over args p) : editProb args m p.1 p.2 ≠ ⊤ := by
  have hle : editProb args m p.1 p.2 ≤ 1 := by
    rw [← tsum_editProb hV hne hu hl hr hm hpos hp.1]
    exact ENNReal.le_tsum (⟨p.2, hp.2⟩ : LowerStrings args)
  exact ne_top_of_le_ne_top ENNReal.one_ne_top hle

theorem logLoss_weighted {comp : Composer} {ord : HashOrder} {args : Args} {M : Machine LogWeight}
    {m : EditModel} (h : contextualEdit LogWeight ord args = some M) (hV : args.Valid)
    (hu : args.sizes.ulcMax ≤ 1) (hl : args.sizes.llcMax ≤ 1) (hr : 1 ≤ args.sizes.urcMax)
    (hexact : ∀ A B, IsExact A B (comp A B)) {pairs : List (List Sym × List Sym)}
    (hpairs : ∀ p ∈ pairs, Over args p) (n : ℕ) :
    (evaluator (weighted M.fst (M.probs args m)) args.symsIn args.symsOut n
      (pairs.map (exemplar args))).logLoss comp = negLogLikelihood args m pairs := by
  rw [Evaluator.logLoss, logLossLoop_eq, likelihoodLoop_eq_sum, zero_add, negLogLikelihood]
  show ((pairs.map (exemplar args)).map _).sum = _
  rw [List.map_map]
  apply congrArg List.sum
  apply List.map_congr_left
  intro p hp
  exact congrArg value
    (shortestDistance_probs h hV hu hl hr (hpairs p hp) ⟨hexact _ _, hexact _ _⟩ m)

/-! ### The expected distance -/

section Expected
variable {comp : Composer} {arcSort : VectorFst LogWeight → VectorFst LogWeight} {ord : HashOrder}
  {args : Args} {M : Machine LogWeight} {m : EditModel} {p : List Sym × List Sym}

/-- What the loop adds for the scripts from a gold output to itself. -/
noncomputable def selfScripts (args : Args) (y : List Sym) : EReal :=
  if Known args y then value (scriptSum unitCost y y) else ⊤

/-- Only these scripts turn the gold output into itself in the edit machine. -/
theorem value_mass_editDistLog (hV : args.Valid) {y : List Sym} (hy : ∀ s ∈ y, s ∈ args.V2)
    {mass : LogWeight}
    (hmass : mass = (editDistLog args.symsIn args.symsOut).mass (y.map (idOut args))
      (y.map (idOut args))) :
    value mass = selfScripts args y ∧ mass ≠ ⊤ := by
  have hi : (idList args.symsIn).Nodup := nodup_idList_symbolTable args.newTable args.V1
  have ho : (idList args.symsOut).Nodup := nodup_idList_symbolTable args.newTable args.V2
  unfold selfScripts
  split_ifs with h
  · rw [mass_scripts_eq hi ho ((known_iff hV hy).mpr h) (mem_ids_lower hV hy)] at hmass
    rw [hmass]
    exact ⟨congrArg value (scriptSum_map unitCost (idOut_injOn hV hy hy)), scriptSum_ne_top _ _⟩
  · rw [← known_iff hV hy] at h
    push Not at h
    rw [mass_scripts_eq_zero hi ho h] at hmass
    rw [hmass, value, ENNReal.log_zero, EReal.neg_bot]
    exact ⟨rfl, ENNReal.zero_ne_top⟩

/-- The lattice of a pair has the probability of the gold output among the outputs. -/
theorem outputMass_medial (hexact : ∀ A B, IsExact A B (comp A B)) {F : VectorFst LogWeight}
    {s t : List ℤ} (ht : ∀ l ∈ t, l ≠ 0) : (VectorFst.compose comp (goldFst s) F).outputMass t =
      (logLattice comp F (goldFst s, goldFst t)).shortestDistance := by
  have hlattice : VectorFst.Exact comp (VectorFst.compose comp (goldFst s) F)
      (goldFst t) := hexact _ _
  rw [VectorFst.outputMass, ← VectorFst.tsum_mass, logLattice]
  apply tsum_congr
  intro u
  simp only [mass_lattice_gold ht hlattice, tsum_ite_eq]

theorem value_shortestDistance_edits (h : contextualEdit LogWeight ord args = some M)
    (hV : args.Valid) (hu : args.sizes.ulcMax ≤ 1) (hl : args.sizes.llcMax ≤ 1)
    (hr : 1 ≤ args.sizes.urcMax) (hexact : ∀ A B, IsExact A B (comp A B))
    (hsort : ∀ F, VectorFst.SameArcs F (arcSort F)) (hp : Over args p)
    (hm : editProb args m p.1 p.2 ≠ ⊤) :
    value (VectorFst.compose comp
      (VectorFst.compose comp (sortedFinal comp arcSort (weighted M.fst (M.probs args m))
      (exemplar args p).1 (exemplar args p).2) (editDistLog args.symsIn args.symsOut))
        (exemplar args p).2).shortestDistance =
      value (editProb args m p.1 p.2) + selfScripts args p.2 := by
  have hne : ∀ l ∈ p.2.map (idOut args), l ≠ 0 := idOut_ne_zero_of_mem hV.unreserved hp.2
  have hprob :
      (logLattice comp (weighted M.fst (M.probs args m)) (exemplar args p)).shortestDistance =
      editProb args m p.1 p.2 := shortestDistance_probs h hV hu hl hr hp ⟨hexact _ _, hexact _ _⟩ m
  have hedits := @shortestDistance_edits comp arcSort (weighted M.fst (M.probs args m))
    (p.2.map (idOut args)) hsort
    (exemplar args p).1 (editDistLog args.symsIn args.symsOut) hne (hexact _ _) (hexact _ _)
    (hexact _ _)
  obtain ⟨hvalue, hfinite⟩ := value_mass_editDistLog hV hp.2 rfl
  have hmass :
      (VectorFst.compose comp (exemplar args p).1 (weighted M.fst (M.probs args m))).outputMass
      (p.2.map (idOut args)) = editProb args m p.1 p.2 := (outputMass_medial hexact hne).trans hprob
  refine (congrArg value hedits).trans ?_
  rw [hmass, value_mul hm hfinite, hvalue]

/-- The expected distance is the log loss and, for each pair, the scripts from the gold output
to itself. -/
theorem expectedEditDistance_weighted (h : contextualEdit LogWeight ord args = some M)
    (hV : args.Valid) (hu : args.sizes.ulcMax ≤ 1) (hl : args.sizes.llcMax ≤ 1)
    (hr : 1 ≤ args.sizes.urcMax) (hexact : ∀ A B, IsExact A B (comp A B))
    (hsort : ∀ F, VectorFst.SameArcs F (arcSort F)) {pairs : List (List Sym × List Sym)}
    (hpairs : ∀ p ∈ pairs, Over args p) (hm : ∀ p ∈ pairs, editProb args m p.1 p.2 ≠ ⊤) (n : ℕ) :
    (logEvaluator (weighted M.fst (M.probs args m)) args.symsIn args.symsOut n
      (pairs.map (exemplar args))).expectedEditDistance comp arcSort =
        negLogLikelihood args m pairs + (pairs.map fun p => selfScripts args p.2).sum := by
  rw [LogEvaluator.expectedEditDistance, expectedLoop_eq, zero_add,
    negLogLikelihood, ← List.sum_map_add]
  show ((pairs.map (exemplar args)).map _).sum = _
  rw [List.map_map]
  apply congrArg List.sum
  apply List.map_congr_left
  intro p hp
  exact value_shortestDistance_edits h hV hu hl hr hexact hsort (hpairs p hp) (hm p hp)

end Expected

/-! ### The best outputs -/

/-- `z` is the output of an alignment of `x` that costs least. -/
def BestOutput (args : Args) (m : EditModel) (x z : List Sym) : Prop :=
  z ∈ LowerStrings args ∧ ∃ es ∈ scripts x z,
    IsLeast (⋃ y ∈ LowerStrings args, cost args m x '' scripts x y) (cost args m x es)

section Best
variable {ord : HashOrder} {args : Args} {M : Machine LogWeight} {m : EditModel} {x : List Sym}

theorem relates_toStd_weighted (h : contextualEdit LogWeight ord args = some M) {w : ℕ → LogWeight}
    (hw : ∀ e, w e ≠ ⊤) {s t : List ℤ} {v : StdWeight} : (toStd (weighted M.fst w)).Relates s t v ↔
      ∃ path, M.fst.Accepts path ∧ M.fst.istring path = s ∧ M.fst.ostring path = t ∧
        v = convertWeight (pathWeight w path) := by
  have hshape : (toStd (weighted M.fst w)).shape = M.fst.shape :=
    (shape_toStd _).trans (shape_weighted M.fst w)
  have hin (path : List ℕ) : (toStd (weighted M.fst w)).istring path = M.fst.istring path := by
    rw [← VectorFst.istring_shape, hshape, VectorFst.istring_shape]
  have hout (path : List ℕ) : (toStd (weighted M.fst w)).ostring path = M.fst.ostring path := by
    rw [← VectorFst.ostring_shape, hshape, VectorFst.ostring_shape]
  have haccepts (path : List ℕ) : (toStd (weighted M.fst w)).Accepts path ↔ M.fst.Accepts path := by
    rw [← VectorFst.accepts_shape, hshape, VectorFst.accepts_shape]
  have hweight {path : List ℕ} {q : ℕ} (hpath : (toStd (weighted M.fst w)).AcceptsAt path q) :
      (toStd (weighted M.fst w)).weight path q = convertWeight (pathWeight w path) :=
    weight_toStd_weighted h hw ((VectorFst.acceptsAt_map _ _ _).mp hpath)
  constructor
  · rintro ⟨path, q, hpath, rfl, rfl, rfl⟩
    exact ⟨path, (haccepts path).mp ⟨q, hpath⟩, (hin path).symm, (hout path).symm, hweight hpath⟩
  · rintro ⟨path, hpath, rfl, rfl, rfl⟩
    obtain ⟨q, hq⟩ := (haccepts path).mpr hpath
    exact ⟨path, q, hq, hin path, hout path, hweight hq⟩

/-- No probability is more than 1. -/
theorem probs_le_one (h : contextualEdit LogWeight ord args = some M) (hV : args.Valid)
    (hu : args.sizes.ulcMax ≤ 1) (hl : args.sizes.llcMax ≤ 1) (hr : 1 ≤ args.sizes.urcMax)
    (hnormalised : m.Normalised args) (e : ℕ) : M.probs args m e ≤ 1 := by
  have hM := (normalised_probs_iff h hV hu hl hr).mpr hnormalised
  by_cases he : e < M.fst.numArcs
  · obtain ⟨q, a, ha⟩ := VectorFst.exists_arc? he
    rw [← hM q a.ilabel ⟨e, a, ha, rfl⟩]
    exact ENNReal.le_tsum (⟨e, a, ha, rfl⟩ : M.fst.group q a.ilabel)
  · have hnone : M.record? args e = none := by
      rw [Option.eq_none_iff_forall_ne_some]
      intro r hrecord
      obtain ⟨⟨q, a⟩, ha, -⟩ := Option.bind_eq_some_iff.mp hrecord
      exact he (VectorFst.lt_numArcs_of_arc? ha)
    unfold Machine.probs
    rw [hnone]
    exact zero_le_one

variable (h : contextualEdit LogWeight ord args = some M) (hV : args.Valid)
  (hu : args.sizes.ulcMax ≤ 1)
  (hl : args.sizes.llcMax ≤ 1) (hr : 1 ≤ args.sizes.urcMax) (hx : ∀ s ∈ x, s ∈ args.V1)

include h hV hu hl hr hx

/-- The machine of the outputs has the alignments of the input with all lower strings. -/
theorem relates_outputs {comp : Composer} (hcomp : ∀ A B, IsComposition A B (comp A B))
    (hm : ∀ c o, m c o ≠ ⊤) {s t : List ℤ} {v : StdWeight} :
    (VectorFst.compose comp (toStd (goldFst ((x ++ padding args).map (idIn args))))
      (toStd (weighted M.fst (M.probs args m)))).Relates s t v ↔
        s = (x ++ padding args).map (idIn args) ∧ ∃ y ∈ LowerStrings args, t = y.map (idOut args) ∧
          ∃ es ∈ scripts x y, v = Tropical.trop (cost args m x es) := by
  have hgold := @relates_stringFst _ (idIn_padded_ne_zero hV.unreserved hx)
  rw [VectorFst.relates_compose (hcomp _ _), toStd_goldFst]
  simp only [relates_toStd_weighted h (probs_ne_top hm M)]
  constructor
  · rintro ⟨u, w₁, w₂, hinput, ⟨path, haccepts, hin, rfl, rfl⟩, rfl⟩
    obtain ⟨rfl, rfl, rfl⟩ := hgold.mp hinput
    have hread : path ∈ M.reads args (x ++ padding args) :=
      ⟨haccepts, (spells_iff hV (mem_padded hx)).mpr hin⟩
    rw [reads_eq_iUnion h hV hu hl hr] at hread
    obtain ⟨⟨y, hy⟩, hpath⟩ := Set.mem_iUnion.mp hread
    refine ⟨rfl, y, hy, (spells_out_iff hV hy).mp hpath.2.2, M.edits args path,
      (edits_bijOn h hV hu hl hr hx hy).mapsTo hpath, ?_⟩
    rw [one_mul, pathWeight_labels h hV hu hl hr m hx hy hpath]
    rfl
  · rintro ⟨rfl, y, hy, rfl, es, hes, rfl⟩
    obtain ⟨path, hpath, rfl⟩ := (edits_bijOn h hV hu hl hr hx hy).surjOn hes
    refine ⟨_, 1, _, hgold.mpr ⟨rfl, rfl, rfl⟩,
      ⟨path, hpath.1, (spells_iff hV (mem_padded hx)).mp hpath.2.1,
      (spells_out_iff hV hy).mp hpath.2.2, rfl⟩, ?_⟩
    rw [one_mul, pathWeight_labels h hV hu hl hr m hx hy hpath]
    rfl

/-- There is an output that is best. -/
theorem exists_bestOutput (hnormalised : m.Normalised args) : ∃ z, BestOutput args m x z := by
  have hne : (M.reads args (x ++ padding args)).Nonempty := by
    have hempty : ∀ s ∈ ([] : List Sym), s ∈ args.V2 := by simp
    obtain ⟨path, hpath, -⟩ :=
      (edits_bijOn h hV hu hl hr hx hempty).surjOn (rewriteAll_mem_scripts x [])
    exact ⟨path, hpath.1, hpath.2.1⟩
  have harcs : ∀ path ∈ M.reads args (x ++ padding args), ∀ e ∈ path,
      e ∈ Finset.range M.fst.numArcs := by
    rintro path ⟨⟨q, hq⟩, -⟩ e he
    obtain ⟨r, a, ha⟩ := VectorFst.exists_arc_of_mem hq he
    exact Finset.mem_range.mpr (VectorFst.lt_numArcs_of_arc? ha)
  obtain ⟨path, hpath, hmost⟩ :=
    exists_heaviest (probs_le_one h hV hu hl hr hnormalised) _ harcs hne
  have hleast : IsLeast (⋃ y ∈ LowerStrings args, cost args m x '' scripts x y)
      (value (pathWeight (M.probs args m) path)) := by
    rw [← image_reads h hV hu hl hr m hx]
    refine ⟨Set.mem_image_of_mem _ hpath, ?_⟩
    rintro _ ⟨path', hpath', rfl⟩
    exact value_le_value (hmost path' hpath')
  obtain ⟨z, hz, es, hes, heq⟩ := Set.mem_iUnion₂.mp hleast.1
  exact ⟨z, hz, es, hes, heq ▸ hleast⟩

/-- The output that `ShortestPath` keeps is best. -/
theorem exists_selectsOutput {lib : Library} (hlib : Documented lib)
    (hnormalised : m.Normalised args) (hpos : ∀ c o, m c o ≠ 0) (hm : ∀ c o, m c o ≠ ⊤) :
    let final := VectorFst.compose lib.compose
      (toStd (goldFst ((x ++ padding args).map (idIn args))))
      (toStd (weighted M.fst (M.probs args m)))
    (∃ st, IsBest final st) ∧ ∃ z, BestOutput args m x z ∧
      SelectsOutput lib final (z.map (idOut args)) := by
  intro final
  have hrelates {s t : List ℤ} {v : StdWeight} : final.Relates s t v ↔ _ :=
    relates_outputs h hV hu hl hr hx (fun A B => (hlib.exact A B).toIsComposition) hm
  have hbest : ∃ st, IsBest final st := by
    obtain ⟨z, hz, es, hes, hleast⟩ := exists_bestOutput h hV hu hl hr hx hnormalised
    refine ⟨((x ++ padding args).map (idIn args), z.map (idOut args)),
      Tropical.trop (cost args m x es),
      hrelates.mpr ⟨rfl, z, hz, rfl, es, hes, rfl⟩, fun hzero => ?_, fun s t v hv => ?_⟩
    · have hcost : cost args m x es = ⊤ := Tropical.trop_injective hzero
      rw [cost, value, EReal.neg_eq_top_iff, ENNReal.log_eq_bot_iff] at hcost
      exact scriptProb_ne_zero hpos hes.1 hcost
    · obtain ⟨-, y, hy, -, es', hes', rfl⟩ := hrelates.mp hv
      exact hleast.2 (Set.mem_biUnion hy ⟨es', hes', rfl⟩)
  refine ⟨hbest, ?_⟩
  obtain ⟨t, s, v, hv, hleast, hpath⟩ := hlib.selects final hbest
  obtain ⟨-, z, hz, rfl, es, hes, rfl⟩ := hrelates.mp hv
  refine ⟨z, ⟨hz, es, hes, Set.mem_biUnion hz ⟨es, hes, rfl⟩, ?_⟩, s, _, hv, hleast, hpath⟩
  intro c hc
  obtain ⟨y, hy, es', hes', rfl⟩ := Set.mem_iUnion₂.mp hc
  exact hleast _ _ _ (hrelates.mpr ⟨rfl, y, hy, rfl, es', hes', rfl⟩)

end Best

section OneBest
variable {lib : Library} {ord : HashOrder} {args : Args} {M : Machine LogWeight} {m : EditModel}
  {w : ℕ → LogWeight}

/-- The gold output is compared with the reversed output. -/
theorem pairScore_weighted (hV : args.Valid) (hlib : Documented lib) {p : List Sym × List Sym}
    (hp : Over args p) {z : List Sym} (hz : ∀ s ∈ z, s ∈ args.V2)
    (hbest : ∃ st, IsBest
      (VectorFst.compose lib.compose (toStd (exemplar args p).1) (toStd (weighted M.fst w))) st)
    (hselects : SelectsOutput lib (VectorFst.compose lib.compose (toStd (exemplar args p).1)
      (toStd (weighted M.fst w))) (z.map (idOut args)))
    (n : ℕ) (testData : List (VectorFst LogWeight × VectorFst LogWeight)) :
    (evaluator (weighted M.fst w) args.symsIn args.symsOut n testData).pairScore lib
      (exemplar args p) = if Known args p.2 then (levenshtein p.2 z.reverse : EReal) else ⊤ := by
  have hgold {s t : List ℤ} {v : StdWeight} : (toStd (exemplar args p).2).Relates s t v ↔
      s = p.2.map (idOut args) ∧ t = p.2.map (idOut args) ∧ v = 1 := by
    unfold exemplar
    rw [toStd_goldFst]
    exact relates_stringFst (idOut_ne_zero_of_mem hV.unreserved hp.2)
  have hscore := @shortestDistance_between lib.compose (fun A B => (hlib.exact A B).toIsComposition)
    args.symsIn args.symsOut _ _ _ _ hgold (relates_reversed hselects (hlib.reverses _ hbest))
  have hknown := known_iff hV hp.2
  have hlower : ∀ l ∈ (z.map (idOut args)).reverse, l ∈ ids args.symsOut := fun l hl =>
    mem_ids_lower hV hz l (List.mem_reverse.mp hl)
  have hdist : levenshtein (p.2.map (idOut args)) (z.map (idOut args)).reverse =
      levenshtein p.2 z.reverse := by
    rw [← List.map_reverse]
    apply levenshtein_map
    exact idOut_injOn hV hp.2 fun s hs => hz s (List.mem_reverse.mp hs)
  refine Eq.trans hscore ?_
  by_cases hp' : Known args p.2
  · rw [if_pos ⟨hknown.mpr hp', hlower⟩, if_pos hp', hdist]
  · rw [if_neg fun hboth => hp' (hknown.mp hboth.1), if_neg hp']

/-- For each pair the gold output is compared with a reversed best output. -/
theorem oneBestEdit_weighted (h : contextualEdit LogWeight ord args = some M) (hV : args.Valid)
    (hu : args.sizes.ulcMax ≤ 1) (hl : args.sizes.llcMax ≤ 1) (hr : 1 ≤ args.sizes.urcMax)
    (hlib : Documented lib) (hnormalised : m.Normalised args) (hpos : ∀ c o, m c o ≠ 0)
    (hm : ∀ c o, m c o ≠ ⊤) {pairs : List (List Sym × List Sym)} (hpairs : ∀ p ∈ pairs, Over args p)
    (n : ℕ) :
    ∃ z : List Sym → List Sym, (∀ p ∈ pairs, BestOutput args m p.1 (z p.1)) ∧
      (evaluator (weighted M.fst (M.probs args m)) args.symsIn args.symsOut n
        (pairs.map (exemplar args))).oneBestEdit lib =
          if ∀ p ∈ pairs, Known args p.2
            then ((pairs.map fun p => levenshtein p.2 (z p.1).reverse).sum : EReal)
          else ⊤ := by
  have hchoice (x : List Sym) : ∃ z, (∀ s ∈ x, s ∈ args.V1) → BestOutput args m x z ∧
      SelectsOutput lib
        (VectorFst.compose lib.compose (toStd (goldFst ((x ++ padding args).map (idIn args))))
        (toStd (weighted M.fst (M.probs args m)))) (z.map (idOut args)) := by
    by_cases hx : ∀ s ∈ x, s ∈ args.V1
    · obtain ⟨-, z, hz⟩ := exists_selectsOutput h hV hu hl hr hx hlib hnormalised hpos hm
      exact ⟨z, fun _ => hz⟩
    · exact ⟨[], fun hx' => absurd hx' hx⟩
  choose z hz using hchoice
  refine ⟨z, fun p hp => (hz p.1 (hpairs p hp).1).1, ?_⟩
  have hpair : ∀ p ∈ pairs, (evaluator (weighted M.fst (M.probs args m)) args.symsIn args.symsOut n
      (pairs.map (exemplar args))).pairScore lib (exemplar args p) =
        if Known args p.2 then (levenshtein p.2 (z p.1).reverse : EReal) else ⊤ := by
    intro p hp
    obtain ⟨hbest, hselects⟩ := hz p.1 (hpairs p hp).1
    exact pairScore_weighted hV hlib (hpairs p hp) hbest.1
      (exists_selectsOutput h hV hu hl hr (hpairs p hp).1 hlib hnormalised hpos hm).1 hselects n _
  have hsum := sum_ite_top (fun p : List Sym × List Sym => Known args p.2)
    (fun p => levenshtein p.2 (z p.1).reverse) pairs
  rw [Evaluator.oneBestEdit, oneBestLoop_eq, zero_add]
  refine Eq.trans ?_ hsum
  show ((pairs.map (exemplar args)).map _).sum = _
  rw [List.map_map]
  exact congrArg List.sum (List.map_congr_left hpair)

end OneBest

end StochasticEdit.Pipeline
