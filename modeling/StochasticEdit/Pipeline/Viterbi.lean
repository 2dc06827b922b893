import StochasticEdit.Evaluation.Strings
import StochasticEdit.Pipeline.LogLoss
import StochasticEdit.Pipeline.Progress

/-! What the decoders score. The tropical lattices have the paths of the other ones, and the
least weight of a path is the cost of the most probable alignment: of the two given strings
for `alignment_decode_forced`, of the input and any output for `alignment_decode`. -/

namespace StochasticEdit.Pipeline

open Wfst Generator Features Trainer Evaluation Text
open scoped ENNReal

/-! ### Tropical weights -/

section Tropical
variable {F : VectorFst LogWeight} {p : List ℕ} {q : ℕ}

theorem convertWeight_mul {a b : LogWeight} (ha : a ≠ ⊤) (hb : b ≠ ⊤) :
    convertWeight (a * b) = convertWeight a * convertWeight b := by
  unfold convertWeight
  rw [value_mul ha hb]
  rfl

theorem weightAt_toStd (F : VectorFst LogWeight) (o : Option ℕ) :
    (toStd F).weightAt o = convertWeight (F.weightAt o) := by
  cases o with
  | none => exact convertWeight_one.symm
  | some e =>
    unfold VectorFst.weightAt toStd
    rw [Option.bind_some, Option.bind_some, VectorFst.arc?_map]
    cases F.arc? e with
    | none => exact convertWeight_one.symm
    | some r => rfl

theorem finalAt_toStd (F : VectorFst LogWeight) (o : Option ℕ) :
    (toStd F).finalAt o = convertWeight (F.finalAt o) := by
  cases o with
  | none => exact convertWeight_one.symm
  | some q =>
    unfold VectorFst.finalAt toStd
    rw [Option.bind_some, Option.bind_some, VectorFst.final?_map]
    cases F.final? q with
    | none => exact convertWeight_one.symm
    | some x => rfl

/-- A path of the converted machine weighs the converted weight. -/
theorem weight_toStd (hp : ∀ e ∈ p, F.weightAt (some e) ≠ ⊤) (hq : F.finalAt (some q) ≠ ⊤) :
    (toStd F).weight p q = convertWeight (F.weight p q) := by
  induction p with
  | nil =>
    unfold VectorFst.weight
    rw [List.map_nil, List.map_nil, List.prod_nil, List.prod_nil, one_mul, one_mul, finalAt_toStd]
  | cons e p ih =>
    have hrest : ∀ f ∈ p, F.weightAt (some f) ≠ ⊤ := fun f hf => hp f (by simp [hf])
    have htail : F.weight p q ≠ ⊤ := by
      apply ENNReal.mul_ne_top
      · exact pathWeight_ne_top hrest
      · exact hq
    have hcons {V : Type} [CommMonoid V] (G : VectorFst V) : G.weight (e :: p) q =
        G.weightAt (some e) * G.weight p q := by
      unfold VectorFst.weight
      rw [List.map_cons, List.prod_cons, mul_assoc]
    rw [hcons, hcons, ih hrest, weightAt_toStd, convertWeight_mul (hp e (by simp)) htail]

/-- Relabelling leaves the paths, -/
theorem acceptsAt_relabelled {V : Type*} (S : VectorFst Origin) (table : List (Sym × ℤ))
    (f : Origin → FeatureWeight) (g h : Origin → V) (p : List ℕ) (q : ℕ) :
    (S.mapArcs (relabelled table f g) h).AcceptsAt p q ↔ S.AcceptsAt p q :=
  VectorFst.acceptsAt_mapArcs h _ fun _ => rfl

/-- and their weights. -/
theorem weight_relabelled {V : Type*} [CommMonoid V] (S : VectorFst Origin) (table : List (Sym × ℤ))
    (f : Origin → FeatureWeight) (g h : Origin → V) (p : List ℕ) (q : ℕ) :
    (S.mapArcs (relabelled table f g) h).weight p q = (S.map g h).weight p q := by
  have harc (e : ℕ) : (S.mapArcs (relabelled table f g) h).weightAt (some e) =
      (S.map g h).weightAt (some e) := by
    unfold VectorFst.weightAt
    rw [Option.bind_some, Option.bind_some, VectorFst.arc?_mapArcs, VectorFst.arc?_map]
    cases S.arc? e <;> rfl
  have hfinal : (S.mapArcs (relabelled table f g) h).finalAt (some q) =
      (S.map g h).finalAt (some q) := by
    unfold VectorFst.finalAt
    rw [Option.bind_some, Option.bind_some, VectorFst.final?_mapArcs, VectorFst.final?_map]
  unfold VectorFst.weight
  rw [hfinal]
  apply congrArg (· * _)
  apply congrArg List.prod
  exact List.map_congr_left fun e _ => harc e

/-- The distance of a machine whose paths have converted weights. -/
theorem shortestDistance_of_weights {final : VectorFst StdWeight} {f : List ℕ → LogWeight}
    (h : ∀ p q, final.AcceptsAt p q → final.weight p q = convertWeight (f p)) :
    shortestDistance final = sInf ((fun p => value (f p)) '' {p | final.Accepts p}) := by
  unfold shortestDistance
  apply congrArg sInf
  ext c
  constructor
  · rintro ⟨s, t, p, q, hpath, -, -, hc⟩
    rw [h p q hpath] at hc
    exact ⟨p, ⟨q, hpath⟩, Tropical.trop_injective hc⟩
  · rintro ⟨p, ⟨q, hpath⟩, rfl⟩
    exact ⟨_, _, p, q, hpath, rfl, rfl, h p q hpath⟩

end Tropical

/-! ### The decoded machines -/

section Machines
variable {comp : Composer} {ord : HashOrder} {args : Args} {M : Machine LogWeight}
  {p : List Sym × List Sym} {w : ℕ → LogWeight} (isymbols osymbols : List (Sym × ℤ)) (n : ℕ)
  (testData : List (VectorFst LogWeight × VectorFst LogWeight))

theorem realFinals_weighted (h : contextualEdit LogWeight ord args = some M) (w : ℕ → LogWeight) :
    RealFinals (weighted M.fst w) := by
  intro q x hx
  rw [final?_eq_one h w hx]
  exact ⟨one_ne_zero, ENNReal.one_ne_top⟩

theorem composable_of_shape {F G : VectorFst LogWeight}
    {exemplar : VectorFst LogWeight × VectorFst LogWeight} (h : Composable comp F exemplar)
    (hshape : G.shape = F.shape) (hG : RealFinals G) :
    Composable comp G exemplar := by
  have hmedial : medialOrigins comp G exemplar.1 = medialOrigins comp F exemplar.1 := by
    rw [medialOrigins, medialOrigins, hshape]
  have hlattice : latticeOrigins comp G exemplar = latticeOrigins comp F exemplar := by
    rw [latticeOrigins, latticeOrigins, hmedial]
  refine ⟨⟨hG, ?_, ?_⟩, h.input, h.output⟩
  · rw [hmedial, hshape]
    exact h.medial
  · rw [hlattice, hmedial]
    exact h.lattice

theorem toStd_goldFst (s : List ℤ) : toStd (goldFst s) = linear StdWeight (s.map fun l => (l, l)) :=
  map_linear convertWeight_one _

/-- A path of the converted machine weighs what its arcs cost. -/
theorem weight_toStd_weighted (h : contextualEdit LogWeight ord args = some M) (hw : ∀ e, w e ≠ ⊤)
    {path : List ℕ} {q : ℕ} (hpath : (weighted M.fst w).AcceptsAt path q) :
    (toStd (weighted M.fst w)).weight path q = convertWeight (pathWeight w path) := by
  rw [weight_toStd, weight_weighted h w hpath]
  · intro e he
    obtain ⟨r, a, ha⟩ := VectorFst.exists_arc_of_mem hpath he
    have hlt := VectorFst.lt_numArcs_of_arc? ha
    rw [numArcs_weighted] at hlt
    rw [weightAt_weighted hlt]
    exact hw e
  · exact (realFinals_weighted h w).finalAt_ne_top _

/-- The machine of `alignment_decode_forced` has the paths of the lattice, with their costs. -/
theorem exists_forced (h : contextualEdit LogWeight ord args = some M) (hV : args.Valid)
    (hw : ∀ e, w e ≠ ⊤) (hp : Over args p) (hexact : TrimmedLattice comp M.fst (exemplar args p)) :
    ∃ forced,
      (evaluator (weighted M.fst w) isymbols osymbols n testData).alignmentDecodeForced comp
        (exemplar args p).1 (exemplar args p).2 = some forced ∧
      (∀ path, forced.Accepts path ↔ (latticeOrigins comp M.fst (exemplar args p)).Accepts path) ∧
      ∀ path q, forced.AcceptsAt path q →
        forced.weight path q = convertWeight
          (pathWeight w (machinePath comp M.fst (exemplar args p) path)) := by
  have hshape : (weighted M.fst w).shape = M.fst.shape := shape_weighted M.fst w
  have hcomposable : Composable comp (weighted M.fst w) (exemplar args p) :=
    composable_of_shape (hexact.composable h hV hp) hshape (realFinals_weighted h w)
  have horigins : latticeOrigins comp (weighted M.fst w) (exemplar args p) =
      latticeOrigins comp M.fst (exemplar args p) := by
    unfold latticeOrigins medialOrigins
    rw [hshape]
  refine ⟨_, alignmentDecodeForced_eq hcomposable, fun path => ?_, fun path q hpath => ?_⟩
  · rw [horigins]
    exact exists_congr fun q => acceptsAt_relabelled _ _ _ _ _ path q
  · rw [horigins] at hpath
    have haccepts := (acceptsAt_relabelled _ _ _ _ _ path q).mp hpath
    have hstd : (toStd (weighted M.fst w)).shape = M.fst.shape := (shape_toStd _).trans hshape
    obtain ⟨q', hq', hweight⟩ := weight_latticeOf hstd hexact.toExactLattice haccepts
    rw [weight_relabelled]
    refine Eq.trans ?_
      (hweight.trans (weight_toStd_weighted h hw ((VectorFst.acceptsAt_map _ _ _).mp hq')))
    rw [latticeOf, ← toStd_goldFst, ← toStd_goldFst]
    unfold VectorFst.compose
    simp only [VectorFst.shape_map, shape_toStd]
    rfl

/-- The machine of `alignment_decode` has the paths of the medial machine, with their costs. -/
theorem exists_decoded (h : contextualEdit LogWeight ord args = some M) (hV : args.Valid)
    (hw : ∀ e, w e ≠ ⊤) (hp : Over args p) (hexact : ExactLattice comp M.fst (exemplar args p)) :
    ∃ final,
      (evaluator (weighted M.fst w) isymbols osymbols n testData).alignmentDecode comp
        (exemplar args p).1 =
        some final ∧
      (∀ path, final.Accepts path ↔ (medialOrigins comp M.fst (exemplar args p).1).Accepts path) ∧
      ∀ path q, final.AcceptsAt path q → final.weight path q =
        convertWeight
          (pathWeight w ((medialOrigins comp M.fst (exemplar args p).1).rightPath path)) := by
  have hshape : (weighted M.fst w).shape = M.fst.shape := shape_weighted M.fst w
  have hinput : IsAcceptor (exemplar args p).1 :=
    isAcceptor_goldFst (idIn_padded_ne_zero hV.unreserved hp.1)
  have horigins : medialOrigins comp (weighted M.fst w) (exemplar args p).1 =
      medialOrigins comp M.fst (exemplar args p).1 := by
    unfold medialOrigins
    rw [hshape]
  refine ⟨_, alignmentDecode_eq (realFinals_weighted h w) hinput.final, fun path => ?_,
    fun path q hpath => ?_⟩
  · rw [horigins]
    exact exists_congr fun q => acceptsAt_relabelled _ _ _ _ _ path q
  · rw [horigins] at hpath
    have haccepts := (acceptsAt_relabelled _ _ _ _ _ path q).mp hpath
    have hstd : (toStd (weighted M.fst w)).shape = M.fst.shape := (shape_toStd _).trans hshape
    obtain ⟨q', hq', hweight⟩ := weight_medial hstd hexact.medial haccepts
    rw [weight_relabelled]
    refine Eq.trans ?_
      (hweight.trans (weight_toStd_weighted h hw ((VectorFst.acceptsAt_map _ _ _).mp hq')))
    rw [← toStd_goldFst]
    unfold VectorFst.compose
    rw [shape_toStd, shape_toStd]
    rfl

end Machines

/-! ### Costs of alignments -/

section Costs
variable {ord : HashOrder} {args : Args} {M : Machine LogWeight} {m : EditModel} {x y : List Sym}

theorem value_le_value {a b : LogWeight} (h : a ≤ b) : value b ≤ value a :=
  EReal.neg_le_neg_iff.mpr (ENNReal.log_monotone h)

/-- The cost of a script. -/
noncomputable def cost (args : Args) (m : EditModel) (x : List Sym) (es : List Edit) : EReal :=
  value (scriptProb args m [] x [] es)

theorem probs_ne_top (hm : ∀ c o, m c o ≠ ⊤) (M : Machine LogWeight) (e : ℕ) :
    M.probs args m e ≠ ⊤ := by
  unfold Machine.probs
  cases M.record? args e with
  | none => exact ENNReal.zero_ne_top
  | some r =>
    rw [Option.elim_some]
    split_ifs
    · exact ENNReal.one_ne_top
    · exact hm _ _

/-- No alignment costs less than the pair. -/
theorem value_editProb_le {es : List Edit} (hes : es ∈ scripts x y) :
    value (editProb args m x y) ≤ cost args m x es :=
  value_le_value (ENNReal.le_tsum (⟨es, hes⟩ : scripts x y))

theorem editProb_eq_sum (m : EditModel) (x y : List Sym) :
    editProb args m x y = ∑ es ∈ (scripts_finite x y).toFinset, scriptProb args m [] x [] es := by
  unfold editProb
  rw [tsum_subtype (scripts x y) (scriptProb args m [] x []),
    tsum_eq_sum (s := (scripts_finite x y).toFinset)]
  · apply Finset.sum_congr rfl
    intro es hes
    exact Set.indicator_of_mem ((scripts_finite x y).mem_toFinset.mp hes) _
  · intro es hes
    exact Set.indicator_of_notMem (fun h => hes ((scripts_finite x y).mem_toFinset.mpr h)) _

/-- An alignment that costs least costs no more than the pair and the logarithm of the number
of alignments. -/
theorem cost_le_of_isLeast {c : EReal} (hc : IsLeast (cost args m x '' scripts x y) c) :
    c ≤ value (editProb args m x y) + (Real.log (delannoy x.length y.length) : EReal) := by
  obtain ⟨⟨best, hbest, rfl⟩, hleast⟩ := hc
  let N := delannoy x.length y.length
  have hmost : ∀ es ∈ scripts x y, scriptProb args m [] x [] es ≤
      scriptProb args m [] x [] best := by
    intro es hes
    have hle := hleast ⟨es, hes, rfl⟩
    exact ENNReal.log_le_log_iff.mp (EReal.neg_le_neg_iff.mp hle)
  have hcard : (scripts_finite x y).toFinset.card = N := by
    have hencard := encard_scripts x y
    rw [(scripts_finite x y).encard_eq_coe_toFinset_card] at hencard
    exact_mod_cast hencard
  have hpos : 0 < N := hcard ▸ Finset.card_pos.mpr
    ⟨best, (scripts_finite x y).mem_toFinset.mpr hbest⟩
  have hsum : editProb args m x y ≤ N * scriptProb args m [] x [] best := by
    calc editProb args m x y = ∑ es ∈ (scripts_finite x y).toFinset, scriptProb args m [] x [] es :=
      editProb_eq_sum m x y
      _ ≤ (scripts_finite x y).toFinset.card • scriptProb args m [] x [] best :=
          Finset.sum_le_card_nsmul _ _ _ fun es hes =>
            hmost es ((scripts_finite x y).mem_toFinset.mp hes)
      _ = N * scriptProb args m [] x [] best := by rw [hcard, nsmul_eq_mul]
  have hlog : ENNReal.log (N : ℝ≥0∞) = (Real.log N : EReal) := by
    rw [← ENNReal.ofReal_natCast, ENNReal.log_ofReal_of_pos (Nat.cast_pos.mpr hpos)]
  have hvalue : cost args m x best - (Real.log N : EReal) ≤ value (editProb args m x y) := by
    refine le_trans (le_of_eq ?_) (value_le_value hsum)
    rw [value, ENNReal.log_mul_add, hlog,
      EReal.neg_add (.inl (EReal.coe_ne_bot _)) (.inl (EReal.coe_ne_top _)),
      sub_eq_add_neg, sub_eq_add_neg, add_comm]
    rfl
  calc cost args m x best = cost args m x best - (Real.log N : EReal) + (Real.log N : EReal) :=
        EReal.sub_add_cancel.symm
    _ ≤ _ := add_le_add_left hvalue _

/-- The costs of the readings of an input are those of the scripts for any output. -/
theorem image_reads (h : contextualEdit LogWeight ord args = some M) (hV : args.Valid)
    (hu : args.sizes.ulcMax ≤ 1) (hl : args.sizes.llcMax ≤ 1) (hr : 1 ≤ args.sizes.urcMax)
    (m : EditModel) (hx : ∀ s ∈ x, s ∈ args.V1) :
    (fun path => value (pathWeight (M.probs args m) path)) '' M.reads args (x ++ padding args) =
      ⋃ y ∈ LowerStrings args, cost args m x '' scripts x y := by
  rw [reads_eq_iUnion h hV hu hl hr]
  ext c
  simp only [Set.image_iUnion, Set.mem_iUnion]
  constructor
  · rintro ⟨⟨y, hy⟩, path, hpath, rfl⟩
    have hscript := (edits_bijOn h hV hu hl hr hx hy).mapsTo hpath
    exact ⟨y, hy, _, hscript, congrArg value (pathWeight_labels h hV hu hl hr m hx hy hpath).symm⟩
  · rintro ⟨y, hy, es, hes, rfl⟩
    obtain ⟨path, hpath, rfl⟩ := (edits_bijOn h hV hu hl hr hx hy).surjOn hes
    exact ⟨⟨y, hy⟩, path, hpath, congrArg value (pathWeight_labels h hV hu hl hr m hx hy hpath)⟩

end Costs

/-- Both decoders return for every pair over the alphabets. The score of
`alignment_decode_forced` is the cost of a most probable alignment, which the path of least
weight spells out. It is at least the cost of the pair, and at most the logarithm of the
number of alignments more. The score of `alignment_decode` is the least cost over all
outputs. -/
theorem alignments_decoded (ord : HashOrder) (args : Args) (hV : args.Valid)
    (hu : args.sizes.ulcMax ≤ 1) (hl : args.sizes.llcMax ≤ 1) (hr : 1 ≤ args.sizes.urcMax) :
    ∃ M, contextualEdit LogWeight ord args = some M ∧
      ∀ (lib : Library) (m : EditModel) (p : List Sym × List Sym), (∀ c o, m c o ≠ ⊤) →
        Over args p →
        TrimmedLattice lib.compose M.fst (exemplar args p) → ∀ isymbols osymbols n testData,
          let ev := evaluator (weighted M.fst (M.probs args m)) isymbols osymbols n testData
          ∃ final forced, ev.alignmentDecode lib.compose (exemplar args p).1 = some final ∧
            ev.alignmentDecodeForced lib.compose (exemplar args p).1 (exemplar args p).2 =
              some forced ∧
            (∀ path q, forced.AcceptsAt path q → (forced.weight path q).untrop =
              cost args m p.1 (latticeScript lib.compose args M p path)) ∧
            IsLeast (cost args m p.1 '' scripts p.1 p.2) (ev.decoded lib forced).2 ∧
            value (editProb args m p.1 p.2) ≤ (ev.decoded lib forced).2 ∧
            (ev.decoded lib forced).2 ≤ value (editProb args m p.1 p.2) +
              (Real.log (delannoy p.1.length p.2.length) : EReal) ∧
            IsGLB (⋃ y ∈ LowerStrings args, cost args m p.1 '' scripts p.1 y)
              (ev.decoded lib final).2 := by
  obtain ⟨M, h⟩ := exists_contextualEdit LogWeight ord (.inl hu : Completes args)
  refine ⟨M, h, fun lib m p hm hp hexact isymbols osymbols n testData => ?_⟩
  have hw : ∀ e, M.probs args m e ≠ ⊤ := probs_ne_top hm M
  obtain ⟨final, hfinal, hpaths, hweights⟩ :=
    exists_decoded isymbols osymbols n testData h hV hw hp hexact.toExactLattice
  obtain ⟨forced, hforced, hpaths', hweights'⟩ :=
    exists_forced isymbols osymbols n testData h hV hw hp hexact
  have hbij := latticeScript_bijOn h hV hu hl hr hp hexact.toExactLattice
  have hcost (path : List ℕ) (hpath : forced.Accepts path) :
      value (pathWeight (M.probs args m) (machinePath lib.compose M.fst (exemplar args p) path)) =
        cost args m p.1 (latticeScript lib.compose args M p path) := by
    have hlabels := machinePath_labels hV hp hexact.toExactLattice ((hpaths' path).mp hpath)
    exact congrArg value (pathWeight_labels h hV hu hl hr m hp.1 hp.2 hlabels)
  have hscore : IsLeast (cost args m p.1 '' scripts p.1 p.2) (shortestDistance forced) := by
    have himage : (fun path => value (pathWeight (M.probs args m)
        (machinePath lib.compose M.fst (exemplar args p) path))) '' {path | forced.Accepts path} =
          cost args m p.1 '' scripts p.1 p.2 := by
      have hset : {path | forced.Accepts path} =
          {path | (latticeOrigins lib.compose M.fst (exemplar args p)).Accepts path} :=
            Set.ext hpaths'
      rw [← hbij.image_eq, Set.image_image, ← hset]
      exact Set.image_congr hcost
    rw [shortestDistance_of_weights hweights', himage]
    have hfinite : (cost args m p.1 '' scripts p.1 p.2).Finite := (scripts_finite p.1 p.2).image _
    have hne : (cost args m p.1 '' scripts p.1 p.2).Nonempty :=
      ⟨_, _, rewriteAll_mem_scripts p.1 p.2, rfl⟩
    exact ⟨hne.csInf_mem hfinite, fun c hc => sInf_le hc⟩
  refine ⟨final, forced, hfinal, hforced, fun path q hpath => ?_, hscore, ?_,
    cost_le_of_isLeast hscore, ?_⟩
  · rw [hweights' path q hpath, convertWeight, Tropical.untrop_trop]
    exact hcost path ⟨q, hpath⟩
  · obtain ⟨es, hes, heq⟩ := hscore.1
    exact (value_editProb_le hes).trans_eq heq
  · show IsGLB _ (shortestDistance final)
    have hreads : M.reads args (p.1 ++ padding args) =
        {path | M.fst.Accepts path ∧
          M.fst.istring path = (p.1 ++ padding args).map (idIn args)} := by
      ext path
      exact and_congr_right fun _ => spells_iff hV (mem_padded hp.1)
    have hright := rightPath_bijOn (idIn_padded_ne_zero hV.unreserved hp.1) hexact.medial
    have hset : {path | final.Accepts path} =
        {path | (medialOrigins lib.compose M.fst (exemplar args p).1).Accepts path} :=
          Set.ext hpaths
    rw [shortestDistance_of_weights hweights, ← image_reads h hV hu hl hr m hp.1,
      hreads, ← hright.image_eq, Set.image_image, hset]
    exact isGLB_sInf _

theorem alignments_decoded_one_one_one : ∃ M m,
    contextualEdit LogWeight insertionOrder (smallArgs ⟨1, 1, 1⟩) = some M ∧
    EditModel.Normalised (smallArgs ⟨1, 1, 1⟩) m ∧
    ∃ final forced,
      (evaluator (weighted M.fst (M.probs (smallArgs ⟨1, 1, 1⟩) m)) [] [] 0 []).alignmentDecode
        trimmedProduct (exemplar (smallArgs ⟨1, 1, 1⟩) (["a"], ["b"])).1 = some final ∧
      IsLeast (cost (smallArgs ⟨1, 1, 1⟩) m ["a"] '' scripts ["a"] ["b"])
        (shortestDistance forced) ∧
      IsGLB (⋃ y ∈ LowerStrings (smallArgs ⟨1, 1, 1⟩),
        cost (smallArgs ⟨1, 1, 1⟩) m ["a"] '' scripts ["a"] y) (shortestDistance final) := by
  obtain ⟨M, h, hall⟩ := alignments_decoded insertionOrder (smallArgs ⟨1, 1, 1⟩) (smallArgs_valid _)
    le_rfl le_rfl le_rfl
  obtain ⟨final, forced, hfinal, -, -, hleast, -, -, hglb⟩ := hall ⟨trimmedProduct, id, id⟩
    (logLinear (smallArgs ⟨1, 1, 1⟩) fun _ => 0) (["a"], ["b"]) (logLinear_ne_top _ _)
      (over_small _ _ (by simp))
    (trimmedLattice_small _ M.fst _ (by simp)) [] [] 0 []
  exact ⟨M, _, h, logLinear_normalised (smallArgs_valid _) le_rfl _, final, forced, hfinal,
    hleast, hglb⟩

end StochasticEdit.Pipeline
