import StochasticEdit.Pipeline.Expectation
import StochasticEdit.Pipeline.Viterbi
import StochasticEdit.Trainer.Maximisation

/-! What the optimiser is given. With the counts of an E-step, `gradient2` is the gradient of
the expected cost of the alignments of the training pairs, as a function of the weights of the
named features. Where the expected cost is less, the pairs are more probable. -/

namespace StochasticEdit.Pipeline

open Wfst Generator Features Trainer Evaluation Estimation Text
open scoped ENNReal

/-! ### Expected costs -/

/-- The expected cost under `m` of a script that turns `x` into `y`, if it is drawn with `m₀`. -/
noncomputable def expectedCost (args : Args) (m₀ m : EditModel) (x y : List Sym) : ℝ :=
  ∑ᶠ es ∈ scripts x y, (scriptProb args m₀ [] x [] es / editProb args m₀ x y).toReal *
    (cost args m x es).toReal

/-- The expected cost of the alignments of the pairs for the weights `w` of the features, with half
of the penalty. -/
noncomputable def expectedLoss (args : Args) (data : List (List Sym × List Sym)) (lambda : ℝ)
    (m₀ : EditModel) (w : Str → ℝ) (a : ℝ) : ℝ :=
  ((data.map fun p => expectedCost args m₀ (logLinear args w) p.1 p.2).sum +
    lambda / (2 : ℕ) * (a ^ 2 + ∑ᶠ f ∈ featureNames args, w f ^ 2)) / data.length

section Models
variable {args : Args} {m m₀ : EditModel} {x y : List Sym}

theorem scriptProb_ne_top (hm : ∀ c o, m c o ≠ ⊤) {es : List Edit} {left right low : List Sym}
    (hes : consumptions es = right.length) : scriptProb args m left right low es ≠ ⊤ := by
  rw [scriptProb_eq_prod m hes]
  induction steps args left right low es with
  | nil => exact ENNReal.one_ne_top
  | cons s l ih =>
    rw [List.map_cons, List.prod_cons]
    exact ENNReal.mul_ne_top (hm _ _) ih

theorem toReal_cost_of_eq {r : ℝ} {es : List Edit}
    (h : scriptProb args m [] x [] es = ENNReal.ofReal (Real.exp (-r))) :
    (cost args m x es).toReal = r := by
  unfold cost value
  rw [h, ENNReal.log_ofReal_of_pos (Real.exp_pos _), Real.log_exp, ← EReal.coe_neg, neg_neg,
    EReal.toReal_coe]

/-- The probability of a script is that of its cost. -/
theorem scriptProb_eq_exp (hpos : ∀ c o, m c o ≠ 0) (hm : ∀ c o, m c o ≠ ⊤) {es : List Edit}
    (hes : es ∈ scripts x y) :
    scriptProb args m [] x [] es = ENNReal.ofReal (Real.exp (-(cost args m x es).toReal)) := by
  have hzero : scriptProb args m [] x [] es ≠ 0 := scriptProb_ne_zero hpos hes.1
  have htop : scriptProb args m [] x [] es ≠ ⊤ := scriptProb_ne_top hm hes.1
  have hreal : 0 < (scriptProb args m [] x [] es).toReal := ENNReal.toReal_pos hzero htop
  have hexp : scriptProb args m [] x [] es =
      ENNReal.ofReal (Real.exp (-(-Real.log (scriptProb args m [] x [] es).toReal))) := by
    rw [neg_neg, Real.exp_log hreal, ENNReal.ofReal_toReal htop]
  rw [toReal_cost_of_eq hexp]
  exact hexp

/-- The cost of a pair is the loss of the family of its scripts. -/
theorem editProb_eq_partition (hpos : ∀ c o, m c o ≠ 0) (hm : ∀ c o, m c o ≠ ⊤) (x y : List Sym) :
    editProb args m x y = ENNReal.ofReal
      (partition (scripts_finite x y).toFinset 1 fun es => (cost args m x es).toReal) := by
  unfold partition
  rw [editProb_eq_sum, ENNReal.ofReal_sum_of_nonneg]
  · apply Finset.sum_congr rfl
    intro es hes
    rw [Pi.one_apply, one_mul]
    exact scriptProb_eq_exp hpos hm ((scripts_finite x y).mem_toFinset.mp hes)
  · intro es _
    rw [Pi.one_apply, one_mul]
    exact (Real.exp_pos _).le

theorem exists_script (x y : List Sym) :
    ∃ es ∈ (scripts_finite x y).toFinset, 0 < (1 : List Edit → ℝ) es :=
  ⟨_, (scripts_finite x y).mem_toFinset.mpr (rewriteAll_mem_scripts x y), one_pos⟩

theorem partition_scripts_pos (args : Args) (m : EditModel) (x y : List Sym) :
    0 < partition (scripts_finite x y).toFinset 1 fun es => (cost args m x es).toReal :=
  partition_pos (fun _ _ => zero_le_one) (exists_script x y) _

theorem value_editProb (hpos : ∀ c o, m c o ≠ 0) (hm : ∀ c o, m c o ≠ ⊤) (x y : List Sym) :
    value (editProb args m x y) = (Estimation.loss (scripts_finite x y).toFinset 1
      (fun es => (cost args m x es).toReal) : EReal) := by
  rw [value, editProb_eq_partition hpos hm,
    ENNReal.log_ofReal_of_pos (partition_scripts_pos args m x y), Estimation.loss, EReal.coe_neg]

/-- The share of a script in the probability of its pair. -/
theorem posterior_scripts (hpos : ∀ c o, m c o ≠ 0) (hm : ∀ c o, m c o ≠ ⊤) {es : List Edit}
    (hes : es ∈ scripts x y) :
    posterior (scripts_finite x y).toFinset 1 (fun es => (cost args m x es).toReal) es =
      (scriptProb args m [] x [] es / editProb args m x y).toReal := by
  rw [ENNReal.toReal_div, scriptProb_eq_exp hpos hm hes, editProb_eq_partition hpos hm,
    ENNReal.toReal_ofReal (Real.exp_pos _).le,
      ENNReal.toReal_ofReal (partition_scripts_pos args m x y).le]
  unfold posterior
  rw [Pi.one_apply, one_mul]

theorem expectedCost_eq_sum (hpos : ∀ c o, m₀ c o ≠ 0) (hm : ∀ c o, m₀ c o ≠ ⊤) (m : EditModel)
    (x y : List Sym) :
    expectedCost args m₀ m x y = ∑ es ∈ (scripts_finite x y).toFinset,
      posterior (scripts_finite x y).toFinset 1 (fun es => (cost args m₀ x es).toReal) es *
        (cost args m x es).toReal := by
  unfold expectedCost
  rw [finsum_mem_eq_finite_toFinset_sum _ (scripts_finite x y)]
  apply Finset.sum_congr rfl
  intro es hes
  rw [posterior_scripts hpos hm ((scripts_finite x y).mem_toFinset.mp hes)]

/-- From one model to another the cost of a pair grows by at most as much as the expected cost of
its scripts. -/
theorem toReal_value_editProb_sub_le (hpos₀ : ∀ c o, m₀ c o ≠ 0) (hm₀ : ∀ c o, m₀ c o ≠ ⊤)
    (hpos : ∀ c o, m c o ≠ 0) (hm : ∀ c o, m c o ≠ ⊤) (x y : List Sym) :
    (value (editProb args m x y)).toReal - (value (editProb args m₀ x y)).toReal ≤
      expectedCost args m₀ m x y - expectedCost args m₀ m₀ x y := by
  have hle := Estimation.loss_sub_le (fun _ _ => zero_le_one) (exists_script x y)
    (fun es => (cost args m x es).toReal) fun es => (cost args m₀ x es).toReal
  simp only [mul_sub, Finset.sum_sub_distrib] at hle
  rw [value_editProb hpos hm, value_editProb hpos₀ hm₀, EReal.toReal_coe, EReal.toReal_coe,
    expectedCost_eq_sum hpos₀ hm₀, expectedCost_eq_sum hpos₀ hm₀]
  exact hle

end Models

/-! ### The lattice of a pair -/

section Pairs
variable {comp : Composer} {ord : HashOrder} {args : Args} {M : Machine LogWeight}
  {reader : FeatureReader} {order : List Str} {θ θ₀ : ColumnVector reader.numberFeatures.toNat}
  {w w₀ : Str → ℝ} {a a₀ : ℝ} {p : List Sym × List Sym}

theorem coef_toLattice (hexemplar : Exemplar comp M.fst (exemplar args p))
    (h : contextualEdit LogWeight ord args = some M)
    (hexact : ExactLattice comp M.fst (exemplar args p)) {path : List ℕ}
    (hpath : path ∈ hexemplar.toLattice.paths) : hexemplar.toLattice.coef path = 1 := by
  show (acceptorWeight comp M.fst (exemplar args p) path).toReal = 1
  unfold acceptorWeight
  rw [value_lattice h _ hexact (hexemplar.finite.mem_toFinset.mp hpath)]
  simp [pathWeight]

/-- The cost of a path of the lattice is that of its script. -/
theorem Table.energy_eq (htable : Table args M reader order)
    (hexemplar : Exemplar comp M.fst (exemplar args p))
    (h : contextualEdit LogWeight ord args = some M) (hV : args.Valid) (hu : args.sizes.ulcMax ≤ 1)
    (hl : args.sizes.llcMax ≤ 1) (hr : 1 ≤ args.sizes.urcMax) (hw : Names order θ w a)
    (hp : Over args p) (hexact : ExactLattice comp M.fst (exemplar args p)) {path : List ℕ}
    (hpath : path ∈ hexemplar.toLattice.paths) :
    (cost args (logLinear args w) p.1 (latticeScript comp args M p path)).toReal =
      hexemplar.toLattice.energy (arcIds M.fst) (arcCost M.fst reader.features θ) path := by
  have hvalue := hexemplar.value_eq_ofReal
    (fun e he => newWeight_logsum (score reader.features θ) he) hpath
  have hweights : weighted M.fst (newWeight logsum (score reader.features θ) M.fst) =
      weighted M.fst (M.probs args (logLinear args w)) :=
    weighted_congr fun e he => htable.newWeight_eq h hV hu hl hr hw he
  rw [hweights,
    value_lattice_probs h hV hu hl hr hp hexact _ (hexemplar.finite.mem_toFinset.mp hpath),
    coef_toLattice hexemplar h hexact hpath, one_mul] at hvalue
  exact toReal_cost_of_eq hvalue

/-- The mean over the paths of the lattice is the mean over the scripts. -/
theorem Table.sum_posterior_eq (htable : Table args M reader order)
    (hexemplar : Exemplar comp M.fst (exemplar args p))
    (h : contextualEdit LogWeight ord args = some M) (hV : args.Valid) (hu : args.sizes.ulcMax ≤ 1)
    (hl : args.sizes.llcMax ≤ 1) (hr : 1 ≤ args.sizes.urcMax) (hw₀ : Names order θ₀ w₀ a₀)
    (hw : Names order θ w a) (hp : Over args p)
    (hexact : ExactLattice comp M.fst (exemplar args p)) :
    ∑ path ∈ hexemplar.toLattice.paths,
      hexemplar.toLattice.posterior (arcIds M.fst) (arcCost M.fst reader.features θ₀) path *
        hexemplar.toLattice.energy (arcIds M.fst) (arcCost M.fst reader.features θ) path =
      expectedCost args (logLinear args w₀) (logLinear args w) p.1 p.2 := by
  have hbij := latticeScript_bijOn h hV hu hl hr hp hexact
  have hscript {path : List ℕ} (hpath : path ∈ hexemplar.toLattice.paths) :
      latticeScript comp args M p path ∈ (scripts_finite p.1 p.2).toFinset :=
    (scripts_finite p.1 p.2).mem_toFinset.mpr (hbij.mapsTo (hexemplar.finite.mem_toFinset.mp hpath))
  have hsum (g : List Edit → ℝ) : ∑ path ∈ hexemplar.toLattice.paths,
    g (latticeScript comp args M p path) =
      ∑ es ∈ (scripts_finite p.1 p.2).toFinset, g es := by
    apply Finset.sum_nbij (latticeScript comp args M p) (fun _ => hscript)
    · intro path hpath path' hpath' heq
      exact hbij.injOn (hexemplar.finite.mem_toFinset.mp hpath)
        (hexemplar.finite.mem_toFinset.mp hpath') heq
    · intro es hes
      obtain ⟨path, hpath, rfl⟩ := hbij.surjOn ((scripts_finite p.1 p.2).mem_toFinset.mp hes)
      exact ⟨path, hexemplar.finite.mem_toFinset.mpr hpath, rfl⟩
    · exact fun _ _ => rfl
  have henergy {path : List ℕ} (hpath : path ∈ hexemplar.toLattice.paths) :=
    htable.energy_eq hexemplar h hV hu hl hr hw₀ hp hexact hpath
  -- the posteriors have the same numerators and the same partition sums
  have hpartition : partition hexemplar.toLattice.paths hexemplar.toLattice.coef
      (hexemplar.toLattice.energy (arcIds M.fst) (arcCost M.fst reader.features θ₀)) =
        partition (scripts_finite p.1 p.2).toFinset 1 fun es =>
          (cost args (logLinear args w₀) p.1 es).toReal := by
    unfold partition
    rw [← hsum]
    apply Finset.sum_congr rfl
    intro path hpath
    rw [coef_toLattice hexemplar h hexact hpath, ← henergy hpath]
    rfl
  rw [expectedCost_eq_sum (logLinear_ne_zero args w₀) (logLinear_ne_top args w₀), ← hsum]
  apply Finset.sum_congr rfl
  intro path hpath
  rw [htable.energy_eq hexemplar h hV hu hl hr hw hp hexact hpath]
  apply congrArg (· * _)
  unfold Lattice.posterior posterior
  rw [hpartition, coef_toLattice hexemplar h hexact hpath, ← henergy hpath]
  rfl

end Pairs

/-! ### Named coordinates -/

section Names
variable {n : ℕ} {order : List Str} {θ : ColumnVector n} {w : Str → ℝ} {a : ℝ} {f : Str}

theorem at_zero (hpos : 0 < n) : θ.at 0 = some (θ ⟨0, hpos⟩) := at_of_lt hpos

theorem Names.exists_index (h : Names order θ w a) (hf : f ∈ order) :
    ∃ k : Fin n, (k : ℕ) = number order f := by
  have hat := h.named f hf
  unfold ColumnVector.at at hat
  split_ifs at hat with hlt
  exact ⟨⟨number order f, hlt.2⟩, rfl⟩

theorem Names.apply (h : Names order θ w a) (hf : f ∈ order) {k : Fin n}
    (hk : (k : ℕ) = number order f) : θ k = w f := by
  have hat := h.named f hf
  rw [← hk, at_of_lt k.isLt] at hat
  exact Option.some.inj hat

theorem Names.update (h : Names order θ w a) (hf : f ∈ order) {k : Fin n}
    (hk : (k : ℕ) = number order f) (x : ℝ) :
    Names order (Function.update θ k x) (Function.update w f x) a := by
  constructor
  · intro f' hf'
    obtain ⟨k', hk'⟩ := h.exists_index hf'
    rw [← hk', at_of_lt k'.isLt]
    apply congrArg some
    by_cases heq : f' = f
    · subst heq
      obtain rfl : k' = k := Fin.ext (hk'.trans hk.symm)
      rw [Function.update_self, Function.update_self]
    · have hne : k' ≠ k := by
        rintro rfl
        exact heq ((number_inj hf').mp (hk'.symm.trans hk))
      rw [Function.update_of_ne hne, Function.update_of_ne heq]
      exact h.apply hf' hk'
  · have hzero := h.zero
    have hpos : 0 < n := k.pos
    have hne : (⟨0, hpos⟩ : Fin n) ≠ k := by
      intro heq
      have hval : (0 : ℕ) = number order f := (congrArg Fin.val heq).trans hk
      exact Nat.succ_ne_zero _ hval.symm
    rw [at_zero hpos] at hzero ⊢
    rw [Function.update_of_ne hne]
    exact hzero

theorem Names.pos (h : Names order θ w a) : 0 < n := by
  have hat := h.zero
  unfold ColumnVector.at at hat
  split_ifs at hat with hlt
  exact hlt.2

theorem Names.update_zero (h : Names order θ w a) (x : ℝ) :
    Names order (Function.update θ ⟨0, h.pos⟩ x) w x := by
  constructor
  · intro f hf
    obtain ⟨k, hk⟩ := h.exists_index hf
    have hne : k ≠ ⟨0, h.pos⟩ := by
      rintro rfl
      exact Nat.succ_ne_zero _ hk.symm
    rw [← hk, at_of_lt k.isLt, Function.update_of_ne hne, h.apply hf hk]
  · rw [at_zero h.pos, Function.update_self]

/-- A gradient by number is a gradient by name. -/
theorem Names.hasDerivAt (h : Names order θ w a) {V : ColumnVector n → ℝ} {L : (Str → ℝ) → ℝ → ℝ}
    (hV : ∀ θ w a, Names order θ w a → V θ = L w a) {g : ColumnVector n} (hg : IsGradient V θ g)
    {g' : Str → ℝ} {b : ℝ} (hnames : Names order g g' b) :
    (∀ f ∈ order, HasDerivAt (fun x => L (Function.update w f x) a) (g' f) (w f)) ∧
      HasDerivAt (fun x => L w x) b a := by
  constructor
  · intro f hf
    obtain ⟨k, hk⟩ := h.exists_index hf
    have hderiv := hg k
    rw [h.apply hf hk, hnames.apply hf hk] at hderiv
    have hcurve : (fun x => V (Function.update θ k x)) = fun x => L (Function.update w f x) a := by
      funext x
      exact hV _ _ _ (h.update hf hk x)
    rwa [hcurve] at hderiv
  · have hderiv := hg ⟨0, h.pos⟩
    have hθ := h.zero
    have hb := hnames.zero
    rw [at_zero h.pos, Option.some.injEq] at hθ hb
    have hcurve : (fun x => V (Function.update θ ⟨0, h.pos⟩ x)) = fun x => L w x := by
      funext x
      exact hV _ _ _ (h.update_zero x)
    rwa [hcurve, hθ, hb] at hderiv

end Names

/-! ### The M-step -/

section Trained
variable {comp : Composer} {ord : HashOrder} {args : Args} {M : Machine LogWeight}
  {reader : FeatureReader} {order : List Str} {data : List (List Sym × List Sym)} {lambda : ℝ}
  {t : TrainerLocal reader.numberFeatures.toNat} {θ θ₀ : ColumnVector reader.numberFeatures.toNat}
  {w w₀ : Str → ℝ} {a a₀ : ℝ}

/-- The cost of the counted arcs is the expected cost of the alignments. -/
theorem Holds.countedLoss_eq (hholds : Holds args M reader data lambda t)
    (hready : Ready comp M.fst t) (htable : Table args M reader order)
    (h : contextualEdit LogWeight ord args = some M) (hV : args.Valid) (hu : args.sizes.ulcMax ≤ 1)
    (hl : args.sizes.llcMax ≤ 1) (hr : 1 ≤ args.sizes.urcMax) (hw₀ : Names order θ₀ w₀ a₀)
    (hw : Names order θ w a) (hdata : ∀ p ∈ data, Over args p)
    (hexact : ∀ p ∈ data, ExactLattice comp M.fst (exemplar args p)) :
    countedLoss M.fst t (hready.countsAt θ₀) θ =
      expectedLoss args data lambda (logLinear args w₀) w a := by
  have hsum := hready.toIsTrainer.sum_countsAt hholds.data θ₀ (arcCost M.fst t.features θ)
    (f := fun p =>
    expectedCost args (logLinear args w₀) (logLinear args w) p.1 p.2) fun p hexemplar hp => by
      rw [hholds.features]
      exact htable.sum_posterior_eq hexemplar h hV hu hl hr hw₀ hw (hdata p hp) (hexact p hp)
  unfold countedLoss expectedLoss
  rw [hsum, hholds.lambda, hholds.data, List.length_map, htable.dotProduct_eq hw]

end Trained

theorem negLogLikelihood_sub_le {args : Args} {m m₀ : EditModel} (hpos₀ : ∀ c o, m₀ c o ≠ 0)
    (hm₀ : ∀ c o, m₀ c o ≠ ⊤) (hpos : ∀ c o, m c o ≠ 0) (hm : ∀ c o, m c o ≠ ⊤)
    (data : List (List Sym × List Sym)) :
    (negLogLikelihood args m data).toReal - (negLogLikelihood args m₀ data).toReal ≤
      (data.map fun p => expectedCost args m₀ m p.1 p.2).sum -
        (data.map fun p => expectedCost args m₀ m₀ p.1 p.2).sum := by
  have hreal {m : EditModel} (hpos : ∀ c o, m c o ≠ 0) (hm : ∀ c o, m c o ≠ ⊤) :
      negLogLikelihood args m data =
        ((data.map fun p => (value (editProb args m p.1 p.2)).toReal).sum : ℝ) := by
    unfold negLogLikelihood
    induction data with
    | nil => rfl
    | cons p data ih =>
      rw [List.map_cons, List.sum_cons, List.map_cons, List.sum_cons, ih, EReal.coe_add,
        value_editProb hpos hm, EReal.toReal_coe]
  rw [hreal hpos hm, hreal hpos₀ hm₀, EReal.toReal_coe, EReal.toReal_coe]
  clear hreal
  induction data with
  | nil => simp
  | cons p data ih =>
    have hpair := @toReal_value_editProb_sub_le args m m₀ hpos₀ hm₀ hpos hm p.1 p.2
    simp only [List.map_cons, List.sum_cons]
    linarith

end StochasticEdit.Pipeline
