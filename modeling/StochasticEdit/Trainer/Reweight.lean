import StochasticEdit.Trainer.Model
import StochasticEdit.Wfst.Group

/-! `update_arc_weights`. The two loops over the arcs of a state number them alike, and
the table of running totals keeps apart the groups of arcs with one input label, so
each arc gets its score plus the total of its own group. -/

namespace StochasticEdit.Trainer

open Wfst
open scoped ENNReal

variable {n : ℕ}

/-! ### Vectors -/

theorem readAt_of_nonneg {α : Type*} {v : List α} {i : ℤ} (h : 0 ≤ i) : readAt v i = v[i.toNat]? :=
  if_pos h

theorem readAt_natCast {α : Type*} (v : List α) (i : ℕ) : readAt v i = v[i]? := by
  rw [readAt_of_nonneg (Int.natCast_nonneg i), Int.toNat_natCast]

theorem writeAt_natCast {α : Type*} {v : List α} {i : ℕ} (h : i < v.length) (x : α) :
    writeAt v (i : ℤ) x = some (v.set i x) := if_pos ⟨Int.natCast_nonneg i, h⟩

theorem writeAt_of_lt {α : Type*} {v : List α} {i : ℤ} {x : α} (h : 0 ≤ i)
    (hlt : i.toNat < v.length) :
    writeAt v i x = some (v.set i.toNat x) := if_pos ⟨h, hlt⟩

theorem readAt_set {α : Type*} {v : List α} {i j : ℤ} {x : α} (hi : 0 ≤ i) (hj : 0 ≤ j)
    (hlt : i.toNat < v.length) :
    readAt (v.set i.toNat x) j = if i = j then some x else readAt v j := by
  rw [readAt_of_nonneg hj, readAt_of_nonneg hj, List.getElem?_set]
  by_cases hij : i = j
  · subst hij
    simp [hlt]
  · have hne : i.toNat ≠ j.toNat := fun h => hij (by omega)
    simp [hij, hne]

theorem readAt_replicate {α : Type*} {k : ℕ} {x : α} {i : ℤ} (h : 0 ≤ i) (hlt : i < k) :
    readAt (List.replicate k x) i = some x := by
  rw [readAt_of_nonneg h, List.getElem?_replicate, if_pos (by omega)]

/-! ### Scores -/

/-- A row of feature ids for each of `k` arcs, all of them among `n` features. -/
def Rows (features : FeatureMap) (k n : ℕ) : Prop :=
  ∀ e < k, ∃ row, features[e]? = some row ∧ ∀ i ∈ row, 0 ≤ i ∧ i.toNat < n

/-- The input labels are indices of a table of `bound` entries. -/
def LabelsBelow {W : Type*} (F : VectorFst W) (bound : ℕ) : Prop :=
  ∀ e q a, F.arc? e = some (q, a) → 0 ≤ a.ilabel ∧ a.ilabel < bound

theorem labelsBelow_iff_states {W : Type*} {F : VectorFst W} {bound : ℕ} : LabelsBelow F bound ↔
    ∀ s ∈ F.states, ∀ a ∈ s.arcs, 0 ≤ a.ilabel ∧ a.ilabel < bound := by
  constructor
  · intro h s hs a ha
    obtain ⟨q, hq⟩ := List.getElem?_of_mem hs
    obtain ⟨k, hk⟩ := List.getElem?_of_mem ha
    exact h _ q a (VectorFst.arc?_eq_some_iff.mpr ⟨s, k, hq, hk, rfl⟩)
  · intro h e q a ha
    obtain ⟨s, k, hs, hk, -⟩ := VectorFst.arc?_eq_some_iff.mp ha
    exact h s (List.mem_of_getElem? hs) a (List.mem_of_getElem? hk)

/-- How often a feature fires on an arc. -/
def firings (features : FeatureMap) (n : ℕ) (e : ℕ) (i : Fin n) : ℕ :=
  (features[e]?.getD []).count (i.val : ℤ)

/-- The dot product of an arc's features with the weights. -/
def score (features : FeatureMap) (θ : ColumnVector n) (e : ℕ) : ℝ :=
  ∑ i : Fin n, firings features n e i * θ i

/-- One more index in front of a row. -/
theorem count_cons_index {j : ℤ} (hj : 0 ≤ j) (hlt : j.toNat < n) (row : List ℤ) (i : Fin n) :
    (j :: row).count (i.val : ℤ) = row.count (i.val : ℤ) + if i = ⟨j.toNat, hlt⟩ then 1 else 0 := by
  have hiff : j = (i.val : ℤ) ↔ i = ⟨j.toNat, hlt⟩ := by
    rw [Fin.ext_iff]
    show j = (i.val : ℤ) ↔ i.val = j.toNat
    omega
  simp only [List.count_cons, beq_iff_eq, hiff]

theorem dotRow_eq {θ : ColumnVector n} {row : List ℤ} (h : ∀ i ∈ row, 0 ≤ i ∧ i.toNat < n)
    (total : ℝ) :
    dotRow θ.at total row = some (total + ∑ i : Fin n, (row.count (i.val : ℤ) : ℝ) * θ i) := by
  induction row generalizing total with
  | nil => simp [dotRow]
  | cons j row ih =>
    obtain ⟨hj, hlt⟩ := h j (by simp)
    have hread : θ.at j = some (θ ⟨j.toNat, hlt⟩) := dif_pos ⟨hj, hlt⟩
    have hsum : ∑ i : Fin n, ((j :: row).count (i.val : ℤ) : ℝ) * θ i =
        θ ⟨j.toNat, hlt⟩ + ∑ i : Fin n, (row.count (i.val : ℤ) : ℝ) * θ i := by
      simp only [count_cons_index hj hlt, Nat.cast_add, Nat.cast_ite, Nat.cast_one,
        Nat.cast_zero, add_mul,
        ite_mul, one_mul, zero_mul, Finset.sum_add_distrib, Finset.sum_ite_eq',
          Finset.mem_univ, if_true]
      exact add_comm _ _
    simp only [dotRow, hread, Option.bind_eq_bind, Option.bind_some]
    rw [ih (fun i hi => h i (by simp [hi])), hsum, add_assoc]

theorem multFeaturesByWeights_eq {features : FeatureMap} {k : ℕ} (h : Rows features k n)
    (θ : ColumnVector n) {e : ℕ} (he : e < k) :
    multFeaturesByWeights features θ e = some (score features θ e) := by
  obtain ⟨row, hrow, hmem⟩ := h e he
  simp only [multFeaturesByWeights, hrow, Option.bind_eq_bind, Option.bind_some, score, firings,
    Option.getD_some]
  rw [dotRow_eq hmem, zero_add]

/-! ### The two loops -/

section Passes
variable (add : EReal → EReal → EReal)

/-- The table after the first loop: each entry has the terms of its own label added. -/
theorem totalsPass_eq {W : Type*} {term : ℕ → Option EReal} {x : ℕ → EReal} (e : ℕ)
    (arcs : List (Arc W)) (total : List EReal)
    (hterm : ∀ k < arcs.length, term (e + k) = some (x (e + k)))
    (hlabel : ∀ a ∈ arcs, 0 ≤ a.ilabel ∧ a.ilabel < total.length) :
    ∃ total', totalsPass add term e total arcs = some total' ∧ total'.length = total.length ∧
      ∀ l : ℤ, 0 ≤ l → l < total.length →
        readAt total' l = (readAt total l).map fun t =>
          ((labelled l e arcs).map x).foldl add t := by
  induction arcs generalizing e total with
  | nil => exact ⟨total, rfl, rfl, fun l _ _ => by simp [labelled]⟩
  | cons a arcs ih =>
    obtain ⟨ha, hlt⟩ := hlabel a (by simp)
    have hnat : a.ilabel.toNat < total.length := by omega
    have hread : readAt total a.ilabel = some total[a.ilabel.toNat] := by
      rw [readAt_of_nonneg ha, List.getElem?_eq_getElem hnat]
    have hx : term e = some (x e) := hterm 0 (by simp)
    obtain ⟨total', hpass, hlen, htotal⟩ := ih (e + 1)
      (total.set a.ilabel.toNat (add total[a.ilabel.toNat] (x e)))
      (fun k hk => by
        have hk' := hterm (k + 1) (by simp only [List.length_cons]; omega)
        rwa [show e + (k + 1) = e + 1 + k by omega] at hk')
      (fun b hb => by rw [List.length_set]; exact hlabel b (by simp [hb]))
    refine ⟨total', ?_, by rw [hlen, List.length_set], fun l hl hll => ?_⟩
    · simp only [totalsPass, hread, hx, writeAt_of_lt ha hnat, Option.bind_eq_bind,
        Option.bind_some]
      exact hpass
    · rw [htotal l hl (by rw [List.length_set]; exact hll), readAt_set ha hl hnat, labelled]
      by_cases hal : a.ilabel = l
      · subst hal
        rw [if_pos rfl, if_pos rfl, hread]
        rfl
      · rw [if_neg hal, if_neg hal]

/-- The totals of one state, from a table in which every entry is the logarithm of 0. -/
theorem stateTotals_eq {W : Type*} {term : ℕ → Option EReal} {x : ℕ → EReal} {bound : ℕ} (e : ℕ)
    (arcs : List (Arc W)) (hterm : ∀ k < arcs.length, term (e + k) = some (x (e + k)))
    (hlabel : ∀ a ∈ arcs, 0 ≤ a.ilabel ∧ a.ilabel < bound) :
    ∃ total, totalsPass add term e (List.replicate bound negDblMax) arcs = some total ∧
      ∀ a ∈ arcs, readAt total a.ilabel =
        some (((labelled a.ilabel e arcs).map x).foldl add negDblMax) := by
  obtain ⟨total, hpass, -, htotal⟩ :=
    totalsPass_eq add e arcs (List.replicate bound negDblMax) hterm
    fun a ha => by rw [List.length_replicate]; exact hlabel a ha
  refine ⟨total, hpass, fun a ha => ?_⟩
  obtain ⟨h₀, h₁⟩ := hlabel a ha
  rw [htotal a.ilabel h₀ (by rw [List.length_replicate]; exact h₁), readAt_replicate h₀ h₁]
  rfl

theorem reweightPass_eq {score : ℕ → Option ℝ} {s : ℕ → ℝ} {total : List EReal} {T : ℤ → EReal}
    (e : ℕ) (arcs : List (Arc LogWeight))
    (hscore : ∀ k < arcs.length, score (e + k) = some (s (e + k)))
    (htotal : ∀ a ∈ arcs, readAt total a.ilabel = some (T a.ilabel)) :
    reweightPass score total e arcs =
      some ((arcs.zipIdx e).map fun p => p.1.map fun _ => ofValue (s p.2 + T p.1.ilabel)) := by
  induction arcs generalizing e with
  | nil => rfl
  | cons a arcs ih =>
    have hs : score e = some (s e) := hscore 0 (by simp)
    have hrest := ih (e + 1)
      (fun k hk => by
        have hk' := hscore (k + 1) (by simp only [List.length_cons]; omega)
        rwa [show e + (k + 1) = e + 1 + k by omega] at hk')
      (fun b hb => htotal b (by simp [hb]))
    simp only [reweightPass, hs, htotal a (by simp), hrest, Option.bind_eq_bind, Option.bind_some]
    rfl

/-- A loop over the states whose tables give the arcs the weights `f`. -/
theorem reweightStates_eq {score : ℕ → Option ℝ} {s : ℕ → ℝ} {bound : ℕ} {f : ℕ → LogWeight} (e : ℕ)
    (ss : List (State LogWeight))
    (hscore : ∀ k < arcsBefore ss ss.length, score (e + k) = some (s (e + k)))
    (hlabel : ∀ t ∈ ss, ∀ a ∈ t.arcs, 0 ≤ a.ilabel ∧ a.ilabel < bound)
    (hf : ∀ j t k a, ss[j]? = some t → t.arcs[k]? = some a → f (e + arcsBefore ss j + k) = ofValue
      (s (e + arcsBefore ss j + k) + ((labelled a.ilabel (e + arcsBefore ss j) t.arcs).map fun i =>
        -(s i : EReal)).foldl add negDblMax)) :
    reweightStates add score bound e ss = some (numberStates f some e ss) := by
  induction ss generalizing e with
  | nil => rfl
  | cons t ss ih =>
    have hlen : arcsBefore (t :: ss) (t :: ss).length = t.arcs.length +
        arcsBefore ss ss.length := rfl
    obtain ⟨total, hpass, hread⟩ := @stateTotals_eq add LogWeight
      (fun e => (score e).map fun x : ℝ => -(x : EReal)) (fun i => -(s i : EReal)) bound e t.arcs
      (fun k hk => by rw [hscore k (by omega)]; rfl) (hlabel t (by simp))
    have harcs := reweightPass_eq (s := s) (T := fun l =>
      ((labelled l e t.arcs).map fun i => -(s i : EReal)).foldl add negDblMax) e t.arcs
      (fun k hk => hscore k (by omega)) hread
    have hnumber : (t.arcs.zipIdx e).map (fun p => p.1.map fun _ => ofValue (s p.2 +
        ((labelled p.1.ilabel e t.arcs).map fun i => -(s i : EReal)).foldl add negDblMax)) =
        numberArcs f e t.arcs := by
      rw [numberArcs_eq]
      refine List.map_congr_left fun p hp => ?_
      obtain ⟨k, hk⟩ := List.getElem?_of_mem hp
      rw [List.getElem?_zipIdx, Option.map_eq_some_iff] at hk
      obtain ⟨a, ha, rfl⟩ := hk
      have hw := hf 0 t k a rfl ha
      simp only [arcsBefore, add_zero] at hw
      rw [hw]
    have hrest := ih (e + t.arcs.length)
      (fun k hk => by
        have hk' := hscore (t.arcs.length + k) (by omega)
        rwa [show e + (t.arcs.length + k) = e + t.arcs.length + k by omega] at hk')
      (fun u hu => hlabel u (by simp [hu]))
      (fun j u k a hu ha => by
        have hw := hf (j + 1) u k a (by simpa using hu) ha
        simp only [arcsBefore] at hw
        rwa [show e + (t.arcs.length + arcsBefore ss j) = e + t.arcs.length + arcsBefore ss j by
          omega] at hw)
    have hfinal : t.final.bind some = t.final := Option.bind_fun_some t.final
    simp only [reweightStates, hpass, harcs, hrest, hnumber, numberStates, hfinal,
      Option.bind_eq_bind, Option.bind_some]
    rfl

end Passes

/-! ### The reweighted machine -/

/-- The running total of a group after all its arcs. -/
noncomputable def groupTotal (add : EReal → EReal → EReal) (s : ℕ → ℝ) {W : Type*} (F : VectorFst W)
    (q : ℕ) (l : ℤ) : EReal :=
  ((F.groupArcs q l).map fun e => -(s e : EReal)).foldl add negDblMax

/-- The weight that an arc gets. -/
noncomputable def newWeight (add : EReal → EReal → EReal) (s : ℕ → ℝ) {W : Type*} (F : VectorFst W)
    (e : ℕ) : LogWeight :=
  (F.arc? e).elim 0 fun p => ofValue (s e + groupTotal add s F p.1 p.2.ilabel)

/-- `F` with the arc weights of the scores `s`. -/
noncomputable def reweighted (add : EReal → EReal → EReal) (s : ℕ → ℝ) (F : VectorFst LogWeight) :
    VectorFst LogWeight := F.withWeights (newWeight add s F) some

theorem shape_reweighted (add : EReal → EReal → EReal) (s : ℕ → ℝ) (F : VectorFst LogWeight) :
    (reweighted add s F).shape = F.shape := F.shape_withWeights _ _ fun _ _ _ => rfl

theorem arc?_reweighted {add : EReal → EReal → EReal} {s : ℕ → ℝ}
    {F : VectorFst LogWeight} {e : ℕ} :
    (reweighted add s F).arc? e =
      (F.arc? e).map fun p => (p.1, p.2.map fun _ => newWeight add s F e) :=
  F.arc?_withWeights _ _ e

theorem newWeight_eq {add : EReal → EReal → EReal} {s : ℕ → ℝ} {F : VectorFst LogWeight} {q e : ℕ}
    {a : Arc LogWeight} (h : F.arc? e = some (q, a)) :
    newWeight add s F e = EReal.exp (-s e) * (EReal.exp (groupTotal add s F q a.ilabel))⁻¹ := by
  rw [newWeight, h, Option.elim_some, ofValue,
    EReal.neg_add (.inl (EReal.coe_ne_bot _)) (.inl (EReal.coe_ne_top _)), sub_eq_add_neg,
    EReal.exp_add, EReal.exp_neg (groupTotal add s F q a.ilabel)]

/-- The weights of a group are its scores over the exponential of its total. -/
theorem sum_group_newWeight (add : EReal → EReal → EReal) (s : ℕ → ℝ) (F : VectorFst LogWeight)
    (q : ℕ) (l : ℤ) : (tsum fun e : F.group q l => newWeight add s F e) =
      ((F.groupArcs q l).map fun e => EReal.exp (-s e)).sum *
        (EReal.exp (groupTotal add s F q l))⁻¹ := by
  rw [VectorFst.tsum_group, ← List.sum_map_mul_right]
  congr 1
  refine List.map_congr_left fun e he => ?_
  obtain ⟨a, ha, rfl⟩ := VectorFst.mem_groupArcs.mp he
  exact newWeight_eq ha

/-- The weights of the arcs of a reweighted machine. -/
theorem arcWeight_reweighted {add : EReal → EReal → EReal} {s : ℕ → ℝ} {F : VectorFst LogWeight}
    {q e : ℕ} {a : Arc LogWeight} (h : F.arc? e = some (q, a)) :
    (reweighted add s F).arcWeight e = newWeight add s F e := by
  rw [VectorFst.arcWeight_eq (arc?_reweighted.trans (by rw [h]; rfl))]
  rfl

theorem group_reweighted (add : EReal → EReal → EReal) (s : ℕ → ℝ) (F : VectorFst LogWeight)
    (q : ℕ) (l : ℤ) : (reweighted add s F).group q l = F.group q l :=
  VectorFst.group_of_shape_eq (shape_reweighted add s F) q l

/-- The loop of `update_arc_weights` ends without leaving a table, and writes on each
arc its score plus the total of its group. -/
theorem reweightStates_reweighted (add : EReal → EReal → EReal) {F : VectorFst LogWeight}
    {bound : ℕ} {score : ℕ → Option ℝ} {s : ℕ → ℝ} (hscore : ∀ e < F.numArcs, score e = some (s e))
    (hlabels : LabelsBelow F bound) :
    reweightStates add score bound 0 F.states = some (reweighted add s F).states := by
  apply reweightStates_eq add 0 F.states
  · intro k hk
    rw [zero_add]
    exact hscore k (by rw [F.numArcs_eq]; exact hk)
  · exact labelsBelow_iff_states.mp hlabels
  · intro q u k a hq hk
    rw [zero_add]
    have harc := VectorFst.arc?_eq_some_iff.mpr ⟨u, k, hq, hk, rfl⟩
    have hgroup : F.groupArcs q a.ilabel = labelled a.ilabel (arcsBefore F.states q) u.arcs := by
      rw [VectorFst.groupArcs, hq]
      rfl
    rw [newWeight, show arcsBefore F.states q + k = F.firstArc q + k from rfl, harc,
      Option.elim_some, groupTotal, hgroup]

/-- `update_arc_weights(weights)`. -/
theorem updateArcWeights_eq (add : EReal → EReal → EReal) (t : TrainerLocal n) (θ : ColumnVector n)
    (hrows : Rows t.features t.fst.numArcs n) (hlabels : LabelsBelow t.fst t.symbolBound) :
    t.updateArcWeights add θ =
      some { t with fst := reweighted add (score t.features θ) t.fst } := by
  have hstates := reweightStates_reweighted add
    (fun e he => multFeaturesByWeights_eq hrows θ he) hlabels
  simp only [TrainerLocal.updateArcWeights, hstates, Option.bind_eq_bind, Option.bind_some]
  rfl

theorem readAt_ofFn (θ : ColumnVector n) : readAt (List.ofFn θ) = θ.at := by
  funext i
  rw [readAt, ColumnVector.at]
  by_cases hi : 0 ≤ i
  · rw [if_pos hi, List.getElem?_ofFn]
    by_cases hlt : i.toNat < n
    · rw [dif_pos hlt, dif_pos ⟨hi, hlt⟩]
    · rw [dif_neg hlt, dif_neg fun h => hlt h.2]
  · rw [if_neg hi, dif_neg fun h => hi h.1]

/-- Both overloads of `mult_features_by_weights` agree on the weights of the instance. -/
theorem multFeatures_eq (t : TrainerLocal n) (e : ℕ) : t.multFeatures e =
    multFeaturesByWeights t.features (fun i : Fin t.weights.length => t.weights[i]) e := by
  have hweights : (List.ofFn fun i : Fin t.weights.length => t.weights[i]) = t.weights :=
    List.ofFn_getElem
  rw [TrainerLocal.multFeatures, multFeaturesByWeights, ← readAt_ofFn, hweights]

/-- `update_arc_weights()`, with the weights of the instance and a table of `num_arcs`
entries. -/
theorem updateArcWeightsMember_eq (add : EReal → EReal → EReal) (t : TrainerLocal n)
    (hrows : Rows t.features t.fst.numArcs t.weights.length)
    (hlabels : LabelsBelow t.fst t.numArcs) :
    t.updateArcWeightsMember add = some { t with
      fst := reweighted add (score t.features fun i : Fin t.weights.length => t.weights[i])
        t.fst } := by
  have hscore : ∀ e < t.fst.numArcs,
      t.multFeatures e =
        some (score t.features (fun i : Fin t.weights.length => t.weights[i]) e) := by
    intro e he
    exact (multFeatures_eq t e).trans (multFeaturesByWeights_eq hrows _ he)
  have hstates := reweightStates_reweighted add hscore hlabels
  simp only [TrainerLocal.updateArcWeightsMember, hstates, Option.bind_eq_bind, Option.bind_some]
  rfl

end StochasticEdit.Trainer
