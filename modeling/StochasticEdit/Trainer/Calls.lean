import StochasticEdit.Trainer.Objective
import StochasticEdit.Trainer.Train

/-! The calls of the optimiser do not disturb each other. What they leave behind on the
trainer is arc weights and expected counts. A call overwrites both before it reads them,
so it runs on the trainer it finds as on the one before all the calls. -/

namespace StochasticEdit.Trainer

open Wfst

variable {n : ℕ}

/-- Both steps end the same way, in related results. -/
theorem rel_bind {α α' β β' : Type*} {R : α → α' → Prop} {S : β → β' → Prop} {x : Option α}
    {x' : Option α'} {f : α → Option β} {f' : α' → Option β'} (h : Option.Rel R x x')
    (hf : ∀ a a', R a a' → Option.Rel S (f a) (f' a')) : Option.Rel S (x.bind f) (x'.bind f') := by
  cases h with
  | some hR => exact hf _ _ hR
  | none => exact .none

theorem rel_refl {α : Type*} (x : Option α) : Option.Rel Eq x x := by
  cases x with
  | some a => exact .some rfl
  | none => exact .none

/-! ### Expected counts -/

/-- Vectors of one length that may differ from entry `k` on. -/
structure AgreeBelow (k : ℕ) (v v' : List EReal) : Prop where
  length : v'.length = v.length
  below : ∀ i < k, v'[i]? = v[i]?

section Expected
variable {add : EReal → EReal → EReal} {k : ℕ} {v v' : List EReal}

theorem rel_fillNegDblMax (h : v'.length = v.length) :
    Option.Rel (AgreeBelow k) (fillNegDblMax k v) (fillNegDblMax k v') := by
  unfold fillNegDblMax
  rw [h]
  split_ifs
  · refine .some ⟨by simp only [List.length_append, List.length_replicate, List.length_drop, h], ?_⟩
    intro i hi
    have hlt : i < (List.replicate k negDblMax).length := by rwa [List.length_replicate]
    rw [List.getElem?_append_left hlt, List.getElem?_append_left hlt]
  · exact .none

theorem rel_writeAt (h : AgreeBelow k v v') {e : ℕ} {x x' : EReal} (hx : e < k → x' = x) :
    Option.Rel (AgreeBelow k) (writeAt v e x) (writeAt v' e x') := by
  unfold writeAt
  rw [h.length]
  split_ifs
  · refine .some ⟨by rw [List.length_set, List.length_set, h.length], ?_⟩
    intro i hi
    rw [Int.toNat_natCast, List.getElem?_set, List.getElem?_set, h.length, h.below i hi]
    by_cases he : e = i
    · rw [if_pos he, if_pos he, hx (by omega)]
    · rw [if_neg he, if_neg he]
  · exact .none

/-- Each entry is computed from its old value only. -/
theorem rel_expectedPass (totalTraversals : List EReal) (e : ℕ) (arcs : List (Arc LogWeight))
    (h : AgreeBelow k v v') : Option.Rel (AgreeBelow k) (expectedPass add totalTraversals e v arcs)
      (expectedPass add totalTraversals e v' arcs) := by
  induction arcs generalizing e v v' with
  | nil => exact .some h
  | cons a arcs ih =>
    unfold expectedPass
    have hread : Option.Rel (fun x x' => e < k → x' = x) v[e]? v'[e]? := by
      by_cases he : e < v.length
      · have he' : e < v'.length := h.length.symm ▸ he
        rw [List.getElem?_eq_getElem he, List.getElem?_eq_getElem he']
        refine .some fun hk => ?_
        have heq := h.below e hk
        rw [List.getElem?_eq_getElem he, List.getElem?_eq_getElem he'] at heq
        exact Option.some.inj heq
      · rw [List.getElem?_eq_none (by omega), List.getElem?_eq_none (by rw [h.length]; omega)]
        exact .none
    refine rel_bind hread fun old old' hold => rel_bind (rel_refl _) fun total _ htotal => ?_
    obtain rfl := htotal
    exact rel_bind (rel_writeAt h fun hk => by rw [hold hk]) fun _ _ hv => ih (e + 1) hv

theorem rel_expectedStates (observed : List EReal) (bound e : ℕ) (ss : List (State LogWeight))
    (h : AgreeBelow k v v') : Option.Rel (AgreeBelow k) (expectedStates add observed bound e v ss)
      (expectedStates add observed bound e v' ss) := by
  induction ss generalizing e v v' with
  | nil => exact .some h
  | cons s ss ih =>
    unfold expectedStates
    refine rel_bind (rel_refl _) fun totals _ htotals => ?_
    obtain rfl := htotals
    exact rel_bind (rel_expectedPass totals e s.arcs h) fun _ _ hv => ih _ hv

/-- The gradient reads the expected counts of the arcs it visits. -/
theorem gradientArcs_agree {N : ℕ} {t : TrainerLocal n} (h : AgreeBelow k v v') {i m : ℕ}
    (him : i + m ≤ k) (gradient : ColumnVector n) :
    gradientArcs N { t with expectedCounts := v' } i m gradient =
      gradientArcs N { t with expectedCounts := v } i m gradient := by
  induction m generalizing i gradient with
  | zero => rfl
  | succ m ih =>
    unfold gradientArcs
    have hnext (g : ColumnVector n) := ih (by omega : i + 1 + m ≤ k) g
    simp only [h.below i (by omega), hnext]

end Expected

/-! ### One call on two trainers -/

/-- The trainers differ in their arc weights and expected counts only. -/
structure Similar (t t' : TrainerLocal n) : Prop where
  kept : Kept t t'
  observed : t'.observedCounts = t.observedCounts

theorem Similar.refl (t : TrainerLocal n) : Similar t t := ⟨Kept.refl t, rfl⟩

theorem Similar.trans {t t' t'' : TrainerLocal n} (h : Similar t t') (h' : Similar t' t'') :
    Similar t t'' := ⟨h.kept.trans h'.kept, h'.observed.trans h.observed⟩

theorem Similar.eq {t t' : TrainerLocal n} (h : Similar t t') :
    ∃ F expected, skeleton F = skeleton t.fst ∧
    expected.length = t.expectedCounts.length ∧
      t' = { t with fst := F, expectedCounts := expected } := by
  obtain ⟨⟨F, obs, exp, hF, -, hexp, rfl⟩, hobs⟩ := h
  obtain rfl : obs = t.observedCounts := hobs
  exact ⟨F, exp, hF, hexp, rfl⟩

/-- One result, on trainers that are similar again. -/
def SameResult {α : Type*} (r r' : α × TrainerLocal n) : Prop := r'.1 = r.1 ∧ Similar r.2 r'.2

theorem map_fst_of_rel {α : Type*} {x x' : Option (α × TrainerLocal n)}
    (h : Option.Rel SameResult x x') :
    x'.map Prod.fst = x.map Prod.fst := by
  cases h with
  | some hr => exact congrArg some hr.1
  | none => rfl

section Calls
variable {add : EReal → EReal → EReal} {comp : Composer} {debugMode : Bool} {t t' : TrainerLocal n}

/-- The machine is overwritten, whatever its arc weights were. -/
theorem rel_updateArcWeights (h : Similar t t') (weights : ColumnVector n) :
    Option.Rel (fun u u' => ∃ expected, expected.length = u.expectedCounts.length ∧
      u' = { u with expectedCounts := expected })
      (t.updateArcWeights add weights) (t'.updateArcWeights add weights) := by
  rw [updateArcWeights_machineAt, updateArcWeights_machineAt, h.kept.machineAt]
  obtain ⟨F, expected, hF, hexp, rfl⟩ := h.eq
  cases t.machineAt add weights with
  | some G => exact .some ⟨expected, hexp, rfl⟩
  | none => exact .none

theorem similar_expected {u : TrainerLocal n} {expected : List EReal}
    (h : expected.length = u.expectedCounts.length) :
    Similar u { u with expectedCounts := expected } :=
  ⟨⟨u.fst, _, expected, rfl, rfl, h, rfl⟩, rfl⟩

theorem rel_value2 (h : Similar t t') (weights : ColumnVector n) :
    Option.Rel SameResult (t.value2 add comp weights) (t'.value2 add comp weights) := by
  unfold TrainerLocal.value2
  refine rel_bind (rel_updateArcWeights h weights) fun u u' hu => ?_
  obtain ⟨expected, hexp, rfl⟩ := hu
  exact .some ⟨rfl, similar_expected hexp⟩

theorem rel_calculateExpectedCounts (u : TrainerLocal n) {k : ℕ} {v v' : List EReal}
    (h : AgreeBelow k v v') :
    Option.Rel (fun w w' : TrainerLocal n => ∃ e e', AgreeBelow k e e' ∧
      w = { u with expectedCounts := e } ∧ w' = { u with expectedCounts := e' })
      (TrainerLocal.calculateExpectedCounts add { u with expectedCounts := v })
      (TrainerLocal.calculateExpectedCounts add { u with expectedCounts := v' }) := by
  unfold TrainerLocal.calculateExpectedCounts
  refine rel_bind (rel_expectedStates u.observedCounts u.symbolBound 0 u.fst.states h) ?_
  intro e e' he
  exact .some ⟨e, e', he, rfl, rfl⟩

theorem rel_gradient2 (h : Similar t t') (weights : ColumnVector n) :
    Option.Rel SameResult (t.gradient2 add weights) (t'.gradient2 add weights) := by
  unfold TrainerLocal.gradient2
  have hN : t'.dataFormattedFeatures = t.dataFormattedFeatures := by
    obtain ⟨_, _, -, -, rfl⟩ := h.eq
    rfl
  rw [hN]
  refine rel_bind (rel_updateArcWeights h weights) fun u u' hu => ?_
  obtain ⟨expected, hexp, rfl⟩ := hu
  refine rel_bind (rel_fillNegDblMax hexp) fun v v' hv => ?_
  refine rel_bind (rel_calculateExpectedCounts u hv) fun w w' hw => ?_
  obtain ⟨e, e', he, rfl, rfl⟩ := hw
  have hgradient := gradientArcs_agree (N := t.dataFormattedFeatures.length) (t := u) he
    (Nat.le_of_eq (Nat.zero_add u.numArcs))
  rw [hgradient]
  refine rel_bind (rel_refl _) fun g _ hg => ?_
  obtain rfl := hg
  exact .some ⟨rfl, similar_expected (u := { u with expectedCounts := e }) he.length⟩

theorem rel_derivativeLoop (h : Similar t t') (weights : ColumnVector n) (eps : ℝ)
    (is : List (Fin n)) :
    Option.Rel SameResult (derivativeLoop add comp weights eps t is)
      (derivativeLoop add comp weights eps t' is) := by
  induction is generalizing t t' with
  | nil => exact .some ⟨rfl, h⟩
  | cons i is ih =>
    unfold derivativeLoop
    refine rel_bind (rel_value2 h _) fun plus plus' hplus => ?_
    refine rel_bind (rel_value2 hplus.2 _) fun minus minus' hminus => ?_
    refine rel_bind (ih hminus.2) fun der der' hder => ?_
    exact .some ⟨by rw [hplus.1, hminus.1, hder.1], hder.2⟩

theorem rel_gradientDebug (h : Similar t t') (weights : ColumnVector n) :
    Option.Rel SameResult (t.gradientDebug add comp debugMode weights)
      (t'.gradientDebug add comp debugMode weights) := by
  unfold TrainerLocal.gradientDebug
  refine rel_bind (rel_gradient2 h weights) fun g g' hg => ?_
  cases debugMode with
  | false => exact .some hg
  | true => exact rel_bind (rel_derivativeLoop hg.2 weights _ _) fun _ _ hd => .some ⟨hg.1, hd.2⟩

/-- A call runs on a similar trainer in the same way. -/
theorem rel_call (h : Similar t t') (c : Call n) :
    Option.Rel SameResult (t.call add comp debugMode c) (t'.call add comp debugMode c) := by
  cases c with
  | value weights => exact rel_bind (rel_value2 h weights) fun _ _ hr => .some ⟨by rw [hr.1], hr.2⟩
  | gradient weights =>
    exact rel_bind (rel_gradientDebug h weights) fun _ _ hr => .some ⟨by rw [hr.1], hr.2⟩

theorem similar_call {c : Call n} {r : CallResult n × TrainerLocal n}
    (h : t.call add comp debugMode c = some r) : Similar t r.2 := ⟨(kept_call h).1, (kept_call h).2⟩

/-- The results of a run of calls on a trainer similar to `t` are those of single calls on `t`. -/
theorem callLoop_results (h : Similar t t') (calls : List (Call n)) :
    (callLoop add comp debugMode t' calls).map Prod.fst =
      calls.mapM fun c => (t.call add comp debugMode c).map Prod.fst := by
  induction calls generalizing t' with
  | nil => rfl
  | cons c calls ih =>
    rw [List.mapM_cons, ← map_fst_of_rel (rel_call h c)]
    unfold callLoop
    cases hr : t'.call add comp debugMode c with
    | none => rfl
    | some r =>
      have hrest := ih (h.trans (similar_call hr))
      simp only [Option.map_some, Option.bind_eq_bind, Option.bind_some, ← hrest]
      cases callLoop add comp debugMode r.2 calls with
      | none => rfl
      | some rs => rfl

end Calls

/-! ### Every call returns -/

section Defined
variable {comp : Composer} {F : VectorFst LogWeight} {t : TrainerLocal n}

theorem IsTrainer.exists_derivativeLoop (h : IsTrainer comp F t) (weights : ColumnVector n)
    (eps : ℝ) (is : List (Fin n)) :
    ∃ r, derivativeLoop logsum comp weights eps t is = some r ∧ IsTrainer comp F r.2 := by
  induction is generalizing t with
  | nil => exact ⟨([], t), rfl, h⟩
  | cons i is ih =>
    let plus := Function.update weights i (weights i + eps)
    let minus := Function.update weights i (weights i - eps)
    obtain ⟨r, hr, htrainer⟩ := ih ((h.reweighted plus).reweighted minus)
    refine ⟨(((h.objective plus : EReal) - ((h.reweighted plus).objective minus : EReal)) /
      ((2 : ℕ) * eps : ℝ) :: r.1, r.2), ?_, htrainer⟩
    unfold derivativeLoop
    simp only [h.value2_eq, (h.reweighted plus).value2_eq, Option.bind_eq_bind, Option.bind_some,
      plus, minus, hr]
    rfl

/-- After an E-step a call of the optimiser returns. -/
theorem IsTrainer.exists_call (h : IsTrainer comp F t) {c : ℕ → ℝ} (hc : ∀ a, 0 ≤ c a)
    (hobserved : ∀ a, tally t.observedCounts a = ENNReal.ofReal (c a)) (debugMode : Bool)
    (x : Call n) :
    ∃ r, t.call logsum comp debugMode x = some r ∧ IsTrainer comp F r.2 := by
  cases x with
  | value weights =>
    refine ⟨(.value (h.objective weights), reweightedTrainer F t weights), ?_, h.reweighted weights⟩
    simp only [TrainerLocal.call, h.value2_eq, Option.bind_eq_bind, Option.bind_some]
    rfl
  | gradient weights =>
    obtain ⟨t', hgradient, ht'⟩ := h.gradient2_eq weights hc hobserved
    obtain ⟨r, hr, htrainer⟩ := ht'.exists_derivativeLoop weights (1 / 10000) (List.finRange n)
    simp only [TrainerLocal.call, TrainerLocal.gradientDebug, hgradient, Option.bind_eq_bind,
      Option.bind_some]
    cases debugMode with
    | false => exact ⟨_, rfl, ht'⟩
    | true =>
      simp only [if_true, hr, Option.bind_some]
      exact ⟨_, rfl, htrainer⟩

theorem IsTrainer.exists_callLoop (h : IsTrainer comp F t) {c : ℕ → ℝ} (hc : ∀ a, 0 ≤ c a)
    (hobserved : ∀ a, tally t.observedCounts a = ENNReal.ofReal (c a)) (debugMode : Bool)
    (calls : List (Call n)) :
    ∃ r, callLoop logsum comp debugMode t calls = some r := by
  induction calls generalizing t with
  | nil => exact ⟨_, rfl⟩
  | cons x calls ih =>
    obtain ⟨r, hr, htrainer⟩ := h.exists_call hc hobserved debugMode x
    obtain ⟨r', hr'⟩ := ih htrainer (by rwa [(kept_call hr).2])
    refine ⟨(r.1 :: r'.1, r'.2), ?_⟩
    unfold callLoop
    simp only [hr, hr', Option.bind_eq_bind, Option.bind_some]
    rfl

end Defined

/-- Whatever calls of `value` and `gradient` are made, each returns what it returns as the
first call on the trainer, the observed counts stay, and `update_arc_weights` leaves the
machine that it leaves without the calls. -/
theorem calls_const (add : EReal → EReal → EReal) (comp : Composer) (debugMode : Bool)
    (t : TrainerLocal n) (calls : List (Call n)) :
    (callLoop add comp debugMode t calls).map Prod.fst =
        calls.mapM (fun c => (t.call add comp debugMode c).map Prod.fst) ∧
      ∀ results t', callLoop add comp debugMode t calls = some (results, t') →
        t'.observedCounts = t.observedCounts ∧ ∀ weights,
          (t'.updateArcWeights add weights).map TrainerLocal.fst =
            (t.updateArcWeights add weights).map TrainerLocal.fst := by
  refine ⟨callLoop_results (Similar.refl t) calls, fun results t' h => ?_⟩
  obtain ⟨hkept, hobserved⟩ := kept_callLoop h
  refine ⟨hobserved, fun weights => ?_⟩
  rw [updateArcWeights_machineAt, updateArcWeights_machineAt, hkept.machineAt, Option.map_map,
    Option.map_map]
  rfl

theorem tally_twoArcs (lambda : ℝ) (a : ℕ) :
    tally (twoArcsTrainer lambda).observedCounts a = ENNReal.ofReal (if a < 2 then 1 else 0) := by
  show EReal.exp (([0, 0] : List EReal)[a]?.getD negDblMax) = _
  rcases a with _ | _ | a
  · rw [if_pos Nat.two_pos, ENNReal.ofReal_one]
    exact EReal.exp_zero
  · rw [if_pos Nat.one_lt_two, ENNReal.ofReal_one]
    exact EReal.exp_zero
  · rw [if_neg (by omega), ENNReal.ofReal_zero]
    exact EReal.exp_bot

theorem calls_const_twoArcs :
    ∃ r, callLoop logsum composeParallel true (twoArcsTrainer 0)
      [.gradient 0, .value 1, .gradient 1] =
        some r ∧ r.2.observedCounts = (twoArcsTrainer 0).observedCounts ∧
      (r.2.updateArcWeights logsum 0).map TrainerLocal.fst =
        ((twoArcsTrainer 0).updateArcWeights logsum 0).map TrainerLocal.fst := by
  obtain ⟨r, hr⟩ := (isTrainer_twoArcs 0).exists_callLoop (fun a => by split_ifs <;> norm_num)
    (tally_twoArcs 0) true [.gradient 0, .value 1, .gradient 1]
  obtain ⟨hobserved, hmachine⟩ := (calls_const _ _ _ _ _).2 r.1 r.2 hr
  exact ⟨r, hr, hobserved, hmachine 0⟩

end StochasticEdit.Trainer
