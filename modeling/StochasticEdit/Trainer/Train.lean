import StochasticEdit.Trainer.Training

/-! `train` and the calls of the optimiser. An outer iteration is an E-step, a run of
`find_min` and a last `update_arc_weights`. What `find_min` calls and returns is up to
dlib, so a run of it is any list of calls together with any result. None of the steps
changes more of the trainer than its arc weights and its counts. -/

namespace StochasticEdit.Trainer

open Wfst

variable {n : ℕ}

/-- A call that the optimiser makes of its two arguments. -/
inductive Call (n : ℕ)
  | value (weights : ColumnVector n)
  | gradient (weights : ColumnVector n)

inductive CallResult (n : ℕ)
  | value (result : EReal)
  | gradient (result : ColumnVector n)

/-- A run of `find_min`, with the vector that it leaves in its argument. -/
structure FindMin (n : ℕ) where
  calls : List (Call n)
  result : ColumnVector n

section Train
variable (add : EReal → EReal → EReal) (comp : Composer) (debugMode : Bool)

/-- The loop of `dlib::derivative(value,eps)`, by central differences. -/
noncomputable def derivativeLoop (weights : ColumnVector n) (eps : ℝ) :
    TrainerLocal n → List (Fin n) → Option (List EReal × TrainerLocal n)
  | t, [] => some ([], t)
  | t, i :: rest => do
    let (deltaPlus, t) ← t.value2 add comp (Function.update weights i (weights i + eps))
    let (deltaMinus, t) ← t.value2 add comp (Function.update weights i (weights i - eps))
    let (der, t) ← derivativeLoop weights eps t rest
    return ((deltaPlus - deltaMinus) / ((2 : ℕ) * eps : ℝ) :: der, t)

/-- `gradient2` with the comparison of the debug mode, which prints `g`. -/
noncomputable def TrainerLocal.gradientDebug (t : TrainerLocal n) (weights : ColumnVector n) :
    Option (ColumnVector n × TrainerLocal n) := do
  let (gradient, t) ← t.gradient2 add weights
  if debugMode then
    let (_g, t) ← derivativeLoop add comp weights (1 / 10000) t (List.finRange n)
    return (gradient, t)
  else
    return (gradient, t)

noncomputable def TrainerLocal.call (t : TrainerLocal n) :
    Call n → Option (CallResult n × TrainerLocal n)
  | .value weights => do
    let (result, t) ← t.value2 add comp weights
    return (.value result, t)
  | .gradient weights => do
    let (result, t) ← t.gradientDebug add comp debugMode weights
    return (.gradient result, t)

noncomputable def callLoop : TrainerLocal n → List (Call n) → Option
    (List (CallResult n) × TrainerLocal n)
  | t, [] => some ([], t)
  | t, c :: calls => do
    let (result, t) ← t.call add comp debugMode c
    let (results, t) ← callLoop t calls
    return (result :: results, t)

/-- The vector that `train` copies from `weights`. -/
def TrainerLocal.tmpWeights (t : TrainerLocal n) : Option (ColumnVector n) :=
  if h : n ≤ t.weights.length then some fun i => t.weights[i] else none

/-- The outer iterations of `train`, one for each run of `find_min`. -/
noncomputable def trainLoop : TrainerLocal n → ColumnVector n → List (FindMin n) →
    Option (TrainerLocal n × ColumnVector n)
  | t, tmpWeights, [] => some (t, tmpWeights)
  | t, _, opt :: opts => do
    let t ← t.eStep add comp
    let (_, t) ← callLoop add comp debugMode t opt.calls
    let t ← t.updateArcWeights add opt.result
    trainLoop t opt.result opts

noncomputable def TrainerLocal.train (t : TrainerLocal n) (opts : List (FindMin n)) :
    Option (TrainerLocal n) := do
  let tmpWeights ← t.tmpWeights
  let (t, _) ← trainLoop add comp debugMode t tmpWeights opts
  return t

/-- One call of `train` after the other. -/
noncomputable def trainCalls : TrainerLocal n → List (List (FindMin n)) → Option (TrainerLocal n)
  | t, [] => some t
  | t, opts :: calls => do
    let t ← t.train add comp debugMode opts
    trainCalls t calls

/-- The trainer and the vector `tmp_weights` at the start of an outer iteration: after the
calls `earlier` of `train` and the iterations `opts` of the current one. -/
noncomputable def iterationStart (t : TrainerLocal n) (earlier : List (List (FindMin n)))
    (opts : List (FindMin n)) : Option (TrainerLocal n × ColumnVector n) := do
  let t ← trainCalls add comp debugMode t earlier
  let tmpWeights ← t.tmpWeights
  trainLoop add comp debugMode t tmpWeights opts

/-- The starts of the outer iterations of a sequence of calls of `train`. -/
def StartsIteration (t : TrainerLocal n) (calls : List (List (FindMin n))) (t' : TrainerLocal n)
    (tmpWeights : ColumnVector n) : Prop :=
  ∃ earlier opts opt rest later, calls = earlier ++ (opts ++ opt :: rest) :: later ∧
    iterationStart add comp debugMode t earlier opts = some (t', tmpWeights)

end Train

/-! ### The machine without its weights -/

/-- States, labels and final weights. -/
noncomputable def skeletonStates (ss : List (State LogWeight)) : List (State LogWeight) :=
  ss.map fun s => ⟨s.final, s.arcs.map (Arc.map fun _ => 1)⟩

noncomputable def skeleton (F : VectorFst LogWeight) : VectorFst LogWeight :=
  ⟨F.start, skeletonStates F.states⟩

section Skeleton
variable {add : EReal → EReal → EReal}

theorem totalsPass_map {W V : Type*} (f : W → V) (term : ℕ → Option EReal) (e : ℕ)
    (total : List EReal) (arcs : List (Arc W)) :
    totalsPass add term e total (arcs.map (Arc.map f)) =
      totalsPass add term e total arcs := by
  induction arcs generalizing e total with
  | nil => rfl
  | cons a arcs ih => simp only [List.map_cons, totalsPass, Arc.map_ilabel, ih]

theorem reweightPass_map (f : LogWeight → LogWeight) (score : ℕ → Option ℝ) (total : List EReal)
    (e : ℕ) (arcs : List (Arc LogWeight)) : reweightPass score total e (arcs.map (Arc.map f)) =
      reweightPass score total e arcs := by
  induction arcs generalizing e with
  | nil => rfl
  | cons a arcs ih =>
    simp only [List.map_cons, reweightPass, Arc.map_ilabel, Arc.map_olabel, Arc.map_nextstate, ih]

/-- Reweighting reads no arc weights. -/
theorem reweightStates_skeleton (score : ℕ → Option ℝ) (bound e : ℕ) (ss : List (State LogWeight)) :
    reweightStates add score bound e (skeletonStates ss) = reweightStates add score bound e ss := by
  induction ss generalizing e with
  | nil => rfl
  | cons s ss ih =>
    have hrest := ih (e + s.arcs.length)
    unfold skeletonStates at hrest ⊢
    simp only [List.map_cons, reweightStates, totalsPass_map, reweightPass_map,
      List.length_map, hrest]

theorem reweightPass_skeleton {score : ℕ → Option ℝ} {total : List EReal} {e : ℕ}
    {arcs arcs' : List (Arc LogWeight)} (h : reweightPass score total e arcs = some arcs') :
    arcs'.map (Arc.map fun _ => (1 : LogWeight)) = arcs.map (Arc.map fun _ => 1) := by
  induction arcs generalizing e arcs' with
  | nil =>
    obtain rfl := Option.some.inj h
    rfl
  | cons a arcs ih =>
    simp only [reweightPass, Option.bind_eq_bind, Option.bind_eq_some_iff] at h
    obtain ⟨x, -, y, -, rest, hrest, h⟩ := h
    obtain rfl := Option.some.inj h
    rw [List.map_cons, List.map_cons, ih hrest]
    rfl

/-- Reweighting keeps everything but the arc weights. -/
theorem skeleton_reweightStates {score : ℕ → Option ℝ} {bound e : ℕ}
    {ss ss' : List (State LogWeight)} (h : reweightStates add score bound e ss = some ss') :
    skeletonStates ss' = skeletonStates ss := by
  induction ss generalizing e ss' with
  | nil =>
    obtain rfl := Option.some.inj h
    rfl
  | cons s ss ih =>
    simp only [reweightStates, Option.bind_eq_bind, Option.bind_eq_some_iff] at h
    obtain ⟨total, -, arcs, harcs, rest, hrest, h⟩ := h
    obtain rfl := Option.some.inj h
    have htail := ih hrest
    unfold skeletonStates at htail ⊢
    rw [List.map_cons, List.map_cons, htail, reweightPass_skeleton harcs]

theorem skeleton_eq_weighted (F : VectorFst LogWeight) : skeleton F = weighted F fun _ => 1 := by
  have harcs (arcs : List (Arc LogWeight)) (e : ℕ) :
      numberArcs (fun _ => (1 : LogWeight)) e arcs = arcs.map (Arc.map fun _ => 1) := by
    induction arcs generalizing e with
    | nil => rfl
    | cons a arcs ih =>
      rw [numberArcs, ih]
      rfl
  have hstates (ss : List (State LogWeight)) (e : ℕ) :
      numberStates (fun _ => (1 : LogWeight)) some e ss = skeletonStates ss := by
    induction ss generalizing e with
    | nil => rfl
    | cons s ss ih =>
      rw [numberStates, ih, harcs, Option.bind_fun_some]
      rfl
  rw [weighted, VectorFst.withWeights, hstates]
  rfl

theorem shape_of_skeleton {F G : VectorFst LogWeight} (h : skeleton G = skeleton F) :
    G.shape = F.shape := by
  rw [skeleton_eq_weighted, skeleton_eq_weighted] at h
  rw [← shape_weighted G fun _ => 1, h, shape_weighted]

theorem mapToFeatureArcs_of_skeleton {F G : VectorFst LogWeight} (h : skeleton G = skeleton F)
    (zero : Bool) :
    mapToFeatureArcs G zero = mapToFeatureArcs F zero := by
  rw [skeleton_eq_weighted, skeleton_eq_weighted] at h
  rw [← mapToFeatureArcs_weighted G fun _ => 1, h, mapToFeatureArcs_weighted]

end Skeleton

/-! ### The lengths of the counts -/

section Lengths
variable {add : EReal → EReal → EReal}

theorem lt_of_readAt {α : Type*} {v : List α} {i : ℤ} {x : α} (h : readAt v i = some x) :
    0 ≤ i ∧ i < v.length := by
  unfold readAt at h
  split_ifs at h with hi
  have hlt := (List.getElem?_eq_some_iff.mp h).1
  omega

theorem length_writeAt {α : Type*} {v v' : List α} {i : ℤ} {x : α} (h : writeAt v i x = some v') :
    v'.length = v.length := by
  unfold writeAt at h
  split_ifs at h
  obtain rfl := Option.some.inj h
  exact List.length_set

theorem length_countPass {mapper : ℕ → ℤ} {alpha beta : List LogWeight} {Z : LogWeight}
    {state e : ℕ} {counts counts' : List EReal} {arcs : List (Arc LogWeight)}
    (h : countPass add mapper alpha beta Z state e counts arcs = some counts') :
    counts'.length = counts.length := by
  induction arcs generalizing e counts with
  | nil =>
    obtain rfl := Option.some.inj h
    rfl
  | cons a arcs ih =>
    simp only [countPass, Option.bind_eq_bind, Option.bind_eq_some_iff] at h
    obtain ⟨x, -, y, -, old, -, counts₁, hwrite, h⟩ := h
    rw [ih h, length_writeAt hwrite]

theorem length_countStates {fstLog : VectorFst LogWeight} {alpha beta : List LogWeight}
    {Z : LogWeight} {q e : ℕ} {counts counts' : List EReal} {ss : List (State FeatureWeight)}
    (h : countStates add fstLog alpha beta Z q e counts ss = some counts') :
    counts'.length = counts.length := by
  induction ss generalizing q e counts with
  | nil =>
    obtain rfl := Option.some.inj h
    rfl
  | cons s ss ih =>
    simp only [countStates, Option.bind_eq_bind, Option.bind_eq_some_iff] at h
    obtain ⟨s', -, counts₁, hpass, h⟩ := h
    rw [ih h, length_countPass hpass]

theorem length_fillNegDblMax {k : ℕ} {v v' : List EReal} (h : fillNegDblMax k v = some v') :
    v'.length = v.length := by
  unfold fillNegDblMax at h
  split_ifs at h with hk
  obtain rfl := Option.some.inj h
  rw [List.length_append, List.length_replicate, List.length_drop]
  omega

theorem length_expectedPass {totalTraversals expected expected' : List EReal} {e : ℕ}
    {arcs : List (Arc LogWeight)}
    (h : expectedPass add totalTraversals e expected arcs = some expected') :
    expected'.length = expected.length := by
  induction arcs generalizing e expected with
  | nil =>
    obtain rfl := Option.some.inj h
    rfl
  | cons a arcs ih =>
    simp only [expectedPass, Option.bind_eq_bind, Option.bind_eq_some_iff] at h
    obtain ⟨old, -, total, -, expected₁, hwrite, h⟩ := h
    rw [ih h, length_writeAt hwrite]

theorem length_expectedStates {observed expected expected' : List EReal} {bound e : ℕ}
    {ss : List (State LogWeight)}
    (h : expectedStates add observed bound e expected ss = some expected') :
    expected'.length = expected.length := by
  induction ss generalizing e expected with
  | nil =>
    obtain rfl := Option.some.inj h
    rfl
  | cons s ss ih =>
    simp only [expectedStates, Option.bind_eq_bind, Option.bind_eq_some_iff] at h
    obtain ⟨totals, -, expected₁, hpass, h⟩ := h
    rw [ih h, length_expectedPass hpass]

end Lengths

/-! ### What the steps keep -/

/-- `t'` is `t` with other arc weights and counts. -/
def Kept (t t' : TrainerLocal n) : Prop :=
  ∃ F observed expected, skeleton F = skeleton t.fst ∧ observed.length = t.observedCounts.length ∧
    expected.length = t.expectedCounts.length ∧
    t' = { t with fst := F, observedCounts := observed, expectedCounts := expected }

theorem Kept.refl (t : TrainerLocal n) : Kept t t := ⟨_, _, _, rfl, rfl, rfl, rfl⟩

theorem Kept.trans {t t' t'' : TrainerLocal n} (h : Kept t t') (h' : Kept t' t'') : Kept t t'' := by
  obtain ⟨F, obs, exp, hF, hobs, hexp, rfl⟩ := h
  obtain ⟨F', obs', exp', hF', hobs', hexp', rfl⟩ := h'
  exact ⟨F', obs', exp', hF'.trans hF, hobs'.trans hobs, hexp'.trans hexp, rfl⟩

section Steps
variable {add : EReal → EReal → EReal} {comp : Composer} {debugMode : Bool} {t t' : TrainerLocal n}

/-- The machine with the arc weights that `update_arc_weights` would write. -/
noncomputable def TrainerLocal.machineAt (add : EReal → EReal → EReal) (t : TrainerLocal n)
    (weights : ColumnVector n) : Option (VectorFst LogWeight) :=
  (reweightStates add (multFeaturesByWeights t.features weights) t.symbolBound 0 t.fst.states).map
    fun states => { t.fst with states := states }

theorem updateArcWeights_machineAt (t : TrainerLocal n) (weights : ColumnVector n) :
    t.updateArcWeights add weights = (t.machineAt add weights).map fun F =>
      { t with fst := F } := by
  rw [TrainerLocal.updateArcWeights, TrainerLocal.machineAt, Option.map_map]
  exact (Option.map_eq_bind).symm

theorem skeleton_machineAt {weights : ColumnVector n} {F : VectorFst LogWeight}
    (h : t.machineAt add weights = some F) : skeleton F = skeleton t.fst := by
  obtain ⟨states, hstates, rfl⟩ := Option.map_eq_some_iff.mp h
  exact congrArg (VectorFst.mk t.fst.start) (skeleton_reweightStates hstates)

theorem updateArcWeights_eq_some {weights : ColumnVector n}
    (h : t.updateArcWeights add weights = some t') :
    ∃ F, t.machineAt add weights = some F ∧ t' = { t with fst := F } := by
  rw [updateArcWeights_machineAt] at h
  obtain ⟨F, hF, rfl⟩ := Option.map_eq_some_iff.mp h
  exact ⟨F, hF, rfl⟩

theorem kept_updateArcWeights {weights : ColumnVector n}
    (h : t.updateArcWeights add weights = some t') : Kept t t' := by
  obtain ⟨F, hF, rfl⟩ := updateArcWeights_eq_some h
  exact ⟨F, _, _, skeleton_machineAt hF, rfl, rfl, rfl⟩

/-- The new arc weights do not depend on the old ones. -/
theorem Kept.machineAt (h : Kept t t') (weights : ColumnVector n) :
    t'.machineAt add weights = t.machineAt add weights := by
  obtain ⟨F, obs, exp, hF, -, -, rfl⟩ := h
  obtain ⟨hstart, hstates⟩ := VectorFst.mk.inj hF
  rw [TrainerLocal.machineAt,
    TrainerLocal.machineAt, ← reweightStates_skeleton _ _ _ F.states, hstates,
    reweightStates_skeleton]
  exact congrArg (fun q => Option.map (VectorFst.mk q) _) hstart

theorem value2_eq_some {weights : ColumnVector n} {r : EReal × TrainerLocal n}
    (h : t.value2 add comp weights = some r) : t.updateArcWeights add weights = some r.2 := by
  simp only [TrainerLocal.value2, Option.bind_eq_bind, Option.bind_eq_some_iff] at h
  obtain ⟨t₁, ht₁, h⟩ := h
  obtain rfl := Option.some.inj h
  exact ht₁

theorem kept_gradient2 {weights : ColumnVector n} {r : ColumnVector n × TrainerLocal n}
    (h : t.gradient2 add weights = some r) :
    Kept t r.2 ∧ r.2.observedCounts = t.observedCounts := by
  simp only [TrainerLocal.gradient2, TrainerLocal.calculateExpectedCounts, Option.bind_eq_bind,
    Option.bind_eq_some_iff] at h
  obtain ⟨t₁, ht₁, expected, hfill, t₂, ⟨expected', hstates, ht₂⟩, gradient, -, h⟩ := h
  obtain rfl := Option.some.inj h
  obtain rfl := Option.some.inj ht₂
  obtain ⟨F, hF, rfl⟩ := updateArcWeights_eq_some ht₁
  exact ⟨⟨F, _, _, skeleton_machineAt hF, rfl,
    (length_expectedStates hstates).trans (length_fillNegDblMax hfill), rfl⟩, rfl⟩

theorem kept_derivativeLoop {weights : ColumnVector n} {eps : ℝ} {is : List (Fin n)}
    {r : List EReal × TrainerLocal n} (h : derivativeLoop add comp weights eps t is = some r) :
    Kept t r.2 ∧ r.2.observedCounts = t.observedCounts := by
  induction is generalizing t r with
  | nil =>
    obtain rfl := Option.some.inj h
    exact ⟨Kept.refl t, rfl⟩
  | cons i is ih =>
    simp only [derivativeLoop, Option.bind_eq_bind, Option.bind_eq_some_iff] at h
    obtain ⟨r₁, h₁, r₂, h₂, r₃, h₃, h⟩ := h
    obtain rfl := Option.some.inj h
    have hk₁ := value2_eq_some h₁
    have hk₂ := value2_eq_some h₂
    obtain ⟨hk₃, hobs⟩ := ih h₃
    refine ⟨((kept_updateArcWeights hk₁).trans (kept_updateArcWeights hk₂)).trans hk₃,
      hobs.trans ?_⟩
    obtain ⟨F₂, -, heq₂⟩ := updateArcWeights_eq_some hk₂
    obtain ⟨F₁, -, heq₁⟩ := updateArcWeights_eq_some hk₁
    rw [heq₂, heq₁]

theorem kept_call {c : Call n} {r : CallResult n × TrainerLocal n}
    (h : t.call add comp debugMode c = some r) :
    Kept t r.2 ∧ r.2.observedCounts = t.observedCounts := by
  cases c with
  | value weights =>
    simp only [TrainerLocal.call, Option.bind_eq_bind, Option.bind_eq_some_iff] at h
    obtain ⟨r₁, h₁, h⟩ := h
    obtain rfl := Option.some.inj h
    have hupdate := value2_eq_some h₁
    obtain ⟨F, -, heq⟩ := updateArcWeights_eq_some hupdate
    exact ⟨kept_updateArcWeights hupdate, by rw [heq]⟩
  | gradient weights =>
    simp only [TrainerLocal.call, TrainerLocal.gradientDebug, Option.bind_eq_bind,
      Option.bind_eq_some_iff] at h
    obtain ⟨r₁, ⟨r₂, h₂, h₁⟩, h⟩ := h
    obtain rfl := Option.some.inj h
    obtain ⟨hk₂, hobs₂⟩ := kept_gradient2 h₂
    cases debugMode with
    | false =>
      obtain rfl := Option.some.inj h₁
      exact ⟨hk₂, hobs₂⟩
    | true =>
      simp only [if_true, Option.bind_eq_some_iff] at h₁
      obtain ⟨r₃, h₃, h₁⟩ := h₁
      obtain rfl := Option.some.inj h₁
      obtain ⟨hk₃, hobs₃⟩ := kept_derivativeLoop h₃
      exact ⟨hk₂.trans hk₃, hobs₃.trans hobs₂⟩

/-- No call of the optimiser changes more than the arc weights and the expected counts. -/
theorem kept_callLoop {calls : List (Call n)} {r : List (CallResult n) × TrainerLocal n}
    (h : callLoop add comp debugMode t calls = some r) :
    Kept t r.2 ∧ r.2.observedCounts = t.observedCounts := by
  induction calls generalizing t r with
  | nil =>
    obtain rfl := Option.some.inj h
    exact ⟨Kept.refl t, rfl⟩
  | cons c calls ih =>
    simp only [callLoop, Option.bind_eq_bind, Option.bind_eq_some_iff] at h
    obtain ⟨r₁, h₁, r₂, h₂, h⟩ := h
    obtain rfl := Option.some.inj h
    obtain ⟨hk₁, hobs₁⟩ := kept_call h₁
    obtain ⟨hk₂, hobs₂⟩ := ih h₂
    exact ⟨hk₁.trans hk₂, hobs₂.trans hobs₁⟩

theorem kept_exemplarLoop
    {data : List ((VectorFst LogWeight × VectorFst LogWeight) × VectorFst FeatureWeight)}
    (h : exemplarLoop add comp t data = some t') : Kept t t' := by
  induction data generalizing t with
  | nil =>
    obtain rfl := Option.some.inj h
    exact Kept.refl t
  | cons d data ih =>
    simp only [exemplarLoop, TrainerLocal.calculateObservedCounts, Option.bind_eq_bind,
      Option.bind_eq_some_iff] at h
    obtain ⟨t₁, ⟨a, -, b, -, counts, hcounts, ht₁⟩, h⟩ := h
    obtain rfl := Option.some.inj ht₁
    exact Kept.trans ⟨_, _, _, rfl, length_countStates hcounts, rfl, rfl⟩ (ih h)

theorem kept_eStep (h : t.eStep add comp = some t') : Kept t t' := by
  simp only [TrainerLocal.eStep, Option.bind_eq_bind, Option.bind_eq_some_iff] at h
  obtain ⟨counts, hfill, h⟩ := h
  exact Kept.trans ⟨_, _, _, rfl, length_fillNegDblMax hfill, rfl, rfl⟩ (kept_exemplarLoop h)

/-- One outer iteration. -/
theorem trainLoop_cons {tmpWeights : ColumnVector n} {opt : FindMin n} {opts : List (FindMin n)}
    {r : TrainerLocal n × ColumnVector n}
    (h : trainLoop add comp debugMode t tmpWeights (opt :: opts) = some r) :
    ∃ t₁ t₂, Kept t t₁ ∧ t₁.updateArcWeights add opt.result = some t₂ ∧
      trainLoop add comp debugMode t₂ opt.result opts = some r := by
  simp only [trainLoop, Option.bind_eq_bind, Option.bind_eq_some_iff] at h
  obtain ⟨t₁, h₁, r₂, h₂, t₃, h₃, h⟩ := h
  exact ⟨r₂.2, t₃, (kept_eStep h₁).trans (kept_callLoop h₂).1, h₃, h⟩

theorem kept_trainLoop {tmpWeights : ColumnVector n} {opts : List (FindMin n)}
    {r : TrainerLocal n × ColumnVector n}
    (h : trainLoop add comp debugMode t tmpWeights opts = some r) : Kept t r.1 := by
  induction opts generalizing t tmpWeights with
  | nil =>
    obtain rfl := Option.some.inj h
    exact Kept.refl t
  | cons opt opts ih =>
    obtain ⟨t₁, t₂, hk, hupdate, hrest⟩ := trainLoop_cons h
    exact (hk.trans (kept_updateArcWeights hupdate)).trans (ih hrest)

theorem train_eq_some {opts : List (FindMin n)} (h : t.train add comp debugMode opts = some t') :
    ∃ tmpWeights tmpWeights', t.tmpWeights = some tmpWeights ∧
      trainLoop add comp debugMode t tmpWeights opts = some (t', tmpWeights') := by
  simp only [TrainerLocal.train, Option.bind_eq_bind, Option.bind_eq_some_iff] at h
  obtain ⟨tmpWeights, htmp, r, hr, h⟩ := h
  obtain rfl := Option.some.inj h
  exact ⟨tmpWeights, r.2, htmp, hr⟩

theorem kept_trainCalls {calls : List (List (FindMin n))}
    (h : trainCalls add comp debugMode t calls = some t') : Kept t t' := by
  induction calls generalizing t with
  | nil =>
    obtain rfl := Option.some.inj h
    exact Kept.refl t
  | cons opts calls ih =>
    simp only [trainCalls, Option.bind_eq_bind, Option.bind_eq_some_iff] at h
    obtain ⟨t₁, h₁, h⟩ := h
    obtain ⟨_, _, -, hloop⟩ := train_eq_some h₁
    exact (kept_trainLoop hloop).trans (ih h)

end Steps

end StochasticEdit.Trainer
