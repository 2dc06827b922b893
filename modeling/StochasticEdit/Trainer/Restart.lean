import StochasticEdit.Trainer.Train
import StochasticEdit.Trainer.Consistency

/-! Where the outer iterations of `train` start. Within a call the vector `tmp_weights`
and the arc weights are always of one model. A further call takes `tmp_weights` from the
member `weights`, which no call ever writes, while the machine still has the arc
weights of the call before. -/

namespace StochasticEdit.Trainer

open Wfst

variable {n : ℕ} {add : EReal → EReal → EReal} {comp : Composer} {debugMode : Bool}

/-! ### Reading no further than the tables -/

theorem totalsPass_inv {W : Type*} {term : ℕ → Option EReal} {e : ℕ} {total total' : List EReal}
    {arcs : List (Arc W)} (h : totalsPass add term e total arcs = some total') :
    (∀ k < arcs.length, (term (e + k)).isSome) ∧ ∀ a ∈ arcs, 0 ≤ a.ilabel ∧
      a.ilabel < total.length := by
  induction arcs generalizing e total with
  | nil => simp
  | cons a arcs ih =>
    simp only [totalsPass, Option.bind_eq_bind, Option.bind_eq_some_iff] at h
    obtain ⟨old, hold, x, hx, total₁, hwrite, h⟩ := h
    obtain ⟨hterm, hlabel⟩ := ih h
    rw [length_writeAt hwrite] at hlabel
    refine ⟨fun k hk => ?_, fun b hb => ?_⟩
    · rcases k with _ | k
      · simp [hx]
      · have hnext := hterm k (by simpa using hk)
        rwa [show e + (k + 1) = e + 1 + k by omega]
    · rcases List.mem_cons.mp hb with rfl | hb
      · exact lt_of_readAt hold
      · exact hlabel b hb

/-- A reweighting that ends has read a score for every arc, and every input label is an
index of its table. -/
theorem reweightStates_inv {score : ℕ → Option ℝ} {bound e : ℕ} {ss ss' : List (State LogWeight)}
    (h : reweightStates add score bound e ss = some ss') :
    (∀ k < arcsBefore ss ss.length, (score (e + k)).isSome) ∧
      ∀ s ∈ ss, ∀ a ∈ s.arcs, 0 ≤ a.ilabel ∧ a.ilabel < bound := by
  induction ss generalizing e ss' with
  | nil => simp [arcsBefore]
  | cons s ss ih =>
    simp only [reweightStates, Option.bind_eq_bind, Option.bind_eq_some_iff] at h
    obtain ⟨total, htotal, arcs, -, rest, hrest, -⟩ := h
    obtain ⟨hscore, hlabel⟩ := totalsPass_inv htotal
    obtain ⟨hscores, hlabels⟩ := ih hrest
    rw [List.length_replicate] at hlabel
    refine ⟨fun k hk => ?_, fun u hu => ?_⟩
    · rw [List.length_cons, arcsBefore] at hk
      by_cases hlt : k < s.arcs.length
      · simpa using hscore k hlt
      · have hnext := hscores (k - s.arcs.length) (by omega)
        rwa [show e + s.arcs.length + (k - s.arcs.length) = e + k by omega] at hnext
    · rcases List.mem_cons.mp hu with rfl | hu
      · exact hlabel
      · exact hlabels u hu

/-- The size of the table does not matter while every label fits. -/
theorem reweightStates_bound {score : ℕ → Option ℝ} {bound bound' : ℕ} {F : VectorFst LogWeight}
    {ss : List (State LogWeight)} (h : reweightStates add score bound 0 F.states = some ss)
    (hlabels : LabelsBelow F bound') : reweightStates add score bound' 0 F.states = some ss := by
  obtain ⟨hscore, hlabel⟩ := reweightStates_inv h
  have hbelow : LabelsBelow F bound := labelsBelow_iff_states.mpr hlabel
  have hread : ∀ e < F.numArcs, score e = some ((score e).getD 0) := by
    intro e he
    rw [F.numArcs_eq] at he
    obtain ⟨x, hx⟩ := Option.isSome_iff_exists.mp (hscore e he)
    rw [zero_add] at hx
    rw [hx, Option.getD_some]
  rw [reweightStates_reweighted add hread hbelow] at h
  rw [reweightStates_reweighted add hread hlabels]
  exact h

/-! ### The constructor -/

section Constructor
variable {F : VectorFst LogWeight} {exemplars : List (VectorFst LogWeight × VectorFst LogWeight)}
  {numArcs symbolBound : ℕ} {features : FeatureMap} {weights : List ℝ} {lambda : ℝ}

/-- The only step of the constructor that can fail is the normalisation. -/
theorem exists_states_of_construct {t : TrainerLocal n}
    (h : construct comp add F exemplars numArcs symbolBound features weights lambda n = some t) :
    ∃ states, reweightStates add t.multFeatures numArcs 0 F.states = some states ∧ t =
      { fst := ⟨F.start, states⟩, fstFeature := mapToFeatureArcs ⟨F.start, states⟩ false
        dataFormatted := exemplars
        dataFormattedFeatures := exemplars.map
          (featureLattice comp (mapToFeatureArcs ⟨F.start, states⟩ false))
        features := features, weights := weights, numArcs := numArcs, symbolBound := symbolBound
        regularizationCoefficient := lambda, observedCounts := List.replicate numArcs 0
        expectedCounts := List.replicate numArcs 0 } := by
  simp only [construct, TrainerLocal.updateArcWeightsMember, Option.bind_eq_bind,
    Option.bind_eq_some_iff] at h
  obtain ⟨t₁, ⟨states, hstates, ht₁⟩, h⟩ := h
  obtain rfl := Option.some.inj ht₁
  obtain rfl := Option.some.inj h
  exact ⟨states, hstates, rfl⟩

/-- What the constructor stores. -/
theorem construct_eq_some {t : TrainerLocal n}
    (h : construct comp add F exemplars numArcs symbolBound features weights lambda n = some t) :
    skeleton t.fst = skeleton F ∧ t.features = features ∧ t.weights = weights ∧
      t.numArcs = numArcs ∧
      t.observedCounts.length = numArcs ∧ t.dataFormatted = exemplars ∧
      t.dataFormattedFeatures = exemplars.map (featureLattice comp (mapToFeatureArcs F false)) := by
  obtain ⟨states, hstates, rfl⟩ := exists_states_of_construct h
  have hskeleton : skeleton ⟨F.start, states⟩ = skeleton F :=
    congrArg (VectorFst.mk F.start) (skeleton_reweightStates hstates)
  refine ⟨hskeleton, rfl, rfl, rfl, List.length_replicate, rfl, ?_⟩
  exact congrArg (fun G => exemplars.map (featureLattice comp G))
    (mapToFeatureArcs_of_skeleton hskeleton false)

/-- The constructor leaves the arc weights of its initial weights. -/
theorem construct_machineAt {t : TrainerLocal n} (hlen : weights.length = n)
    (hlabels : LabelsBelow F symbolBound)
    (h : construct comp add F exemplars numArcs symbolBound features weights lambda n = some t) :
    ∃ θ, t.tmpWeights = some θ ∧ t.machineAt add θ = some t.fst := by
  subst hlen
  obtain ⟨states, hstates, ht⟩ := exists_states_of_construct h
  have hbound := reweightStates_bound hstates hlabels
  rw [funext (multFeatures_eq t)] at hbound
  subst ht
  refine ⟨fun i => weights[i], dif_pos le_rfl, ?_⟩
  show (reweightStates add (multFeaturesByWeights features fun i : Fin weights.length => weights[i])
    symbolBound 0 states).map (VectorFst.mk F.start) = some ⟨F.start, states⟩
  rw [← reweightStates_skeleton, skeleton_reweightStates hstates, reweightStates_skeleton]
  exact congrArg (Option.map (VectorFst.mk F.start)) hbound

end Constructor

/-! ### The last vector -/

theorem machineAt_of_updateArcWeights {t t' : TrainerLocal n} {θ : ColumnVector n}
    (h : t.updateArcWeights add θ = some t') : t'.machineAt add θ = some t'.fst := by
  rw [(kept_updateArcWeights h).machineAt]
  obtain ⟨F, hF, rfl⟩ := updateArcWeights_eq_some h
  exact hF

theorem updateArcWeights_eq_self_iff {t : TrainerLocal n} {θ : ColumnVector n} :
    t.updateArcWeights add θ = some t ↔ t.machineAt add θ = some t.fst := by
  constructor
  · exact machineAt_of_updateArcWeights
  · intro h
    rw [updateArcWeights_machineAt, h]
    rfl

/-- Within a call the arc weights are those of `tmp_weights` after every iteration. -/
theorem trainLoop_last {t : TrainerLocal n} {θ : ColumnVector n} {opts : List (FindMin n)}
    {r : TrainerLocal n × ColumnVector n} (h : trainLoop add comp debugMode t θ opts = some r) :
    (opts = [] ∧ r = (t, θ)) ∨ ∃ last, opts.getLast? = some last ∧ r.2 = last.result ∧
      r.1.machineAt add last.result = some r.1.fst := by
  induction opts generalizing t θ with
  | nil => exact .inl ⟨rfl, (Option.some.inj h).symm⟩
  | cons opt opts ih =>
    obtain ⟨t₁, t₂, -, hupdate, hrest⟩ := trainLoop_cons h
    right
    rcases ih hrest with ⟨rfl, rfl⟩ | ⟨last, hlast, hr⟩
    · exact ⟨opt, rfl, rfl, machineAt_of_updateArcWeights hupdate⟩
    · exact ⟨last, by rw [List.getLast?_cons, hlast, Option.getD_some], hr⟩

/-- After some calls the arc weights are those of the last vector that any of their
iterations found. -/
theorem trainCalls_last {t t' : TrainerLocal n} {calls : List (List (FindMin n))}
    (h : trainCalls add comp debugMode t calls = some t') :
    (calls.flatten = [] ∧ t' = t) ∨ ∃ last, calls.flatten.getLast? = some last ∧
      t'.machineAt add last.result = some t'.fst := by
  induction calls generalizing t with
  | nil => exact .inl ⟨rfl, (Option.some.inj h).symm⟩
  | cons opts calls ih =>
    simp only [trainCalls, Option.bind_eq_bind, Option.bind_eq_some_iff] at h
    obtain ⟨t₁, h₁, h⟩ := h
    obtain ⟨θ, θ', -, hloop⟩ := train_eq_some h₁
    rw [List.flatten_cons, List.getLast?_append]
    rcases ih h with ⟨hnil, rfl⟩ | ⟨last, hlast, hmachine⟩
    · rw [hnil, List.append_nil]
      rcases trainLoop_last hloop with ⟨hopts, heq⟩ | ⟨last, hlast, -, hmachine⟩
      · exact .inl ⟨hopts, congrArg Prod.fst heq⟩
      · exact .inr ⟨last, by rw [hlast]; rfl, hmachine⟩
    · exact .inr ⟨last, by rw [hlast]; rfl, hmachine⟩

/-! ### The starts of the iterations -/

theorem iterationStart_eq_some {t t' : TrainerLocal n} {θ : ColumnVector n}
    {earlier : List (List (FindMin n))} {opts : List (FindMin n)} :
    iterationStart add comp debugMode t earlier opts = some (t', θ) ↔
      ∃ t₁ θ₁, trainCalls add comp debugMode t earlier = some t₁ ∧ t₁.tmpWeights = some θ₁ ∧
        trainLoop add comp debugMode t₁ θ₁ opts = some (t', θ) := by
  simp only [iterationStart, Option.bind_eq_bind, Option.bind_eq_some_iff]
  constructor
  · rintro ⟨t₁, h₁, θ₁, hθ₁, h⟩
    exact ⟨t₁, θ₁, h₁, hθ₁, h⟩
  · rintro ⟨t₁, θ₁, h₁, hθ₁, h⟩
    exact ⟨t₁, h₁, θ₁, hθ₁, h⟩

theorem Kept.tmpWeights {t t' : TrainerLocal n} (h : Kept t t') : t'.tmpWeights = t.tmpWeights := by
  obtain ⟨F, obs, exp, -, -, -, rfl⟩ := h
  rfl

/-- At the start of every outer iteration the machine has the arc weights of `tmp_weights`,
if and only if no call starts iterations after calls whose last vector gives other arc
weights than the initial weights. -/
theorem starts_match_iff {F : VectorFst LogWeight}
    {exemplars : List (VectorFst LogWeight × VectorFst LogWeight)} {numArcs symbolBound : ℕ}
    {features : FeatureMap} {weights : List ℝ} {lambda : ℝ} {t₀ : TrainerLocal n}
    (hlen : weights.length = n) (hlabels : LabelsBelow F symbolBound)
    (h : construct comp add F exemplars numArcs symbolBound features weights lambda n = some t₀)
    (calls : List (List (FindMin n))) :
    (∀ t tmpWeights, StartsIteration add comp debugMode t₀ calls t tmpWeights →
        t.updateArcWeights add tmpWeights = some t) ↔
      ∀ earlier opts later last, calls = earlier ++ opts :: later → opts ≠ [] →
        (trainCalls add comp debugMode t₀ earlier).isSome → earlier.flatten.getLast? = some last →
        t₀.updateArcWeights add last.result = some t₀ := by
  obtain ⟨θ₀, hθ₀, hmachine₀⟩ := construct_machineAt hlen hlabels h
  -- at the first iteration of a call the two vectors are `θ₀` and the last one of the earlier calls
  have hfirst {earlier : List (List (FindMin n))} {t : TrainerLocal n} {last : FindMin n}
      (ht : trainCalls add comp debugMode t₀ earlier = some t)
      (hlast : earlier.flatten.getLast? = some last) :
      t.updateArcWeights add θ₀ = some t ↔ t₀.updateArcWeights add last.result = some t₀ := by
    have hk := kept_trainCalls ht
    rcases trainCalls_last ht with ⟨hnil, -⟩ | ⟨last', hlast', hmachine⟩
    · simp [hnil] at hlast
    · obtain rfl := Option.some.inj (hlast.symm.trans hlast')
      rw [hk.machineAt] at hmachine
      rw [updateArcWeights_eq_self_iff, updateArcWeights_eq_self_iff, hk.machineAt,
        hmachine₀, hmachine, Option.some.injEq, Option.some.injEq, eq_comm]
  constructor
  · intro hall earlier opts later last hcalls hne hsome hlast
    obtain ⟨t, ht⟩ := Option.isSome_iff_exists.mp hsome
    obtain ⟨opt, rest, rfl⟩ := List.exists_cons_of_ne_nil hne
    refine (hfirst ht hlast).mp (hall t θ₀ ⟨earlier, [], opt, rest, later, hcalls, ?_⟩)
    exact iterationStart_eq_some.mpr ⟨t, θ₀, ht, (kept_trainCalls ht).tmpWeights.trans hθ₀, rfl⟩
  · rintro hcond t θ ⟨earlier, opts, opt, rest, later, hcalls, hstart⟩
    obtain ⟨t₁, θ₁, ht₁, hθ₁, hloop⟩ := iterationStart_eq_some.mp hstart
    rw [(kept_trainCalls ht₁).tmpWeights, hθ₀] at hθ₁
    obtain rfl := Option.some.inj hθ₁
    rcases trainLoop_last hloop with ⟨rfl, heq⟩ | ⟨last, -, hresult, hmachine⟩
    · obtain ⟨rfl, rfl⟩ := Prod.mk.inj heq
      rcases trainCalls_last ht₁ with ⟨-, rfl⟩ | ⟨last, hlast, -⟩
      · exact updateArcWeights_eq_self_iff.mpr hmachine₀
      · exact (hfirst ht₁ hlast).mpr
          (hcond earlier (opt :: rest) later last hcalls (by simp) (by simp [ht₁]) hlast)
    · rw [← hresult] at hmachine
      exact updateArcWeights_eq_self_iff.mpr hmachine

/-! ### A second call -/

/-- The constructor on the machine with two arcs, with the initial weight 0. -/
theorem exists_construct_twoArcs : ∃ t₀ : TrainerLocal 1,
    construct composeParallel logsum twoArcs [(oneSymbol, oneSymbol)] 2 2 [[0], []]
      [0] 0 1 = some t₀ ∧
      IsTrainer composeParallel twoArcs t₀ ∧ t₀.features = [[0], []] := by
  have h := isTrainer_twoArcs 0
  obtain ⟨t₀, ht₀, htrainer⟩ : ∃ t₀ : TrainerLocal ([0] : List ℝ).length,
      construct composeParallel logsum twoArcs [(oneSymbol, oneSymbol)] 2 2 [[0], []]
        [0] 0 1 = some t₀ ∧
        IsTrainer composeParallel twoArcs t₀ :=
    construct_isTrainer logsum 0 h.rows h.labels h.labels h.nonempty h.exemplars
  exact ⟨t₀, ht₀, htrainer, (construct_eq_some ht₀).2.1⟩

theorem starts_match_twoArcs : ∃ t₀ : TrainerLocal 1,
    construct composeParallel logsum twoArcs [(oneSymbol, oneSymbol)] 2 2 [[0], []]
      [0] 0 1 = some t₀ ∧
      ((∀ t tmpWeights, StartsIteration logsum composeParallel false t₀
        [[⟨[], 0⟩], [⟨[], 1⟩]] t tmpWeights →
          t.updateArcWeights logsum tmpWeights = some t) ↔
        ∀ earlier opts later last, [[⟨[], 0⟩], [⟨[], 1⟩]] = earlier ++ opts :: later → opts ≠ [] →
          (trainCalls logsum composeParallel false t₀ earlier).isSome →
          earlier.flatten.getLast? = some last → t₀.updateArcWeights logsum last.result =
            some t₀) := by
  obtain ⟨t₀, ht₀, -⟩ := exists_construct_twoArcs
  exact ⟨t₀, ht₀, starts_match_iff rfl (isTrainer_twoArcs 0).labels ht₀ _⟩

/-- Different weights give the two arcs different weights. -/
theorem eq_of_machineAt_twoArcs {t : TrainerLocal 1} (h : IsTrainer composeParallel twoArcs t)
    (hfeatures : t.features = [[0], []]) {θ θ₀ : ColumnVector 1}
    (heq : t.machineAt logsum θ = t.machineAt logsum θ₀) : θ 0 = θ₀ 0 := by
  have hmachine (θ : ColumnVector 1) : t.machineAt logsum θ =
      some (reweightedTrainer twoArcs t θ).fst := by
    obtain ⟨F, hF, heq⟩ := updateArcWeights_eq_some (h.updateArcWeights θ)
    rw [hF, heq]
  rw [hmachine, hmachine] at heq
  have hcost {e : ℕ} (he : e < 2) : arcCost twoArcs [[0], []] θ e =
      arcCost twoArcs [[0], []] θ₀ e := by
    have hmem : e ∈ arcIds twoArcs := Finset.mem_range.mpr he
    have hweight := congrArg (fun F => VectorFst.weightAt F (some e)) (Option.some.inj heq)
    rw [reweightedTrainer, reweightedTrainer, weightAt_weighted he, weightAt_weighted he,
      newWeight_logsum _ hmem, newWeight_logsum _ hmem, hfeatures,
      ENNReal.ofReal_eq_ofReal_iff (Real.exp_pos _).le (Real.exp_pos _).le, Real.exp_eq_exp,
      neg_inj] at hweight
    exact hweight
  have hθ := arcCost_twoArcs θ
  have hθ₀ := arcCost_twoArcs θ₀
  have h0 := hcost Nat.two_pos
  have h1 := hcost Nat.one_lt_two
  simp only [twoArcsTrainer] at hθ hθ₀
  linarith

/-- Two calls of one iteration each: the first leaves the arc weights of one vector, the
second starts from another. -/
theorem not_starts_match : ¬ ∀ (n : ℕ) (comp : Composer) (F : VectorFst LogWeight)
    (exemplars : List (VectorFst LogWeight × VectorFst LogWeight)) (symbolBound : ℕ)
    (features : FeatureMap) (weights : List ℝ) (lambda : ℝ) (t₀ : TrainerLocal n)
    (calls : List (List (FindMin n))), weights.length = n → LabelsBelow F symbolBound →
    construct comp logsum F exemplars F.numArcs symbolBound features weights lambda n = some t₀ →
    ∀ t tmpWeights, StartsIteration logsum comp false t₀ calls t tmpWeights →
      t.updateArcWeights logsum tmpWeights = some t := by
  intro hall
  obtain ⟨t₀, ht₀, h, hfeatures⟩ := exists_construct_twoArcs
  obtain ⟨θ₀, hθ₀, hmachine₀⟩ := construct_machineAt rfl (isTrainer_twoArcs 0).labels ht₀
  have hself : reweightedTrainer twoArcs t₀ θ₀ = t₀ :=
    Option.some.inj
      ((h.updateArcWeights θ₀).symm.trans (updateArcWeights_eq_self_iff.mpr hmachine₀))
  obtain ⟨counts, hstep, hcounts, -⟩ := h.eStep_eq θ₀
  rw [hself] at hstep
  have h₁ := h.observe hcounts
  have hupdate := h₁.updateArcWeights fun _ => θ₀ 0 + 1
  have htrain : trainCalls logsum composeParallel false t₀ [[⟨[], fun _ => θ₀ 0 + 1⟩]] =
      some (reweightedTrainer twoArcs { t₀ with observedCounts := counts } fun _ => θ₀ 0 + 1) := by
    simp only [trainCalls, TrainerLocal.train, trainLoop, hθ₀, hstep, callLoop, hupdate,
      Option.bind_eq_bind, Option.bind_some]
    rfl
  have hstart := hall 1 composeParallel twoArcs [(oneSymbol, oneSymbol)] 2 [[0], []] [0] 0 t₀
    [[⟨[], fun _ => θ₀ 0 + 1⟩], [⟨[], 0⟩]] rfl (isTrainer_twoArcs 0).labels ht₀ _ θ₀
    ⟨[[⟨[], fun _ => θ₀ 0 + 1⟩]], [], ⟨[], 0⟩, [], [], rfl,
      iterationStart_eq_some.mpr
        ⟨_, θ₀, htrain, (kept_trainCalls htrain).tmpWeights.trans hθ₀, rfl⟩⟩
  have hsame := (machineAt_of_updateArcWeights hstart).trans
    (machineAt_of_updateArcWeights hupdate).symm
  rw [(kept_updateArcWeights hupdate).machineAt, (kept_updateArcWeights hupdate).machineAt] at hsame
  have hne := eq_of_machineAt_twoArcs h₁ hfeatures hsame
  simp at hne

end StochasticEdit.Trainer
