import StochasticEdit.Trainer.Reweight

/-! `calculate_observed_counts` over a pair of lattices with the same arcs: the loops
add to the entry of every machine arc the amounts of the lattice arcs that stand for
it. Sums of logarithms are read as exact here. -/

namespace StochasticEdit.Trainer

open Wfst
open scoped ENNReal

variable {n : ℕ}

/-- The amount that an entry of a vector of logarithms stands for. -/
noncomputable def tally (v : List EReal) (i : ℕ) : ℝ≥0∞ := EReal.exp (v[i]?.getD negDblMax)

theorem tally_set {v : List EReal} {i j : ℕ} (hi : i < v.length) (x : EReal) :
    tally (v.set i x) j = if i = j then EReal.exp x else tally v j := by
  rw [tally, tally, List.getElem?_set]
  by_cases hij : i = j
  · simp [hij, hij ▸ hi]
  · simp [hij]

/-- `logadd` adds the amounts. -/
theorem tally_set_logsum {v : List EReal} {i j : ℕ} (hi : i < v.length) (x : EReal) :
    tally (v.set i (logsum v[i] x)) j = tally v j + if i = j then EReal.exp x else 0 := by
  rw [tally_set hi, exp_logsum]
  by_cases hij : i = j
  · rw [if_pos hij, if_pos hij, ← hij, tally, List.getElem?_eq_getElem hi, Option.getD_some]
  · rw [if_neg hij, if_neg hij, add_zero]

theorem tally_replicate (k i : ℕ) : tally (List.replicate k negDblMax) i = 0 := by
  rw [tally, List.getElem?_replicate]
  split_ifs <;> simp [negDblMax]

/-- The whole of a vector is reset. -/
theorem fillNegDblMax_length {k : ℕ} {v : List EReal} (h : v.length = k) :
    fillNegDblMax k v = some (List.replicate k negDblMax) := by
  rw [fillNegDblMax, if_pos h.ge, List.drop_of_length_le h.le, List.append_nil]

/-! ### The arc mapper -/

theorem mapperPass_of_lt {tmp i : ℕ} (h : i < tmp) (m : ℕ → ℤ) (arcs : List (Arc FeatureWeight)) :
    mapperPass tmp m arcs i = m i := by
  induction arcs generalizing tmp m with
  | nil => rfl
  | cons a arcs ih =>
    rw [mapperPass, ih (Nat.lt_succ_of_lt h), Function.update_of_ne h.ne]

theorem mapperPass_eq {tmp : ℕ} (m : ℕ → ℤ) {arcs : List (Arc FeatureWeight)} {k : ℕ}
    {a : Arc FeatureWeight} (h : arcs[k]? = some a) :
    mapperPass tmp m arcs (tmp + k) = roundExpNeg (value a.weight.value2) - 1 := by
  induction arcs generalizing tmp m k with
  | nil => simp at h
  | cons b arcs ih =>
    rcases k with _ | k
    · obtain rfl : b = a := by simpa using h
      rw [Nat.add_zero, mapperPass,
        mapperPass_of_lt (show tmp < tmp + 1 by omega), Function.update_self]
    · rw [mapperPass, show tmp + (k + 1) = tmp + 1 + k by omega]
      exact ih _ (by simpa using h)

/-! ### The loops -/

section Loops
variable {owner : ℕ → ℕ} {amount : ℕ → ℝ≥0∞}

/-- What the arcs `e, ..., e' - 1` contribute to entry `i`. -/
noncomputable def contribution (owner : ℕ → ℕ) (amount : ℕ → ℝ≥0∞) (e e' i : ℕ) : ℝ≥0∞ :=
  ∑ j ∈ Finset.Ico e e', if owner j = i then amount j else 0

theorem contribution_succ_left {e e' : ℕ} (h : e < e') (i : ℕ) : contribution owner amount e e' i =
    (if owner e = i then amount e else 0) + contribution owner amount (e + 1) e' i :=
  Finset.sum_eq_sum_Ico_succ_bot h _

theorem contribution_trans {e e' e'' : ℕ} (h : e ≤ e') (h' : e' ≤ e'') (i : ℕ) :
    contribution owner amount e e' i + contribution owner amount e' e'' i =
      contribution owner amount e e'' i := Finset.sum_Ico_consecutive _ h h'

/-- One state: every arc adds its amount to the entry of its owner. -/
theorem countPass_eq {mapper : ℕ → ℤ} {alpha beta : List LogWeight} {Z : LogWeight} {state : ℕ}
    (e : ℕ) (arcs : List (Arc LogWeight)) (counts : List EReal)
    (h : ∀ k a, arcs[k]? = some a → mapper (e + k) = owner (e + k) ∧ owner (e + k) < counts.length ∧
      ∃ x y, alpha[state]? = some x ∧ beta[a.nextstate]? = some y ∧
        x * a.weight * y / Z = amount (e + k)) :
    ∃ counts', countPass logsum mapper alpha beta Z state e counts arcs = some counts' ∧
      counts'.length = counts.length ∧
      ∀ i, tally counts' i = tally counts i + contribution owner amount e (e + arcs.length) i := by
  induction arcs generalizing e counts with
  | nil => exact ⟨counts, rfl, rfl, fun i => by simp [contribution]⟩
  | cons a arcs ih =>
    obtain ⟨hmap, hlt, x, y, hx, hy, hamount⟩ := h 0 a rfl
    simp only [Nat.add_zero] at hmap hlt hamount
    have hread : readAt counts (mapper e) = some counts[owner e] := by
      rw [hmap, readAt_natCast, List.getElem?_eq_getElem hlt]
    have hwrite (z : EReal) : writeAt counts (mapper e) z = some (counts.set (owner e) z) := by
      rw [hmap, writeAt_natCast hlt]
    obtain ⟨counts', hpass, hlen, htally⟩ := ih (e + 1)
      (counts.set (owner e) (logsum counts[owner e] (-value (x * a.weight * y / Z))))
      (fun k b hb => by
        have hnext := h (k + 1) b (by simpa using hb)
        rwa [show e + (k + 1) = e + 1 + k by omega, ← List.length_set (i := owner e)] at hnext)
    refine ⟨counts', ?_, by rw [hlen, List.length_set], fun i => ?_⟩
    · simp only [countPass, hx, hy, hread, hwrite, Option.bind_eq_bind, Option.bind_some]
      exact hpass
    · have hone : tally (counts.set (owner e)
          (logsum counts[owner e] (-value (x * a.weight * y / Z)))) i =
          tally counts i + if owner e = i then amount e else 0 := by
        rw [tally_set_logsum hlt, exp_neg_value, hamount]
      have hlast : e < e + (arcs.length + 1) := by omega
      rw [htally, hone, List.length_cons, add_assoc, contribution_succ_left hlast,
        show e + 1 + arcs.length = e + (arcs.length + 1) by omega]

/-- All states: the lattices have the same arcs, state by state. -/
theorem countStates_eq {fstLog : VectorFst LogWeight} {alpha beta : List LogWeight} {Z : LogWeight}
    (q e : ℕ) (counts : List EReal) (ss : List (State FeatureWeight))
    (h : ∀ j s, ss[j]? = some s → ∃ s', fstLog.states[q + j]? = some s' ∧
      s'.arcs.length = s.arcs.length ∧ ∀ k b a, s.arcs[k]? = some b → s'.arcs[k]? = some a →
        roundExpNeg (value b.weight.value2) - 1 = owner (e + arcsBefore ss j + k) ∧
        owner (e + arcsBefore ss j + k) < counts.length ∧
        ∃ x y, alpha[q + j]? = some x ∧ beta[a.nextstate]? = some y ∧
          x * a.weight * y / Z = amount (e + arcsBefore ss j + k)) :
    ∃ counts', countStates logsum fstLog alpha beta Z q e counts ss = some counts' ∧
      counts'.length = counts.length ∧
      ∀ i, tally counts' i =
        tally counts i + contribution owner amount e (e + arcsBefore ss ss.length) i := by
  induction ss generalizing q e counts with
  | nil => exact ⟨counts, rfl, rfl, fun i => by simp [contribution, arcsBefore]⟩
  | cons s ss ih =>
    obtain ⟨s', hs', hlen, harcs⟩ := h 0 s rfl
    simp only [Nat.add_zero, arcsBefore] at hs' harcs
    obtain ⟨counts₁, hpass, hlen₁, htally₁⟩ := @countPass_eq owner amount
      (mapperPass e (fun _ => 0) s.arcs) alpha beta Z q e s'.arcs counts (by
        intro k a ha
        have hk : k < s.arcs.length := hlen ▸ (List.getElem?_eq_some_iff.mp ha).1
        have hb := List.getElem?_eq_getElem hk
        rw [mapperPass_eq _ hb]
        exact harcs k _ a hb ha)
    obtain ⟨counts₂, hrest, hlen₂, htally₂⟩ := ih (q + 1) (e + s'.arcs.length) counts₁ (by
        intro j t ht
        obtain ⟨t', ht', hlen', harcs'⟩ := h (j + 1) t (by simpa using ht)
        rw [hlen₁, hlen, show q + 1 + j = q + (j + 1) by omega]
        refine ⟨t', ht', hlen', fun k b a hb ha => ?_⟩
        have := harcs' k b a hb ha
        rwa [arcsBefore, ← Nat.add_assoc] at this)
    refine ⟨counts₂, ?_, by rw [hlen₂, hlen₁], fun i => ?_⟩
    · simp only [countStates, hs', hpass, Option.bind_eq_bind, Option.bind_some]
      exact hrest
    · rw [htally₂, htally₁, add_assoc,
        contribution_trans (Nat.le_add_right _ _) (Nat.le_add_right _ _),
        hlen, List.length_cons, arcsBefore, Nat.add_assoc]

/-- `calculate_observed_counts`, where both lattices have the states and arcs of `S`. -/
theorem calculateObservedCounts_eq (t : TrainerLocal n) {S : VectorFst Origin}
    {f g : Origin → FeatureWeight} {f' g' : Origin → LogWeight} {fst : VectorFst FeatureWeight}
    {fstLog : VectorFst LogWeight} (hfst : fst = S.map f g) (hlog : fstLog = S.map f' g')
    {alpha beta : List LogWeight} {a₀ b₀ : LogWeight} (ha : alpha[0]? = some a₀)
    (hb : beta[0]? = some b₀)
    (h : ∀ e q a, S.arc? e = some (q, a) → roundExpNeg (value (f a.weight).value2) - 1 = owner e ∧
      owner e < t.observedCounts.length ∧ ∃ x y, alpha[q]? = some x ∧ beta[a.nextstate]? = some y ∧
        x * f' a.weight * y / (a₀ * b₀) = amount e) :
    ∃ counts, t.calculateObservedCounts logsum fst fstLog alpha beta =
        some { t with observedCounts := counts } ∧ counts.length = t.observedCounts.length ∧
      ∀ i, tally counts i = tally t.observedCounts i + contribution owner amount 0 S.numArcs i := by
  subst hfst hlog
  obtain ⟨counts, hcounts, hlen, htally⟩ :=
    @countStates_eq owner amount (S.map f' g') alpha beta (a₀ * b₀)
    0 0 t.observedCounts (S.map f g).states (by
      intro j s hs
      obtain ⟨u, hu, rfl⟩ := Option.map_eq_some_iff.mp ((List.getElem?_map ..).symm.trans hs)
      refine ⟨u.map f' g', ?_, by simp [State.map], fun k b a hb ha => ?_⟩
      · rw [Nat.zero_add]
        show (S.states.map (State.map f' g'))[j]? = _
        rw [List.getElem?_map, hu]
        rfl
      · obtain ⟨c, hc, rfl⟩ := Option.map_eq_some_iff.mp ((List.getElem?_map ..).symm.trans hb)
        have ha' : (u.arcs.map (Arc.map f'))[k]? = some a := ha
        rw [List.getElem?_map, hc] at ha'
        obtain rfl : c.map f' = a := Option.some.inj ha'
        have hbefore : arcsBefore (S.map f g).states j = S.firstArc j :=
          arcsBefore_map f g S.states j
        rw [hbefore, Nat.zero_add, Nat.zero_add]
        exact h _ j c (VectorFst.arc?_eq_some_iff.mpr ⟨u, k, hu, hc, rfl⟩))
  refine ⟨counts, ?_, hlen, fun i => ?_⟩
  · simp only [TrainerLocal.calculateObservedCounts, ha, hb, hcounts, Option.bind_eq_bind,
      Option.bind_some]
    rfl
  · have hlast : arcsBefore (S.map f g).states (S.map f g).states.length = S.numArcs := by
      rw [S.numArcs_eq]
      show arcsBefore (S.states.map (State.map f g)) (S.states.map (State.map f g)).length = _
      rw [List.length_map, arcsBefore_map]
      rfl
    rw [htally, hlast, Nat.zero_add]

end Loops

end StochasticEdit.Trainer
