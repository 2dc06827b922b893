import StochasticEdit.Trainer.Lattices

/-! The traversals of a machine arc on the accepting paths of any lattice, cyclic ones
included. `calculate_observed_counts` adds their sum, divided by the forward value of the
start state times the sum of all paths. -/

namespace StochasticEdit.Trainer

open Wfst
open scoped ENNReal

variable {n : ℕ} {comp : Composer} {F : VectorFst LogWeight}
  {exemplar : VectorFst LogWeight × VectorFst LogWeight}

section Traversals
variable (comp F exemplar) (w : ℕ → LogWeight)

/-- The traversals of a machine arc on all accepting paths, by the weights of the paths. -/
noncomputable def traversalSum (a : ℕ) : ℝ≥0∞ :=
  tsum fun p => (p.filterMap (traversed? comp F exemplar)).count a *
    (logLattice comp (weighted F w) exemplar).value p

/-- The expected number of traversals of a machine arc. -/
noncomputable def expectedTraversals (a : ℕ) : ℝ≥0∞ :=
  traversalSum comp F exemplar w a / (logLattice comp (weighted F w) exemplar).shortestDistance

/-- The traversals of a lattice arc on all accepting paths. -/
noncomputable def arcTraversals (e : ℕ) : ℝ≥0∞ :=
  tsum fun p => p.count e * (logLattice comp (weighted F w) exemplar).value p

/-- The forward value of the start state. -/
noncomputable def startMass : ℝ≥0∞ :=
  forward (logLattice comp (weighted F w) exemplar).ends
    (logLattice comp (weighted F w) exemplar).arcWeight 0 0

end Traversals

/-- A path of nonzero weight is accepted. -/
theorem accepts_of_value_ne_zero {w : ℕ → LogWeight} {p : List ℕ}
    (hp : (logLattice comp (weighted F w) exemplar).value p ≠ 0) :
    (latticeOrigins comp F exemplar).Accepts p := by
  by_contra hno
  exact hp (VectorFst.value_eq_zero fun hp' => hno ((accepts_lattice w p).mp hp'))

theorem sum_count_map {o : ℕ → ℕ} {K : ℕ} {p : List ℕ} (hp : ∀ e ∈ p, e < K) (i : ℕ) :
    (∑ j ∈ Finset.Ico 0 K, if o j = i then p.count j else 0) = (p.map o).count i := by
  induction p with
  | nil => simp
  | cons e p ih =>
    have he : e ∈ Finset.Ico 0 K := Finset.mem_Ico.mpr ⟨Nat.zero_le e, hp e (by simp)⟩
    have hterm (j : ℕ) : (if o j = i then (e :: p).count j else 0) =
        (if e = j then (if o j = i then 1 else 0) else 0) + if o j = i then p.count j else 0 := by
      rw [List.count_cons]
      by_cases ho : o j = i <;> by_cases hj : e = j <;> simp [ho, hj, Nat.add_comm]
    simp only [hterm, Finset.sum_add_distrib, Finset.sum_ite_eq, if_pos he,
      ih fun f hf => hp f (by simp [hf])]
    rw [List.map_cons, List.count_cons, Nat.add_comm]
    by_cases ho : o e = i <;> simp [ho]

section Counts
variable (h : Composable comp F exemplar) (w : ℕ → LogWeight)

include h

theorem Composable.start_eq (hpath : ∃ p, (latticeOrigins comp F exemplar).Accepts p) :
    (logLattice comp (weighted F w) exemplar).start = some 0 ∧
      0 < (logLattice comp (weighted F w) exemplar).numStates := by
  have hne : (latticeOrigins comp F exemplar).states ≠ [] := h.lattice.states_ne_nil_iff.mpr hpath
  rw [logLattice_eq, VectorFst.map_start, VectorFst.numStates_map]
  exact ⟨h.lattice.start hne, List.length_pos_iff.mpr hne⟩

theorem Composable.filterMap_traversed {p : List ℕ}
    (hp : (latticeOrigins comp F exemplar).Accepts p) :
    p.filterMap (traversed? comp F exemplar) = p.map (owner comp F exemplar) := by
  rw [← List.filterMap_eq_map]
  refine List.filterMap_congr fun e he => ?_
  obtain ⟨q, hq⟩ := hp
  obtain ⟨r, a, ha⟩ := VectorFst.exists_arc_of_mem hq he
  exact h.traversed?_eq ha

/-- The traversals of a machine arc are those of the lattice arcs it stands behind. -/
theorem Composable.traversalSum_eq (a : ℕ) : traversalSum comp F exemplar w a =
    contribution (owner comp F exemplar) (arcTraversals comp F exemplar w) 0
      (latticeOrigins comp F exemplar).numArcs a := by
  have hterm (e : ℕ) :
      (if owner comp F exemplar e = a then arcTraversals comp F exemplar w e else 0) =
        tsum fun p => ((if owner comp F exemplar e = a then p.count e else 0 : ℕ) : ℝ≥0∞) *
          (logLattice comp (weighted F w) exemplar).value p := by
    split_ifs
    · rfl
    · simp
  simp only [contribution, hterm]
  rw [← Summable.tsum_finsetSum fun _ _ => ENNReal.summable, traversalSum]
  refine tsum_congr fun p => ?_
  by_cases hp : (latticeOrigins comp F exemplar).Accepts p
  · have hlt : ∀ e ∈ p, e < (latticeOrigins comp F exemplar).numArcs := by
      intro e he
      obtain ⟨q, hq⟩ := hp
      obtain ⟨r, b, hb⟩ := VectorFst.exists_arc_of_mem hq he
      exact VectorFst.lt_numArcs_of_arc? hb
    rw [← Finset.sum_mul, ← Nat.cast_sum, sum_count_map hlt, h.filterMap_traversed hp]
  · simp only [VectorFst.value_eq_zero fun hp' => hp ((accepts_lattice w p).mp hp'), mul_zero,
      Finset.sum_const_zero]

/-- The forward and backward values that `calculate_observed_counts` reads for a lattice arc. -/
theorem Composable.exists_distances (hpath : ∃ p, (latticeOrigins comp F exemplar).Accepts p)
    {e q : ℕ} {a : Arc Origin} (ha : (latticeOrigins comp F exemplar).arc? e = some (q, a)) :
    ∃ x y, (logLattice comp (weighted F w) exemplar).forwardDistances[q]? = some x ∧
      (logLattice comp (weighted F w) exemplar).backwardDistances[a.nextstate]? = some y ∧
      x * (logLattice comp (weighted F w) exemplar).arcWeight e * y =
        arcTraversals comp F exemplar w e := by
  have hstart := (h.start_eq w hpath).1
  have hnum : (logLattice comp (weighted F w) exemplar).numStates =
      (latticeOrigins comp F exemplar).numStates := by
    rw [logLattice_eq, VectorFst.numStates_map]
  obtain ⟨s, k, hs, -, -⟩ := VectorFst.arc?_eq_some_iff.mp ha
  have hq : q < (logLattice comp (weighted F w) exemplar).numStates := by
    rw [hnum]
    exact (List.getElem?_eq_some_iff.mp hs).1
  have hr : a.nextstate < (logLattice comp (weighted F w) exemplar).numStates := by
    rw [hnum]
    exact h.lattice.target e q a ha
  have hends : (logLattice comp (weighted F w) exemplar).ends e = some (q, a.nextstate) :=
    VectorFst.ends_eq_some_iff.mpr ⟨_, arc?_lattice w ha, rfl⟩
  exact ⟨_, _, VectorFst.getElem?_forwardDistances hstart hq,
    VectorFst.getElem?_backwardDistances hstart hr,
      VectorFst.forward_mul_backward_eq_tsum hstart hends⟩

/-- `calculate_observed_counts` on a lattice with an accepting path. -/
theorem Composable.observedCounts_eq (t : TrainerLocal n)
    (hlen : F.numArcs ≤ t.observedCounts.length)
    (hpath : ∃ p, (latticeOrigins comp F exemplar).Accepts p) :
    ∃ counts, t.calculateObservedCounts logsum
      (featureLattice comp (mapToFeatureArcs F false) exemplar)
        (logLattice comp (weighted F w) exemplar)
        (logLattice comp (weighted F w) exemplar).forwardDistances
        (logLattice comp (weighted F w) exemplar).backwardDistances =
          some { t with observedCounts := counts } ∧
      counts.length = t.observedCounts.length ∧
      ∀ a, tally counts a = tally t.observedCounts a + traversalSum comp F exemplar w a /
        (startMass comp F exemplar w *
          (logLattice comp (weighted F w) exemplar).shortestDistance) := by
  obtain ⟨hstart, hstates⟩ := h.start_eq w hpath
  have halpha := VectorFst.getElem?_forwardDistances hstart hstates
  have hbeta := VectorFst.getElem?_backwardDistances hstart hstates
  rw [← VectorFst.shortestDistance_eq_backward hstart] at hbeta
  let amount (e : ℕ) : ℝ≥0∞ := arcTraversals comp F exemplar w e /
    (startMass comp F exemplar w * (logLattice comp (weighted F w) exemplar).shortestDistance)
  obtain ⟨counts, hcounts, hlength, htally⟩ :=
    @calculateObservedCounts_eq n (owner comp F exemplar) amount t
    _ _ _ _ _ _ _ (featureLattice_eq h.composed)
      (logLattice_eq comp F exemplar w) _ _ _ _ halpha hbeta
    fun e q a ha => by
      obtain ⟨-, -, -, -, -, -, hlt⟩ := h.origin ha
      obtain ⟨x, y, hx, hy, hamount⟩ := h.exists_distances w hpath ha
      rw [VectorFst.arcWeight_eq (arc?_lattice w ha)] at hamount
      exact ⟨h.decode ha, hlt.trans_le hlen, x, y, hx, hy, congrArg (· / _) hamount⟩
  refine ⟨counts, hcounts, hlength, fun a => ?_⟩
  rw [htally, h.traversalSum_eq, contribution, contribution, div_eq_mul_inv, Finset.sum_mul]
  refine congrArg (_ + ·) (Finset.sum_congr rfl fun e _ => ?_)
  rw [ite_mul, zero_mul]
  rfl

end Counts

end StochasticEdit.Trainer
