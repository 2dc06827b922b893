import StochasticEdit.Trainer.Traversals

/-! The lattice of an exemplar as a family of paths. Its shortest distance is the
partition sum of the family, and the forward-backward counts of the machine arcs are
the expected numbers of uses. -/

namespace StochasticEdit.Trainer

open Wfst Estimation
open scoped ENNReal

variable {n : ℕ} {comp : Composer} {F : VectorFst LogWeight}
  {exemplar : VectorFst LogWeight × VectorFst LogWeight}

/-! ### Acceptor weights -/

theorem IsAcceptor.weightAt_ne_top {A : VectorFst LogWeight} (h : IsAcceptor A) (o : Option ℕ) :
    A.weightAt o ≠ ⊤ := by
  rw [VectorFst.weightAt]
  rcases hp : o.bind A.arc? with _ | ⟨q, a⟩
  · exact ENNReal.one_ne_top
  · obtain ⟨e, -, he⟩ := Option.bind_eq_some_iff.mp hp
    exact h.weight e q a he

theorem RealFinals.finalAt_ne_top {A : VectorFst LogWeight} (h : RealFinals A) (o : Option ℕ) :
    A.finalAt o ≠ ⊤ := by
  rw [VectorFst.finalAt]
  rcases hw : o.bind A.final? with _ | w
  · exact ENNReal.one_ne_top
  · obtain ⟨q, -, hq⟩ := Option.bind_eq_some_iff.mp hw
    exact (h q w hq).2

theorem Exemplar.finalWeight_ne_top (h : Exemplar comp F exemplar) (w : ℕ → LogWeight) (q : ℕ) :
    (logLattice comp (weighted F w) exemplar).finalWeight q ≠ ⊤ := by
  rw [VectorFst.finalWeight, logLattice_eq, VectorFst.final?_map]
  cases (latticeOrigins comp F exemplar).final? q with
  | none => exact ENNReal.zero_ne_top
  | some o =>
    show (VectorFst.compose comp exemplar.1 (weighted F w)).finalAt o.1 * exemplar.2.finalAt o.2 ≠ ⊤
    apply ENNReal.mul_ne_top
    · rw [finalAt_medial]
      cases o.1.bind (medialOrigins comp F exemplar.1).final? with
      | none => exact ENNReal.one_ne_top
      | some r =>
        exact ENNReal.mul_ne_top (h.input.final.finalAt_ne_top r.1) (h.machine.finalAt_ne_top r.2)
    · exact h.output.final.finalAt_ne_top o.2

/-- What the acceptors and the final weights add to the weight of a path. -/
noncomputable def acceptorWeight (comp : Composer) (F : VectorFst LogWeight)
    (exemplar : VectorFst LogWeight × VectorFst LogWeight) (p : List ℕ) : LogWeight :=
  (logLattice comp (weighted F fun _ => 1) exemplar).value p

theorem Exemplar.acceptorWeight_ne_top (h : Exemplar comp F exemplar) (p : List ℕ) :
    acceptorWeight comp F exemplar p ≠ ⊤ := by
  rw [acceptorWeight]
  by_cases hp : (latticeOrigins comp F exemplar).Accepts p
  · obtain ⟨q, hq⟩ := hp
    rw [VectorFst.value_of_acceptsAt ((acceptsAt_lattice _ p q).mpr hq)]
    apply ENNReal.mul_ne_top
    · apply pathWeight_ne_top
      intro e he
      obtain ⟨r, a, ha⟩ := VectorFst.exists_arc_of_mem hq he
      obtain ⟨x, y, hweight⟩ := h.exists_arcWeight ha
      rw [hweight, mul_one]
      exact ENNReal.mul_ne_top (h.input.weightAt_ne_top x) (h.output.weightAt_ne_top y)
    · exact h.finalWeight_ne_top _ q
  · rw [VectorFst.value_eq_zero fun hp' => hp ((accepts_lattice _ p).mp hp')]
    exact ENNReal.zero_ne_top

/-! ### The family of paths -/

/-- The accepting paths of the lattice of an exemplar, with the machine arcs they use. -/
noncomputable def Exemplar.toLattice (h : Exemplar comp F exemplar) : Lattice (List ℕ) ℕ where
  paths := h.finite.toFinset
  coef p := (acceptorWeight comp F exemplar p).toReal
  uses p a := (p.map (owner comp F exemplar)).count a
  coef_nonneg _ _ := ENNReal.toReal_nonneg
  exists_pos := by
    obtain ⟨p, hp⟩ := h.exists_path
    have haccepts : (latticeOrigins comp F exemplar).Accepts p := by
      by_contra hno
      exact hp (VectorFst.value_eq_zero fun hp' => hno ((accepts_lattice _ p).mp hp'))
    exact ⟨p, h.finite.mem_toFinset.mpr haccepts, ENNReal.toReal_pos hp (h.acceptorWeight_ne_top p)⟩

/-- The numbers of the arcs of a machine. -/
def arcIds (F : VectorFst LogWeight) : Finset ℕ := Finset.range F.numArcs

section Weights
variable {w : ℕ → LogWeight} {ω : ℕ → ℝ}

theorem pathWeight_eq_exp {A : Finset ℕ} (hw : ∀ a ∈ A, w a = ENNReal.ofReal (Real.exp (-ω a)))
    {l : List ℕ} (hl : ∀ a ∈ l, a ∈ A) :
    pathWeight w l = ENNReal.ofReal (Real.exp (-∑ a ∈ A, l.count a * ω a)) := by
  induction l with
  | nil => simp
  | cons b l ih =>
    have hb : b ∈ A := hl b (by simp)
    have hsum : ∑ a ∈ A, ((b :: l).count a : ℝ) * ω a = ω b + ∑ a ∈ A, (l.count a : ℝ) * ω a := by
      have hterm (a : ℕ) : ((b :: l).count a : ℝ) * ω a =
          (if b = a then ω a else 0) + (l.count a : ℝ) * ω a := by
        rw [List.count_cons]
        by_cases h : b = a
        · simp only [h, beq_self_eq_true, if_true, Nat.cast_add, Nat.cast_one]
          ring
        · simp [h]
      simp only [hterm, Finset.sum_add_distrib, Finset.sum_ite_eq, if_pos hb]
    rw [pathWeight_cons, hw b hb, ih fun a ha => hl a (by simp [ha]), hsum,
      ← ENNReal.ofReal_mul (Real.exp_pos _).le, ← Real.exp_add, neg_add]

variable (h : Exemplar comp F exemplar)
  (hw : ∀ a ∈ arcIds F, w a = ENNReal.ofReal (Real.exp (-ω a)))

theorem Exemplar.owner_mem {p : List ℕ} (hp : p ∈ h.toLattice.paths) :
    ∀ a ∈ p.map (owner comp F exemplar), a ∈ arcIds F := by
  intro a ha
  obtain ⟨e, he, rfl⟩ := List.mem_map.mp ha
  obtain ⟨q, hq⟩ := h.finite.mem_toFinset.mp hp
  obtain ⟨r, b, hb⟩ := VectorFst.exists_arc_of_mem hq he
  obtain ⟨-, -, -, -, -, -, hlt⟩ := h.origin hb
  exact Finset.mem_range.mpr hlt

theorem Exemplar.lattice_finite (h : Exemplar comp F exemplar) (w : ℕ → LogWeight) :
    {p | (logLattice comp (weighted F w) exemplar).Accepts p}.Finite :=
  h.finite.subset fun p hp => (accepts_lattice w p).mp hp

theorem Exemplar.toFinset_paths (h : Exemplar comp F exemplar) (w : ℕ → LogWeight) :
    (h.lattice_finite w).toFinset = h.toLattice.paths := by
  ext p
  exact (h.lattice_finite w).mem_toFinset.trans
    ((accepts_lattice w p).trans h.finite.mem_toFinset.symm)

include hw

/-- The weight of an accepting path. -/
theorem Exemplar.value_eq_ofReal {p : List ℕ} (hp : p ∈ h.toLattice.paths) :
    (logLattice comp (weighted F w) exemplar).value p =
      ENNReal.ofReal (h.toLattice.coef p * Real.exp (-h.toLattice.energy (arcIds F) ω p)) := by
  have hcoef : ENNReal.ofReal (h.toLattice.coef p) = acceptorWeight comp F exemplar p :=
    ENNReal.ofReal_toReal (h.acceptorWeight_ne_top p)
  rw [h.value_eq w p, pathWeight_eq_exp hw (h.owner_mem hp),
    ENNReal.ofReal_mul (h.toLattice.coef_nonneg p hp), hcoef]
  rfl

theorem Exemplar.shortestDistance_eq : (logLattice comp (weighted F w) exemplar).shortestDistance =
    ENNReal.ofReal
      (partition h.toLattice.paths h.toLattice.coef (h.toLattice.energy (arcIds F) ω)) := by
  rw [VectorFst.shortestDistance_eq_sum (h.lattice_finite w), h.toFinset_paths, partition,
    ENNReal.ofReal_sum_of_nonneg]
  · exact Finset.sum_congr rfl fun p hp => h.value_eq_ofReal hw hp
  · exact fun p hp => mul_nonneg (h.toLattice.coef_nonneg p hp) (Real.exp_pos _).le

/-- The cost of the lattice is the loss of the family. -/
theorem Exemplar.value_shortestDistance :
    value (logLattice comp (weighted F w) exemplar).shortestDistance =
      (h.toLattice.loss (arcIds F) ω : EReal) := by
  rw [h.shortestDistance_eq hw, value, ENNReal.log_ofReal_of_pos (h.toLattice.partition_pos ω),
    Lattice.loss, loss, EReal.coe_neg]

/-- The posteriors under two weightings agree if and only if no two paths change the
ratio of their weights. -/
theorem Exemplar.posterior_eq_iff {w₀ : ℕ → LogWeight} {ω₀ : ℕ → ℝ}
    (hw₀ : ∀ a ∈ arcIds F, w₀ a = ENNReal.ofReal (Real.exp (-ω₀ a))) :
    (∀ p ∈ h.toLattice.paths,
        h.toLattice.posterior (arcIds F) ω p = h.toLattice.posterior (arcIds F) ω₀ p) ↔
      ∀ p p', (logLattice comp (weighted F w) exemplar).value p *
          (logLattice comp (weighted F w₀) exemplar).value p' =
        (logLattice comp (weighted F w₀) exemplar).value p *
          (logLattice comp (weighted F w) exemplar).value p' := by
  have hzero {v : ℕ → LogWeight} {p : List ℕ} (hp : p ∉ h.toLattice.paths) :
      (logLattice comp (weighted F v) exemplar).value p = 0 :=
    VectorFst.value_eq_zero fun hp' => hp (h.finite.mem_toFinset.mpr ((accepts_lattice v p).mp hp'))
  have hnonneg {v : ℕ → ℝ} {p : List ℕ} (hp : p ∈ h.toLattice.paths) :
      0 ≤ h.toLattice.coef p * Real.exp (-h.toLattice.energy (arcIds F) v p) :=
    mul_nonneg (h.toLattice.coef_nonneg p hp) (Real.exp_pos _).le
  have hpair {p p' : List ℕ} (hp : p ∈ h.toLattice.paths) (hp' : p' ∈ h.toLattice.paths) :=
    @ENNReal.ofReal_eq_ofReal_iff _ _ (mul_nonneg (@hnonneg ω p hp) (@hnonneg ω₀ p' hp'))
      (mul_nonneg (@hnonneg ω₀ p hp) (@hnonneg ω p' hp'))
  refine (posterior_eq_iff_ratio (h.toLattice.partition_pos ω) (h.toLattice.partition_pos ω₀)).trans
    ?_
  constructor
  · intro hcross p p'
    by_cases hp : p ∈ h.toLattice.paths
    · by_cases hp' : p' ∈ h.toLattice.paths
      · rw [h.value_eq_ofReal hw hp, h.value_eq_ofReal hw₀ hp', h.value_eq_ofReal hw₀ hp,
          h.value_eq_ofReal hw hp', ← ENNReal.ofReal_mul (hnonneg hp), ← ENNReal.ofReal_mul
            (hnonneg hp)]
        exact (hpair hp hp').mpr (hcross p hp p' hp')
      · rw [hzero hp', hzero hp', mul_zero, mul_zero]
    · rw [hzero hp, hzero hp, zero_mul, zero_mul]
  · intro hvalue p hp p' hp'
    have hv := hvalue p p'
    rw [h.value_eq_ofReal hw hp, h.value_eq_ofReal hw₀ hp', h.value_eq_ofReal hw₀ hp,
      h.value_eq_ofReal hw hp', ← ENNReal.ofReal_mul (hnonneg hp), ← ENNReal.ofReal_mul
        (hnonneg hp)] at hv
    exact (hpair hp hp').mp hv

/-! ### Counts -/

theorem Exemplar.value_div_eq {p : List ℕ} (hp : p ∈ h.toLattice.paths) :
    (logLattice comp (weighted F w) exemplar).value p /
        (logLattice comp (weighted F w) exemplar).shortestDistance =
      ENNReal.ofReal (h.toLattice.posterior (arcIds F) ω p) := by
  rw [h.value_eq_ofReal hw hp, h.shortestDistance_eq hw,
    ← ENNReal.ofReal_div_of_pos (h.toLattice.partition_pos ω)]
  rfl

/-- The expected traversals of a machine arc are its expected number of uses. -/
theorem Exemplar.expectedTraversals_eq (a : ℕ) : expectedTraversals comp F exemplar w a =
    ENNReal.ofReal (h.toLattice.counts (arcIds F) ω a) := by
  have hsum : traversalSum comp F exemplar w a = ∑ p ∈ h.toLattice.paths,
      (h.toLattice.uses p a : ℝ≥0∞) * (logLattice comp (weighted F w) exemplar).value p := by
    rw [traversalSum, tsum_eq_sum fun p hp => ?_]
    · refine Finset.sum_congr rfl fun p hp => ?_
      rw [h.filterMap_traversed (h.finite.mem_toFinset.mp hp)]
      rfl
    · have hno : ¬(logLattice comp (weighted F w) exemplar).Accepts p := fun hp' =>
        hp (h.finite.mem_toFinset.mpr ((accepts_lattice w p).mp hp'))
      rw [VectorFst.value_eq_zero hno, mul_zero]
  have hnonneg : ∀ p ∈ h.toLattice.paths, 0 ≤ h.toLattice.posterior (arcIds F) ω p := fun p hp =>
    posterior_nonneg h.toLattice.coef_nonneg _ hp
  rw [expectedTraversals, hsum, div_eq_mul_inv, Finset.sum_mul, Lattice.counts,
    ENNReal.ofReal_sum_of_nonneg fun p hp => mul_nonneg (hnonneg p hp) (Nat.cast_nonneg _)]
  refine Finset.sum_congr rfl fun p hp => ?_
  rw [mul_assoc, ← div_eq_mul_inv, h.value_div_eq hw hp, mul_comm,
    ENNReal.ofReal_mul (hnonneg p hp), ENNReal.ofReal_natCast]

omit hw

theorem Exemplar.exists_accepts (h : Exemplar comp F exemplar) :
    ∃ p, (latticeOrigins comp F exemplar).Accepts p :=
  h.exists_path.imp fun _ => accepts_of_value_ne_zero

/-- No cycle leads back to the start, so only the empty path counts for its forward value. -/
theorem Exemplar.startMass_eq_one (h : Exemplar comp F exemplar) (w : ℕ → LogWeight) :
    startMass comp F exemplar w = 1 := by
  have hstart := (h.start_eq w h.exists_accepts).1
  obtain ⟨p, hp⟩ := h.exists_accepts
  obtain ⟨q, q₀, hq₀, hwalk, hfinal⟩ := (accepts_lattice w p).mpr hp
  obtain rfl : 0 = q₀ := Option.some.inj (hstart.symm.trans hq₀)
  exact VectorFst.forward_start hstart (h.lattice_finite w) ⟨p, q, hwalk, hfinal⟩

include hw

/-- `calculate_observed_counts` adds to the entry of every machine arc its expected
number of uses in the lattice. -/
theorem Exemplar.observedCounts_eq (t : TrainerLocal n)
    (hlen : F.numArcs ≤ t.observedCounts.length) :
    ∃ counts, t.calculateObservedCounts logsum
      (featureLattice comp (mapToFeatureArcs F false) exemplar)
        (logLattice comp (weighted F w) exemplar)
        (logLattice comp (weighted F w) exemplar).forwardDistances
        (logLattice comp (weighted F w) exemplar).backwardDistances =
          some { t with observedCounts := counts } ∧
      counts.length = t.observedCounts.length ∧
      ∀ i, tally counts i = tally t.observedCounts i +
        ENNReal.ofReal (h.toLattice.counts (arcIds F) ω i) := by
  obtain ⟨counts, hcounts, hlength, htally⟩ :=
    h.toComposable.observedCounts_eq w t hlen h.exists_accepts
  refine ⟨counts, hcounts, hlength, fun i => ?_⟩
  rw [htally, h.startMass_eq_one, one_mul, ← h.expectedTraversals_eq hw]
  rfl

end Weights

end StochasticEdit.Trainer
