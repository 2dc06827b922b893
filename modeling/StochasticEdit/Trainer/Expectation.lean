import StochasticEdit.Trainer.Objective

/-! Counts on any lattice of two acceptors, cyclic ones included. The count of a machine
arc is divided by the forward value of the start state times the sum of all paths, so it is
an expectation where no cycle leads back to the start. -/

namespace StochasticEdit.Trainer

open Wfst
open scoped ENNReal

variable {n : ℕ} {comp : Composer} {F : VectorFst LogWeight}
  {exemplar : VectorFst LogWeight × VectorFst LogWeight}

section Counts
variable (h : Composable comp F exemplar) {w : ℕ → LogWeight}
  (hpath : ∃ p, (logLattice comp (weighted F w) exemplar).value p ≠ 0)
  (hsum : (logLattice comp (weighted F w) exemplar).shortestDistance ≠ ⊤)

include h hpath hsum

theorem Composable.traversalSum_ne_top (a : ℕ) : traversalSum comp F exemplar w a ≠ ⊤ := by
  have hstart := (h.start_eq w (hpath.imp fun _ => accepts_of_value_ne_zero)).1
  rw [h.traversalSum_eq, contribution]
  refine ENNReal.sum_ne_top.mpr fun e he => ?_
  split_ifs
  · obtain ⟨q, b, hb⟩ := VectorFst.exists_arc? (Finset.mem_Ico.mp he).2
    have hends : (logLattice comp (weighted F w) exemplar).ends e = some (q, b.nextstate) :=
      VectorFst.ends_eq_some_iff.mpr ⟨_, arc?_lattice w hb, rfl⟩
    rw [arcTraversals, ← VectorFst.forward_mul_backward_eq_tsum hstart hends]
    rw [VectorFst.shortestDistance_eq_backward hstart] at hsum
    exact forward_mul_backward_ne_top hends hsum
  · exact ENNReal.zero_ne_top

omit hsum in
/-- The arcs of a cycle at the start are on accepting paths. -/
theorem Composable.exists_traversalSum_ne_zero {c : List ℕ}
    (hc : walk (logLattice comp (weighted F w) exemplar).ends 0 c = some 0)
    (hweight : pathWeight (logLattice comp (weighted F w) exemplar).arcWeight c ≠ 0)
    (hne : c ≠ []) :
    ∃ a < F.numArcs, traversalSum comp F exemplar w a ≠ 0 := by
  have hstart := (h.start_eq w (hpath.imp fun _ => accepts_of_value_ne_zero)).1
  obtain ⟨p, hp⟩ := hpath
  obtain ⟨e, c', rfl⟩ := List.exists_cons_of_ne_nil hne
  have hvalue : (logLattice comp (weighted F w) exemplar).value (e :: c' ++ p) ≠ 0 := by
    rw [VectorFst.value_eq_pathValue hstart] at hp ⊢
    rw [pathValue_append hc]
    exact mul_ne_zero hweight hp
  obtain ⟨q, hq⟩ := accepts_of_value_ne_zero hvalue
  obtain ⟨r, b, hb⟩ := VectorFst.exists_arc_of_mem hq (List.mem_cons_self (a := e))
  obtain ⟨-, -, -, -, -, -, hlt⟩ := h.origin hb
  refine ⟨owner comp F exemplar e, hlt, fun hzero => ?_⟩
  have hterm := ENNReal.tsum_eq_zero.mp hzero (e :: c' ++ p)
  rw [h.filterMap_traversed ⟨q, hq⟩] at hterm
  rcases mul_eq_zero.mp hterm with hcount | hno
  · rw [Nat.cast_eq_zero, List.count_eq_zero] at hcount
    exact hcount (List.mem_map_of_mem List.mem_cons_self)
  · exact hvalue hno

/-- Dividing by the start mass as well changes some count, unless the mass is 1. -/
theorem Composable.counts_eq_iff : (∀ a < F.numArcs, traversalSum comp F exemplar w a /
      (startMass comp F exemplar w * (logLattice comp (weighted F w) exemplar).shortestDistance) =
        expectedTraversals comp F exemplar w a) ↔
    ∀ c, walk (logLattice comp (weighted F w) exemplar).ends 0 c = some 0 →
      pathWeight (logLattice comp (weighted F w) exemplar).arcWeight c ≠ 0 → c = [] := by
  rw [← forward_self_eq_one_iff]
  show _ ↔ startMass comp F exemplar w = 1
  constructor
  · intro hall
    by_contra hmass
    obtain ⟨c, hc, hweight, hne⟩ : ∃ c,
      walk (logLattice comp (weighted F w) exemplar).ends 0 c = some 0 ∧
        pathWeight (logLattice comp (weighted F w) exemplar).arcWeight c ≠ 0 ∧ c ≠ [] := by
      by_contra hno
      push Not at hno
      exact hmass (forward_self_eq_one_iff.mpr hno)
    obtain ⟨a, ha, hzero⟩ := h.exists_traversalSum_ne_zero hpath hc hweight hne
    have hdiv := hall a ha
    rw [expectedTraversals, div_eq_mul_inv, div_eq_mul_inv,
      ENNReal.mul_right_inj hzero (h.traversalSum_ne_top hpath hsum a), inv_inj] at hdiv
    have hpos : (logLattice comp (weighted F w) exemplar).shortestDistance ≠ 0 := by
      obtain ⟨p, hp⟩ := hpath
      exact fun hno => hp (ENNReal.tsum_eq_zero.mp hno p)
    nth_rewrite 2 [← one_mul (VectorFst.shortestDistance _)] at hdiv
    exact hmass ((ENNReal.mul_left_inj hpos hsum).mp hdiv)
  · intro hmass a _
    rw [hmass, one_mul, expectedTraversals]

end Counts

/-- On a lattice with a path and a finite sum, `calculate_observed_counts` adds to every
machine arc its expected number of traversals if and only if no cycle of nonzero weight
leads from the start state back to it. -/
theorem observedCounts_expected_iff (h : Composable comp F exemplar) (w : ℕ → LogWeight)
    (t : TrainerLocal n) (hlen : F.numArcs ≤ t.observedCounts.length)
    (hreal : ∀ a, tally t.observedCounts a ≠ ⊤)
    (hpath : ∃ p, (logLattice comp (weighted F w) exemplar).value p ≠ 0)
    (hsum : (logLattice comp (weighted F w) exemplar).shortestDistance ≠ ⊤) :
    ∃ counts, t.calculateObservedCounts logsum
      (featureLattice comp (mapToFeatureArcs F false) exemplar)
        (logLattice comp (weighted F w) exemplar)
        (logLattice comp (weighted F w) exemplar).forwardDistances
        (logLattice comp (weighted F w) exemplar).backwardDistances =
          some { t with observedCounts := counts } ∧
      ((∀ a < F.numArcs, tally counts a =
          tally t.observedCounts a + expectedTraversals comp F exemplar w a) ↔
        ∀ c, walk (logLattice comp (weighted F w) exemplar).ends 0 c = some 0 →
          pathWeight (logLattice comp (weighted F w) exemplar).arcWeight c ≠ 0 → c = []) := by
  obtain ⟨counts, hcounts, -, htally⟩ := h.observedCounts_eq w t hlen
    (hpath.imp fun _ => accepts_of_value_ne_zero)
  refine ⟨counts, hcounts, ?_⟩
  rw [← h.counts_eq_iff hpath hsum]
  refine forall_congr' fun a => imp_congr_right fun _ => ?_
  rw [htally, ENNReal.add_right_inj (hreal a)]

/-- A trainer before its first count. -/
noncomputable def freshTrainer : TrainerLocal 1 :=
  { twoArcsTrainer 0 with observedCounts := List.replicate 2 negDblMax }

theorem tally_freshTrainer (a : ℕ) : tally freshTrainer.observedCounts a ≠ ⊤ := by
  have hzero : tally freshTrainer.observedCounts a = 0 := tally_replicate 2 a
  rw [hzero]
  exact ENNReal.zero_ne_top

theorem shortestDistance_parallel_ne_top {ws : List LogWeight} (hws : ∀ w ∈ ws, w ≠ ⊤) :
    (parallel ws 1).shortestDistance ≠ ⊤ := by
  have hfinite : {p | (parallel ws (1 : LogWeight)).Accepts p}.Finite := by
    refine ((Set.finite_Iio ws.length).image fun e => [e]).subset fun p hp => ?_
    obtain ⟨e, he, rfl⟩ := accepts_parallel.mp hp
    exact ⟨e, he, rfl⟩
  rw [VectorFst.shortestDistance, tsum_eq_sum (s := hfinite.toFinset) fun p hp =>
    VectorFst.value_eq_zero fun hacc => hp (hfinite.mem_toFinset.mpr hacc)]
  refine ENNReal.sum_ne_top.mpr fun p hp => ?_
  obtain ⟨e, he, rfl⟩ := accepts_parallel.mp (hfinite.mem_toFinset.mp hp)
  rw [value_parallel (List.getElem?_eq_getElem he)]
  exact hws _ (List.getElem_mem he)

/-- No arc leads back to the start. -/
theorem eq_nil_of_walk_parallel {W : Type*} {ws : List W} {f : W} {c : List ℕ}
    (h : walk (parallel ws f).ends 0 c = some 0) : c = [] := by
  cases c with
  | nil => rfl
  | cons e c =>
    obtain ⟨r, hr, hrest⟩ := walk_cons_iff.mp h
    have hlt : e < ws.length := numArcs_parallel ws f ▸ VectorFst.lt_numArcs_of_ends hr
    obtain rfl : 1 = r := (Prod.mk.inj (Option.some.inj ((ends_parallel hlt).symm.trans hr))).2
    cases c with
    | nil => cases hrest
    | cons e' c =>
      obtain ⟨r', hr', -⟩ := walk_cons_iff.mp hrest
      have hlt' : e' < ws.length := numArcs_parallel ws f ▸ VectorFst.lt_numArcs_of_ends hr'
      have hends := (ends_parallel hlt').symm.trans hr'
      simp at hends

/-- Either of two competing arcs explains the exemplar. -/
theorem observedCounts_expected_twoArcs : ∃ counts,
    freshTrainer.calculateObservedCounts logsum
        (featureLattice composeParallel (mapToFeatureArcs twoArcs false) (oneSymbol, oneSymbol))
        (logLattice composeParallel (weighted twoArcs fun _ => 2⁻¹) (oneSymbol, oneSymbol))
        (logLattice composeParallel (weighted twoArcs fun _ => 2⁻¹)
          (oneSymbol, oneSymbol)).forwardDistances
        (logLattice composeParallel (weighted twoArcs fun _ => 2⁻¹)
          (oneSymbol, oneSymbol)).backwardDistances =
          some { freshTrainer with observedCounts := counts } ∧
      ∀ a < twoArcs.numArcs, tally counts a = tally freshTrainer.observedCounts a +
        expectedTraversals composeParallel twoArcs (oneSymbol, oneSymbol) (fun _ => 2⁻¹) a := by
  have hpath : ∃ p, (logLattice composeParallel (weighted twoArcs fun _ => 2⁻¹)
      (oneSymbol, oneSymbol)).value p ≠ 0 := by
    refine ⟨[0], ?_⟩
    rw [logLattice_twoArcs, value_parallel (w := 2⁻¹) rfl]
    exact ENNReal.inv_ne_zero.mpr ENNReal.ofNat_ne_top
  have hsum : (logLattice composeParallel (weighted twoArcs fun _ => 2⁻¹)
      (oneSymbol, oneSymbol)).shortestDistance ≠ ⊤ := by
    rw [logLattice_twoArcs]
    exact shortestDistance_parallel_ne_top (by simp)
  obtain ⟨counts, hcounts, hiff⟩ :=
    observedCounts_expected_iff exemplar_twoArcs.toComposable (fun _ => 2⁻¹)
    freshTrainer le_rfl tally_freshTrainer hpath hsum
  refine ⟨counts, hcounts, hiff.mpr fun c hc _ => ?_⟩
  rw [logLattice_twoArcs] at hc
  exact eq_nil_of_walk_parallel hc

/-! ### A machine with an empty loop at its start -/

section Looped

/-- A loop that reads and writes nothing, then an arc for one symbol. -/
def looped {W : Type*} (loop arc final : W) : VectorFst W :=
  ⟨some 0, [⟨none, [⟨0, 0, loop, 0⟩, ⟨1, 1, arc, 1⟩]⟩, ⟨some final, []⟩]⟩

/-- Its compositions with one symbol, on the left and on the right. -/
def composeLooped : Composer := fun F _ =>
  if F.numArcs = 1 then looped (none, some 0) (some 0, some 1) (some 1, some 1)
  else looped (some 0, none) (some 1, some 0) (some 1, some 1)

noncomputable def loopedFst : VectorFst LogWeight := looped 1 1 1

theorem arc?_looped {W : Type*} {loop arc final : W} {e q : ℕ} {a : Arc W}
    (h : (looped loop arc final).arc? e = some (q, a)) :
    e = 0 ∧ q = 0 ∧ a = ⟨0, 0, loop, 0⟩ ∨ e = 1 ∧ q = 0 ∧ a = ⟨1, 1, arc, 1⟩ := by
  have hlist : ([(0, ⟨0, 0, loop, 0⟩), (0, ⟨1, 1, arc, 1⟩)] : List (ℕ × Arc W))[e]? =
      some (q, a) := h
  rcases e with _ | _ | e
  · obtain ⟨rfl, rfl⟩ := Prod.mk.inj (Option.some.inj hlist)
    exact .inl ⟨rfl, rfl, rfl⟩
  · obtain ⟨rfl, rfl⟩ := Prod.mk.inj (Option.some.inj hlist)
    exact .inr ⟨rfl, rfl, rfl⟩
  · contradiction

theorem composes_looped {F G : VectorFst Unit} {o o' : Origin} (ho : Matched F G ⟨0, 0, o, 0⟩)
    (ho' : Matched F G ⟨1, 1, o', 1⟩) (hF : (F.final? 1).isSome) (hG : (G.final? 1).isSome) :
    Composes F G (looped o o' (some 1, some 1)) := by
  have hstates {q : ℕ} (hq : q < (looped o o' (some 1, some 1)).numStates) : q = 0 ∨ q = 1 := by
    have hlt : q < 2 := hq
    omega
  constructor
  · exact fun _ => rfl
  · exact fun h => absurd h (List.cons_ne_nil _ _)
  · intro e q a h
    obtain ⟨-, -, rfl⟩ | ⟨-, -, rfl⟩ := arc?_looped h
    · exact Nat.two_pos
    · exact Nat.one_lt_two
  · intro q hq
    obtain rfl | rfl := hstates hq
    · exact ⟨[], rfl⟩
    · exact ⟨[1], rfl⟩
  · intro q hq
    obtain rfl | rfl := hstates hq
    · exact ⟨[1], 1, rfl, rfl⟩
    · exact ⟨[], 1, rfl, rfl⟩
  · intro e q a h
    obtain ⟨-, -, rfl⟩ | ⟨-, -, rfl⟩ := arc?_looped h
    · exact ho
    · exact ho'
  · intro q o₁ h
    have hq : q < 2 := by
      obtain ⟨s, hs, -⟩ := Option.bind_eq_some_iff.mp h
      exact (List.getElem?_eq_some_iff.mp hs).1
    obtain rfl | rfl := hstates hq
    · contradiction
    · obtain rfl : (some 1, some 1) = o₁ := Option.some.inj h
      exact ⟨1, 1, rfl, hF, hG⟩

theorem composable_looped : Composable composeLooped loopedFst (oneSymbol, oneSymbol) where
  machine := by
    intro q w h
    rcases q with _ | _ | q
    · contradiction
    · obtain rfl : 1 = w := Option.some.inj h
      exact ⟨one_ne_zero, ENNReal.one_ne_top⟩
    · contradiction
  input := isAcceptor_oneSymbol
  output := isAcceptor_oneSymbol
  medial := composes_looped ⟨rfl, rfl, rfl, by decide, by rintro ⟨l, r, h⟩; cases h⟩
    ⟨rfl, rfl, rfl, by decide, fun _ => by decide⟩ rfl rfl
  lattice := composes_looped ⟨rfl, rfl, rfl, by decide, by rintro ⟨l, r, h⟩; cases h⟩
    ⟨rfl, rfl, rfl, by decide, fun _ => by decide⟩ rfl rfl

theorem logLattice_looped (w : ℕ → LogWeight) :
    logLattice composeLooped (weighted loopedFst w) (oneSymbol, oneSymbol) =
      looped (w 0) (w 1) 1 := by
  show looped (1 * w 0 * 1) (1 * w 1 * 1) (1 * 1 * 1) = _
  simp only [one_mul, mul_one]

theorem accepts_looped {loop arc final : LogWeight} {p : List ℕ}
    (h : (looped loop arc final).Accepts p) : ∃ k, List.replicate k 0 ++ [1] = p := by
  obtain ⟨q, q₀, hstart, hwalk, hfinal⟩ := h
  obtain rfl : 0 = q₀ := Option.some.inj hstart
  induction p with
  | nil =>
    obtain rfl : 0 = q := Option.some.inj hwalk
    contradiction
  | cons e p ih =>
    obtain ⟨r, hr, hrest⟩ := walk_cons_iff.mp hwalk
    obtain ⟨a, ha, rfl⟩ := VectorFst.ends_eq_some_iff.mp hr
    obtain ⟨rfl, -, rfl⟩ | ⟨rfl, -, rfl⟩ := arc?_looped ha
    · obtain ⟨k, rfl⟩ := ih hrest
      exact ⟨k + 1, rfl⟩
    · rcases p with _ | ⟨e', p⟩
      · exact ⟨0, rfl⟩
      · -- the second state has no arcs
        obtain ⟨r', hr', -⟩ := walk_cons_iff.mp hrest
        obtain ⟨a', ha', -⟩ := VectorFst.ends_eq_some_iff.mp hr'
        obtain ⟨-, hno, -⟩ | ⟨-, hno, -⟩ := arc?_looped ha'
        · contradiction
        · contradiction

theorem value_looped (loop arc : LogWeight) (k : ℕ) :
    (looped loop arc 1).value (List.replicate k 0 ++ [1]) = loop ^ k * arc := by
  have hwalk : walk (looped loop arc 1).ends 0 (List.replicate k 0 ++ [1]) = some 1 := by
    induction k with
    | zero => rfl
    | succ k ih =>
      rw [List.replicate_succ, List.cons_append]
      exact walk_cons_iff.mpr ⟨0, rfl, ih⟩
  rw [VectorFst.value_of_acceptsAt ⟨0, rfl, hwalk, rfl⟩, pathWeight_append, pathWeight,
    List.map_replicate, List.prod_replicate, pathWeight_cons, pathWeight_nil, mul_one]
  exact mul_one _

theorem shortestDistance_looped : (looped (2⁻¹ : LogWeight) 2⁻¹ 1).shortestDistance ≠ ⊤ := by
  have hinj : Function.Injective fun k => List.replicate k 0 ++ [1] := by
    intro k l hkl
    have hlen := congrArg List.length hkl
    simpa using hlen
  have hsupport : Function.support (looped (2⁻¹ : LogWeight) 2⁻¹ 1).value ⊆
      Set.range fun k => List.replicate k 0 ++ [1] := by
    intro p hp
    by_contra hno
    exact hp (VectorFst.value_eq_zero fun hp' => hno (accepts_looped hp'))
  rw [VectorFst.shortestDistance, ← hinj.tsum_eq hsupport]
  simp only [value_looped]
  rw [ENNReal.tsum_mul_right, ENNReal.tsum_geometric, ENNReal.one_sub_inv_two, inv_inv]
  exact ENNReal.mul_ne_top ENNReal.ofNat_ne_top (ENNReal.inv_ne_top.mpr two_ne_zero)

/-- A trainer for the machine before its first count. -/
noncomputable def loopedTrainer : TrainerLocal 1 := { freshTrainer with fst := loopedFst }

theorem exists_value_looped : ∃ p, (logLattice composeLooped (weighted loopedFst fun _ => 2⁻¹)
    (oneSymbol, oneSymbol)).value p ≠ 0 := by
  refine ⟨List.replicate 0 0 ++ [1], ?_⟩
  rw [logLattice_looped, value_looped]
  exact mul_ne_zero (pow_ne_zero _ (ENNReal.inv_ne_zero.mpr ENNReal.ofNat_ne_top))
    (ENNReal.inv_ne_zero.mpr ENNReal.ofNat_ne_top)

/-- The loop is a cycle at the start of the lattice. -/
theorem cycle_looped : ¬ ∀ c, walk (logLattice composeLooped (weighted loopedFst fun _ => 2⁻¹)
    (oneSymbol, oneSymbol)).ends 0 c = some 0 → pathWeight (logLattice composeLooped
      (weighted loopedFst fun _ => 2⁻¹) (oneSymbol, oneSymbol)).arcWeight c ≠ 0 → c = [] := by
  rw [logLattice_looped]
  intro h
  refine List.cons_ne_nil 0 [] (h [0] rfl ?_)
  rw [pathWeight_cons, pathWeight_nil, mul_one]
  exact ENNReal.inv_ne_zero.mpr ENNReal.ofNat_ne_top

theorem shortestDistance_loopedFst : (logLattice composeLooped (weighted loopedFst fun _ => 2⁻¹)
    (oneSymbol, oneSymbol)).shortestDistance ≠ ⊤ := by
  rw [logLattice_looped]
  exact shortestDistance_looped

end Looped

/-- The counts are not expectations on every lattice. -/
theorem not_observedCounts_expected : ¬ ∀ (n : ℕ) (comp : Composer) (F : VectorFst LogWeight)
    (exemplar : VectorFst LogWeight × VectorFst LogWeight) (w : ℕ → LogWeight) (t : TrainerLocal n),
    Composable comp F exemplar → F.numArcs ≤ t.observedCounts.length →
    (∀ a, tally t.observedCounts a ≠ ⊤) →
    (∃ p, (logLattice comp (weighted F w) exemplar).value p ≠ 0) →
    (logLattice comp (weighted F w) exemplar).shortestDistance ≠ ⊤ →
    ∃ counts, t.calculateObservedCounts logsum
      (featureLattice comp (mapToFeatureArcs F false) exemplar)
        (logLattice comp (weighted F w) exemplar)
        (logLattice comp (weighted F w) exemplar).forwardDistances
        (logLattice comp (weighted F w) exemplar).backwardDistances =
          some { t with observedCounts := counts } ∧
      ∀ a < F.numArcs, tally counts a =
        tally t.observedCounts a + expectedTraversals comp F exemplar w a := by
  intro hclaim
  have hreal : ∀ a, tally loopedTrainer.observedCounts a ≠ ⊤ := tally_freshTrainer
  obtain ⟨counts, hcounts, hall⟩ :=
    hclaim 1 composeLooped loopedFst (oneSymbol, oneSymbol) (fun _ => 2⁻¹)
    loopedTrainer composable_looped le_rfl hreal exists_value_looped shortestDistance_loopedFst
  obtain ⟨counts', hcounts', -, htally⟩ :=
    composable_looped.observedCounts_eq (fun _ => 2⁻¹) loopedTrainer le_rfl
    (exists_value_looped.imp fun _ => accepts_of_value_ne_zero)
  have hsame : counts = counts' :=
    congrArg TrainerLocal.observedCounts (Option.some.inj (hcounts.symm.trans hcounts'))
  apply cycle_looped
  refine (composable_looped.counts_eq_iff exists_value_looped shortestDistance_loopedFst).mp
    fun a ha => ?_
  have hadded := hall a ha
  rw [hsame, htally, ENNReal.add_right_inj (hreal a)] at hadded
  exact hadded

end StochasticEdit.Trainer
