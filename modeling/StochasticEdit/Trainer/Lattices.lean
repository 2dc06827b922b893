import StochasticEdit.Trainer.Counts
import StochasticEdit.Estimation.LocalModel

/-! The two lattices of a training exemplar. Both are composed from machines of the
same shapes, so they have the same states and arcs: the FeatureArc lattice tells which
machine arc each lattice arc stands for, the LogArc lattice has its weight. -/

namespace StochasticEdit.Trainer

open Wfst
open scoped ENNReal

/-- The final weights are those of final states, with finite cost. -/
def RealFinals (A : VectorFst LogWeight) : Prop := ∀ q w, A.final? q = some w → w ≠ 0 ∧ w ≠ ⊤

/-- An acceptor without empty words. -/
structure IsAcceptor (A : VectorFst LogWeight) : Prop where
  same : ∀ e q a, A.arc? e = some (q, a) → a.ilabel = a.olabel
  ilabel : ∀ e q a, A.arc? e = some (q, a) → a.ilabel ≠ 0
  weight : ∀ e q a, A.arc? e = some (q, a) → a.weight ≠ ⊤
  final : RealFinals A

section Origins
variable (comp : Composer) (F : VectorFst LogWeight)
  (exemplar : VectorFst LogWeight × VectorFst LogWeight)

/-- The arcs of the input acceptor and of the machine behind the medial machine. -/
def medialOrigins (input : VectorFst LogWeight) : VectorFst Origin := comp input.shape F.shape

/-- The arcs of the medial machine and of the output acceptor behind a lattice. -/
def latticeOrigins : VectorFst Origin :=
  comp (medialOrigins comp F exemplar.1).shape exemplar.2.shape

/-- The machine arc that a lattice arc stands for. -/
def owner (e : ℕ) : ℕ :=
  ((((latticeOrigins comp F exemplar).arc? e).bind fun r => r.2.weight.1).bind fun m =>
    ((medialOrigins comp F exemplar.1).arc? m).bind fun r => r.2.weight.2).getD 0

/-- The machine arc that moves on a lattice arc, `none` where the machine stands still. -/
def traversed? (e : ℕ) : Option ℕ :=
  (((latticeOrigins comp F exemplar).arc? e).bind fun r => r.2.weight.1).bind fun m =>
    ((medialOrigins comp F exemplar.1).arc? m).bind fun r => r.2.weight.2

/-- The machine with the arc weights `w`. -/
noncomputable def weighted (w : ℕ → LogWeight) : VectorFst LogWeight := F.withWeights w some

/-- The compositions behind the medial machine and the lattice. -/
structure LatticeSteps : Prop where
  machine : RealFinals F
  medial : Composes exemplar.1.shape F.shape (medialOrigins comp F exemplar.1)
  lattice : Composes (medialOrigins comp F exemplar.1).shape exemplar.2.shape
    (latticeOrigins comp F exemplar)

/-- The two compositions of an exemplar with the machine. -/
structure Composed : Prop extends LatticeSteps comp F exemplar where
  input : RealFinals exemplar.1
  output : RealFinals exemplar.2

/-- Acceptors without empty words, composed with the machine. -/
structure Composable : Prop extends LatticeSteps comp F exemplar where
  input : IsAcceptor exemplar.1
  output : IsAcceptor exemplar.2

/-- A usable exemplar: the lattice has finitely many accepting paths, and one of nonzero
weight apart from the machine. -/
structure Exemplar : Prop extends Composable comp F exemplar where
  finite : {p | (latticeOrigins comp F exemplar).Accepts p}.Finite
  exists_path : ∃ p, (logLattice comp (weighted F fun _ => 1) exemplar).value p ≠ 0

end Origins

variable {n : ℕ} {comp : Composer} {F : VectorFst LogWeight}
  {exemplar : VectorFst LogWeight × VectorFst LogWeight}

theorem Composable.composed (h : Composable comp F exemplar) : Composed comp F exemplar :=
  ⟨h.toLatticeSteps, h.input.final, h.output.final⟩

/-! ### Shapes -/

theorem shape_weighted (F : VectorFst LogWeight) (w : ℕ → LogWeight) :
    (weighted F w).shape = F.shape :=
  F.shape_withWeights w some fun _ _ _ => rfl

/-- The LogArc lattice, with any weights on the machine. -/
theorem logLattice_of_shape {G : VectorFst LogWeight} (hG : G.shape = F.shape) :
    logLattice comp G exemplar = (latticeOrigins comp F exemplar).map
      (fun o => (VectorFst.compose comp exemplar.1 G).weightAt o.1 * exemplar.2.weightAt o.2)
      fun o => (VectorFst.compose comp exemplar.1 G).finalAt o.1 * exemplar.2.finalAt o.2 := by
  have hmedial : (VectorFst.compose comp exemplar.1 G).shape =
      (medialOrigins comp F exemplar.1).shape := by
    rw [shape_compose, hG]
    rfl
  rw [logLattice, VectorFst.compose, hmedial]
  rfl

theorem logLattice_eq (comp : Composer) (F : VectorFst LogWeight)
    (exemplar : VectorFst LogWeight × VectorFst LogWeight) (w : ℕ → LogWeight) :
    logLattice comp (weighted F w) exemplar = (latticeOrigins comp F exemplar).map
      (fun o => (VectorFst.compose comp exemplar.1 (weighted F w)).weightAt o.1 *
        exemplar.2.weightAt o.2)
      fun o => (VectorFst.compose comp exemplar.1 (weighted F w)).finalAt o.1 *
        exemplar.2.finalAt o.2 :=
  logLattice_of_shape (shape_weighted F w)

theorem mapArcs_eq (zero : Bool) (e : ℕ) (arcs : List (Arc LogWeight)) : mapArcs zero e arcs =
    numberArcs (fun e => if !zero then ⟨1, ofValue (-(Real.log (e + 1) : EReal))⟩ else ⟨1, 0⟩)
      e arcs := by
  induction arcs generalizing e with
  | nil => rfl
  | cons a arcs ih => rw [mapArcs, numberArcs, ih]

/-- `map_to_feature_arcs` keeps the arcs and numbers them. -/
theorem mapToFeatureArcs_eq (A : VectorFst LogWeight) (zero : Bool) : mapToFeatureArcs A zero =
    A.withWeights (fun e => if !zero then ⟨1, ofValue (-(Real.log (e + 1) : EReal))⟩ else ⟨1, 0⟩)
      fun w => if w ≠ 0 then some ⟨1, 0⟩ else none := by
  have hstates : ∀ (ss : List (State LogWeight)) (e : ℕ), mapStates zero e ss =
      numberStates (fun e => if !zero then ⟨1, ofValue (-(Real.log (e + 1) : EReal))⟩ else ⟨1, 0⟩)
        (fun w => if w ≠ 0 then some ⟨1, 0⟩ else none) e ss := by
    intro ss
    induction ss with
    | nil => exact fun _ => rfl
    | cons s ss ih =>
      intro e
      rw [mapStates, numberStates, ih, mapArcs_eq]
  rw [mapToFeatureArcs, hstates]
  rfl

theorem shape_mapToFeatureArcs {A : VectorFst LogWeight} (h : RealFinals A) (zero : Bool) :
    (mapToFeatureArcs A zero).shape = A.shape := by
  rw [mapToFeatureArcs_eq]
  apply VectorFst.shape_withWeights
  intro q w hw
  rw [if_pos (h q w hw).1]
  rfl

/-- The FeatureArc lattice. -/
theorem featureLattice_eq (h : Composed comp F exemplar) :
    featureLattice comp (mapToFeatureArcs F false) exemplar = (latticeOrigins comp F exemplar).map
      (fun o => (VectorFst.compose comp (mapToFeatureArcs exemplar.1 true)
        (mapToFeatureArcs F false)).weightAt o.1 * (mapToFeatureArcs exemplar.2 true).weightAt o.2)
      fun o => (VectorFst.compose comp (mapToFeatureArcs exemplar.1 true)
        (mapToFeatureArcs F false)).finalAt o.1 *
          (mapToFeatureArcs exemplar.2 true).finalAt o.2 := by
  have hmedial : (VectorFst.compose comp (mapToFeatureArcs exemplar.1 true)
      (mapToFeatureArcs F false)).shape = (medialOrigins comp F exemplar.1).shape := by
    rw [shape_compose, shape_mapToFeatureArcs h.input, shape_mapToFeatureArcs h.machine]
    rfl
  rw [featureLattice, VectorFst.compose, hmedial, shape_mapToFeatureArcs h.output]
  rfl

/-- Both lattices have the same states and arcs, whatever the weights of the machine are. -/
theorem shape_lattices (h : Composed comp F exemplar) (w : ℕ → LogWeight) :
    (logLattice comp (weighted F w) exemplar).shape =
      (featureLattice comp (mapToFeatureArcs F false) exemplar).shape := by
  rw [logLattice_eq, featureLattice_eq h, VectorFst.shape_map, VectorFst.shape_map]

/-! ### The arcs behind a lattice arc -/

theorem IsAcceptor.noEmpty {A : VectorFst LogWeight} (h : IsAcceptor A) : NoEmpty A := by
  constructor
  · intro e he
    obtain ⟨⟨q, a⟩, ha, h0⟩ := Option.map_eq_some_iff.mp he
    exact h.ilabel e q a ha h0
  · intro e he
    obtain ⟨⟨q, a⟩, ha, h0⟩ := Option.map_eq_some_iff.mp he
    exact h.ilabel e q a ha ((h.same e q a ha).trans h0)

/-- The machine arc behind an arc of the medial machine. -/
theorem medial_traversed_lt {x : VectorFst LogWeight}
    (hmedial : Composes x.shape F.shape (medialOrigins comp F x)) {m r f : ℕ} {b : Arc Origin}
    (hb : (medialOrigins comp F x).arc? m = some (r, b)) (hf : b.weight.2 = some f) :
    f < F.numArcs := by
  rw [← F.numArcs_shape]
  exact (hmedial.matched m r b hb).right_lt hf

/-- The input acceptor has no empty words, so the machine moves on every medial arc. -/
theorem IsAcceptor.medial_origin {x : VectorFst LogWeight} (hx : IsAcceptor x)
    (hmedial : Composes x.shape F.shape (medialOrigins comp F x)) {m r : ℕ} {b : Arc Origin}
    (hb : (medialOrigins comp F x).arc? m = some (r, b)) :
    ∃ f, b.weight.2 = some f ∧ f < F.numArcs := by
  obtain ⟨f, hf⟩ := (hmedial.matched m r b hb).exists_right hx.noEmpty.shape.olabel
  exact ⟨f, hf, medial_traversed_lt hmedial hb hf⟩

/-- The medial arc behind a lattice arc. -/
theorem Composed.exists_medial (h : Composed comp F exemplar) {e q m : ℕ} {a : Arc Origin}
    (ha : (latticeOrigins comp F exemplar).arc? e = some (q, a)) (hm : a.weight.1 = some m) :
    ∃ r b, (medialOrigins comp F exemplar.1).arc? m = some (r, b) ∧
      Matched exemplar.1.shape F.shape b := by
  have hlt := (h.lattice.matched e q a ha).left_lt hm
  rw [VectorFst.numArcs_shape] at hlt
  obtain ⟨r, b, hb⟩ := VectorFst.exists_arc? hlt
  exact ⟨r, b, hb, h.medial.matched m r b hb⟩

/-- Neither acceptor has empty words, so the machine moves on every lattice arc. -/
theorem Composable.origin (h : Composable comp F exemplar) {e q : ℕ} {a : Arc Origin}
    (ha : (latticeOrigins comp F exemplar).arc? e = some (q, a)) :
    ∃ m r b, a.weight.1 = some m ∧ (medialOrigins comp F exemplar.1).arc? m = some (r, b) ∧
      b.weight.2 = some (owner comp F exemplar e) ∧ owner comp F exemplar e < F.numArcs := by
  obtain ⟨m, hm⟩ := (h.lattice.matched e q a ha).exists_left h.output.noEmpty.shape.ilabel
  obtain ⟨r, b, hb, -⟩ := h.composed.exists_medial ha hm
  obtain ⟨f, hf, hlt⟩ := h.input.medial_origin h.medial hb
  have howner : owner comp F exemplar e = f := by
    rw [owner, ha, Option.bind_some, hm, Option.bind_some, hb, Option.bind_some, hf]
    rfl
  rw [howner]
  exact ⟨m, r, b, hm, hb, hf, hlt⟩

theorem Composable.traversed?_eq (h : Composable comp F exemplar) {e q : ℕ} {a : Arc Origin}
    (ha : (latticeOrigins comp F exemplar).arc? e = some (q, a)) :
    traversed? comp F exemplar e = some (owner comp F exemplar e) := by
  obtain ⟨m, r, b, hm, hb, hf, -⟩ := h.origin ha
  rw [traversed?, ha, Option.bind_some, hm, Option.bind_some, hb, Option.bind_some, hf]

/-! ### Arc numbers -/

theorem weightAt_mapToFeatureArcs_true (A : VectorFst LogWeight) (o : Option ℕ) :
    (mapToFeatureArcs A true).weightAt o = 1 := by
  rw [mapToFeatureArcs_eq, VectorFst.weightAt]
  rcases o with _ | e
  · rfl
  · rw [Option.bind_some, VectorFst.arc?_withWeights]
    cases A.arc? e <;> rfl

theorem ofValue_neg_log (e : ℕ) : ofValue (-(Real.log (e + 1) : EReal)) = (e + 1 : ℕ) := by
  have hpos : (0 : ℝ) < e + 1 := by positivity
  rw [ofValue, neg_neg, EReal.exp_coe, Real.exp_log hpos, ← Nat.cast_add_one,
    ENNReal.ofReal_natCast]

theorem weightAt_mapToFeatureArcs_false {A : VectorFst LogWeight} {e : ℕ} (h : e < A.numArcs) :
    (mapToFeatureArcs A false).weightAt (some e) = ⟨1, (e + 1 : ℕ)⟩ := by
  obtain ⟨q, a, ha⟩ := VectorFst.exists_arc? h
  rw [mapToFeatureArcs_eq, VectorFst.weightAt, Option.bind_some, VectorFst.arc?_withWeights, ha,
    ← ofValue_neg_log]
  rfl

theorem roundExpNeg_value (k : ℕ) : roundExpNeg (value k) = k := by
  rw [roundExpNeg, exp_neg_value, ENNReal.toReal_natCast, round_natCast]

/-- The second component of the weight of a FeatureArc decodes to the machine arc, and to
-1 where the machine stands still. -/
theorem Composed.decode (h : Composed comp F exemplar) {e q : ℕ} {a : Arc Origin}
    (ha : (latticeOrigins comp F exemplar).arc? e = some (q, a)) :
    roundExpNeg (value ((VectorFst.compose comp (mapToFeatureArcs exemplar.1 true)
      (mapToFeatureArcs F false)).weightAt a.weight.1 *
        (mapToFeatureArcs exemplar.2 true).weightAt a.weight.2).value2) - 1 =
      (traversed? comp F exemplar e).elim (-1) fun f => (f : ℤ) := by
  have hshape : comp (mapToFeatureArcs exemplar.1 true).shape (mapToFeatureArcs F false).shape =
      medialOrigins comp F exemplar.1 := by
    rw [shape_mapToFeatureArcs h.input, shape_mapToFeatureArcs h.machine]
    rfl
  have hstill : roundExpNeg (value (1 : FeatureWeight).value2) - 1 = -1 := by
    have hzero := roundExpNeg_value 0
    rw [Nat.cast_zero, Nat.cast_zero] at hzero
    rw [FeatureWeight.one_value2, hzero, zero_sub]
  have hright (x : FeatureWeight) : (x * 1).value2 = x.value2 := by simp
  have hleft (x : FeatureWeight) : (1 * x).value2 = x.value2 := by simp
  rw [weightAt_mapToFeatureArcs_true, hright, traversed?, ha, Option.bind_some]
  rcases hm : a.weight.1 with _ | m
  · exact hstill
  · obtain ⟨r, b, hb, -⟩ := h.exists_medial ha hm
    rw [Option.bind_some, hb, Option.bind_some, weightAt_compose (hshape ▸ hb),
      weightAt_mapToFeatureArcs_true, hleft]
    rcases hf : b.weight.2 with _ | f
    · exact hstill
    · rw [weightAt_mapToFeatureArcs_false (medial_traversed_lt h.medial hb hf), roundExpNeg_value,
        Nat.cast_add_one, add_sub_cancel_right]
      rfl

/-- Without empty words the machine moves on every lattice arc. -/
theorem Composable.decode (h : Composable comp F exemplar) {e q : ℕ} {a : Arc Origin}
    (ha : (latticeOrigins comp F exemplar).arc? e = some (q, a)) :
    roundExpNeg (value ((VectorFst.compose comp (mapToFeatureArcs exemplar.1 true)
      (mapToFeatureArcs F false)).weightAt a.weight.1 *
        (mapToFeatureArcs exemplar.2 true).weightAt a.weight.2).value2) - 1 =
      owner comp F exemplar e := by
  rw [h.composed.decode ha, h.traversed?_eq ha]
  rfl

/-! ### Weights -/

theorem finalAt_weighted (F : VectorFst LogWeight) (w : ℕ → LogWeight) :
    (weighted F w).finalAt = F.finalAt := by
  funext q
  have hfinal : (weighted F w).final? = F.final? := by
    funext r
    rw [weighted, VectorFst.final?_withWeights, Option.bind_fun_some]
  rw [VectorFst.finalAt, VectorFst.finalAt, hfinal]

theorem weightAt_weighted {w : ℕ → LogWeight} {e : ℕ} (h : e < F.numArcs) :
    (weighted F w).weightAt (some e) = w e := by
  obtain ⟨q, a, ha⟩ := VectorFst.exists_arc? h
  rw [weighted, VectorFst.weightAt, Option.bind_some, VectorFst.arc?_withWeights, ha]
  rfl

theorem arc?_lattice (w : ℕ → LogWeight) {e q : ℕ} {a : Arc Origin}
    (ha : (latticeOrigins comp F exemplar).arc? e = some (q, a)) :
    (logLattice comp (weighted F w) exemplar).arc? e = some (q, a.map fun o =>
      (VectorFst.compose comp exemplar.1 (weighted F w)).weightAt o.1 *
        exemplar.2.weightAt o.2) := by
  rw [logLattice_eq, VectorFst.arc?_map, ha]
  rfl

/-- The weight of a lattice arc is that of its machine arc, times what the acceptors add. -/
theorem Exemplar.exists_arcWeight (h : Exemplar comp F exemplar) {e q : ℕ} {a : Arc Origin}
    (ha : (latticeOrigins comp F exemplar).arc? e = some (q, a)) :
    ∃ x y, ∀ w, (logLattice comp (weighted F w) exemplar).arcWeight e =
      exemplar.1.weightAt x * w (owner comp F exemplar e) * exemplar.2.weightAt y := by
  obtain ⟨m, r, b, hm, hb, hf, hlt⟩ := h.origin ha
  refine ⟨b.weight.1, a.weight.2, fun w => ?_⟩
  have hshape : comp exemplar.1.shape (weighted F w).shape = medialOrigins comp F exemplar.1 := by
    rw [shape_weighted]
    rfl
  rw [VectorFst.arcWeight_eq (arc?_lattice w ha)]
  show (VectorFst.compose comp exemplar.1 (weighted F w)).weightAt a.weight.1 * _ = _
  rw [hm, weightAt_compose (hshape ▸ hb), hf, weightAt_weighted hlt]

theorem Exemplar.arcWeight_eq (h : Exemplar comp F exemplar) (w : ℕ → LogWeight) {e q : ℕ}
    {a : Arc Origin} (ha : (latticeOrigins comp F exemplar).arc? e = some (q, a)) :
    (logLattice comp (weighted F w) exemplar).arcWeight e =
      (logLattice comp (weighted F fun _ => 1) exemplar).arcWeight e *
        w (owner comp F exemplar e) := by
  obtain ⟨x, y, hweight⟩ := h.exists_arcWeight ha
  rw [hweight, hweight, mul_one]
  ring

theorem finalAt_medial (w : ℕ → LogWeight) (o : Option ℕ) :
    (VectorFst.compose comp exemplar.1 (weighted F w)).finalAt o =
      (o.bind (medialOrigins comp F exemplar.1).final?).elim 1 fun r =>
        exemplar.1.finalAt r.1 * F.finalAt r.2 := by
  rcases o with _ | q
  · rfl
  · rw [VectorFst.finalAt, Option.bind_some, final?_compose, shape_weighted, finalAt_weighted,
      Option.bind_some]
    show Option.getD (Option.map _ ((medialOrigins comp F exemplar.1).final? q)) 1 = _
    cases (medialOrigins comp F exemplar.1).final? q <;> rfl

theorem finalWeight_lattice (w : ℕ → LogWeight) (q : ℕ) :
    (logLattice comp (weighted F w) exemplar).finalWeight q =
      (logLattice comp (weighted F fun _ => 1) exemplar).finalWeight q := by
  simp only [VectorFst.finalWeight, logLattice_eq, VectorFst.final?_map, finalAt_medial]

theorem accepts_lattice (w : ℕ → LogWeight) (p : List ℕ) :
    (logLattice comp (weighted F w) exemplar).Accepts p ↔
      (latticeOrigins comp F exemplar).Accepts p := by
  rw [logLattice_eq, VectorFst.accepts_map]

theorem acceptsAt_lattice (w : ℕ → LogWeight) (p : List ℕ) (q : ℕ) :
    (logLattice comp (weighted F w) exemplar).AcceptsAt p q ↔
      (latticeOrigins comp F exemplar).AcceptsAt p q := by
  rw [logLattice_eq, VectorFst.acceptsAt_map]

/-- The weight of a path of a lattice is that of its machine arcs, times what the
acceptors add. -/
theorem Exemplar.value_eq (h : Exemplar comp F exemplar) (w : ℕ → LogWeight) (p : List ℕ) :
    (logLattice comp (weighted F w) exemplar).value p =
      (logLattice comp (weighted F fun _ => 1) exemplar).value p *
        pathWeight w (p.map (owner comp F exemplar)) := by
  by_cases hp : (latticeOrigins comp F exemplar).Accepts p
  · obtain ⟨q, hq⟩ := hp
    have hpath : pathWeight (logLattice comp (weighted F w) exemplar).arcWeight p =
        pathWeight (logLattice comp (weighted F fun _ => 1) exemplar).arcWeight p *
          pathWeight w (p.map (owner comp F exemplar)) := by
      rw [pathWeight, pathWeight, pathWeight, List.map_map, ← List.prod_map_mul]
      refine congrArg List.prod (List.map_congr_left fun e he => ?_)
      obtain ⟨r, a, ha⟩ := VectorFst.exists_arc_of_mem hq he
      exact h.arcWeight_eq w ha
    rw [VectorFst.value_of_acceptsAt ((acceptsAt_lattice w p q).mpr hq),
      VectorFst.value_of_acceptsAt ((acceptsAt_lattice _ p q).mpr hq), hpath, finalWeight_lattice w]
    ring
  · rw [VectorFst.value_eq_zero fun hp' => hp ((accepts_lattice w p).mp hp'),
      VectorFst.value_eq_zero fun hp' => hp ((accepts_lattice _ p).mp hp'), zero_mul]

end StochasticEdit.Trainer
