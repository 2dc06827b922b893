import StochasticEdit.Trainer.Objective

/-! The identity of the machine arcs in the lattices of an exemplar. The FeatureArc
lattice is built once, from machines whose weights carry arc numbers; the LogArc
lattice is built anew for every E-step. The counts are right because the two agree
position by position and the number on a position is that of the machine arc which
moves there. -/

namespace StochasticEdit.Trainer

open Wfst

variable {comp : Composer} {F : VectorFst LogWeight}
  {exemplar : VectorFst LogWeight × VectorFst LogWeight}

/-- The lattice arc `e` moves the machine along its arc `f`. -/
def Traverses (comp : Composer) (F : VectorFst LogWeight)
    (exemplar : VectorFst LogWeight × VectorFst LogWeight) (e f : ℕ) : Prop :=
  ∃ q a m r b, (latticeOrigins comp F exemplar).arc? e = some (q, a) ∧ a.weight.1 = some m ∧
    (medialOrigins comp F exemplar.1).arc? m = some (r, b) ∧ b.weight.2 = some f

theorem traverses_iff {e f : ℕ} :
    Traverses comp F exemplar e f ↔ traversed? comp F exemplar e = some f := by
  constructor
  · rintro ⟨q, a, m, r, b, ha, hm, hb, hf⟩
    rw [traversed?, ha, Option.bind_some, hm, Option.bind_some, hb, Option.bind_some, hf]
  · intro h
    simp only [traversed?, Option.bind_eq_some_iff] at h
    obtain ⟨m, ⟨⟨q, a⟩, ha, hm⟩, ⟨r, b⟩, hb, hf⟩ := h
    exact ⟨q, a, m, r, b, ha, hm, hb, hf⟩

/-- The arcs of a lattice are those of its pattern. -/
theorem exists_origin_arc (h : Composed comp F exemplar) {q k : ℕ} {s : State FeatureWeight}
    (hs : (featureLattice comp (mapToFeatureArcs F false) exemplar).states[q]? = some s)
    {b : Arc FeatureWeight} (hb : s.arcs[k]? = some b) : ∃ a : Arc Origin,
      (latticeOrigins comp F exemplar).arc?
        ((featureLattice comp (mapToFeatureArcs F false) exemplar).firstArc q + k) = some (q, a) ∧
      b.weight = (VectorFst.compose comp (mapToFeatureArcs exemplar.1 true)
        (mapToFeatureArcs F false)).weightAt a.weight.1 *
          (mapToFeatureArcs exemplar.2 true).weightAt a.weight.2 := by
  have harc := VectorFst.arc?_eq_some_iff.mpr ⟨s, k, hs, hb, rfl⟩
  rw [featureLattice_eq h, VectorFst.arc?_map] at harc
  obtain ⟨⟨r, a⟩, ha, heq⟩ := Option.map_eq_some_iff.mp harc
  obtain ⟨rfl, rfl⟩ := Prod.mk.inj heq
  rw [featureLattice_eq h]
  exact ⟨a, ha, rfl⟩

/-- The LogArc lattice of an exemplar and its FeatureArc lattice have the same states and
the same arcs in the same order, and on every state the arc number that
`calculate_observed_counts` decodes for the `k`-th arc is that of the one machine arc
which this arc traverses. -/
theorem arc_identity (h : Composable comp F exemplar) (w : ℕ → LogWeight) :
    (logLattice comp (weighted F w) exemplar).shape =
        (featureLattice comp (mapToFeatureArcs F false) exemplar).shape ∧
      ∀ q s, (featureLattice comp (mapToFeatureArcs F false) exemplar).states[q]? = some s →
        ∀ k < s.arcs.length, ∃ f < F.numArcs,
          (∀ f', Traverses comp F exemplar
            ((logLattice comp (weighted F w) exemplar).firstArc q + k) f' ↔ f' = f) ∧
          mapperPass ((logLattice comp (weighted F w) exemplar).firstArc q) (fun _ => 0) s.arcs
            ((logLattice comp (weighted F w) exemplar).firstArc q + k) = f := by
  have hshape := shape_lattices h.composed w
  have hfirst (q : ℕ) : (logLattice comp (weighted F w) exemplar).firstArc q =
      (featureLattice comp (mapToFeatureArcs F false) exemplar).firstArc q := by
    have heq := congrArg (fun G => VectorFst.firstArc G q) hshape
    simpa only [VectorFst.firstArc, VectorFst.shape, VectorFst.map, arcsBefore_map] using heq
  refine ⟨hshape, fun q s hs k hk => ?_⟩
  have hb := List.getElem?_eq_getElem hk
  obtain ⟨a, ha, hweight⟩ := exists_origin_arc h.composed hs hb
  have htraversed := h.traversed?_eq ha
  obtain ⟨-, -, -, -, -, -, hlt⟩ := h.origin ha
  refine ⟨_, hlt, fun f' => ?_, ?_⟩
  · rw [hfirst, traverses_iff, htraversed, Option.some.injEq, eq_comm]
  · rw [mapperPass_eq _ hb, hweight, h.decode ha]

theorem arc_identity_twoArcs :
    ∃ s, (featureLattice composeParallel (mapToFeatureArcs twoArcs false)
        (oneSymbol, oneSymbol)).states[0]? = some s ∧
      ∃ f < twoArcs.numArcs,
        (∀ f', Traverses composeParallel twoArcs (oneSymbol, oneSymbol) 1 f' ↔ f' = f) ∧
        mapperPass 0 (fun _ => 0) s.arcs 1 = f :=
  ⟨_, rfl, (arc_identity exemplar_twoArcs.toComposable fun _ => 1).2 0 _ rfl 1 Nat.one_lt_two⟩

end StochasticEdit.Trainer
